import DeviceAccess.Lexpath

/-!
# Lexical paths in bytes (`src/lexpath.rs`)

`clean` reads the bytes of the text by their positions, slices the text where an element ends and
cuts its output where an element began. A slice or a cut inside a character panics (`none`). Here it
is in bytes, and on the UTF-8 of every text it does what `Lexpath.clean` does on the characters
(`cleanBytes_utf8`): the positions it uses are always between two characters.
-/

namespace Sda
namespace Lexpath

/-! ## The source -/

def separator : UInt8 := 47

def dotByte : UInt8 := 46

/-- `str::is_char_boundary`. -/
def isCharBoundary (text : List UInt8) (index : Nat) : Bool :=
  index == 0 ||
    match text[index]? with
    | none => index == text.length
    | some byte => byte.toNat < 128 || 192 ≤ byte.toNat

/-- The part of a text from one position to another. -/
def slice (text : List UInt8) (start stop : Nat) : Option (List UInt8) :=
  if start ≤ stop && isCharBoundary text start && isCharBoundary text stop then
    some ((text.take stop).drop start)
  else none

/-- `String::truncate`. -/
def truncate (text : List UInt8) (length : Nat) : Option (List UInt8) :=
  if text.length < length then some text
  else if isCharBoundary text length then some (text.take length)
  else none

/-- Where the output is cut for a `..`: back from `write` to a separator, not below `dotdot`. -/
def cutBack (out : List UInt8) (dotdot : Nat) : Nat → Option Nat
  | 0 => some 0
  | write + 1 =>
    if dotdot < write + 1 then
      match out[write + 1]? with
      | none => none
      | some byte => if byte != separator then cutBack out dotdot write else some (write + 1)
    else some (write + 1)

/-- The loop of `clean`, with a bound for its rounds. -/
def cleanFrom (rooted : Bool) (bytes : List UInt8) :
    Nat → Nat → List UInt8 → Nat → Option (List UInt8)
  | 0, _, _, _ => none
  | fuel + 1, read, out, dotdot =>
    if bytes.length ≤ read then some out
    else
      let at' := fun offset => bytes[read + offset]?
      let endsElement := fun offset => at' offset == none || at' offset == some separator
      if at' 0 == some separator || (at' 0 == some dotByte && endsElement 1) then
        cleanFrom rooted bytes fuel (read + 1) out dotdot
      else if at' 0 == some dotByte && at' 1 == some dotByte && endsElement 2 then
        if dotdot < out.length then
          (cutBack out dotdot (out.length - 1)).bind fun write =>
            (truncate out write).bind fun out => cleanFrom rooted bytes fuel (read + 2) out dotdot
        else if !rooted then
          let out := (if out.isEmpty then out else out ++ [separator]) ++ [dotByte, dotByte]
          cleanFrom rooted bytes fuel (read + 2) out out.length
        else cleanFrom rooted bytes fuel (read + 2) out dotdot
      else
        let out :=
          if (rooted && out.length != 1) || (!rooted && !out.isEmpty) then out ++ [separator]
          else out
        let stop := ((bytes.drop read).idxOf? separator).elim bytes.length (read + ·)
        (slice bytes read stop).bind fun element =>
          cleanFrom rooted bytes fuel stop (out ++ element) dotdot

/-- `clean`. Every round reads a byte. -/
def cleanBytes (bytes : List UInt8) : Option (List UInt8) :=
  if bytes.isEmpty then some [dotByte]
  else
    let rooted := bytes.head? == some separator
    let out := if rooted then cleanFrom true bytes (bytes.length + 1) 1 [separator] 1
      else cleanFrom false bytes (bytes.length + 1) 0 [] 0
    out.map fun out => if out.isEmpty then [dotByte] else out

/-- `join`. -/
def joinBytes (elements : List (List UInt8)) : Option (List UInt8) :=
  let joined := elements.filter fun element => !element.isEmpty
  if joined.isEmpty then some [] else cleanBytes ([separator].intercalate joined)

/-! ## The UTF-8 of a text -/

/-- The bytes of a text. -/
def utf8 (path : Path) : List UInt8 := path.flatMap String.utf8EncodeChar

@[simp] theorem utf8_nil : utf8 [] = [] := rfl

@[simp] theorem utf8_cons (c : Char) (path : Path) :
    utf8 (c :: path) = String.utf8EncodeChar c ++ utf8 path :=
  List.flatMap_cons

@[simp] theorem utf8_append (path more : Path) : utf8 (path ++ more) = utf8 path ++ utf8 more :=
  List.flatMap_append

@[simp] theorem encode_sep : String.utf8EncodeChar '/' = [separator] := rfl

@[simp] theorem encode_dot : String.utf8EncodeChar '.' = [dotByte] := rfl

/-- A character is one byte below 128, or a first byte from 192 on and bytes from 128 on. -/
theorem encode_cases (c : Char) :
    (c.toNat < 128 ∧ String.utf8EncodeChar c = [UInt8.ofNat c.toNat]) ∨
      128 ≤ c.toNat ∧ ∃ first rest, String.utf8EncodeChar c = first :: rest ∧ 192 ≤ first.toNat ∧
        ∀ byte ∈ rest, 128 ≤ byte.toNat := by
  have hbyte : ∀ n : Nat, n < 256 → (UInt8.ofNat n).toNat = n :=
    fun n hn => UInt8.toNat_ofNat_of_lt' hn
  have hlater : ∀ n : Nat, 128 ≤ (UInt8.ofNat (n % 64 + 128)).toNat := fun n => by
    rw [hbyte _ (by omega)]
    omega
  fun_cases String.utf8EncodeChar c with
  | case1 v h => exact .inl ⟨Nat.lt_succ_of_le h, rfl⟩
  | case2 v h _ =>
    refine .inr ⟨by simp only [Char.toNat]; omega, _, _, rfl, by rw [hbyte _ (by omega)]; omega, ?_⟩
    simp only [List.forall_mem_cons, hlater, true_and]
    nofun
  | case3 v h _ =>
    refine .inr ⟨by simp only [Char.toNat]; omega, _, _, rfl, by rw [hbyte _ (by omega)]; omega, ?_⟩
    simp only [List.forall_mem_cons, hlater, true_and]
    nofun
  | case4 v h _ =>
    refine .inr ⟨by simp only [Char.toNat]; omega, _, _, rfl, by rw [hbyte _ (by omega)]; omega, ?_⟩
    simp only [List.forall_mem_cons, hlater, true_and]
    nofun

section Utf8

variable {c : Char} {path rest out : Path}

/-- The first byte of a character below 128 is not the first byte of another one. -/
theorem encode_head {a : Char} (ha : a.toNat < 128) :
    (String.utf8EncodeChar c).head? = some (UInt8.ofNat a.toNat) ↔ c = a := by
  have hbyte : (UInt8.ofNat a.toNat).toNat = a.toNat :=
    UInt8.toNat_ofNat_of_lt' (Nat.lt_trans ha (by decide))
  rcases encode_cases c with ⟨hsmall, heq⟩ | ⟨hbig, first, rest, heq, hfirst, -⟩
  · have hbyte' : (UInt8.ofNat c.toNat).toNat = c.toNat :=
      UInt8.toNat_ofNat_of_lt' (Nat.lt_trans hsmall (by decide))
    rw [heq, List.head?_cons, Option.some_inj]
    refine ⟨fun h => Char.toNat_inj.mp ?_, fun h => by rw [h]⟩
    rw [← hbyte, ← hbyte', h]
  · rw [heq, List.head?_cons, Option.some_inj]
    refine iff_of_false (fun h => ?_) fun h => ?_
    · rw [h, hbyte] at hfirst
      omega
    · rw [h] at hbig
      omega

theorem encode_ne_nil (c : Char) : String.utf8EncodeChar c ≠ [] := by
  rcases encode_cases c with ⟨-, heq⟩ | ⟨-, first, rest, heq, -⟩ <;>
  · rw [heq]
    exact List.cons_ne_nil _ _

theorem encode_length_pos (c : Char) : 0 < (String.utf8EncodeChar c).length :=
  List.length_pos_iff.mpr (encode_ne_nil c)

theorem sep_not_mem_encode (h : c ≠ '/') : separator ∉ String.utf8EncodeChar c := by
  rcases encode_cases c with ⟨hsmall, heq⟩ | ⟨-, first, rest, heq, hfirst, hrest⟩
  · intro hmem
    rw [heq] at hmem
    refine h ((encode_head (by decide)).mp ?_)
    rw [heq, ← List.mem_singleton.mp hmem]
    rfl
  · rw [heq]
    intro hmem
    have hsep : separator.toNat = 47 := rfl
    rcases List.mem_cons.mp hmem with heq | hmem
    · rw [← heq] at hfirst
      omega
    · have := hrest _ hmem
      omega

private theorem sep_not_mem_utf8 (h : '/' ∉ path) : separator ∉ utf8 path := by
  intro hmem
  obtain ⟨c, hc, hmem⟩ := List.mem_flatMap.mp hmem
  exact sep_not_mem_encode (fun heq => h (heq ▸ hc)) hmem

theorem utf8_head : (utf8 (c :: rest))[0]? = (String.utf8EncodeChar c).head? := by
  obtain ⟨first, more, heq⟩ := List.exists_cons_of_ne_nil (encode_ne_nil c)
  rw [utf8_cons, heq]
  rfl

theorem utf8_head_eq {a : Char} (ha : a.toNat < 128) :
    ((utf8 path)[0]? == some (UInt8.ofNat a.toNat)) = (path.head? == some a) := by
  cases path with
  | nil => rfl
  | cons c rest =>
    rw [utf8_head, Bool.eq_iff_iff, beq_iff_eq, beq_iff_eq, encode_head ha, List.head?_cons,
      Option.some_inj]

theorem utf8_eq_nil : utf8 path = [] ↔ path = [] := by
  cases path with
  | nil => exact iff_of_true rfl rfl
  | cons c rest => simp [encode_ne_nil c]

theorem length_le_utf8 (path : Path) : path.length ≤ (utf8 path).length := by
  induction path with
  | nil => exact le_rfl
  | cons c rest ih =>
    have := encode_length_pos c
    rw [utf8_cons, List.length_append, List.length_cons]
    omega

/-- The positions before and after the text of some characters are between characters. -/
theorem isCharBoundary_utf8 (front back : Path) :
    isCharBoundary (utf8 (front ++ back)) (utf8 front).length = true := by
  rw [isCharBoundary, utf8_append, List.getElem?_append_right (Nat.le_refl _), Nat.sub_self]
  cases back with
  | nil => simp
  | cons c rest =>
    rw [utf8_head]
    rcases encode_cases c with ⟨hsmall, heq⟩ | ⟨-, first, rest, heq, hfirst, -⟩
    · have hbyte : (UInt8.ofNat c.toNat).toNat = c.toNat :=
        UInt8.toNat_ofNat_of_lt' (Nat.lt_trans hsmall (by decide))
      rw [heq, List.head?_cons]
      simp [hbyte, hsmall]
    · rw [heq, List.head?_cons]
      simp [hfirst]

theorem slice_utf8 (front element back : Path) :
    slice (utf8 (front ++ element ++ back)) (utf8 front).length (utf8 (front ++ element)).length =
      some (utf8 element) := by
  have hstart := isCharBoundary_utf8 front (element ++ back)
  rw [← List.append_assoc] at hstart
  have hstop := isCharBoundary_utf8 (front ++ element) back
  have hle : (utf8 front).length ≤ (utf8 (front ++ element)).length := by
    rw [utf8_append, List.length_append]
    exact Nat.le_add_right _ _
  rw [slice, hstart, hstop, decide_eq_true hle, if_pos (by rfl),
    utf8_append (front ++ element) back, List.take_left, utf8_append, List.drop_left]

private theorem truncate_utf8 (front back : Path) :
    truncate (utf8 (front ++ back)) (utf8 front).length = some (utf8 front) := by
  rw [truncate, if_neg (by simp), if_pos (isCharBoundary_utf8 front back), utf8_append,
    List.take_left]

/-- Where a part of the output ends in bytes tells where it ends in characters. -/
theorem utf8_take_lt (d : Nat) (out : Path) : (utf8 (out.take d)).length < (utf8 out).length ↔
    d < out.length := by
  have hlength : (utf8 out).length = (utf8 (out.take d)).length + (utf8 (out.drop d)).length := by
    rw [← List.length_append, ← utf8_append, List.take_append_drop]
  have hdrop : (utf8 (out.drop d)).length = 0 ↔ out.length ≤ d := by
    rw [List.length_eq_zero_iff, utf8_eq_nil, List.drop_eq_nil_iff]
  omega

/-! ## Cutting back -/

variable {bytes : List UInt8} {stop lo hi : Nat}

/-- Nothing but a separator stops the way back. -/
theorem cutBack_skip (hlo : stop ≤ lo) (hle : lo ≤ hi)
    (hskip : ∀ i, lo < i → i ≤ hi → ∃ byte, bytes[i]? = some byte ∧ byte ≠ separator) :
    cutBack bytes stop hi = cutBack bytes stop lo := by
  induction hi, hle using Nat.le_induction with
  | base => rfl
  | succ hi hle ih =>
    obtain ⟨byte, hget, hne⟩ := hskip (hi + 1) (Nat.lt_succ_of_le hle) (Nat.le_refl _)
    rw [cutBack, if_pos (by omega), hget]
    simp only [bne_iff_ne.mpr hne, if_true]
    exact ih fun i hlo hi => hskip i hlo (Nat.le_succ_of_le hi)

private theorem cutBack_stop (stop : Nat) : cutBack bytes stop stop = some stop := by
  cases stop with
  | zero => rfl
  | succ stop => rw [cutBack, if_neg (Nat.lt_irrefl _)]

private theorem cutBack_sep (hlt : stop < lo) (h : bytes[lo]? = some separator) :
    cutBack bytes stop lo = some lo := by
  obtain ⟨lo, rfl⟩ : ∃ n, lo = n + 1 := ⟨lo - 1, by omega⟩
  rw [cutBack, if_pos hlt, h]
  simp

/-- A byte of a character of the output, but its first one unless the character is not a separator.
-/
theorem utf8_byte (front back : Path) {i : Nat} (hc : c ≠ '/') (hlo : (utf8 front).length ≤ i)
    (hhi : i < (utf8 (front ++ [c])).length) :
    ∃ byte, (utf8 (front ++ c :: back))[i]? = some byte ∧ byte ≠ separator := by
  simp only [utf8_append, utf8_cons, utf8_nil, List.append_nil, List.length_append] at hhi
  have hlt : i - (utf8 front).length < (String.utf8EncodeChar c).length := by omega
  refine ⟨(String.utf8EncodeChar c)[i - (utf8 front).length], ?_, fun heq => ?_⟩
  · rw [utf8_append, utf8_cons, List.getElem?_append_right hlo, List.getElem?_append_left hlt,
      List.getElem?_eq_getElem hlt]
  · exact sep_not_mem_encode hc (heq ▸ List.getElem_mem hlt)

/-- From the first byte of a character to its last one. -/
theorem utf8_later_byte (front back : Path) {i : Nat} (hlo : (utf8 front).length < i)
    (hhi : i < (utf8 (front ++ [c])).length) :
    ∃ byte, (utf8 (front ++ c :: back))[i]? = some byte ∧ byte ≠ separator := by
  by_cases hc : c = '/'
  · subst hc
    simp at hhi
    omega
  · exact utf8_byte front back hc hlo.le hhi

theorem cutAt_stop (out : Path) (d : Nat) : cutAt out d d = d := by
  cases d with
  | zero => rfl
  | succ d => simp [cutAt]

theorem cutAt_ge {d write : Nat} (h : d ≤ write) : d ≤ cutAt out d write := by
  induction write, h using Nat.le_induction with
  | base => exact (cutAt_stop out d).ge
  | succ write hle ih =>
    rw [cutAt]
    split
    · exact ih
    · omega

/-- The way back in bytes, from a byte of a character after `front`, goes where the way back in
characters goes. -/
theorem cutBack_utf8 {d position : Nat} (front back : Path) (hd : d ≤ front.length)
    (hlo : (utf8 front).length ≤ position) (hhi : position < (utf8 (front ++ [c])).length) :
    cutBack (utf8 (front ++ c :: back)) (utf8 (front.take d)).length position =
      some (utf8
        ((front ++ c :: back).take (cutAt (front ++ c :: back) d front.length))).length := by
  induction front using List.reverseRecOn generalizing c back position with
  | nil =>
    obtain rfl := Nat.le_zero.mp hd
    refine (cutBack_skip (Nat.le_refl _) hlo fun i hi hle => ?_).trans (cutBack_stop _)
    exact utf8_later_byte [] back hi (Nat.lt_of_le_of_lt hle hhi)
  | append_singleton front last ih =>
    rcases Nat.lt_or_eq_of_le hd with hlt | rfl
    · rw [List.length_append, List.length_singleton] at hlt
      have htake : (front ++ [last]).take d = front.take d :=
        List.take_append_of_le_length (by omega)
      have hstop : (utf8 (front.take d)).length < (utf8 (front ++ [last])).length := by
        rw [← htake]
        exact (utf8_take_lt d _).mpr (by simpa using hlt)
      have hget : (front ++ [last] ++ c :: back)[front.length + 1]? = some c := by simp
      have hwrite : (front ++ [last]).length = front.length + 1 := by simp
      rw [htake, hwrite, cutAt, decide_eq_true hlt, hget, Bool.true_and]
      by_cases hc : c = '/'
      · -- The separator is one byte, and the way back ends there.
        subst hc
        obtain rfl : (utf8 (front ++ [last])).length = position := by
          simp only [utf8_append, utf8_cons, utf8_nil, encode_sep, List.append_nil,
            List.length_append, List.length_singleton] at hlo hhi ⊢
          omega
        have hsep : (utf8 (front ++ [last] ++ '/' :: back))[(utf8 (front ++ [last])).length]? =
            some separator := by
          rw [utf8_append, List.getElem?_append_right (Nat.le_refl _), Nat.sub_self, utf8_head]
          rfl
        rw [cutBack_sep hstop hsep, if_neg (by simp), ← hwrite, List.take_left]
      · have hbefore : (utf8 (front ++ [last])).length - 1 < (utf8 (front ++ [last])).length := by
          omega
        have hskip : cutBack (utf8 (front ++ [last] ++ c :: back))
          (utf8 (front.take d)).length position =
            cutBack (utf8 (front ++ [last] ++ c :: back)) (utf8 (front.take d)).length
              ((utf8 (front ++ [last])).length - 1) := by
          refine cutBack_skip (by omega) (by omega) fun i hi hle => ?_
          exact utf8_byte _ back hc (by omega) (by omega)
        have hfront : (utf8 front).length ≤ (utf8 (front ++ [last])).length - 1 := by
          have := encode_length_pos last
          simp only [utf8_append, utf8_cons, utf8_nil, List.append_nil, List.length_append]
          omega
        rw [hskip, if_pos (by simpa using hc), List.append_assoc, List.singleton_append]
        exact ih (c :: back) (by omega) hfront hbefore
    · rw [cutAt_stop, List.take_length, List.take_left]
      refine (cutBack_skip (Nat.le_refl _) hlo fun i hi hle => ?_).trans (cutBack_stop _)
      exact utf8_later_byte _ back hi (Nat.lt_of_le_of_lt hle hhi)

/-- The output is cut in bytes where it is cut in characters. -/
theorem cut_utf8 {d : Nat} (h : d < out.length) :
    (cutBack (utf8 out) (utf8 (out.take d)).length ((utf8 out).length - 1)).bind
    (truncate (utf8 out)) =
      some (utf8 (out.take (cutAt out d (out.length - 1)))) := by
  rcases List.eq_nil_or_concat out with rfl | ⟨front, last, rfl⟩
  · cases h
  rw [List.concat_eq_append] at h ⊢
  have hd : d ≤ front.length := by
    rw [List.length_append, List.length_singleton] at h
    omega
  have hlast := encode_length_pos last
  have hlength : (utf8 (front ++ [last])).length = (utf8 front).length +
      (String.utf8EncodeChar last).length := by
    simp
  have hcut : cutBack (utf8 (front ++ [last])) (utf8 (front.take d)).length
    ((utf8 (front ++ [last])).length - 1) =
      some _ := cutBack_utf8 front [] hd (by omega) (by omega)
  rw [List.take_append_of_le_length hd, hcut, Option.bind_some]
  simp only [List.length_append, List.length_singleton, Nat.add_sub_cancel]
  have hsplit := List.take_append_drop (cutAt (front ++ [last]) d front.length) (front ++ [last])
  have htruncate := truncate_utf8 ((front ++ [last]).take (cutAt (front ++ [last]) d front.length))
    ((front ++ [last]).drop (cutAt (front ++ [last]) d front.length))
  rwa [hsplit] at htruncate

end Utf8

/-! ## The loop -/

section Rounds

variable {rooted : Bool} {c : Char} {rest tail : Path}

theorem endsElement_utf8 (rest : Path) :
    ((utf8 rest)[0]? == none || (utf8 rest)[0]? == some separator) = endsElement rest := by
  cases rest with
  | nil => rfl
  | cons c rest =>
    have hsep : ((utf8 (c :: rest))[0]? == some separator) = _ :=
      @utf8_head_eq (c :: rest) '/' (by decide)
    obtain ⟨first, more, hcons⟩ := List.exists_cons_of_ne_nil (encode_ne_nil c)
    rw [hsep, utf8_head, hcons, endsElement, List.head?_cons, List.head?_cons]
    rfl

/-- An empty or a `.` element is next. -/
theorem skips_utf8 (c : Char) (rest : Path) :
    ((utf8 (c :: rest))[0]? == some separator || ((utf8 (c :: rest))[0]? == some dotByte &&
        ((utf8 (c :: rest))[1]? == none || (utf8 (c :: rest))[1]? == some separator))) =
      (c == '/' || (c == '.' && endsElement rest)) := by
  have hsep : ((utf8 (c :: rest))[0]? == some separator) = _ :=
    @utf8_head_eq (c :: rest) '/' (by decide)
  have hdot : ((utf8 (c :: rest))[0]? == some dotByte) = _ :=
    @utf8_head_eq (c :: rest) '.' (by decide)
  rw [hsep, hdot, List.head?_cons]
  by_cases hc : c = '.'
  · subst hc
    have hnext : (utf8 ('.' :: rest))[1]? = (utf8 rest)[0]? := rfl
    rw [hnext, endsElement_utf8]
    rfl
  · have hbeq : (some c == some '.') = false := by simpa using hc
    have hbeq' : (c == '.') = false := by simpa using hc
    rw [hbeq, hbeq', Bool.false_and, Bool.false_and]
    rfl

/-- A `..` element is next. -/
theorem goesUp_utf8 (c : Char) (rest : Path) :
    ((utf8 (c :: rest))[0]? == some dotByte && (utf8 (c :: rest))[1]? == some dotByte &&
        ((utf8 (c :: rest))[2]? == none || (utf8 (c :: rest))[2]? == some separator)) =
      (c == '.' && rest.head? == some '.' && endsElement rest.tail) := by
  have hdot : ((utf8 (c :: rest))[0]? == some dotByte) = _ :=
    @utf8_head_eq (c :: rest) '.' (by decide)
  rw [hdot, List.head?_cons]
  by_cases hc : c = '.'
  · subst hc
    have hnext : (utf8 ('.' :: rest))[1]? = (utf8 rest)[0]? := rfl
    have hdot' : ((utf8 rest)[0]? == some dotByte) = _ := @utf8_head_eq rest '.' (by decide)
    rw [hnext, hdot']
    cases hhead : (rest.head? == some '.') with
    | false => rfl
    | true =>
      obtain ⟨tail, rfl⟩ := List.head?_eq_some_iff.mp (beq_iff_eq.mp hhead)
      have hnext' : (utf8 ('.' :: '.' :: tail))[2]? = (utf8 tail)[0]? := rfl
      rw [hnext', endsElement_utf8]
      rfl
  · have hbeq : (some c == some '.') = false := by simpa using hc
    have hbeq' : (c == '.') = false := by simpa using hc
    rw [hbeq, hbeq']
    rfl

/-- Where the next element ends. -/
theorem stop_utf8 (done rest : Path) :
    (((utf8 (done ++ rest)).drop (utf8 done).length).idxOf? separator).elim
    (utf8 (done ++ rest)).length
        ((utf8 done).length + ·) = (utf8 (done ++ rest.takeWhile (· != '/'))).length := by
  have hno := sep_not_mem_utf8 (no_sep_takeWhile rest)
  have hsplit := List.takeWhile_append_dropWhile (p := (· != '/')) (l := rest)
  rw [utf8_append, List.drop_left, utf8_append]
  rcases dropWhile_cases rest with hnil | ⟨tail, htail⟩
  · rw [hnil, List.append_nil] at hsplit
    rw [hsplit] at hno ⊢
    rw [List.idxOf?_eq_none_iff.mpr hno]
    rfl
  · rw [htail] at hsplit
    have hbytes : utf8 rest = utf8 (rest.takeWhile (· != '/')) ++ separator :: utf8 tail := by
      conv_lhs => rw [← hsplit]
      rw [utf8_append, utf8_cons, encode_sep, List.singleton_append]
    have hindex :
        (utf8 rest).idxOf? separator = some (utf8 (rest.takeWhile (· != '/'))).length := by
      rw [hbytes]
      refine List.idxOf?_eq_some_iff.mpr ⟨by simp, by simp, fun j hj heq => hno ?_⟩
      rw [List.getElem_append_left hj] at heq
      exact heq ▸ List.getElem_mem hj
    rw [hindex]
    exact List.length_append.symm

/-- A round of the loop, by the characters it reads. -/
theorem cleanFrom_round (done : Path) (out : List UInt8) (rounds dotdot : Nat) :
    cleanFrom rooted (utf8 (done ++ c :: rest)) (rounds + 1) (utf8 done).length out dotdot =
      if c == '/' || (c == '.' && endsElement rest) then
        cleanFrom rooted (utf8 (done ++ c :: rest)) rounds ((utf8 done).length + 1) out dotdot
      else if c == '.' && rest.head? == some '.' && endsElement rest.tail then
        if dotdot < out.length then
          ((cutBack out dotdot (out.length - 1)).bind (truncate out)).bind fun out =>
            cleanFrom rooted (utf8 (done ++ c :: rest)) rounds ((utf8 done).length + 2) out dotdot
        else if !rooted then
          cleanFrom rooted (utf8 (done ++ c :: rest)) rounds ((utf8 done).length + 2)
            ((if out.isEmpty then out else out ++ [separator]) ++ [dotByte, dotByte])
            ((if out.isEmpty then out else out ++ [separator]) ++ [dotByte, dotByte]).length
        else cleanFrom rooted (utf8 (done ++ c :: rest)) rounds ((utf8 done).length + 2) out dotdot
      else
        cleanFrom rooted (utf8 (done ++ c :: rest)) rounds
          (utf8 (done ++ (c :: rest).takeWhile (· != '/'))).length
          ((if (rooted && out.length != 1) || (!rooted && !out.isEmpty) then out ++ [separator]
            else out) ++ utf8 ((c :: rest).takeWhile (· != '/'))) dotdot := by
  have hat : ∀ offset, (utf8 (done ++ c :: rest))[(utf8 done).length + offset]? =
      (utf8 (c :: rest))[offset]? :=
    fun offset => by rw [utf8_append, List.getElem?_append_right (Nat.le_add_right _ _),
      Nat.add_sub_cancel_left]
  have hmore : ¬ (utf8 (done ++ c :: rest)).length ≤ (utf8 done).length := by
    have := encode_length_pos c
    simp only [utf8_append, utf8_cons, List.length_append]
    omega
  have hslice := slice_utf8 done ((c :: rest).takeWhile (· != '/'))
    ((c :: rest).dropWhile (· != '/'))
  rw [List.append_assoc, List.takeWhile_append_dropWhile] at hslice
  rw [cleanFrom, if_neg hmore]
  simp only [hat]
  rw [skips_utf8, goesUp_utf8, stop_utf8, hslice, Option.bind_some, Option.bind_assoc]

/-- The output in bytes has one byte when it has one character: a rooted one begins with the
separator. -/
theorem sepNeeded_utf8 {out : Path} (hroot : rooted = true → out.head? = some '/') :
    ((rooted && (utf8 out).length != 1) || (!rooted && !(utf8 out).isEmpty)) =
      ((rooted && out.length != 1) || (!rooted && !out.isEmpty)) := by
  cases rooted with
  | true =>
    obtain ⟨rest, rfl⟩ := List.head?_eq_some_iff.mp (hroot rfl)
    cases rest with
    | nil => rfl
    | cons c rest =>
      have hbytes : (utf8 ('/' :: c :: rest)).length ≠ 1 := by
        have := encode_length_pos c
        simp only [utf8_cons, encode_sep, List.length_append, List.length_singleton]
        omega
      rw [bne_iff_ne.mpr hbytes]
      rfl
  | false =>
    cases out with
    | nil => rfl
    | cons c rest => simp [encode_ne_nil c]

private theorem goesUp_cases
    (h : (c == '.' && rest.head? == some '.' && endsElement rest.tail) = true) :
    ∃ tail, c = '.' ∧ rest = '.' :: tail := by
  simp only [Bool.and_eq_true, beq_iff_eq] at h
  obtain ⟨tail, rfl⟩ := List.head?_eq_some_iff.mp h.1.2
  exact ⟨tail, h.1.1, rfl⟩

private theorem done_up (done tail : Path) :
    done ++ Lexpath.dotdot ++ tail = done ++ '.' :: '.' :: tail := by
  rw [List.append_assoc]
  rfl

private theorem read_up (done : Path) :
    (utf8 (done ++ Lexpath.dotdot)).length = (utf8 done).length + 2 := by
  simp [Lexpath.dotdot]

/-- **The loop in bytes does what the loop in characters does.** -/
theorem cleanFrom_utf8 (rooted : Bool) (fuel : Nat) (rest out : Path) (d : Nat) :
    ∀ (done : Path) (rounds : Nat), rest.length ≤ fuel → rest.length < rounds → d ≤ out.length →
      (rooted = true → out.head? = some '/' ∧ 1 ≤ d) →
      cleanFrom rooted (utf8 (done ++ rest)) rounds (utf8 done).length (utf8 out)
      (utf8 (out.take d)).length =
        some (utf8 (cleanLoop rooted fuel rest out d)) := by
  have hend : ∀ (done : Path) (rounds : Nat) (out : List UInt8) (dotdot : Nat), 0 < rounds →
      cleanFrom rooted (utf8 (done ++ [])) rounds (utf8 done).length out dotdot = some out := by
    intro done rounds out dotdot hrounds
    obtain ⟨rounds, rfl⟩ : ∃ n, rounds = n + 1 := ⟨rounds - 1, by omega⟩
    rw [List.append_nil, cleanFrom, if_pos (Nat.le_refl _)]
  fun_induction cleanLoop rooted fuel rest out d with
  | case1 rest out d =>
    intro done rounds hfuel hrounds _ _
    obtain rfl := List.length_eq_zero_iff.mp (Nat.le_zero.mp hfuel)
    exact hend done rounds _ _ hrounds
  | case2 fuel out d =>
    intro done rounds _ hrounds _ _
    exact hend done rounds _ _ hrounds
  | case3 fuel c rest out d hskip ih =>
    intro done rounds hfuel hrounds hd hroot
    obtain ⟨rounds, rfl⟩ : ∃ n, rounds = n + 1 := ⟨rounds - 1, by omega⟩
    have hone : (utf8 (done ++ [c])).length = (utf8 done).length + 1 := by
      have hc : c = '/' ∨ c = '.' := by
        simp only [Bool.or_eq_true, Bool.and_eq_true, beq_iff_eq] at hskip
        exact hskip.imp_right And.left
      rcases hc with rfl | rfl <;> simp
    have hnext := ih (done ++ [c]) rounds (Nat.le_of_succ_le_succ hfuel)
      (Nat.lt_of_succ_lt_succ hrounds) hd hroot
    rw [List.append_assoc, List.singleton_append, hone] at hnext
    rw [cleanFrom_round, if_pos hskip, hnext]
  | case4 fuel c rest out d hskip hup hlt ih =>
    intro done rounds hfuel hrounds hd hroot
    obtain ⟨rounds, rfl⟩ : ∃ n, rounds = n + 1 := ⟨rounds - 1, by omega⟩
    obtain ⟨tail, rfl, rfl⟩ := goesUp_cases hup
    rw [List.length_cons, List.length_cons] at hfuel hrounds
    rw [List.tail_cons] at ih
    have hcut : d ≤ cutAt out d (out.length - 1) := cutAt_ge (Nat.le_pred_of_lt hlt)
    have hlength : d ≤ (out.take (cutAt out d (out.length - 1))).length := by
      rw [List.length_take]
      exact le_min hcut hd
    have htake : (out.take (cutAt out d (out.length - 1))).take d = out.take d := by
      rw [List.take_take, min_eq_left hcut]
    have hroot' : rooted = true → (out.take (cutAt out d (out.length - 1))).head? = some '/' ∧
        1 ≤ d := by
      intro h
      obtain ⟨hhead, hone⟩ := hroot h
      rw [List.head?_take, if_neg (by omega)]
      exact ⟨hhead, hone⟩
    have hnext := ih (done ++ Lexpath.dotdot) rounds (by omega) (by omega) hlength hroot'
    rw [htake] at hnext
    rw [cleanFrom_round, if_neg hskip, if_pos hup, if_pos ((utf8_take_lt d out).mpr hlt),
      cut_utf8 hlt, Option.bind_some]
    rwa [done_up, read_up] at hnext
  | case5 fuel c rest out d hskip hup hlt hrooted out' ih =>
    intro done rounds hfuel hrounds hd hroot
    obtain ⟨rounds, rfl⟩ : ∃ n, rounds = n + 1 := ⟨rounds - 1, by omega⟩
    obtain ⟨tail, rfl, rfl⟩ := goesUp_cases hup
    rw [List.length_cons, List.length_cons] at hfuel hrounds
    rw [List.tail_cons] at ih
    have hbytes : (if (utf8 out).isEmpty then utf8 out else utf8 out ++ [separator]) ++
        [dotByte, dotByte] = utf8 out' := by
      cases out with
      | nil => rfl
      | cons c rest => simp [out', encode_ne_nil c]
    have hnext := ih (done ++ Lexpath.dotdot) rounds (by omega) (by omega) (Nat.le_refl _)
      fun h => absurd hrooted (by rw [h]; exact Bool.false_ne_true)
    rw [List.take_length, done_up, read_up] at hnext
    rw [cleanFrom_round, if_neg hskip, if_pos hup, if_neg (mt (utf8_take_lt d out).mp hlt),
      if_pos hrooted, hbytes]
    exact hnext
  | case6 fuel c rest out d hskip hup hlt hrooted ih =>
    intro done rounds hfuel hrounds hd hroot
    obtain ⟨rounds, rfl⟩ : ∃ n, rounds = n + 1 := ⟨rounds - 1, by omega⟩
    obtain ⟨tail, rfl, rfl⟩ := goesUp_cases hup
    rw [List.length_cons, List.length_cons] at hfuel hrounds
    rw [List.tail_cons] at ih
    have hnext := ih (done ++ Lexpath.dotdot) rounds (by omega) (by omega) hd hroot
    rw [done_up, read_up] at hnext
    rw [cleanFrom_round, if_neg hskip, if_pos hup, if_neg (mt (utf8_take_lt d out).mp hlt),
      if_neg hrooted]
    exact hnext
  | case7 fuel c rest out d hskip hup out' ih =>
    intro done rounds hfuel hrounds hd hroot
    obtain ⟨rounds, rfl⟩ : ∃ n, rounds = n + 1 := ⟨rounds - 1, by omega⟩
    have hsplit := List.takeWhile_append_dropWhile (p := (· != '/')) (l := c :: rest)
    have hgrows : out' = out ∨ out' = out ++ ['/'] := by
      simp only [out']
      split
      · exact .inr rfl
      · exact .inl rfl
    have hfront : out <+: out' ++ (c :: rest).takeWhile (· != '/') := by
      rcases hgrows with heq | heq <;> rw [heq]
      · exact List.prefix_append _ _
      · rw [List.append_assoc]
        exact List.prefix_append _ _
    have htake : (out' ++ (c :: rest).takeWhile (· != '/')).take d = out.take d := by
      obtain ⟨more, hmore⟩ := hfront
      rw [← hmore, List.take_append_of_le_length hd]
    have hbytes : (if (rooted && (utf8 out).length != 1) || (!rooted && !(utf8 out).isEmpty)
        then utf8 out ++ [separator] else utf8 out) = utf8 out' := by
      rw [sepNeeded_utf8 fun h => (hroot h).1]
      simp only [out']
      split <;> simp
    have hshorter : ((c :: rest).dropWhile (· != '/')).length ≤ rest.length := by
      have hc : (c != '/') = true := by
        simp only [Bool.or_eq_true, not_or, beq_iff_eq] at hskip
        exact bne_iff_ne.mpr hskip.1
      rw [List.dropWhile_cons_of_pos (p := (· != '/')) hc]
      exact (List.dropWhile_sublist _).length_le
    rw [List.length_cons] at hfuel hrounds
    have hnext := ih (done ++ (c :: rest).takeWhile (· != '/')) rounds (by omega) (by omega)
      (hd.trans hfront.length_le) fun h => ?_
    · rw [htake, List.append_assoc, hsplit] at hnext
      rw [cleanFrom_round, if_neg hskip, if_neg hup, hbytes, ← utf8_append]
      exact hnext
    · obtain ⟨hhead, hone⟩ := hroot h
      obtain ⟨more, hmore⟩ := hfront
      obtain ⟨tail, rfl⟩ := List.head?_eq_some_iff.mp hhead
      rw [← hmore]
      exact ⟨rfl, hone⟩

end Rounds

/-! ## `clean` and `join` -/

/-- On the UTF-8 of a text, `clean` never slices inside a character, and gives the UTF-8 of the
clean text. -/
theorem cleanBytes_utf8 (path : Path) : cleanBytes (utf8 path) = some (utf8 (clean path)) := by
  have hresult : ∀ out : Path, (if (utf8 out).isEmpty then [dotByte] else utf8 out) =
      utf8 (if out.isEmpty then ['.'] else out) := by
    intro out
    cases out with
    | nil => rfl
    | cons c rest => simp [encode_ne_nil c]
  cases path with
  | nil => rfl
  | cons c rest =>
    have hsep : ((utf8 (c :: rest)).head? == some separator) = ((c :: rest).head? == some '/') := by
      rw [List.head?_eq_getElem?]
      exact @utf8_head_eq (c :: rest) '/' (by decide)
    have hlong := length_le_utf8 (c :: rest)
    rw [List.length_cons] at hlong
    rw [cleanBytes, clean, if_neg (by simp [encode_ne_nil c]), if_neg (by simp), hsep,
      List.head?_cons]
    dsimp only
    by_cases hc : c = '/'
    · subst hc
      have hloop : cleanFrom true (utf8 ('/' :: rest)) ((utf8 ('/' :: rest)).length + 1) 1
          [separator] 1 = _ :=
        cleanFrom_utf8 true ('/' :: rest).length rest ['/'] 1 ['/'] _ (Nat.le_succ _) (by omega)
          (Nat.le_refl _)
          fun _ => ⟨rfl, Nat.le_refl _⟩
      simp only [BEq.rfl, if_true, hloop, Option.map_some, hresult, List.tail_cons]
    · have hne : ¬ (some c == some '/') = true := by simpa using hc
      have hloop : cleanFrom false (utf8 (c :: rest)) ((utf8 (c :: rest)).length + 1) 0 [] 0 = _ :=
        cleanFrom_utf8 false (c :: rest).length (c :: rest) [] 0 [] _ (Nat.le_refl _)
          (by rw [List.length_cons]; omega)
          (Nat.le_refl _) fun hrooted => absurd hrooted Bool.false_ne_true
      simp only [hne, Bool.false_eq_true, if_false, hloop, Option.map_some, hresult]

theorem utf8_intercalate (parts : List Path) :
    utf8 (['/'].intercalate parts) = [separator].intercalate (parts.map utf8) := by
  induction parts with
  | nil => rfl
  | cons part parts ih =>
    cases parts with
    | nil => simp
    | cons next parts =>
      have hleft : ['/'].intercalate (part :: next :: parts) = part ++ ['/'] ++ ['/'].intercalate
          (next :: parts) :=
        List.intercalate_cons_of_ne_nil (List.cons_ne_nil _ _)
      have hright : [separator].intercalate ((part :: next :: parts).map utf8) =
          utf8 part ++ [separator] ++ [separator].intercalate ((next :: parts).map utf8) :=
        List.intercalate_cons_of_ne_nil (List.cons_ne_nil _ _)
      rw [hleft, hright, utf8_append, utf8_append, ih]
      rfl

theorem joinBytes_utf8 (parts : List Path) :
    joinBytes (parts.map utf8) = some (utf8 (join parts)) := by
  have hempty : ∀ part : Path, (utf8 part).isEmpty = part.isEmpty := fun part => by
    rw [Bool.eq_iff_iff, List.isEmpty_iff, List.isEmpty_iff, utf8_eq_nil]
  have hfilter : (parts.map utf8).filter (fun part => !part.isEmpty) =
      (parts.filter fun part => !part.isEmpty).map utf8 := by
    rw [List.filter_map]
    congr 1
    exact List.filter_congr fun part _ => by rw [Function.comp_apply, hempty]
  simp only [joinBytes, join, hfilter, List.isEmpty_map, ← utf8_intercalate, cleanBytes_utf8]
  split <;> rfl

/-- No element of a rooted path of names is `..`. -/
theorem dotdot_not_mem_text {names : List Path} (h : ∀ name ∈ names, IsName name) :
    dotdot ∉ elements (text true names) := by
  rw [text, Bool.true_or, if_pos rfl, render, if_pos rfl, elements_rooted]
  by_cases hne : names = []
  · rw [hne]
    decide
  · rw [elements_intercalate (fun name hname => (h name hname).no_sep) hne]
    intro hmem
    rcases List.mem_cons.mp hmem with heq | hmem
    · cases heq
    · exact (h _ hmem).not_dotdot rfl

/-- What `clean` and `join` do. -/
structure CleanSemantics (path : Path) (parts : List Path) : Prop where
  /-- No slice or cut is inside a character, and the result is the text of the stack of elements. -/
  stack : cleanBytes (utf8 path) = some (utf8 (text (path.head? == some '/') (normal path)))
  idempotent : (cleanBytes (utf8 path)).bind cleanBytes = cleanBytes (utf8 path)
  rooted : path.head? = some '/' → ∃ result : Path, cleanBytes (utf8 path) = some (utf8 result) ∧
    result.head? = some '/' ∧ dotdot ∉ elements result
  /-- Joining is cleaning the elements that are not empty, with separators between them. -/
  join : ['/'].intercalate (parts.filter fun part => !part.isEmpty) ≠ [] →
    joinBytes (parts.map utf8) = cleanBytes
      (utf8 (['/'].intercalate (parts.filter fun part => !part.isEmpty)))
  /-- Without any it is empty. -/
  joinNone : ['/'].intercalate (parts.filter fun part => !part.isEmpty) = [] →
    joinBytes (parts.map utf8) = some []

/-- **Lexical cleaning is the component-stack semantics**, for every text. -/
theorem clean_is_component_stack (path : Path) (parts : List Path) : CleanSemantics path parts := by
  have hparts : ['/'].intercalate (parts.filter fun part => !part.isEmpty) = [] ↔
      (parts.filter fun part => !part.isEmpty) = [] :=
    intercalate_eq_nil fun part hpart => by simpa using (List.mem_filter.mp hpart).2
  refine ⟨by rw [cleanBytes_utf8, clean_eq], ?_, fun hroot =>
    ⟨clean path, cleanBytes_utf8 path, ?_, ?_⟩, ?_, ?_⟩
  · rw [cleanBytes_utf8, Option.bind_some, cleanBytes_utf8, clean_clean]
  · rw [clean_rooted hroot]
    rfl
  · rw [clean_rooted hroot]
    exact dotdot_not_mem_text (normal_names hroot)
  · intro hne
    have hsome : ¬ (parts.filter fun part => !part.isEmpty).isEmpty = true := fun hnil =>
      hne (hparts.mpr (List.isEmpty_iff.mp hnil))
    rw [joinBytes_utf8, cleanBytes_utf8, Lexpath.join]
    simp only [hsome, Bool.false_eq_true, if_false]
  · intro hnil
    rw [joinBytes_utf8, Lexpath.join, hparts.mp hnil]
    rfl

end Lexpath
end Sda
