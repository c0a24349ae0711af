import Mathlib.Data.List.Induction
import Mathlib.Data.List.TakeWhile

/-!
# Lexical paths (`src/lexpath.rs`)

`clean` is a loop over the text with an output that grows and is cut back. What it computes is said
with elements: the text is split at the separators, the elements are put on a stack one after
another (`push`), and the stack is written out (`render`). `clean_eq` says that the two agree.

A path is a list of characters. The separator and the dot are characters of their own in every
encoding the source reads, so positions in characters stand for positions in bytes.
-/

namespace Sda

/-- A text that is read as a path. -/
abbrev Path := List Char

namespace Lexpath

/-! ## The source -/

/-- The element read so far ends here. -/
def endsElement : Path → Bool
  | [] => true
  | c :: _ => c == '/'

/-- Where the output is cut for a `..`: back from `write` to a separator, not below `dotdot`. -/
def cutAt (out : Path) (dotdot : Nat) : Nat → Nat
  | 0 => 0
  | write + 1 => if dotdot < write + 1 && out[write + 1]? != some '/' then cutAt out dotdot write
    else write + 1

/-- The loop of `clean`: what is still to be read, the output, and where a leading `..` run of it
ends. Every round reads a character, so `fuel` is the length of what is to be read. -/
def cleanLoop (rooted : Bool) : Nat → Path → Path → Nat → Path
  | 0, _, out, _ => out
  | _ + 1, [], out, _ => out
  | fuel + 1, c :: rest, out, dotdot =>
    if c == '/' || (c == '.' && endsElement rest) then cleanLoop rooted fuel rest out dotdot
    else if c == '.' && rest.head? == some '.' && endsElement rest.tail then
      if dotdot < out.length then
        cleanLoop rooted fuel rest.tail (out.take (cutAt out dotdot (out.length - 1))) dotdot
      else if !rooted then
        let out := (if out.isEmpty then out else out ++ ['/']) ++ ['.', '.']
        cleanLoop rooted fuel rest.tail out out.length
      else cleanLoop rooted fuel rest.tail out dotdot
    else
      let out :=
        if (rooted && out.length != 1) || (!rooted && !out.isEmpty) then out ++ ['/'] else out
      cleanLoop rooted fuel ((c :: rest).dropWhile (· != '/'))
        (out ++ (c :: rest).takeWhile (· != '/')) dotdot

/-- `clean`: the shortest path naming the same file by lexical processing. -/
def clean (path : Path) : Path :=
  if path.isEmpty then ['.']
  else
    let out := if path.head? == some '/' then cleanLoop true path.length path.tail ['/'] 1
      else cleanLoop false path.length path [] 0
    if out.isEmpty then ['.'] else out

/-- `join`: the non-empty elements joined with separators and cleaned. -/
def join (elements : List Path) : Path :=
  let joined := elements.filter fun element => !element.isEmpty
  if joined.isEmpty then [] else clean (['/'].intercalate joined)

/-- `base`: the last element, trailing separators dropped first. -/
def base (path : Path) : Path :=
  if path.isEmpty then ['.']
  else
    let trimmed := (path.reverse.dropWhile (· == '/')).reverse
    if trimmed.isEmpty then ['/'] else (trimmed.reverse.takeWhile (· != '/')).reverse

/-! ## Elements -/

def dot : Path := ['.']

def dotdot : Path := ['.', '.']

/-- Puts an element on the stack. -/
def push (rooted : Bool) (stack : List Path) (element : Path) : List Path :=
  if element = [] ∨ element = dot then stack
  else if element = dotdot then
    match stack.getLast? with
    | some last => if last = dotdot then stack ++ [dotdot] else stack.dropLast
    | none => if rooted then stack else [dotdot]
  else stack ++ [element]

def elements (path : Path) : List Path := path.splitOn '/'

def pushAll (rooted : Bool) (stack : List Path) (elements : List Path) : List Path :=
  elements.foldl (push rooted) stack

/-- The text of a stack. -/
def render (rooted : Bool) (stack : List Path) : Path :=
  if rooted then '/' :: ['/'].intercalate stack else ['/'].intercalate stack

/-- An element that names something. -/
structure IsName (element : Path) : Prop where
  nonempty : element ≠ []
  no_sep : '/' ∉ element
  not_dot : element ≠ dot
  not_dotdot : element ≠ dotdot

/-- A stack is a run of `..`, which a rooted path has none of, and names after it. -/
structure IsStack (rooted : Bool) (stack : List Path) (ups : Nat) (names : List Path) : Prop where
  eq : stack = List.replicate ups dotdot ++ names
  names : ∀ name ∈ names, IsName name
  rooted : rooted = true → ups = 0

/-! ## Texts of stacks -/

theorem intercalate_concat (stack : List Path) (element : Path) :
    ['/'].intercalate (stack ++ [element]) =
      (if stack = [] then [] else ['/'].intercalate stack ++ ['/']) ++ element := by
  induction stack with
  | nil => simp
  | cons first rest ih =>
    cases rest with
    | nil => simp [List.intercalate]
    | cons second rest =>
      rw [if_neg (List.cons_ne_nil _ _)] at ih ⊢
      rw [List.cons_append, List.cons_append, List.intercalate_cons_cons, ← List.cons_append, ih,
        List.intercalate_cons_cons]
      simp only [List.append_assoc]

theorem intercalate_eq_nil {stack : List Path} (h : ∀ element ∈ stack, element ≠ []) :
    ['/'].intercalate stack = [] ↔ stack = [] := by
  rcases List.eq_nil_or_concat stack with rfl | ⟨front, last, rfl⟩
  · simp
  · rw [List.concat_eq_append, intercalate_concat]
    have hlast := h last (by simp)
    simp [hlast]

namespace IsStack

variable {rooted : Bool} {stack names : List Path} {ups : Nat}

theorem element_ne_nil (h : IsStack rooted stack ups names) : ∀ element ∈ stack, element ≠ [] := by
  intro element he
  rw [h.eq] at he
  rcases List.mem_append.mp he with he | he
  · rw [List.eq_of_mem_replicate he]
    exact List.cons_ne_nil _ _
  · exact (h.names element he).nonempty

theorem element_no_sep (h : IsStack rooted stack ups names) : ∀ element ∈ stack, '/' ∉ element := by
  intro element he
  rw [h.eq] at he
  rcases List.mem_append.mp he with he | he
  · rw [List.eq_of_mem_replicate he]
    decide
  · exact (h.names element he).no_sep

theorem concat (h : IsStack rooted stack ups names) {name : Path} (hname : IsName name) :
    IsStack rooted (stack ++ [name]) ups (names ++ [name]) where
  eq := by rw [h.eq, List.append_assoc]
  names := by
    intro other ho
    rcases List.mem_append.mp ho with ho | ho
    · exact h.names other ho
    · rw [List.mem_singleton.mp ho]
      exact hname
  rooted := h.rooted

theorem dropLast {name : Path} (h : IsStack rooted stack ups (names ++ [name])) :
    IsStack rooted (List.replicate ups dotdot ++ names) ups names where
  eq := rfl
  names := fun other ho => h.names other (List.mem_append_left _ ho)
  rooted := h.rooted

theorem up (h : IsStack false stack ups []) : IsStack false (stack ++ [dotdot]) (ups + 1) [] where
  eq := by rw [h.eq, List.append_nil, List.append_nil, List.replicate_succ']
  names := nofun
  rooted := nofun

/-- The text is longer by the element and, between two elements, a separator. -/
theorem render_concat (h : IsStack rooted stack ups names) (element : Path) :
    render rooted (stack ++ [element]) =
      (if (rooted && (render rooted stack).length != 1) ||
        (!rooted && !(render rooted stack).isEmpty)
        then render rooted stack ++ ['/'] else render rooted stack) ++ element := by
  have hnil := intercalate_eq_nil h.element_ne_nil
  by_cases hstack : stack = []
  · subst hstack
    cases rooted <;> simp [render]
  · have htext : ['/'].intercalate stack ≠ [] := fun h => hstack (hnil.mp h)
    cases rooted <;> simp [render, intercalate_concat, hstack, htext]

end IsStack

/-! ## Cutting back -/

/-- Nothing but the separator in front of the last element is looked for. -/
theorem cutAt_eq {out : Path} {dotdot keep more : Nat} (hkeep : dotdot ≤ keep)
    (hstop : keep = dotdot ∨ out[keep]? = some '/')
    (hmore : ∀ i, keep < i → i ≤ keep + more → out[i]? ≠ some '/') :
    cutAt out dotdot (keep + more) = keep := by
  induction more with
  | zero =>
    cases keep with
    | zero => rfl
    | succ keep =>
      rw [Nat.add_zero, cutAt, if_neg]
      rcases hstop with hstop | hstop
      · simp [hstop]
      · simp [hstop]
  | succ more ih =>
    rw [← Nat.add_assoc, cutAt, if_pos, ih fun i h₁ h₂ => hmore i h₁ (by omega)]
    have := hmore (keep + more + 1) (by omega) (by omega)
    simp only [Bool.and_eq_true, decide_eq_true_eq, bne_iff_ne]
    exact ⟨by omega, this⟩

/-- Where the `..` run of a text ends. -/
def mark (rooted : Bool) (ups : Nat) : Nat :=
  (render rooted (List.replicate ups dotdot)).length

theorem render_length_le (rooted : Bool) (stack more : List Path) :
    (render rooted stack).length ≤ (render rooted (stack ++ more)).length := by
  induction more using List.reverseRecOn with
  | nil => exact Nat.le_of_eq (by rw [List.append_nil])
  | append_singleton more element ih =>
    refine Nat.le_trans ih ?_
    rw [← List.append_assoc]
    unfold render
    rw [intercalate_concat]
    by_cases h : stack ++ more = []
    · cases rooted <;> simp [h]
    · cases rooted <;> simp [h]

theorem cut_last {rooted : Bool} {stack names : List Path} {name : Path} {ups : Nat}
    (h : IsStack rooted stack ups (names ++ [name])) :
    mark rooted ups < (render rooted stack).length ∧
      (render rooted stack).take (cutAt (render rooted stack) (mark rooted ups)
        ((render rooted stack).length - 1)) = render rooted
        (List.replicate ups dotdot ++ names) := by
  have hname := h.names name (by simp)
  have hle : mark rooted ups ≤ _ := render_length_le rooted (List.replicate ups dotdot) names
  have hstack : stack = (List.replicate ups dotdot ++ names) ++ [name] := by
    rw [h.eq, List.append_assoc]
  rw [hstack, h.dropLast.render_concat name]
  have hfirst : names = [] ∨
    ((rooted && (render rooted (List.replicate ups dotdot ++ names)).length != 1) ||
      (!rooted && !(render rooted (List.replicate ups dotdot ++ names)).isEmpty)) = true := by
    by_cases hnames : names = []
    · exact .inl hnames
    · have htext : ['/'].intercalate (List.replicate ups dotdot ++ names) ≠ [] := fun h' =>
        hnames (List.append_eq_nil_iff.mp ((intercalate_eq_nil h.dropLast.element_ne_nil).mp h')).2
      refine .inr ?_
      cases rooted <;> simp [render, htext]
  generalize hbase : render rooted (List.replicate ups dotdot ++ names) = base at *
  -- In front of the name there is a separator, or nothing but the run.
  have hcut : ∀ sep : Path, (sep = [] ∧ names = [] ∨ sep = ['/']) →
      mark rooted ups < (base ++ sep ++ name).length ∧ (base ++ sep ++ name).take
        (cutAt (base ++ sep ++ name) (mark rooted ups) ((base ++ sep ++ name).length - 1)) =
          base := by
    intro sep hsep
    have hpos : 0 < name.length := List.length_pos_iff.mpr hname.nonempty
    have hlen : (base ++ sep ++ name).length - 1 = base.length +
        (sep.length + name.length - 1) := by
      simp only [List.length_append]
      omega
    refine ⟨?_, ?_⟩
    · simp only [List.length_append]
      omega
    · rw [hlen, cutAt_eq hle]
      · rw [List.append_assoc, List.take_left]
      · rcases hsep with ⟨-, rfl⟩ | rfl
        · left
          rw [← hbase, List.append_nil]
          rfl
        · right
          simp
      · intro i h₁ h₂ hi
        have hmem : '/' ∈ name := by
          rw [List.append_assoc, List.getElem?_append_right (by omega)] at hi
          rcases hsep with ⟨rfl, -⟩ | rfl
          · exact List.mem_of_getElem? hi
          · rw [List.getElem?_append_right (by simp only [List.length_singleton]; omega)] at hi
            exact List.mem_of_getElem? hi
        exact hname.no_sep hmem
  split
  next => exact hcut ['/'] (.inr rfl)
  next hno =>
    have := hcut [] (.inl ⟨rfl, hfirst.resolve_right hno⟩)
    rwa [List.append_nil] at this

/-! ## The loop -/

theorem dropWhile_cases (path : Path) : path.dropWhile (· != '/') = [] ∨
    ∃ rest, path.dropWhile (· != '/') = '/' :: rest := by
  induction path with
  | nil => exact .inl rfl
  | cons c rest ih =>
    by_cases hc : c = '/'
    · exact .inr ⟨rest, by rw [hc]; rfl⟩
    · rw [List.dropWhile_cons_of_pos (by simpa using hc)]
      exact ih

theorem no_sep_takeWhile (path : Path) : '/' ∉ path.takeWhile (· != '/') := fun h => by
  simpa using List.mem_takeWhile_imp h

/-- An element with nothing or a separator after it. -/
theorem takeWhile_element {element rest : Path} (he : '/' ∉ element)
    (hr : endsElement rest = true) :
    (element ++ rest).takeWhile (· != '/') = element ∧ (element ++ rest).dropWhile
    (· != '/') = rest := by
  have hall : ∀ c ∈ element, (c != '/') = true := fun c hc => by
    simp only [bne_iff_ne]
    rintro rfl
    exact he hc
  rw [List.takeWhile_append_of_pos hall, List.dropWhile_append_of_pos hall]
  cases rest with
  | nil => exact ⟨List.append_nil _, rfl⟩
  | cons c rest =>
    have hc : c = '/' := by simpa [endsElement] using hr
    subst hc
    exact ⟨List.append_nil _, rfl⟩

private theorem endsElement_dropWhile (path : Path) :
    endsElement (path.dropWhile (· != '/')) = true := by
  rcases dropWhile_cases path with hd | ⟨rest, hd⟩
  all_goals rw [hd]; rfl

/-- The elements are the one up to the first separator and those after it. -/
theorem elements_eq (path : Path) : elements path = path.takeWhile (· != '/') ::
    match path.dropWhile (· != '/') with
    | [] => []
    | _ :: rest => elements rest := by
  have hno := no_sep_takeWhile path
  have hsplit := List.takeWhile_append_dropWhile (p := (· != '/')) (l := path)
  unfold elements
  rcases dropWhile_cases path with hd | ⟨rest, hd⟩
  · rw [hd, List.append_nil] at hsplit
    rw [hd, hsplit]
    exact List.splitOn_eq_singleton (hsplit ▸ hno)
  · rw [hd] at hsplit
    rw [hd]
    conv_lhs => rw [← hsplit]
    exact List.splitOn_append_cons_self_of_not_mem hno rest

/-- Going on after an element: what is left to push is what is left to read. -/
theorem pushAll_elements (rooted : Bool) (stack : List Path) (path : Path) :
    pushAll rooted stack (elements path) =
      pushAll rooted (push rooted stack (path.takeWhile (· != '/')))
        (elements (path.dropWhile (· != '/'))) := by
  rw [elements_eq path]
  rcases dropWhile_cases path with hd | ⟨rest, hd⟩
  · rw [hd]
    simp [pushAll, elements, List.splitOn_nil, push]
  · rw [hd, elements_eq ('/' :: rest)]
    simp [pushAll, push]

/-! Pushing an element on a stack. -/

theorem push_name {rooted : Bool} {stack : List Path} {name : Path} (h : IsName name) :
    push rooted stack name = stack ++ [name] := by
  rw [push, if_neg (fun hor => hor.elim h.nonempty h.not_dot), if_neg h.not_dotdot]

theorem push_up_name {rooted : Bool} {stack names : List Path} {name : Path} {ups : Nat}
    (h : IsStack rooted stack ups (names ++ [name])) :
    push rooted stack dotdot = List.replicate ups dotdot ++ names := by
  have hlast : stack = (List.replicate ups dotdot ++ names) ++ [name] := by
    rw [h.eq, List.append_assoc]
  rw [push, if_neg (by decide), if_pos rfl, hlast, List.getLast?_concat]
  exact (if_neg (h.names name (by simp)).not_dotdot).trans List.dropLast_concat

private theorem push_up_rooted {stack : List Path} {ups : Nat} (h : IsStack true stack ups []) :
    push true stack dotdot = stack := by
  obtain rfl : stack = [] := by rw [h.eq, h.rooted rfl]; rfl
  rfl

theorem push_up {stack : List Path} {ups : Nat} (h : IsStack false stack ups []) :
    push false stack dotdot = stack ++ [dotdot] := by
  rw [h.eq, List.append_nil]
  cases ups with
  | zero => rfl
  | succ ups =>
    rw [push, if_neg (by decide), if_pos rfl, List.replicate_succ', List.getLast?_concat]
    rfl

private theorem render_up {stack : List Path} {ups : Nat} (h : IsStack false stack ups []) :
    (if (render false stack).isEmpty then render false stack else render false stack ++ ['/']) ++
      ['.', '.'] = render false (stack ++ [dotdot]) := by
  rw [h.render_concat]
  cases (render false stack).isEmpty <;> rfl

section Rounds

variable {rooted : Bool} {fuel dotdot : Nat} {rest out : Path}

private theorem cleanLoop_sep : cleanLoop rooted (fuel + 1) ('/' :: rest) out dotdot =
    cleanLoop rooted fuel rest out dotdot := by
  simp [cleanLoop]

private theorem cleanLoop_dot (h : endsElement rest = true) :
    cleanLoop rooted (fuel + 1) ('.' :: rest) out dotdot = cleanLoop rooted fuel rest
    out dotdot := by
  simp [cleanLoop, h]

theorem cleanLoop_up (h : endsElement rest = true) :
    cleanLoop rooted (fuel + 1) ('.' :: '.' :: rest) out dotdot =
      if dotdot < out.length then
        cleanLoop rooted fuel rest (out.take (cutAt out dotdot (out.length - 1))) dotdot
      else if rooted then cleanLoop rooted fuel rest out dotdot
      else cleanLoop rooted fuel rest ((if out.isEmpty then out else out ++ ['/']) ++ ['.', '.'])
        ((if out.isEmpty then out else out ++ ['/']) ++ ['.', '.']).length := by
  rw [cleanLoop, if_neg (by simp [endsElement]), if_pos (by simpa using h)]
  cases rooted <;> rfl

theorem cleanLoop_name {c : Char} (h : IsName ((c :: rest).takeWhile (· != '/'))) :
    cleanLoop rooted (fuel + 1) (c :: rest) out dotdot =
      cleanLoop rooted fuel ((c :: rest).dropWhile (· != '/'))
        ((if (rooted && out.length != 1) || (!rooted && !out.isEmpty) then out ++ ['/'] else out) ++
          (c :: rest).takeWhile (· != '/')) dotdot := by
  have hsep : c ≠ '/' := by
    rintro rfl
    exact h.nonempty rfl
  have hdot : ¬(c = '.' ∧ endsElement rest = true) := by
    rintro ⟨rfl, hends⟩
    exact h.not_dot (@takeWhile_element dot _ (by decide) hends).1
  have hup : ¬(c = '.' ∧ rest.head? = some '.' ∧ endsElement rest.tail = true) := by
    rintro ⟨rfl, hhead, hends⟩
    cases rest with
    | nil => cases hhead
    | cons c rest =>
      obtain rfl := Option.some.inj hhead
      exact h.not_dotdot (@takeWhile_element Lexpath.dotdot _ (by decide) hends).1
  rw [cleanLoop, if_neg (by simpa [hsep] using hdot), if_neg (by simpa [and_assoc] using hup)]

end Rounds

theorem cleanLoop_eq {rooted : Bool} {fuel ups : Nat} {path : Path} {stack names : List Path}
    (hfuel : path.length ≤ fuel) (h : IsStack rooted stack ups names) :
    ∃ ups' names', IsStack rooted (pushAll rooted stack (elements path)) ups' names' ∧
      cleanLoop rooted fuel path (render rooted stack) (mark rooted ups) =
        render rooted (pushAll rooted stack (elements path)) := by
  induction fuel generalizing path stack ups names with
  | zero =>
    obtain rfl := List.length_eq_zero_iff.mp (Nat.le_zero.mp hfuel)
    exact ⟨ups, names, by simpa [elements, List.splitOn_nil, pushAll, push] using h,
      by simp [elements, List.splitOn_nil, pushAll, push, cleanLoop]⟩
  | succ fuel ih =>
    cases path with
    | nil =>
      exact ⟨ups, names, by simpa [elements, List.splitOn_nil, pushAll, push] using h,
        by simp [elements, List.splitOn_nil, pushAll, push, cleanLoop]⟩
    | cons c rest =>
      have hrest : rest.length ≤ fuel := Nat.le_of_succ_le_succ hfuel
      have hno := no_sep_takeWhile (c :: rest)
      have hsplit := List.takeWhile_append_dropWhile (p := (· != '/')) (l := c :: rest)
      have hends := endsElement_dropWhile (c :: rest)
      rw [pushAll_elements]
      generalize hel : (c :: rest).takeWhile (· != '/') = element at *
      by_cases hname : IsName element
      · rw [cleanLoop_name (hel ▸ hname), hel, ← h.render_concat, push_name hname]
        refine ih ?_ (h.concat hname)
        have hlen := congrArg List.length hsplit
        have hpos := List.length_pos_iff.mpr hname.nonempty
        simp only [List.length_append, List.length_cons] at hlen
        omega
      · generalize (c :: rest).dropWhile (· != '/') = tail at *
        by_cases hnil : element = []
        · -- A separator is read, and the rest begins with the next element.
          subst hnil
          obtain ⟨rfl, rfl⟩ : tail = '/' :: rest ∧ c = '/' := by
            obtain rfl : tail = c :: rest := hsplit
            have hc : c = '/' := by simpa [endsElement] using hends
            exact ⟨by rw [hc], hc⟩
          rw [cleanLoop_sep, elements_eq ('/' :: rest)]
          exact ih hrest h
        by_cases hdot : element = dot
        · subst hdot
          obtain ⟨rfl, htail⟩ := List.cons.inj hsplit
          obtain rfl : rest = tail := htail.symm
          rw [cleanLoop_dot hends]
          exact ih hrest h
        · obtain rfl : element = dotdot := by
            by_contra hup
            exact hname ⟨hnil, hno, hdot, hup⟩
          obtain ⟨rfl, htail⟩ := List.cons.inj hsplit
          obtain rfl : rest = '.' :: tail := htail.symm
          have hrest : tail.length ≤ fuel := Nat.le_of_succ_le hrest
          rw [cleanLoop_up hends]
          rcases List.eq_nil_or_concat names with rfl | ⟨names, name, rfl⟩
          · rw [if_neg (by rw [h.eq, List.append_nil]; exact Nat.lt_irrefl _)]
            cases rooted with
            | true =>
              rw [if_pos rfl, push_up_rooted h]
              exact ih hrest h
            | false =>
              have hmark : (render false (stack ++ [dotdot])).length = mark false (ups + 1) := by
                rw [mark, h.eq, List.append_nil, ← List.replicate_succ']
              rw [if_neg Bool.false_ne_true, render_up h, hmark, push_up h]
              exact ih hrest h.up
          · rw [List.concat_eq_append] at h
            obtain ⟨hlt, hcut⟩ := cut_last h
            rw [if_pos hlt, hcut, push_up_name h]
            exact ih hrest h.dropLast

/-! ## `clean` -/

/-- The elements of a path after lexical processing. -/
def normal (path : Path) : List Path := pushAll (path.head? == some '/') [] (elements path)

/-- What `clean` gives for a stack. -/
def text (rooted : Bool) (stack : List Path) : Path :=
  if rooted || !stack.isEmpty then render rooted stack else dot

theorem normal_isStack (path : Path) :
    ∃ ups names, IsStack (path.head? == some '/') (normal path) ups names := by
  obtain ⟨ups, names, h, -⟩ := @cleanLoop_eq (path.head? == some '/') path.length 0 path [] []
    (Nat.le_refl _) ⟨rfl, nofun, fun _ => rfl⟩
  exact ⟨ups, names, h⟩

/-- **`clean` is the normal form of the elements.** -/
theorem clean_eq (path : Path) : clean path = text (path.head? == some '/') (normal path) := by
  have hstart : ∀ rooted, IsStack rooted [] 0 [] := fun _ => ⟨rfl, nofun, fun _ => rfl⟩
  cases path with
  | nil => rfl
  | cons c rest =>
    rw [clean, if_neg (by simp)]
    by_cases hc : c = '/'
    · subst hc
      obtain ⟨ups, names, h, heq⟩ := @cleanLoop_eq true ('/' :: rest).length 0 rest [] []
        (Nat.le_succ _) (hstart true)
      have hnormal : normal ('/' :: rest) = pushAll true [] (elements rest) := by
        rw [normal, elements_eq]
        rfl
      have hhead : (('/' :: rest).head? == some '/') = true := rfl
      have heq : cleanLoop true ('/' :: rest).length ('/' :: rest).tail ['/'] 1 = _ := heq
      rw [hhead, hnormal]
      dsimp only
      rw [if_pos rfl, heq]
      rfl
    · have hhead : ((c :: rest).head? == some '/') = false := by simpa using hc
      obtain ⟨ups, names, h, heq⟩ := @cleanLoop_eq false (c :: rest).length 0 (c :: rest) [] []
        (Nat.le_refl _) (hstart false)
      have heq : cleanLoop false (c :: rest).length (c :: rest) [] 0 = _ := heq
      have hnormal : normal (c :: rest) = pushAll false [] (elements (c :: rest)) := by
        rw [normal, hhead]
      rw [hhead, hnormal]
      dsimp only
      rw [if_neg Bool.false_ne_true, heq, text]
      have hnil := intercalate_eq_nil h.element_ne_nil
      by_cases hstack : pushAll false [] (elements (c :: rest)) = []
      · rw [hstack]
        rfl
      · have htext : render false (pushAll false [] (elements (c :: rest))) ≠ [] :=
          fun h => hstack (hnil.mp h)
        simp [hstack, htext]

/-! ## Paths of names -/

theorem elements_sep (path rest : Path) :
    elements (path ++ '/' :: rest) = elements path ++ elements rest :=
  List.splitOn_append_cons_self path rest

/-- A rooted path of nothing but `/` has two empty elements. -/
theorem elements_rooted (path : Path) : elements ('/' :: path) = [] :: elements path :=
  elements_sep [] path

theorem elements_intercalate {parts : List Path} (h : ∀ part ∈ parts, '/' ∉ part)
    (hne : parts ≠ []) :
    elements (['/'].intercalate parts) = parts :=
  List.splitOn_intercalate '/' h hne

section Names

variable {names more : List Path}

theorem pushAll_names {rooted : Bool} {stack : List Path} (h : ∀ name ∈ names, IsName name) :
    pushAll rooted stack names = stack ++ names := by
  induction names generalizing stack with
  | nil => rw [List.append_nil]; rfl
  | cons name names ih =>
    have hrest := @ih (stack ++ [name]) fun other ho => h other (List.mem_cons_of_mem _ ho)
    rw [List.append_assoc] at hrest
    rw [← push_name (h name List.mem_cons_self)] at hrest
    exact hrest

theorem text_of_ne_nil {rooted : Bool} (hne : names ≠ []) :
    text rooted names = render rooted names := by
  cases names with
  | nil => exact absurd rfl hne
  | cons name names => simp [text]

theorem text_head (rooted : Bool) (h : ∀ name ∈ names, IsName name) :
    ((text rooted names).head? == some '/') = rooted := by
  cases rooted with
  | true => rfl
  | false =>
    cases names with
    | nil => rfl
    | cons name names =>
      have hname := h name List.mem_cons_self
      obtain ⟨c, rest, rfl⟩ := List.exists_cons_of_ne_nil hname.nonempty
      have hc : c ≠ '/' := fun hc => hname.no_sep (hc ▸ List.mem_cons_self)
      rw [text_of_ne_nil (List.cons_ne_nil _ _)]
      cases names <;> simpa [render, List.intercalate] using hc

/-- The text of names is a normal form. -/
theorem normal_text (rooted : Bool) (h : ∀ name ∈ names, IsName name) :
    normal (text rooted names) = names := by
  have hsep : ∀ name ∈ names, '/' ∉ name := fun name hn => (h name hn).no_sep
  rw [normal, text_head rooted h]
  by_cases hne : names = []
  · subst hne
    cases rooted <;> decide +kernel
  · rw [text_of_ne_nil hne]
    cases rooted with
    | true =>
      have hstep : pushAll true [] ([] :: names) = pushAll true [] names := rfl
      rw [render, if_pos rfl, elements_rooted, elements_intercalate hsep hne, hstep,
        pushAll_names h, List.nil_append]
    | false =>
      rw [render, if_neg Bool.false_ne_true, elements_intercalate hsep hne, pushAll_names h,
        List.nil_append]

theorem clean_text (rooted : Bool) (h : ∀ name ∈ names, IsName name) :
    clean (text rooted names) = text rooted names := by
  rw [clean_eq, text_head rooted h, normal_text rooted h]

theorem elements_text_false (h : ∀ name ∈ names, IsName name) (hne : names ≠ []) :
    elements (text false names) = names := by
  rw [text_of_ne_nil hne]
  exact elements_intercalate (fun name hn => (h name hn).no_sep) hne

/-- A rooted path normalizes to names. -/
theorem normal_names {path : Path} (h : path.head? = some '/') :
    ∀ name ∈ normal path, IsName name := by
  obtain ⟨ups, names, hstack⟩ := normal_isStack path
  have hrooted : (path.head? == some '/') = true := by rw [h]; rfl
  rw [hstack.eq, hstack.rooted hrooted]
  exact hstack.names

theorem clean_rooted {path : Path} (h : path.head? = some '/') :
    clean path = text true (normal path) := by
  rw [clean_eq, h]
  rfl

/-- Joining a path of names with more of them. -/
theorem join_text (h : ∀ name ∈ names, IsName name) (hmore : ∀ name ∈ more, IsName name) :
    join (text false names :: more) = text false (names ++ more) := by
  have hfirst : text false names ≠ [] := by
    by_cases hne : names = []
    · subst hne; exact List.cons_ne_nil _ _
    · rw [text_of_ne_nil hne]
      exact fun hnil => hne ((intercalate_eq_nil fun name hn => (h name hn).nonempty).mp hnil)
  have hfilter : (text false names :: more).filter (fun element => !element.isEmpty) =
      text false names :: more := by
    refine List.filter_eq_self.mpr fun element he => ?_
    rcases List.mem_cons.mp he with rfl | he
    · simpa using hfirst
    · simpa using (hmore element he).nonempty
  rw [join, hfilter, if_neg (by simp)]
  by_cases hmore' : more = []
  · subst hmore'
    rw [List.append_nil, List.intercalate_singleton, clean_text false h]
  · rw [List.intercalate_cons_of_ne_nil hmore', List.append_assoc, List.singleton_append, clean_eq]
    have hhead : ((text false names ++ '/' :: ['/'].intercalate more).head? == some '/') =
        false := by
      have hhead := text_head false h
      obtain ⟨c, rest, hc⟩ := List.exists_cons_of_ne_nil hfirst
      rw [hc] at hhead ⊢
      exact hhead
    rw [normal, hhead, elements_sep,
      elements_intercalate (fun name hn => (hmore name hn).no_sep) hmore']
    by_cases hne : names = []
    · subst hne
      have hdot : pushAll false [] (elements (text false []) ++ more) = pushAll false [] more := by
        rw [pushAll, pushAll, List.foldl_append]
        exact congrArg (fun stack => List.foldl (push false) stack more) (by decide +kernel)
      rw [hdot, pushAll_names hmore]
    · rw [elements_text_false h hne, pushAll_names fun name hn => (List.mem_append.mp hn).elim
        (h name) (hmore name), List.nil_append]

end Names

/-! ## Joining to a rooted path -/

theorem elements_intercalate_parts {parts : List Path} (hne : parts ≠ []) :
    elements (['/'].intercalate parts) = parts.flatMap elements := by
  induction parts with
  | nil => exact absurd rfl hne
  | cons part parts ih =>
    by_cases hnil : parts = []
    · subst hnil
      simp
    · rw [List.intercalate_cons_of_ne_nil hnil, List.append_assoc, List.singleton_append,
        elements_sep, ih hnil, List.flatMap_cons]

theorem pushAll_append (rooted : Bool) (stack a b : List Path) :
    pushAll rooted stack (a ++ b) = pushAll rooted (pushAll rooted stack a) b :=
  List.foldl_append

/-- An empty element changes nothing. -/
@[simp] theorem pushAll_empty (rooted : Bool) (stack : List Path) (more : List Path) :
    pushAll rooted stack ([] :: more) = pushAll rooted stack more := by
  rw [pushAll, List.foldl_cons, push, if_pos (.inl rfl)]
  rfl

theorem pushAll_nonempty (rooted : Bool) (stack : List Path) (parts : List Path) :
    pushAll rooted stack ((parts.filter fun part => !part.isEmpty).flatMap elements) =
      pushAll rooted stack (parts.flatMap elements) := by
  induction parts generalizing stack with
  | nil => rfl
  | cons part parts ih =>
    cases part with
    | nil =>
      have hnil : elements [] = [[]] := rfl
      simp [hnil, ih]
    | cons c part => simp [pushAll_append, ih]

/-- **Joining to a rooted path** goes on from its elements. -/
theorem join_rooted {first : Path} (h : first.head? = some '/') (more : List Path) :
    join (first :: more) = text true (pushAll true [] ((first :: more).flatMap elements)) ∧
      normal (join (first :: more)) = pushAll true [] ((first :: more).flatMap elements) := by
  obtain ⟨rest, rfl⟩ := List.head?_eq_some_iff.mp h
  have hjoin : join (('/' :: rest) :: more) = clean (['/'].intercalate (('/' :: rest) ::
      more.filter fun part => !part.isEmpty)) := by
    simp [join]
  have hhead : (['/'].intercalate (('/' :: rest) :: more.filter fun part => !part.isEmpty)).head? =
      some '/' := by
    cases more.filter fun part => !part.isEmpty <;> rfl
  have hnormal :
    normal (['/'].intercalate (('/' :: rest) :: more.filter fun part => !part.isEmpty)) =
      pushAll true [] ((('/' :: rest) :: more).flatMap elements) := by
    rw [normal, hhead, elements_intercalate_parts (List.cons_ne_nil _ _), List.flatMap_cons,
      List.flatMap_cons, pushAll_append, pushAll_append, ← pushAll_nonempty _ _ more]
    rfl
  have hnames := normal_names hhead
  rw [hjoin, clean_rooted hhead]
  refine ⟨by rw [hnormal], ?_⟩
  rw [normal_text true hnames, hnormal]

/-- Without a `..`, nothing is taken away. -/
theorem prefix_pushAll {rooted : Bool} {more : List Path} (h : dotdot ∉ more) (stack : List Path) :
    stack <+: pushAll rooted stack more := by
  induction more generalizing stack with
  | nil => exact List.prefix_refl _
  | cons element more ih =>
    rw [List.mem_cons, not_or] at h
    have hpush : stack <+: push rooted stack element := by
      unfold push
      split
      · exact List.prefix_refl _
      · rw [if_neg (Ne.symm h.1)]
        exact List.prefix_append _ _
    exact hpush.trans (ih h.2 _)

/-! ## Idempotence -/

theorem pushAll_ups (ups : Nat) :
    pushAll false [] (List.replicate ups dotdot) = List.replicate ups dotdot := by
  induction ups with
  | zero => rfl
  | succ ups ih =>
    have hstack : IsStack false (List.replicate ups dotdot) ups [] :=
      ⟨by rw [List.append_nil], nofun, nofun⟩
    rw [List.replicate_succ', pushAll_append, ih]
    exact push_up hstack

/-- The text of a stack is a normal form. -/
theorem normal_text_stack {rooted : Bool} {stack names : List Path} {ups : Nat}
    (h : IsStack rooted stack ups names) :
    ((text rooted stack).head? == some '/') = rooted ∧ normal (text rooted stack) = stack := by
  cases rooted with
  | true =>
    obtain rfl : stack = names := by rw [h.eq, h.rooted rfl]; rfl
    exact ⟨text_head true h.names, normal_text true h.names⟩
  | false =>
    by_cases hne : stack = []
    · subst hne
      exact ⟨rfl, by decide +kernel⟩
    have htext : text false stack = ['/'].intercalate stack := by
      rw [text_of_ne_nil hne]
      rfl
    have hhead : ((text false stack).head? == some '/') = false := by
      obtain ⟨first, rest, rfl⟩ := List.exists_cons_of_ne_nil hne
      obtain ⟨c, more, rfl⟩ :=
        List.exists_cons_of_ne_nil (h.element_ne_nil first List.mem_cons_self)
      have hc : c ≠ '/' := fun heq => h.element_no_sep _ List.mem_cons_self
        (heq ▸ List.mem_cons_self)
      rw [htext]
      cases rest <;> simpa [List.intercalate] using hc
    refine ⟨hhead, ?_⟩
    rw [normal, hhead, htext, elements_intercalate h.element_no_sep hne, h.eq,
      pushAll_append, pushAll_ups, pushAll_names h.names]

/-- A clean path is its own normal form. -/
theorem clean_clean (path : Path) : clean (clean path) = clean path := by
  obtain ⟨ups, names, h⟩ := normal_isStack path
  obtain ⟨hhead, hnormal⟩ := normal_text_stack h
  rw [clean_eq path, clean_eq, hhead, hnormal]

private theorem normal_clean (path : Path) : normal (clean path) = normal path := by
  obtain ⟨ups, names, h⟩ := normal_isStack path
  rw [clean_eq, (normal_text_stack h).2]

/-- A name joined to a path goes on its stack. -/
theorem normal_join_name {path name : Path} (h : IsName name) :
    normal (join [path, name]) = normal path ++ [name] := by
  have hname : elements name = [name] := by
    have hone := @elements_intercalate [name] (fun part hp => List.mem_singleton.mp hp ▸ h.no_sep)
      (by simp)
    rwa [List.intercalate_singleton] at hone
  have hpush : ∀ rooted stack, pushAll rooted stack [name] = stack ++ [name] := fun rooted stack =>
    pushAll_names fun part hp => List.mem_singleton.mp hp ▸ h
  obtain ⟨c, rest, rfl⟩ := List.exists_cons_of_ne_nil h.nonempty
  cases path with
  | nil =>
    have hjoin : join [[], c :: rest] = clean (c :: rest) := by simp [join]
    rw [hjoin, normal_clean, normal, hname, hpush]
    rfl
  | cons first path =>
    have hjoin : join [first :: path, c :: rest] = clean ((first :: path) ++ '/' :: c :: rest) := by
      simp [join, List.intercalate]
    rw [hjoin, normal_clean, normal, elements_sep, hname, pushAll_append, hpush]
    rfl

end Lexpath
end Sda
