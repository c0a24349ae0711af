import Mathlib.Data.List.TakeWhile
import DeviceAccess.Text

/-!
# The two line readers (`src/text.rs`, `src/launcher/self_id.rs`)

The daemon reads lines lazily (`Text.lines`), the launcher reads them all at once (`scanLines`).
Both are the pieces of the input between its newlines (`pieces`), up to the first one that is too
long.
-/

namespace Sda
namespace Launcher

open Text (LineTooLong lines linesFrom maxLine newline stripReturn)

/-- The longest line that is read is one byte shorter. -/
def maxScanTokenSize : Nat := 64 * 1024

/-- Why the mount table could not be read. -/
inductive SelfIdError where
  | read (cause : String)
  deriving DecidableEq, Repr

/-- The loop of `scan_lines`. Every turn takes at least one byte, so `fuel` is the number of bytes.
-/
def scanFrom : Nat → Bytes → List Bytes → Except SelfIdError (List Bytes)
  | 0, _, found => .ok found
  | fuel + 1, rest, found =>
    if rest.isEmpty then .ok found
    else
      let index := rest.idxOf? newline
      let length := index.getD rest.length
      if maxScanTokenSize ≤ length then .error (.read "bufio.Scanner: token too long")
      else
        scanFrom fuel (rest.drop (index.elim rest.length (· + 1)))
          (found ++ [stripReturn (rest.take length)])

/-- `scan_lines`. -/
def scanLines (table : Bytes) : Except SelfIdError (List Bytes) := scanFrom table.length table []

/-! ## Pieces -/

/-- The bytes are a longest stretch of the input without a newline. -/
def MaximalRun (data run : Bytes) : Prop :=
  newline ∉ run ∧ ∃ front back, data = front ++ run ++ back ∧
    (front = [] ∨ front.getLast? = some newline) ∧
    (back = [] ∨ back.head? = some newline)

/-- The input split at its newlines, without an empty last piece. -/
def pieces (data : Bytes) : List Bytes :=
  if (data.splitOn newline).getLast? = some [] then (data.splitOn newline).dropLast else
    data.splitOn newline

/-- The piece fits. -/
def short (piece : Bytes) : Bool := piece.length < 65536

section Pieces

variable {line rest data run : Bytes}

theorem pieces_nil : pieces [] = [] := rfl

theorem splitOn_of_not_mem (h : newline ∉ line) : line.splitOn newline = [line] :=
  List.splitOnP_eq_singleton fun _ hbyte => beq_eq_false_iff_ne.mpr fun heq => h (heq ▸ hbyte)

theorem pieces_last (h : newline ∉ line) (hne : line ≠ []) : pieces line = [line] := by
  rw [pieces, splitOn_of_not_mem h, List.getLast?_singleton, if_neg fun hlast =>
    hne (Option.some.inj hlast)]

theorem pieces_cons (h : newline ∉ line) :
    pieces (line ++ newline :: rest) = line :: pieces rest := by
  have hne := List.splitOn_ne_nil newline rest
  rw [pieces, pieces, List.splitOn_append_cons_self_of_not_mem h, List.getLast?_cons_of_ne_nil hne,
    List.dropLast_cons_of_ne_nil hne]
  split <;> rfl

/-- Every input is empty, a last line, or a line with its newline and the rest. -/
theorem lines_induction {P : Bytes → Prop} (nil : P [])
    (last : ∀ line, newline ∉ line → line ≠ [] → P line)
    (cons : ∀ line rest, newline ∉ line → P rest → P (line ++ newline :: rest)) (data : Bytes) :
    P data := by
  induction hlength : data.length using Nat.strongRecOn generalizing data with
  | ind length ih =>
    by_cases hmem : newline ∈ data
    · obtain ⟨line, rest, rfl, hline⟩ := List.eq_append_cons_of_mem hmem
      refine cons line rest hline (ih rest.length ?_ rest rfl)
      rw [← hlength, List.length_append, List.length_cons]
      omega
    · by_cases hne : data = []
      · rw [hne]
        exact nil
      · exact last data hmem hne

theorem mem_splitOn_iff : run ∈ data.splitOn newline ↔ MaximalRun data run := by
  constructor
  · induction data using lines_induction with
    | nil =>
      intro h
      cases List.mem_singleton.mp h
      exact ⟨List.not_mem_nil, [], [], rfl, .inl rfl, .inl rfl⟩
    | last line hline hne =>
      rw [splitOn_of_not_mem hline]
      intro h
      cases List.mem_singleton.mp h
      exact ⟨hline, [], [], by simp, .inl rfl, .inl rfl⟩
    | cons line rest hline ih =>
      rw [List.splitOn_append_cons_self_of_not_mem hline]
      intro h
      rcases List.mem_cons.mp h with rfl | hrest
      · exact ⟨hline, [], newline :: rest, by simp, .inl rfl, .inr rfl⟩
      · obtain ⟨hrun, front, back, rfl, hfront, hback⟩ := ih hrest
        refine ⟨hrun, line ++ newline :: front, back, by simp, .inr ?_, hback⟩
        rcases hfront with rfl | hfront
        · simp
        · rw [List.getLast?_append, List.getLast?_cons, hfront]
          rfl
  · rintro ⟨hrun, front, back, rfl, hfront, hback⟩
    have hback' : run ∈ (run ++ back).splitOn newline := by
      rcases hback with rfl | hback
      · rw [List.append_nil, splitOn_of_not_mem hrun]
        exact List.mem_cons_self
      · obtain ⟨tail, rfl⟩ := List.head?_eq_some_iff.mp hback
        rw [List.splitOn_append_cons_self_of_not_mem hrun]
        exact List.mem_cons_self
    rcases hfront with rfl | hfront
    · exact hback'
    · obtain ⟨init, rfl⟩ := List.getLast?_eq_some_iff.mp hfront
      rw [List.append_assoc, List.append_assoc, List.singleton_append, List.splitOn,
        List.splitOnP_append_cons (p := fun byte => byte == newline) _ _ rfl]
      exact List.mem_append_right _ hback'

/-- The empty last piece is short. -/
theorem all_short_iff : (pieces data).all short = true ↔ ∀ run, MaximalRun data run →
    run.length < 65536 := by
  have hsplit : (pieces data).all short = (data.splitOn newline).all short := by
    rw [pieces]
    split
    next hlast =>
      obtain ⟨front, heq⟩ := List.getLast?_eq_some_iff.mp hlast
      rw [heq, List.dropLast_concat, List.all_append]
      exact (Bool.and_true _).symm
    next => rfl
  rw [hsplit, List.all_eq_true]
  exact forall_congr' fun run => by rw [mem_splitOn_iff, short, decide_eq_true_eq]

end Pieces

/-! ## The loops -/

section Loops

variable {line rest : Bytes}

theorem idxOf_newline (h : newline ∉ line) :
    (line ++ newline :: rest).idxOf? newline = some line.length := by
  refine List.idxOf?_eq_some_iff.mpr ⟨by simp, by simp, fun j hj heq => h ?_⟩
  rw [List.getElem_append_left hj] at heq
  exact heq ▸ List.getElem_mem hj

theorem short_iff : short line = true ↔ line.length < maxLine := decide_eq_true_iff

private theorem not_short_iff : ¬ short line = true ↔ maxScanTokenSize ≤ line.length :=
  (not_congr short_iff).trans Nat.not_lt

/-- What `lines` yields: the pieces up to the first one that is too long, and an error there. -/
theorem linesFrom_eq (data : Bytes) : ∀ fuel, data.length ≤ fuel → linesFrom fuel data =
    ((pieces data).takeWhile short).map (fun piece => .ok (stripReturn piece)) ++
      if (pieces data).all short then [] else [.error {}] := by
  induction data using lines_induction with
  | nil =>
    intro fuel _
    cases fuel <;> rfl
  | last line hline hne =>
    intro fuel hfuel
    obtain ⟨fuel, rfl⟩ : ∃ n, fuel = n + 1 :=
        ⟨fuel - 1, by have := List.length_pos_iff.mpr hne; omega⟩
    rw [linesFrom, List.isEmpty_eq_false_iff.mpr hne, List.idxOf?_eq_none_iff.mpr hline,
      pieces_last hline hne]
    by_cases hshort : short line = true
    · simp [hshort, short_iff.mp hshort]
    · simp [hshort, mt short_iff.mpr hshort]
  | cons line rest hline ih =>
    intro fuel hfuel
    rw [List.length_append, List.length_cons] at hfuel
    obtain ⟨fuel, rfl⟩ : ∃ n, fuel = n + 1 := ⟨fuel - 1, by omega⟩
    have hdrop : (line ++ newline :: rest).drop (line.length + 1) = rest := by simp
    rw [linesFrom, List.isEmpty_eq_false_iff.mpr (by simp), idxOf_newline hline, pieces_cons hline]
    by_cases hshort : short line = true
    · simp [hshort, short_iff.mp hshort, hdrop, ih fuel (by omega)]
    · simp [hshort, mt short_iff.mpr hshort]

/-- What `scan_lines` gives: all the pieces, unless one is too long. -/
theorem scanFrom_eq (data : Bytes) : ∀ fuel found, data.length ≤ fuel → scanFrom fuel data found =
    if (pieces data).all short then .ok (found ++ (pieces data).map stripReturn)
    else .error (.read "bufio.Scanner: token too long") := by
  induction data using lines_induction with
  | nil =>
    intro fuel found _
    cases fuel <;> simp [scanFrom, pieces_nil]
  | last line hline hne =>
    intro fuel found hfuel
    obtain ⟨fuel, rfl⟩ : ∃ n, fuel = n + 1 :=
        ⟨fuel - 1, by have := List.length_pos_iff.mpr hne; omega⟩
    rw [scanFrom, List.isEmpty_eq_false_iff.mpr hne, List.idxOf?_eq_none_iff.mpr hline,
      pieces_last hline hne]
    by_cases hshort : short line = true
    · have hnil : scanFrom fuel [] (found ++ [stripReturn line]) = .ok
          (found ++ [stripReturn line]) := by
        cases fuel <;> rfl
      simp [hshort, mt not_short_iff.mpr (not_not_intro hshort), hnil]
    · simp [hshort, not_short_iff.mp hshort]
  | cons line rest hline ih =>
    intro fuel found hfuel
    rw [List.length_append, List.length_cons] at hfuel
    obtain ⟨fuel, rfl⟩ : ∃ n, fuel = n + 1 := ⟨fuel - 1, by omega⟩
    have hdrop : (line ++ newline :: rest).drop (line.length + 1) = rest := by simp
    rw [scanFrom, List.isEmpty_eq_false_iff.mpr (by simp), idxOf_newline hline, pieces_cons hline]
    by_cases hshort : short line = true
    · simp [hshort, mt not_short_iff.mpr (not_not_intro hshort), hdrop, ih fuel _ (by omega)]
    · simp [hshort, not_short_iff.mp hshort]

end Loops

/-- What the two readers do with the same input. -/
structure ReadersAgree (data : Bytes) : Prop where
  fails : (∃ error, .error error ∈ lines data) ↔ ∃ error, scanLines data = .error error
  tooLong : (∃ error, scanLines data = .error error) ↔ ∃ run, MaximalRun data run ∧
    65536 ≤ run.length
  /-- Without an error both give the pieces, each without one carriage return at its end. -/
  same : (¬ ∃ error, scanLines data = .error error) →
    lines data = (pieces data).map (fun piece => .ok (stripReturn piece)) ∧
      scanLines data = .ok ((pieces data).map stripReturn)
  /-- Before its error `lines` yields the pieces before the first one that is too long. -/
  before : (∃ error, .error error ∈ lines data) →
    ∃ front piece back, pieces data = front ++ piece :: back ∧
      (∀ earlier ∈ front, earlier.length < 65536) ∧
      65536 ≤ piece.length ∧ lines data = front.map
        (fun piece => .ok (stripReturn piece)) ++ [.error {}]

section Agree

variable {data : Bytes}

theorem lines_of_short (h : (pieces data).all short = true) :
    lines data = (pieces data).map (fun piece => .ok (stripReturn piece)) ∧
      scanLines data = .ok ((pieces data).map stripReturn) := by
  constructor
  · rw [lines, linesFrom_eq data _ le_rfl, if_pos h, List.append_nil,
      List.takeWhile_eq_self_iff.mpr (List.all_eq_true.mp h)]
  · rw [scanLines, scanFrom_eq data _ _ le_rfl, if_pos h, List.nil_append]

theorem lines_of_long (h : ¬ (pieces data).all short = true) :
    (∃ front piece back, pieces data = front ++ piece :: back ∧
      (∀ earlier ∈ front, earlier.length < 65536) ∧
      65536 ≤ piece.length ∧
      lines data = front.map (fun piece => .ok (stripReturn piece)) ++ [.error {}]) ∧
      scanLines data = .error (.read "bufio.Scanner: token too long") := by
  constructor
  · cases hrest : (pieces data).dropWhile short with
    | nil => exact absurd (List.all_eq_true.mpr (List.dropWhile_eq_nil_iff.mp hrest)) h
    | cons piece back =>
      have hsplit := List.takeWhile_append_dropWhile (p := short) (l := pieces data)
      have hlong : short piece = false := by
        have hhead := List.head_dropWhile_not short (hrest ▸ List.cons_ne_nil piece back)
        simpa only [hrest, List.head_cons] using hhead
      refine ⟨(pieces data).takeWhile short, piece, back, by rw [← hrest, hsplit],
        fun earlier hearlier => ?_,
        not_lt.mp (of_decide_eq_false hlong), ?_⟩
      · exact short_iff.mp (List.mem_takeWhile_imp hearlier)
      · rw [lines, linesFrom_eq data _ le_rfl, if_neg h]
  · rw [scanLines, scanFrom_eq data _ _ le_rfl, if_neg h]

/-- **The two line readers agree**, on every input. -/
theorem readers_agree (data : Bytes) : ReadersAgree data := by
  by_cases hshort : (pieces data).all short = true
  · obtain ⟨hlines, hscan⟩ := lines_of_short hshort
    have hclean : ¬ ∃ error, .error error ∈ lines data := by
      rw [hlines]
      rintro ⟨error, herror⟩
      obtain ⟨piece, -, heq⟩ := List.mem_map.mp herror
      cases heq
    have hread : ¬ ∃ error, scanLines data = .error error := by
      rw [hscan]
      nofun
    refine ⟨iff_of_false hclean hread, iff_of_false hread ?_, fun _ => ⟨hlines, hscan⟩, fun h =>
      absurd h hclean⟩
    rintro ⟨run, hrun, hlong⟩
    exact absurd (all_short_iff.mp hshort run hrun) (not_lt.mpr hlong)
  · obtain ⟨hbefore, hscan⟩ := lines_of_long hshort
    have hfailed : ∃ error, .error error ∈ lines data := by
      obtain ⟨front, piece, back, -, -, -, hlines⟩ := hbefore
      rw [hlines]
      exact ⟨{}, List.mem_append_right _ List.mem_cons_self⟩
    have hread : ∃ error, scanLines data = .error error := ⟨_, hscan⟩
    refine ⟨iff_of_true hfailed hread, iff_of_true hread ?_, fun h => absurd hread h,
      fun _ => hbefore⟩
    by_contra hnone
    push Not at hnone
    exact hshort (all_short_iff.mpr hnone)

end Agree

end Launcher
end Sda
