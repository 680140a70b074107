/-
Module: Crunchy.Proofs.LassLines
Purpose: Which lines of a source text the assembler works on. The place for the first line
  in the array of pointers is given to the second one, so the first line is lost unless it
  is the only one.
Trusted boundary: none
Main exports: sourceText, laterLines, due, sourceLines_eq, every_line_handed_iff
-/
import Crunchy.Proofs.Tokens
import Crunchy.User.Lass
import Mathlib.Data.List.TakeWhile

namespace Crunchy.Lass

open Option List

/-! ### What a text is made of -/

/-- Lines with a newline behind each. -/
def sourceText (source : List Text) : Text := source.flatMap fun l => l ++ [10#8]

/-- A line as a string: it ends at a `NUL` in it. -/
def cString (l : Text) : Text := l.takeWhile fun c => c ≠ 0#8

/-- The lines behind the first one that are not empty strings. An empty line counts: when it
is looked at, its newline is still there. -/
def laterLines (source : List Text) : List Text :=
  source.tail.filter fun l => l.head? ≠ some 0#8

/-- What should be called for a line: nothing for an empty one and for a comment,
`add_symbol` for a label in the first pass, `parse_line` for a line without a colon. -/
def due (passNo : Nat) (text : Text) : Option Call :=
  if text = [] ∨ text.head? = some 59#8 then none
  else if 58#8 ∈ text then
    if passNo = 1 then some (.addSymbol (text.takeWhile fun c => c ≠ 58#8)) else none
  else some (.parseLine text)

@[simp] theorem sourceText_cons (l : Text) (source : List Text) :
    sourceText (l :: source) = l ++ 10#8 :: sourceText source := by
  simp [sourceText]

/-! ### A line as it is read -/

theorem read_nil : Line.read [] = none := by decide

/-- What `pass` does with a line is what should be done with it. -/
theorem due_eq (passNo : Nat) (text : Text) (noNul : text.head? ≠ some 0#8) :
    (Line.read text).bind (Line.call passNo) = due passNo text := by
  cases text with
  | nil => rfl
  | cons c rest =>
    have nonzero : c ≠ 0#8 := fun zero => noNul (by rw [zero, head?_cons])
    rw [Line.read, due, headD_cons, head?_cons]
    by_cases comment : c = 59#8
    · simp [comment]
    rw [if_pos ⟨comment, nonzero⟩, if_neg (by simp [comment])]
    by_cases colon : 58#8 ∈ c :: rest
    · obtain ⟨behind, found, split⟩ := strchr_of_mem colon
      rw [found, if_pos colon, ← take_front split]
      rfl
    · rw [strchr_eq_none colon, if_neg colon]
      rfl

/-! ### The loop over the text -/

/-- The pointers that the loop stores for a text that begins at `i`. -/
def starts : (i : Nat) → Text → List Nat
  | _, [] => []
  | i, c :: text =>
    if c = 10#8 ∧ text.headD 0#8 ≠ 0#8 then (i + 1) :: starts (i + 1) text
    else starts (i + 1) text

/-- A newline becomes a `NUL`. -/
def cutChar (c : BitVec 8) : BitVec 8 := if c = 10#8 then 0#8 else c

theorem lineLoop_eq (text : Text) (passed : Text) (lines : List Nat) :
    lineLoop text.length passed.length (passed ++ text) lines =
      (passed ++ text.map cutChar, lines ++ starts passed.length text) := by
  induction text generalizing passed lines with
  | nil => simp [lineLoop, starts]
  | cons c text ih =>
    -- one more character has been passed
    have next : ∀ lines, lineLoop text.length (passed.length + 1)
        (passed ++ cutChar c :: text) lines =
        (passed ++ (c :: text).map cutChar, lines ++ starts (passed.length + 1) text) := by
      intro lines
      have moved := ih (passed ++ [cutChar c]) lines
      simpa using moved
    have here : (passed ++ c :: text).getD passed.length 0#8 = c := by simp
    have behind : ∀ d, (passed ++ d :: text).getD (passed.length + 1) 0#8 = text.headD 0#8 := by
      intro d
      cases text <;> simp
    rw [length_cons, lineLoop, here, starts]
    by_cases newline : c = 10#8
    · have cut : (passed ++ c :: text).set passed.length 0#8 = passed ++ cutChar c :: text := by
        simp [cutChar, newline]
      rw [if_pos newline]
      simp only [cut, behind]
      by_cases more : text.headD 0#8 ≠ 0#8
      · rw [if_pos more, if_pos ⟨newline, more⟩, next, append_assoc, singleton_append]
      · rw [if_neg more, if_neg fun both => more both.2, next]
    · have same : cutChar c = c := if_neg newline
      have unchanged := next lines
      rw [same] at unchanged
      rw [if_neg newline, if_neg fun both => newline both.1, unchanged]

theorem starts_line {l : Text} (noNewline : 10#8 ∉ l) (i : Nat) (text : Text) :
    starts i (l ++ 10#8 :: text) =
      (if text.headD 0#8 ≠ 0#8 then [i + l.length + 1] else []) ++
        starts (i + l.length + 1) text := by
  induction l generalizing i with
  | nil =>
    rw [nil_append, starts]
    by_cases more : text.headD 0#8 ≠ 0#8
    · rw [if_pos ⟨rfl, more⟩, if_pos more]
      rfl
    · rw [if_neg fun both => more both.2, if_neg more]
      rfl
  | cons c l ih =>
    rw [mem_cons, not_or] at noNewline
    rw [cons_append, starts, if_neg fun both => noNewline.1 both.1.symm, ih noNewline.2,
      length_cons, show i + 1 + l.length + 1 = i + (l.length + 1) + 1 by omega]

/-! ### The strings at the pointers -/

theorem cString_terminated (l rest : Text) :
    (l ++ 0#8 :: rest).takeWhile (fun c => c ≠ 0#8) = cString l := by
  induction l with
  | nil => simp [cString]
  | cons c l ih =>
    rw [cString] at ih ⊢
    by_cases ends : c = 0#8
    · simp [ends]
    · rw [cons_append, takeWhile_cons_of_pos (by simpa using ends),
        takeWhile_cons_of_pos (by simpa using ends), ih]

theorem stringAt_line (passed l rest : Text) :
    stringAt (passed ++ (l ++ 0#8 :: rest)) passed.length = cString l := by
  rw [stringAt, drop_left, cString_terminated]

theorem map_cutChar_line {l : Text} (noNewline : 10#8 ∉ l) (source : List Text) :
    (sourceText (l :: source)).map cutChar = l ++ 0#8 :: (sourceText source).map cutChar := by
  have same : l.map cutChar = l := by
    rw [List.map_congr_left (g := id), List.map_id]
    intro c inside
    exact if_neg fun newline : c = 10#8 => noNewline (newline ▸ inside)
  rw [sourceText_cons, List.map_append, same, List.map_cons]
  rfl

theorem headD_sourceText (l : Text) (source : List Text) :
    (sourceText (l :: source)).headD 0#8 ≠ 0#8 ↔ l.head? ≠ some 0#8 := by
  cases l <;> simp

theorem cString_eq_nil {l : Text} (zero : l.head? = some 0#8) : cString l = [] := by
  cases l with
  | nil => rfl
  | cons c l =>
    have isNul : c = 0#8 := Option.some.inj zero
    simp [cString, isNul]

variable {source : List Text}

/-- There is a pointer for every later line. -/
theorem length_starts (noNewline : ∀ l ∈ source, 10#8 ∉ l) (i : Nat) :
    (starts i (sourceText source)).length = (laterLines source).length := by
  induction source generalizing i with
  | nil => rfl
  | cons l source ih =>
    have rest : ∀ l ∈ source, 10#8 ∉ l := fun l inside =>
      noNewline l (mem_cons_of_mem _ inside)
    rw [sourceText_cons, starts_line (noNewline l mem_cons_self), length_append, ih rest]
    cases source with
    | nil => rfl
    | cons l' source =>
      rw [laterLines, laterLines, tail_cons, tail_cons]
      by_cases stored : l'.head? ≠ some 0#8
      · rw [if_pos ((headD_sourceText l' source).mpr stored),
          filter_cons_of_pos (by simpa using stored), length_singleton,
          length_cons, Nat.add_comm]
      · rw [if_neg fun more => stored ((headD_sourceText l' source).mp more),
          filter_cons_of_neg (by simpa using stored), length_nil, Nat.zero_add]

/-- And the lines read at these pointers are the later lines. -/
theorem read_starts (noNewline : ∀ l ∈ source, 10#8 ∉ l) (passed : Text) :
    (starts passed.length (sourceText source)).filterMap
        (fun p => Line.read (stringAt (passed ++ (sourceText source).map cutChar) p)) =
      source.tail.filterMap fun l => Line.read (cString l) := by
  induction source generalizing passed with
  | nil => rfl
  | cons l source ih =>
    have rest : ∀ l ∈ source, 10#8 ∉ l := fun l inside =>
      noNewline l (mem_cons_of_mem _ inside)
    have here := noNewline l mem_cons_self
    have moved : passed ++ (sourceText (l :: source)).map cutChar =
        (passed ++ l ++ [0#8]) ++ (sourceText source).map cutChar := by
      rw [map_cutChar_line here]
      simp
    have behind : passed.length + l.length + 1 = (passed ++ l ++ [0#8]).length := by simp; omega
    rw [moved, sourceText_cons, starts_line here, filterMap_append, behind, ih rest, tail_cons]
    cases source with
    | nil => rfl
    | cons l' source =>
      by_cases stored : l'.head? ≠ some 0#8
      · rw [if_pos ((headD_sourceText l' source).mpr stored),
          map_cutChar_line (rest l' mem_cons_self), filterMap_cons,
          filterMap_nil, stringAt_line, filterMap_cons]
        cases Line.read (cString l') <;> rfl
      · rw [if_neg fun more => stored ((headD_sourceText l' source).mp more),
          filterMap_cons, cString_eq_nil (not_not.mp stored), read_nil]
        rfl

/-- Where there is no later line the first pointer is still the one to the first line. -/
theorem read_only (noNewline : ∀ l ∈ source, 10#8 ∉ l) (only : laterLines source = []) :
    [0].filterMap (fun p => Line.read (stringAt ((sourceText source).map cutChar) p)) =
      source.filterMap fun l => Line.read (cString l) := by
  cases source with
  | nil => rfl
  | cons l source =>
    have first : stringAt ((sourceText (l :: source)).map cutChar) 0 = cString l := by
      rw [map_cutChar_line (noNewline l mem_cons_self)]
      exact stringAt_line [] l _
    have others : source.filterMap (fun l => Line.read (cString l)) = [] := by
      rw [filterMap_eq_nil_iff]
      intro l' inside
      have zero := filter_eq_nil_iff.mp only l' inside
      rw [cString_eq_nil (by simpa using zero), read_nil]
    rw [filterMap_cons, filterMap_nil, first, filterMap_cons, others]

/-- The lines that a pass works on: all but the first one, if there is a later one. -/
theorem sourceLines_eq (noNewline : ∀ l ∈ source, 10#8 ∉ l) :
    sourceLines (sourceText source) =
      if max 1 (laterLines source).length < (sourceText source).length / 4 then
        some ((if laterLines source = [] then source else source.tail).filterMap
          fun l => Line.read (cString l))
      else none := by
  have looped := lineLoop_eq (sourceText source) [] []
  have pointed := length_starts noNewline 0
  rw [nil_append, nil_append, nil_append, length_nil] at looped
  rw [sourceLines, looped]
  dsimp only
  rw [pointers]
  by_cases only : laterLines source = []
  · have noPointer : starts 0 (sourceText source) = [] :=
      eq_nil_of_length_eq_zero (by rw [pointed, only, length_nil])
    rw [if_pos noPointer, only, if_pos rfl, length_singleton, length_nil,
      Nat.max_eq_left (Nat.zero_le 1)]
    split
    · rw [map_some, read_only noNewline only]
    · rfl
  · have positive : 0 < (laterLines source).length := length_pos_iff.mpr only
    have somePointer : starts 0 (sourceText source) ≠ [] := by
      intro empty
      rw [empty, length_nil] at pointed
      omega
    have read := read_starts noNewline []
    rw [length_nil, nil_append] at read
    rw [if_neg somePointer, if_neg only, pointed, Nat.max_eq_right positive]
    split
    · rw [map_some, read]
    · rfl

/-! ### Every line is handed over -/

/-- What is called for a list of lines. -/
theorem filterMap_due (passNo : Nat) (lines : List Text) :
    (lines.filterMap fun l => Line.read (cString l)).filterMap (Line.call passNo) =
      lines.filterMap fun l => due passNo (cString l) := by
  rw [filterMap_filterMap]
  congr 1
  funext l
  apply due_eq
  intro zero
  have nonzero := mem_takeWhile_imp (mem_of_mem_head? zero)
  simp at nonzero

/-- A pass hands every line over exactly when the first one is the only one or needs no call,
and the array has room for the pointers and the `NULL` behind them. -/
theorem every_line_handed_iff {source : List Text} (noNewline : ∀ l ∈ source, 10#8 ∉ l)
    (passNo : Nat) :
    calls (sourceText source) passNo = some (source.filterMap fun l => due passNo (cString l)) ↔
      max 1 (laterLines source).length < (sourceText source).length / 4 ∧
        (laterLines source = [] ∨ ∀ l ∈ source.head?, due passNo (cString l) = none) := by
  rw [calls, sourceLines_eq noNewline]
  by_cases room : max 1 (laterLines source).length < (sourceText source).length / 4
  · rw [if_pos room, map_some, filterMap_due, Option.some.injEq]
    by_cases only : laterLines source = []
    · rw [if_pos only]
      exact ⟨fun _ => ⟨room, Or.inl only⟩, fun _ => rfl⟩
    · rw [if_neg only]
      cases source with
      | nil => exact absurd rfl only
      | cons l source =>
        rw [tail_cons, filterMap_cons]
        cases first : due passNo (cString l) with
        | none => exact ⟨fun _ => ⟨room, Or.inr fun _ isFirst => Option.some.inj isFirst ▸ first⟩,
            fun _ => rfl⟩
        | some call =>
          -- the list of all calls is longer by the one for the first line
          constructor
          · intro same
            have longer := congrArg List.length same
            rw [length_cons] at longer
            omega
          · rintro ⟨_, none | skipped⟩
            · exact absurd none only
            · exact absurd (first.symm.trans (skipped l rfl)) nofun
  · rw [if_neg room]
    simp [room]

/-- A comment in front of an instruction. -/
theorem comment_then_halt :
    calls (sourceText [str "; stop", str "hlt"]) 1 = some [.parseLine (str "hlt")] := by
  have noNewline : ∀ l ∈ [str "; stop", str "hlt"], 10#8 ∉ l := by decide
  exact (every_line_handed_iff noNewline 1).mpr ⟨by decide, Or.inr (by decide)⟩

/-- Of two instructions the first one is not assembled. -/
theorem first_line_lost :
    calls (sourceText [str "nop", str "hlt"]) 1 = some [.parseLine (str "hlt")] ∧
      [str "nop", str "hlt"].filterMap (fun l => due 1 (cString l)) =
        [.parseLine (str "nop"), .parseLine (str "hlt")] := by
  decide

end Crunchy.Lass
