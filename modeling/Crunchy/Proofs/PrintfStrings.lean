/-
Module: Crunchy.Proofs.PrintfStrings
Purpose: What `vsnprintf` writes for formats of literal characters, `%s` and `%c` without a
  width, and when that is the whole text.
Trusted boundary: none
Main exports: TextPiece, wholeText, loop_texts, PrintFits, PrintsWhole, printf_strings_iff
-/
import Crunchy.Proofs.PrintfLimit

namespace Crunchy

open Lib BitVec Option List

/-! ### Formats of texts -/

/-- A literal character, a `%s` with its string or a `%c` with its word, with flags but without
a width. -/
inductive TextPiece where
  | literal (c : BitVec 8) (plain : c ≠ 0#8 ∧ c ≠ 37#8)
  | string (marks : List Mark) (s : List (BitVec 8)) (noNul : 0#8 ∉ s)
  | char (marks : List Mark) (w : U32)

def TextPiece.piece : TextPiece → Piece
  | .literal c plain => .literal c plain
  | .string marks s noNul => .directive ⟨marks, []⟩ (.string s noNul)
  | .char marks w => .directive ⟨marks, []⟩ (.word .c w)

/-- What stands for it in the expansion of the format. -/
def TextPiece.whole : TextPiece → List (BitVec 8)
  | .literal c _ => [c]
  | .string _ s _ => s
  | .char _ w => [w.setWidth 8]

/-- The expansion of the format. -/
def wholeText (pieces : List TextPiece) : List (BitVec 8) := pieces.flatMap TextPiece.whole

/-- The text that is written for it, under its test: `strcpy` takes the length of a string as
16 bits, and a `NUL` is an empty string. -/
def TextPiece.stretch : TextPiece → Stretch
  | .literal c _ => .literal c
  | .string _ s _ => .run (s.take (s.length % 2 ^ 16))
  | .char _ w => .run (if w.setWidth 8 = 0#8 then [] else [w.setWidth 8])

/-! ### One piece -/

variable {size : U32} {p : Printer} {front : BitVec 8}

/-- Before a piece: no padding is asked for, the scratch buffer is clear. -/
structure Printer.Ready (size : Nat) (front : BitVec 8) (p : Printer) (args : List Arg) :
    Prop where
  noPad : p.flags.pad = false
  scratch : Scratch size p.buf front []
  args : p.args = args

/-- A body without padding. -/
theorem finish_text {t : List (BitVec 8)} (small : size.toNat ≤ 2 ^ 31)
    (inside : p.n.toNat ≤ size.toNat) (noPad : p.flags.pad = false)
    (scratch : Scratch size.toNat p.buf front t) :
    p.finish size = some { p.put ((Stretch.run t).cut size.toNat p.n.toNat) with
      buf := memset p.buf bufAt 0#8 t.length } := by
  have body : bodyOf p.buf t.length = t := scratch.read
  have content : p.desk.content t.length = [.run [], .run t] := by
    rw [Desk.content, padding, if_neg fun pads => Bool.false_ne_true (noPad.symm.trans pads.1)]
    exact congrArg (fun body => [Stretch.run [], .run body]) body
  have alone : cutAll size.toNat p.n.toNat [.run [], .run t] =
      (Stretch.run t).cut size.toNat p.n.toNat := by
    simp [cutAll, Stretch.cut, Stretch.reach]
  rw [finish_eq_cut small inside, scratch.strlen (by omega), map_some, content, alone]

/-- A directive whose conversion leaves the string `t` in the scratch buffer. -/
theorem directive_text {marks : List Mark} {conversion : Conversion} {q : Printer}
    {t : List (BitVec 8)} {more : List Arg} (small : size.toNat ≤ 2 ^ 31)
    (inside : p.n.toNat ≤ size.toNat) (noPad : p.flags.pad = false)
    (converted : (p.lead ⟨marks, []⟩).convert kernelVersion size conversion.char = some q)
    (sameStr : q.str = p.str) (sameN : q.n = p.n)
    (flags : q.flags = { (p.lead ⟨marks, []⟩).flags with notnum := true })
    (scratch : Scratch size.toNat q.buf front t) (args : q.args = more) :
    ∃ q', (Piece.directive ⟨marks, []⟩ conversion).run kernelVersion size p = some q' ∧
      Wrote p ((Stretch.run t).cut size.toNat p.n.toNat) q' ∧ q'.Ready size.toNat front more := by
  have noPad' : q.flags.pad = false := by
    rw [flags]
    simp [Printer.lead, Lead.flags, noPad]
  have finished := finish_text small (sameN ▸ inside) noPad' scratch
  refine ⟨{ q.put ((Stretch.run t).cut size.toNat q.n.toNat) with
    buf := memset q.buf bufAt 0#8 t.length }, ?_, ⟨?_, ?_⟩, noPad', scratch.clear, args⟩
  · rw [Piece.run, converted, bind_some, finished]
  · dsimp only
    rw [Printer.put, Printer.put, sameStr, sameN]
  · dsimp only
    rw [Printer.put, Printer.put, sameN]

/-- What a piece writes and leaves. -/
theorem run_text {piece : TextPiece} {more : List Arg} (small : size.toNat ≤ 2 ^ 31)
    (inside : p.n < size) (ready : p.Ready size.toNat front (piece.piece.args ++ more))
    (short : piece.whole.length < size.toNat) :
    ∃ q, piece.piece.run kernelVersion size p = some q ∧
      Wrote p (piece.stretch.cut size.toNat p.n.toNat) q ∧ q.Ready size.toNat front more := by
  obtain ⟨noPad, clean, args⟩ := ready
  cases piece with
  | literal c plain =>
    have one : (Stretch.literal c).cut size.toNat p.n.toNat = [c] := if_pos inside
    refine ⟨_, rfl, ?_, rfl, clean, args⟩
    rw [TextPiece.stretch, one]
    constructor <;> rw [emit_eq_put]
  | string marks s noNul =>
    have whole : s.length < size.toNat := short
    refine directive_text small (Nat.le_of_lt inside) noPad
      (convert_string kernelVersion size args) rfl rfl rfl ?_ rfl
    dsimp only
    rw [strcpyArg_eq]
    refine clean.write (fun zero => noNul (mem_of_mem_take zero)) ?_
    rw [length_take]
    omega
  | char marks w =>
    have whole : 1 < size.toNat := short
    have converted := convert_word kernelVersion size .c (p := p.lead ⟨marks, []⟩) args
    rw [WordConversion.fill, map_some] at converted
    refine directive_text small (Nat.le_of_lt inside) noPad converted rfl rfl ?_
      (clean.char ?_) rfl
    · dsimp only
      rw [decide_eq_true rfl, Bool.or_true]
    · split <;> simp <;> omega

/-! ### Whole formats -/

/-- What the loop writes for such a format, by induction on its pieces. -/
theorem loop_texts {pieces : List TextPiece} (small : size.toNat ≤ 2 ^ 31)
    (inside : p.n.toNat ≤ size.toNat)
    (ready : p.Ready size.toNat front (argsOf (pieces.map TextPiece.piece)))
    (short : (wholeText pieces).length < size.toNat) :
    ∃ q, p.loop kernelVersion size (formatOf (pieces.map TextPiece.piece)) .text = some q ∧
      Wrote p (cutAll size.toNat p.n.toNat (pieces.map TextPiece.stretch)) q := by
  induction pieces generalizing p with
  | nil =>
    refine ⟨p, rfl, ?_⟩
    constructor <;> rw [map_nil, cutAll, put_nil]
  | cons piece pieces ih =>
    have lengths : (wholeText (piece :: pieces)).length =
        piece.whole.length + (wholeText pieces).length := length_append
    have spelled : formatOf ((piece :: pieces).map TextPiece.piece) =
        piece.piece.text ++ formatOf (pieces.map TextPiece.piece) := rfl
    rw [spelled, loop_piece]
    by_cases more : p.n < size
    · obtain ⟨between, ran, wrote, ready'⟩ := run_text small more ready (by omega)
      have length : p.n.toNat + (piece.stretch.cut size.toNat p.n.toNat).length =
          piece.stretch.reach size.toNat p.n.toNat := Stretch.length_cut
      have bound : piece.stretch.reach size.toNat p.n.toNat ≤ size.toNat :=
        Stretch.reach_le inside
      have behind : between.n.toNat = piece.stretch.reach size.toNat p.n.toNat := by
        rw [wrote.n, toNat_put (by omega), length]
      obtain ⟨after, looped, wroteMore⟩ := ih (by omega) ready' (by omega)
      refine ⟨after, ?_, ?_⟩
      · rw [if_pos more, ran, bind_some, looped]
      · rw [map_cons, cutAll, ← behind]
        exact wrote.trans wroteMore (by omega)
    · have full : p.n.toNat = size.toNat := by
        rw [lt_def] at more
        omega
      refine ⟨p, if_neg more, ?_⟩
      rw [full, cutAll_full]
      constructor <;> rw [put_nil]

/-! ### Texts that are printed whole -/

/-- The piece is printed whole from position `n` on: a string that is short enough for its
length to be taken as it is and has room for twice its length less one, a character that is
not the `NUL`. -/
def TextPiece.Fits (size n : Nat) : TextPiece → Prop
  | .literal _ _ => True
  | .string _ s _ => s.length < 2 ^ 16 ∧ n + 2 * s.length ≤ size + 1
  | .char _ w => w.setWidth 8 ≠ 0#8

/-- Each piece is, at its position in the expansion. -/
def PrintFits (size : Nat) : Nat → List TextPiece → Prop
  | _, [] => True
  | n, piece :: pieces => piece.Fits size n ∧ PrintFits size (n + piece.whole.length) pieces

/-- What is written of a piece is its text, or less. -/
theorem cut_cases {size n : Nat} (piece : TextPiece) (room : n + piece.whole.length ≤ size) :
    piece.Fits size n ∧ piece.stretch.cut size n = piece.whole ∨
      ¬ piece.Fits size n ∧ (piece.stretch.cut size n).length < piece.whole.length := by
  cases piece with
  | literal c plain =>
    have one : n < size := room
    exact .inl ⟨trivial, if_pos one⟩
  | string marks s noNul =>
    by_cases fits : s.length < 2 ^ 16 ∧ n + 2 * s.length ≤ size + 1
    · refine .inl ⟨fits, ?_⟩
      rw [TextPiece.stretch, Stretch.cut, TextPiece.whole, take_take, take_of_length_le]
      rw [Nat.mod_eq_of_lt fits.1]
      omega
    · refine .inr ⟨fits, ?_⟩
      rw [TextPiece.stretch, Stretch.cut, TextPiece.whole, take_take, length_take]
      by_cases long : s.length < 2 ^ 16
      · have tight : ¬ n + 2 * s.length ≤ size + 1 := fun enough => fits ⟨long, enough⟩
        omega
      · have wrapped := Nat.mod_lt s.length (show 0 < 2 ^ 16 by decide)
        omega
  | char marks w =>
    have one : n < size := room
    by_cases zero : w.setWidth 8 = 0#8
    · refine .inr ⟨fun fits => fits zero, ?_⟩
      rw [TextPiece.stretch, if_pos zero, Stretch.cut, take_nil]
      exact Nat.one_pos
    · refine .inl ⟨zero, ?_⟩
      rw [TextPiece.stretch, if_neg zero, Stretch.cut, take_of_length_le]
      · rfl
      · rw [length_singleton]
        omega

/-- What is written of a format is its expansion, or less. -/
theorem cutAll_cases {size n : Nat} (pieces : List TextPiece)
    (room : n + (wholeText pieces).length ≤ size) :
    PrintFits size n pieces ∧ cutAll size n (pieces.map TextPiece.stretch) = wholeText pieces ∨
      ¬ PrintFits size n pieces ∧
        (cutAll size n (pieces.map TextPiece.stretch)).length < (wholeText pieces).length := by
  induction pieces generalizing n with
  | nil => exact .inl ⟨trivial, rfl⟩
  | cons piece pieces ih =>
    have split : wholeText (piece :: pieces) = piece.whole ++ wholeText pieces := rfl
    have reached : n + (piece.stretch.cut size n).length = piece.stretch.reach size n :=
      Stretch.length_cut
    rw [split, length_append] at room
    rw [split, map_cons, cutAll, PrintFits, length_append, length_append]
    rcases cut_cases piece (show n + piece.whole.length ≤ size by omega) with
      ⟨fits, whole⟩ | ⟨tooLong, less⟩
    · rw [whole] at reached
      rw [whole, ← reached]
      rcases ih (n := n + piece.whole.length) (by omega) with
        ⟨fitMore, wholeMore⟩ | ⟨tooLong, less⟩
      · exact .inl ⟨⟨fits, fitMore⟩, by rw [wholeMore]⟩
      · exact .inr ⟨fun all => tooLong all.2, by omega⟩
    · refine .inr ⟨fun all => tooLong all.1, ?_⟩
      have atMost : (cutAll size (piece.stretch.reach size n)
          (pieces.map TextPiece.stretch)).length ≤ (wholeText pieces).length := by
        rcases ih (n := piece.stretch.reach size n) (by omega) with
          ⟨_, wholeMore⟩ | ⟨_, lessMore⟩
        · rw [wholeMore]
        · exact Nat.le_of_lt lessMore
      omega

/-- The call writes the expansion and a `NUL` behind it, and returns its length. -/
def PrintsWhole (str buf : Bytes) (size : U32) (pieces : List TextPiece) : Prop :=
  ∃ out n, vsnprintf str buf size (formatOf (pieces.map TextPiece.piece))
      (argsOf (pieces.map TextPiece.piece)) = some (out, n) ∧
    n.toNat = (wholeText pieces).length ∧
    (∀ i, (inside : i < (wholeText pieces).length) → out i = (wholeText pieces)[i]) ∧
    out (wholeText pieces).length = 0#8

/-- For every format of literal characters, `%s` and `%c` and every size that is greater than
the length of its expansion: the expansion is printed whole exactly when every string has less
than 2^16 characters and room for twice its length less one, and no character is a `NUL`. -/
theorem printf_strings_iff (fit : ArraysFit size) (str buf : Bytes) (pieces : List TextPiece)
    (room : (wholeText pieces).length < size.toNat) :
    PrintsWhole str buf size pieces ↔ PrintFits size.toNat 0 pieces := by
  have small := fit.small
  set args := argsOf (pieces.map TextPiece.piece) with isArgs
  obtain ⟨q, looped, wrote⟩ := loop_texts (p := startPrinter str buf size args) small
    (Nat.zero_le _) ⟨rfl, scratch_start (by omega), isArgs⟩ room
  have start : (startPrinter str buf size args).n.toNat = 0 := rfl
  have result : vsnprintf str buf size (formatOf (pieces.map TextPiece.piece)) args =
      some (q.str, q.n) := congrArg (Option.map fun p : Printer => (p.str, p.n)) looped
  rw [start] at wrote
  rcases cutAll_cases (n := 0) pieces (show 0 + (wholeText pieces).length ≤ size.toNat by omega)
    with ⟨fits, whole⟩ | ⟨tooLong, less⟩
  · refine iff_of_true ⟨q.str, q.n, result, ?_, fun i inside => ?_, ?_⟩ fits
    all_goals rw [whole] at wrote
    · rw [wrote.n, toNat_put (by omega), start, Nat.zero_add]
    · have char := writeText_inside (b := memset str 0 0#8 size.toNat) (o := 0) inside
      rw [Nat.zero_add, getD_eq_getElem _ _ inside] at char
      rw [wrote.str]
      exact char
    · rw [wrote.str]
      show writeText (memset str 0 0#8 size.toNat) 0 (wholeText pieces) _ = 0#8
      rw [writeText_outside (by omega), memset_inside (Nat.zero_le _) (by omega)]
  · refine iff_of_false ?_ tooLong
    rintro ⟨out, n, isResult, count, _⟩
    rw [result] at isResult
    obtain ⟨rfl, rfl⟩ := Prod.mk.inj (Option.some.inj isResult)
    rw [wrote.n, toNat_put (by omega), start] at count
    omega

/-- `"%s!"` with a string of two characters, in a buffer of four bytes. -/
theorem printf_strings_two :
    PrintsWhole (fun _ => 7#8) (fun _ => 7#8) 4#32
      [.string [] [104#8, 105#8] (by decide), .literal 33#8 (by decide)] :=
  (printf_strings_iff ⟨0, 4, by decide, by decide, by decide⟩ _ _ _ (by decide)).mpr
    ⟨⟨by decide, by decide⟩, trivial, trivial⟩

/-- `"%s"` with a string of four characters, in a buffer of five bytes: three of them are
printed. -/
theorem printf_string_cut :
    ¬ ∀ (size : U32) (str buf : Bytes) (pieces : List TextPiece), ArraysFit size →
      (wholeText pieces).length < size.toNat → PrintsWhole str buf size pieces := by
  intro all
  obtain ⟨out, n, result, count, _⟩ := all 5#32 (fun _ => 0#8) (fun _ => 0#8)
    [.string [] [97#8, 98#8, 99#8, 100#8] (by decide)] ⟨0, 5, by decide, by decide, by decide⟩
    (by decide)
  have run : (vsnprintf (fun _ => 0#8) (fun _ => 0#8) 5#32 [37#8, 115#8]
      [.string [97#8, 98#8, 99#8, 100#8]]).map Prod.snd = some 3#32 := by decide +kernel
  have three : n = 3#32 :=
    Option.some.inj ((congrArg (Option.map Prod.snd) result).symm.trans run)
  subst three
  exact absurd count (by decide)

end Crunchy
