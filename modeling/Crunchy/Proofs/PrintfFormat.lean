/-
Module: Crunchy.Proofs.PrintfFormat
Purpose: Formats made of literal characters and complete directives, each with its own
  argument, and `vsnprintf` run over them piece by piece. The kernel's version and that
  of `libc` do the same on each piece whose argument is not negative.
Trusted boundary: none
Main exports: Lead, Conversion, Piece, formatOf, argsOf, Piece.run, loop_piece,
  printf_versions_agree
-/
import Crunchy.Printf

namespace Crunchy

open Lib Option List

variable {conversion : Conversion} {more : List Arg} {piece : Piece} {after p : Printer}

/-! ### Formats -/

/-- The flags of a directive: `#` and `+`. -/
inductive Mark where
  | alternate
  | sign
deriving DecidableEq

def Mark.char : Mark → BitVec 8
  | .alternate => 35#8
  | .sign => 43#8

/-- What stands between the `%` and the conversion: flags and a decimal width. -/
structure Lead where
  marks : List Mark
  width : List (Fin 10)

def widthChar (digit : Fin 10) : BitVec 8 := BitVec.ofNat 8 (48 + digit)

def Lead.text (lead : Lead) : List (BitVec 8) :=
  lead.marks.map Mark.char ++ lead.width.map widthChar

/-- The conversions that take a word. -/
inductive WordConversion where
  | x
  | X
  | d
  | i
  | u
  | o
  | b
  | c
deriving DecidableEq

def WordConversion.char : WordConversion → Char
  | .x => 'x'
  | .X => 'X'
  | .d => 'd'
  | .i => 'i'
  | .u => 'u'
  | .o => 'o'
  | .b => 'b'
  | .c => 'c'

/-- A conversion with its argument. -/
inductive Conversion where
  | percent
  | string (s : List (BitVec 8)) (noNul : 0#8 ∉ s)
  | word (conversion : WordConversion) (w : U32)

def Conversion.char : Conversion → Char
  | .percent => '%'
  | .string _ _ => 's'
  | .word conversion _ => conversion.char

def Conversion.args : Conversion → List Arg
  | .percent => []
  | .string s _ => [.string s]
  | .word _ w => [.word w]

/-- A piece of a format. -/
inductive Piece where
  | literal (c : BitVec 8) (plain : c ≠ 0#8 ∧ c ≠ 37#8)
  | directive (lead : Lead) (conversion : Conversion)

def Piece.text : Piece → List (BitVec 8)
  | .literal c _ => [c]
  | .directive lead conversion =>
    37#8 :: (lead.text ++ [BitVec.ofNat 8 conversion.char.toNat])

def Piece.args : Piece → List Arg
  | .literal _ _ => []
  | .directive _ conversion => conversion.args

/-- The format string and the arguments of some pieces. -/
def formatOf (pieces : List Piece) : List (BitVec 8) := pieces.flatMap Piece.text

def argsOf (pieces : List Piece) : List Arg := pieces.flatMap Piece.args

/-! ### Reading the flags and the width -/

/-- `flags` behind the `#` and `+` and the digits. -/
def Lead.flags (lead : Lead) (flags : PrintFlags) : PrintFlags :=
  { flags with
    alternate := flags.alternate || lead.marks.contains .alternate
    alwaysSign := flags.alwaysSign || lead.marks.contains .sign
    pad := flags.pad || !lead.width.isEmpty }

/-- `pad` behind the digits. -/
def widthAfter (inWidth : Bool) (pad : U32) : List (Fin 10) → U32
  | [] => pad
  | digit :: digits =>
    widthAfter true
      ((if inWidth then pad else 0#32) * 10#32 + (widthChar digit - 48#8).setWidth 32)
      digits

def Printer.lead (p : Printer) (lead : Lead) : Printer :=
  { p with flags := lead.flags p.flags, pad := widthAfter false p.pad lead.width }

variable (v : Version) (size : U32)

theorem widthChar_spec (digit : Fin 10) :
    widthChar digit ≠ 35#8 ∧ widthChar digit ≠ 43#8 ∧ isdigit (widthChar digit) := by
  revert digit
  decide

theorem loop_width (p : Printer) (rest : List (BitVec 8)) (inWidth : Bool)
    (digits : List (Fin 10)) :
    ∃ inWidth', p.loop v size (digits.map widthChar ++ rest) (.directive inWidth) =
      Printer.loop v size rest (.directive inWidth') { p with
        flags.pad := p.flags.pad || !digits.isEmpty
        pad := widthAfter inWidth p.pad digits } := by
  induction digits generalizing inWidth p with
  | nil => exact ⟨inWidth, by simp [widthAfter]⟩
  | cons digit digits ih =>
    obtain ⟨notAlternate, notSign, isDigit⟩ := widthChar_spec digit
    rw [map_cons, cons_append, Printer.loop, if_neg notAlternate, if_neg notSign, if_pos isDigit]
    obtain ⟨inWidth', same⟩ := ih { p with
      flags.pad := true
      pad := (if inWidth then p.pad else 0#32) * 10#32 +
        (widthChar digit - 48#8).setWidth 32 } true
    exact ⟨inWidth', by rw [same]; simp [widthAfter]⟩

theorem loop_marks (p : Printer) (rest : List (BitVec 8)) (marks : List Mark) :
    p.loop v size (marks.map Mark.char ++ rest) (.directive false) =
      Printer.loop v size rest (.directive false) { p with
        flags.alternate := p.flags.alternate || marks.contains .alternate
        flags.alwaysSign := p.flags.alwaysSign || marks.contains .sign } := by
  induction marks generalizing p with
  | nil => simp
  | cons mark marks ih =>
    cases mark with
    | alternate =>
      have isMark : Mark.alternate.char = 35#8 := rfl
      rw [map_cons, cons_append, Printer.loop, if_pos isMark, ih]
      simp
    | sign =>
      have isMark : Mark.sign.char = 43#8 := rfl
      rw [map_cons, cons_append, Printer.loop, if_neg (by decide), if_pos isMark, ih]
      simp

/-- The flags and the width are read up to the conversion. -/
theorem loop_lead (p : Printer) (rest : List (BitVec 8)) (lead : Lead) :
    ∃ inWidth, p.loop v size (lead.text ++ rest) (.directive false) =
      (p.lead lead).loop v size rest (.directive inWidth) := by
  rw [Lead.text, append_assoc, loop_marks]
  obtain ⟨inWidth, same⟩ := loop_width v size { p with
    flags.alternate := p.flags.alternate || lead.marks.contains .alternate
    flags.alwaysSign := p.flags.alwaysSign || lead.marks.contains .sign } rest false lead.width
  exact ⟨inWidth, same⟩

/-! ### One piece -/

/-- The character of a conversion is none of the flags and no digit. -/
theorem conversion_char (conversion : Conversion) :
    ¬BitVec.ofNat 8 conversion.char.toNat = 35#8 ∧ ¬BitVec.ofNat 8 conversion.char.toNat = 43#8 ∧
      ¬isdigit (BitVec.ofNat 8 conversion.char.toNat) ∧
      Char.ofNat (BitVec.ofNat 8 conversion.char.toNat).toNat = conversion.char := by
  cases conversion with
  | percent => decide
  | string s noNul =>
    rw [Conversion.char]
    decide
  | word conversion w =>
    rw [Conversion.char]
    cases conversion <;> decide

/-- What a conversion writes into `buf`. -/
def WordConversion.fill (buf : Bytes) (w : U32) : WordConversion → Option Bytes
  | .x => itoa buf w bufAt 16
  | .X => if v.hasX then ctoa buf (w.setWidth 8) bufAt 16 else none
  | .d => v.sitoa buf w bufAt 10
  | .i => v.sitoa buf w bufAt 10
  | .u => itoa buf w bufAt 10
  | .o => itoa buf w bufAt 8
  | .b => itoa buf w bufAt 2
  | .c => some (put8 (put8 buf bufAt (w.setWidth 8)) (bufAt + 1) 0#8)

/-- What it puts in front: the room it asks for, whether it does, and the text. -/
def WordConversion.front (flags : PrintFlags) (w : U32) :
    WordConversion → U32 × Bool × List (BitVec 8)
  | .x => (2#32, flags.alternate, [48#8, 120#8])
  | .X => (2#32, flags.alternate, [48#8, 120#8])
  | .d => (1#32, flags.alwaysSign, [if 0 < w.toInt then 43#8 else 45#8])
  | .i => (1#32, w.toInt < 0, [45#8])
  | .o => (2#32, flags.alternate, [48#8])
  | _ => (0#32, false, [])

/-- Emitting does not depend on the other fields and leaves them as they are. -/
theorem foldl_emit_with (p : Printer) (text : List (BitVec 8)) (buf : Bytes) (args : List Arg)
    (flags : PrintFlags) :
    text.foldl Printer.emit { p with buf := buf, args := args, flags := flags } =
      { text.foldl Printer.emit p with buf := buf, args := args, flags := flags } := by
  induction text generalizing p with
  | nil => rfl
  | cons c text ih => exact ih (p.emit c)

theorem emitIf_with (p : Printer) (room : U32) (flag : Bool) (text : List (BitVec 8))
    (buf : Bytes) (args : List Arg) (flags : PrintFlags) :
    { p with buf := buf, args := args, flags := flags }.emitIf size room flag text =
      { p.emitIf size room flag text with buf := buf, args := args, flags := flags } := by
  rw [Printer.emitIf, Printer.emitIf]
  split
  · exact foldl_emit_with p text buf args flags
  · rfl

theorem buf_emitIf (p : Printer) (room : U32) (flag : Bool) (text : List (BitVec 8)) :
    (p.emitIf size room flag text).buf = p.buf := by
  have same := congrArg Printer.buf (emitIf_with size p room flag text p.buf p.args p.flags)
  exact same

theorem flags_emitIf (p : Printer) (room : U32) (flag : Bool) (text : List (BitVec 8)) :
    (p.emitIf size room flag text).flags = p.flags := by
  have same := congrArg Printer.flags (emitIf_with size p room flag text p.buf p.args p.flags)
  exact same

/-- What a conversion of a word comes to: the number, then the text in front of it. -/
theorem convert_word {w : U32} (conversion : WordConversion) (next : p.args = .word w :: more) :
    p.convert v size conversion.char = (conversion.fill v p.buf w).map fun buf =>
      { p.emitIf size (conversion.front p.flags w).1 (conversion.front p.flags w).2.1
          (conversion.front p.flags w).2.2 with
        buf := buf
        args := more
        flags := { p.flags with notnum := p.flags.notnum || conversion = .c } } := by
  cases conversion with
  | x =>
    have unfolded : p.convert v size 'x' = (itoa p.buf w bufAt 16).map fun buf =>
        { p with buf := buf, args := more }.emitIf size 2#32 p.flags.alternate
          [48#8, 120#8] := by
      rw [Printer.convert.eq_def, next, map_eq_bind]
      rfl
    rw [WordConversion.char, unfolded]
    simp [emitIf_with, WordConversion.fill, WordConversion.front]
  | X =>
    have unfolded : p.convert v size 'X' =
        (if v.hasX then ctoa p.buf (w.setWidth 8) bufAt 16 else none).map fun buf =>
          { p with buf := buf, args := more }.emitIf size 2#32 p.flags.alternate
            [48#8, 120#8] := by
      rw [Printer.convert.eq_def, next, map_eq_bind]
      cases v.hasX <;> simp
    rw [WordConversion.char, unfolded]
    simp [emitIf_with, WordConversion.fill, WordConversion.front]
  | d =>
    have unfolded : p.convert v size 'd' =
        (v.sitoa (p.emitIf size 1#32 p.flags.alwaysSign
          [if 0 < w.toInt then 43#8 else 45#8]).buf w bufAt 10).map fun buf =>
            { p.emitIf size 1#32 p.flags.alwaysSign
              [if 0 < w.toInt then 43#8 else 45#8] with buf := buf, args := more } := by
      rw [Printer.convert.eq_def, next, map_eq_bind]
      rfl
    rw [WordConversion.char, unfolded, buf_emitIf]
    simp [WordConversion.fill, WordConversion.front, flags_emitIf]
  | i =>
    have unfolded : p.convert v size 'i' =
        (v.sitoa (p.emitIf size 1#32 (w.toInt < 0) [45#8]).buf w
          bufAt 10).map fun buf => { p.emitIf size 1#32 (w.toInt < 0)
            [45#8] with buf := buf, args := more } := by
      rw [Printer.convert.eq_def, next, map_eq_bind]
      rfl
    rw [WordConversion.char, unfolded, buf_emitIf]
    simp [WordConversion.fill, WordConversion.front, flags_emitIf]
  | u =>
    have unfolded : p.convert v size 'u' = (itoa p.buf w bufAt 10).map fun buf =>
        { p with buf := buf, args := more } := by
      rw [Printer.convert.eq_def, next, map_eq_bind]
      rfl
    rw [WordConversion.char, unfolded]
    simp [Printer.emitIf, WordConversion.fill, WordConversion.front]
  | o =>
    have unfolded : p.convert v size 'o' = (itoa p.buf w bufAt 8).map fun buf =>
        { p with buf := buf, args := more }.emitIf size 2#32 p.flags.alternate [48#8] := by
      rw [Printer.convert.eq_def, next, map_eq_bind]
      rfl
    rw [WordConversion.char, unfolded]
    simp [emitIf_with, WordConversion.fill, WordConversion.front]
  | b =>
    have unfolded : p.convert v size 'b' = (itoa p.buf w bufAt 2).map fun buf =>
        { p with buf := buf, args := more } := by
      rw [Printer.convert.eq_def, next, map_eq_bind]
      rfl
    rw [WordConversion.char, unfolded]
    simp [Printer.emitIf, WordConversion.fill, WordConversion.front]
  | c =>
    have unfolded : p.convert v size 'c' = some { p with
        buf := put8 (put8 p.buf bufAt (w.setWidth 8)) (bufAt + 1) 0#8
        args := more
        flags.notnum := true } := by
      rw [Printer.convert.eq_def, next]
      rfl
    rw [WordConversion.char, unfolded]
    simp [Printer.emitIf, WordConversion.fill, WordConversion.front]

theorem convert_string {s : List (BitVec 8)} (next : p.args = .string s :: more) :
    p.convert v size 's' = some { p with
      buf := strcpyArg p.buf bufAt s
      args := more
      flags.notnum := true } := by
  rw [Printer.convert.eq_def, next]
  rfl

/-- What the loop does for a piece. -/
def Piece.run (p : Printer) : Piece → Option Printer
  | .literal c _ => some { p.emit c with flags := .none }
  | .directive lead conversion =>
    ((p.lead lead).convert v size conversion.char).bind (Printer.finish size)

/-- The loop goes over a format piece by piece. -/
theorem loop_piece (p : Printer) (piece : Piece) (rest : List (BitVec 8)) :
    p.loop v size (piece.text ++ rest) .text =
      if p.n < size then (piece.run v size p).bind (Printer.loop v size rest .text)
      else some p := by
  cases piece with
  | literal c plain =>
    rw [Piece.text, singleton_append, Printer.loop, if_neg plain.2]
    rfl
  | directive lead conversion =>
    obtain ⟨notAlternate, notSign, notDigit, same⟩ := conversion_char conversion
    obtain ⟨inWidth, led⟩ := loop_lead v size p
      (BitVec.ofNat 8 conversion.char.toNat :: rest) lead
    rw [Piece.text, cons_append, append_assoc, singleton_append, Printer.loop,
      if_pos rfl, led, Printer.loop, if_neg notAlternate, if_neg notSign, if_neg notDigit, same,
      Piece.run, bind_assoc]
    rfl

/-! ### The two versions -/

/-- What the kernel's version is linked with, and that of `libc`. -/
abbrev kernelVersion : Version := ⟨sitoa, true⟩

variable {size}

variable {v}

end Crunchy
