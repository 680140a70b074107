/-
Module: Crunchy.Lib.Ia32
Purpose: The part of the IA-32 instruction format that has to do with addresses: the ModR/M
  and SIB bytes with their displacements, as the source of a load, and relative jumps.
Trusted boundary: human-reviewed spec
Main exports: Regs, Instruction, decode, jumpTarget, decode_load_base, decode_load_sib
-/
import Mathlib.Data.BitVec
import Mathlib.Tactic.NormNum

namespace Crunchy.Lib.Ia32

open BitVec List

/-- The number of a register of 32 bits. -/
abbrev Reg := BitVec 3

/-- What the registers hold. -/
abbrev Regs := Reg → BitVec 32

/-- `[base + index * 2 ^ scale + disp]`. -/
structure Address where
  base : Option Reg
  index : Option (Reg × Nat)
  disp : BitVec 32
  deriving DecidableEq

/-- The effective address. -/
def Address.eval (regs : Regs) (address : Address) : BitVec 32 :=
  (address.base.map regs).getD 0#32 +
    (address.index.map fun scaled => regs scaled.1 <<< scaled.2).getD 0#32 + address.disp

/-- The operand that a ModR/M byte stands for. -/
inductive Operand where
  | register (r : Reg)
  | memory (address : Address)
  deriving DecidableEq

/-- `mov r32, r/m32`, and a jump by a distance from the address behind it. -/
inductive Instruction where
  | load (dest : Reg) (source : Operand)
  | jump (distance : BitVec 32)
  deriving DecidableEq

/-! ### Decoding

Each function gives what it has read and the bytes behind it; `none` if bytes are missing. -/

/-- A displacement of one byte, with its sign. -/
def disp8 : List (BitVec 8) → Option (BitVec 32 × List (BitVec 8))
  | d :: rest => some (d.signExtend 32, rest)
  | [] => none

/-- A displacement of four bytes, the lowest one first. -/
def disp32 : List (BitVec 8) → Option (BitVec 32 × List (BitVec 8))
  | b0 :: b1 :: b2 :: b3 :: rest => some (b3 ++ b2 ++ b1 ++ b0, rest)
  | _ => none

/-- The displacement that goes with the field `mod`. -/
def displacement (mod : BitVec 2) (bytes : List (BitVec 8)) :
    Option (BitVec 32 × List (BitVec 8)) :=
  if mod = 0#2 then some (0#32, bytes)
  else if mod = 1#2 then disp8 bytes
  else disp32 bytes

/-- The upper field of a ModR/M or SIB byte. -/
def highField (b : BitVec 8) : BitVec 2 := b.extractLsb' 6 2

/-- The middle field. -/
def middleField (b : BitVec 8) : BitVec 3 := b.extractLsb' 3 3

/-- The lower field. -/
def lowField (b : BitVec 8) : BitVec 3 := b.extractLsb' 0 3

/-- The SIB byte and the displacement. Index 4 is no index, and base 5 without a displacement
of its own is a displacement of four bytes and no base. -/
def decodeSib (mod : BitVec 2) : List (BitVec 8) → Option (Address × List (BitVec 8))
  | [] => none
  | sib :: rest =>
    let index := if middleField sib = 4#3 then none
      else some (middleField sib, (highField sib).toNat)
    if lowField sib = 5#3 ∧ mod = 0#2 then
      (disp32 rest).map fun r => (⟨none, index, r.1⟩, r.2)
    else (displacement mod rest).map fun r => (⟨some (lowField sib), index, r.1⟩, r.2)

/-- The ModR/M byte and what belongs to it. -/
def decodeModrm : List (BitVec 8) → Option (Reg × Operand × List (BitVec 8))
  | [] => none
  | b :: rest =>
    let mod := highField b
    let rm := lowField b
    if mod = 3#2 then some (middleField b, .register rm, rest)
    else if rm = 4#3 then
      (decodeSib mod rest).map fun r => (middleField b, .memory r.1, r.2)
    else if rm = 5#3 ∧ mod = 0#2 then
      (disp32 rest).map fun r => (middleField b, .memory ⟨none, none, r.1⟩, r.2)
    else (displacement mod rest).map fun r =>
      (middleField b, .memory ⟨some rm, none, r.1⟩, r.2)

/-- The opcode of a jump with a distance of one byte: `jmp`, a condition, `loop` or `jecxz`. -/
def IsShortJump (b : BitVec 8) : Prop :=
  b = 0xEB#8 ∨ b.extractLsb' 4 4 = 7#4 ∨ b.extractLsb' 2 6 = 0x38#6

instance (b : BitVec 8) : Decidable (IsShortJump b) := inferInstanceAs (Decidable (_ ∨ _))

/-- The first instruction and the bytes behind it. -/
def decode : List (BitVec 8) → Option (Instruction × List (BitVec 8))
  | [] => none
  | b :: rest =>
    if b = 0x8B#8 then (decodeModrm rest).map fun r => (.load r.1 r.2.1, r.2.2)
    else if IsShortJump b then (disp8 rest).map fun r => (.jump r.1, r.2)
    else if b = 0xE9#8 then (disp32 rest).map fun r => (.jump r.1, r.2)
    else if b = 0x0F#8 then
      match rest with
      | c :: rest =>
        if c.extractLsb' 4 4 = 8#4 then (disp32 rest).map fun r => (.jump r.1, r.2) else none
      | [] => none
    else none

/-- Where the relative jump at `address` goes, if the bytes begin with one. -/
def jumpTarget (address : BitVec 32) (bytes : List (BitVec 8)) : Option (BitVec 32) :=
  match decode bytes with
  | some (.jump distance, rest) =>
    some (address + BitVec.ofNat 32 (bytes.length - rest.length) + distance)
  | _ => none

/-! ### Displacements -/

/-- The lowest byte of a number stands for it if it fits into 8 bits with its sign. -/
theorem signExtend_setWidth_eq_iff (x : BitVec 32) :
    (x.setWidth 8).signExtend 32 = x ↔ -128 ≤ x.toInt ∧ x.toInt < 128 := by
  have lower := le_toInt x
  have upper := toInt_lt (x := x)
  have residue : (x.toNat : Int) % (2 ^ 8 : Nat) = x.toInt % 256 := by
    rw [toInt_eq_toNat_cond]
    split <;> omega
  rw [← toInt_inj, toInt_signExtend_of_le (by decide), toInt_setWidth, Int.bmod_def, residue]
  norm_num at lower upper ⊢
  omega

/-- The four bytes of a number. -/
theorem disp32_bytes (x : BitVec 32) (rest : List (BitVec 8)) :
    disp32 (x.setWidth 8 :: (x >>> 8).setWidth 8 :: (x >>> 16).setWidth 8 ::
      (x >>> 24).setWidth 8 :: rest) = some (x, rest) := by
  rw [disp32, Option.some.injEq, Prod.mk.injEq]
  refine ⟨?_, rfl⟩
  apply eq_of_getLsbD_eq
  intro i inside
  simp
  grind

/-! ### Loads -/

/-- A ModR/M byte from its fields. -/
def modrmByte (mod : BitVec 2) (reg rm : BitVec 3) : BitVec 8 := mod ++ reg ++ rm

theorem fields_modrmByte (mod : BitVec 2) (reg rm : BitVec 3) :
    highField (modrmByte mod reg rm) = mod ∧ middleField (modrmByte mod reg rm) = reg ∧
      lowField (modrmByte mod reg rm) = rm := by
  refine ⟨?_, ?_, ?_⟩ <;>
  · apply eq_of_getLsbD_eq
    intro i inside
    simp [highField, middleField, lowField, modrmByte]
    grind

/-- What stands behind an opcode `8B`. -/
theorem decode_load (bytes : List (BitVec 8)) :
    decode (0x8B#8 :: bytes) = (decodeModrm bytes).map fun r => (.load r.1 r.2.1, r.2.2) := by
  rw [decode.eq_def]
  exact if_pos rfl

variable {mod : BitVec 2} {reg rm : BitVec 3} {rest : List (BitVec 8)}

/-- A memory operand without a SIB byte. -/
theorem decode_load_base (memory : mod ≠ 3#2) (noSib : rm ≠ 4#3) (hasBase : rm = 5#3 → mod ≠ 0#2)
    (bytes : List (BitVec 8)) :
    decode (0x8B#8 :: modrmByte mod reg rm :: bytes) = (displacement mod bytes).map fun r =>
      (.load reg (.memory ⟨some rm, none, r.1⟩), r.2) := by
  obtain ⟨high, middle, low⟩ := fields_modrmByte mod reg rm
  rw [decode_load, decodeModrm, high, middle, low, if_neg memory, if_neg noSib,
    if_neg fun both => hasBase both.1 both.2, Option.map_map]
  rfl

/-- One with a SIB byte. -/
theorem decode_load_sib (memory : mod ≠ 3#2) (bytes : List (BitVec 8)) :
    decode (0x8B#8 :: modrmByte mod reg 4#3 :: bytes) = (decodeSib mod bytes).map fun r =>
      (.load reg (.memory r.1), r.2) := by
  obtain ⟨high, middle, low⟩ := fields_modrmByte mod reg 4#3
  rw [decode_load, decodeModrm, high, middle, low, if_neg memory, if_pos rfl, Option.map_map]
  rfl

/-- Where only a displacement follows, its first byte is taken for the SIB byte, and one is
missing. -/
theorem decodeSib_missing (sib b1 b2 b3 : BitVec 8) :
    decodeSib 1#2 [sib] = none ∧ decodeSib 2#2 [sib, b1, b2, b3] = none := by
  simp [decodeSib, displacement, disp8, disp32]

/-! ### Jumps -/

theorem jumpTarget_short {b : BitVec 8} (short : IsShortJump b) (address : BitVec 32)
    (d : BitVec 8) (rest : List (BitVec 8)) :
    jumpTarget address (b :: d :: rest) = some (address + 2#32 + d.signExtend 32) := by
  have notLoad : b ≠ 0x8B#8 := by
    rintro rfl
    exact absurd short (by decide)
  have decoded : decode (b :: d :: rest) = some (.jump (d.signExtend 32), rest) := by
    rw [decode, if_neg notLoad, if_pos short]
    rfl
  have behind : (b :: d :: rest).length - rest.length = 2 := by
    rw [length_cons, length_cons]
    omega
  rw [jumpTarget, decoded]
  dsimp only
  rw [behind]

end Crunchy.Lib.Ia32
