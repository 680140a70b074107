/-
Module: Crunchy.User.Opcodes
Purpose: The tables of `user/opcodes.h`: what an operand can be, the names of the registers,
  and the instructions that the assembler knows.
Trusted boundary: human-reviewed spec
Main exports: str, SyntaxEntry, registers, half, segments, Isa, x86, modrm
-/
import Crunchy.Types

namespace Crunchy.Lass

/-- The characters of a string literal. -/
def str (s : String) : List (BitVec 8) := s.toList.map fun c => BitVec.ofNat 8 c.toNat

/-! ### Operands -/

/-- `none`. -/
def opNone : U32 := 0#32

/-- A register of 32 bits; `rm32` is the same number. -/
def r32 : U32 := 0x10#32

/-- The other name of `r32`. -/
def rm32 : U32 := r32

/-- A register of 8 bits; `rm8` is the same number. -/
def r8 : U32 := 0x20#32

/-- The other name of `r8`. -/
def rm8 : U32 := r8

/-- A number of 8 bits. -/
def imm8 : U32 := 0x40#32

/-- A number of 32 bits. -/
def imm32 : U32 := 0x80#32

/-- A control register. -/
def crn : U32 := 0x100#32

/-- A distance of 8 bits. -/
def rel8 : U32 := 0x200#32

/-- A distance of 32 bits. -/
def rel32 : U32 := 0x400#32

/-- A segment register. -/
def sreg : U32 := 0x1000#32

/-- `MOD_ZERO`: no displacement. -/
def modZero : U32 := 0#32

/-- `MOD_ONE`: a displacement of one byte. -/
def modOne : U32 := 1#32

/-- `MOD_FOUR`: a displacement of four bytes. -/
def modFour : U32 := 2#32

/-- `MOD_REG`: a register. -/
def modReg : U32 := 3#32

/-- `MODRM(mod, reg, rm)`. -/
def modrm (mod reg rm : U32) : U32 :=
  (mod &&& 3#32) <<< 6 ||| (reg &&& 7#32) <<< 3 ||| rm &&& 7#32

/-! ### Registers -/

/-- A name and its number. -/
structure SyntaxEntry where
  name : List (BitVec 8)
  code : U32

/-- `registers`: the registers of 32 bits, and those of 16 bits under the same numbers. -/
def registers : List SyntaxEntry :=
  [⟨str "eax", 0#32⟩, ⟨str "ecx", 1#32⟩, ⟨str "edx", 2#32⟩, ⟨str "ebx", 3#32⟩,
   ⟨str "esp", 4#32⟩, ⟨str "ebp", 5#32⟩, ⟨str "esi", 6#32⟩, ⟨str "edi", 7#32⟩,
   ⟨str "ax", 0#32⟩, ⟨str "cx", 1#32⟩, ⟨str "dx", 2#32⟩, ⟨str "bx", 3#32⟩,
   ⟨str "sp", 4#32⟩, ⟨str "bp", 5#32⟩, ⟨str "si", 6#32⟩, ⟨str "di", 7#32⟩]

/-- `half`: the registers of 8 bits. The high ones have the numbers of the low ones. -/
def half : List SyntaxEntry :=
  [⟨str "al", 0#32⟩, ⟨str "cl", 1#32⟩, ⟨str "dl", 2#32⟩, ⟨str "bl", 3#32⟩,
   ⟨str "ah", 0#32⟩, ⟨str "ch", 1#32⟩, ⟨str "dh", 2#32⟩, ⟨str "bh", 3#32⟩]

/-- `segments`. -/
def segments : List SyntaxEntry :=
  [⟨str "ss", 2#32⟩, ⟨str "cs", 1#32⟩, ⟨str "es", 0#32⟩, ⟨str "fs", 4#32⟩,
   ⟨str "gs", 5#32⟩, ⟨str "ds", 3#32⟩]

/-! ### Instructions

From here on the names of registers stand for operands: `eax` has a bit that no other
operand has. -/

def eax : U32 := r32 ||| 0#32 ||| 0x800#32
def edx : U32 := r32 ||| 2#32
def ecx : U32 := r32 ||| 1#32
def ss : U32 := sreg ||| 2#32
def cs : U32 := sreg ||| 1#32
def ds : U32 := sreg ||| 3#32
def es : U32 := sreg ||| 0#32
def fs : U32 := sreg ||| 4#32
def gs : U32 := sreg ||| 5#32

/-- `isa`: the operands of an instruction and the bytes it is made of. -/
structure Isa where
  name : List (BitVec 8)
  op1 : U32
  op2 : U32
  primary : U32
  extension : U32
  secondary : U32
  prefixByte : U32
  deriving DecidableEq

/-- `0xDEAD` as `extension`: the register is part of the opcode. -/
def altEncoding : U32 := 0xDEAD#32

/-- `x86`. -/
def x86 : List Isa :=
  [⟨str "adc", r8, rm8, 0x12, 0, 0, 0⟩,
   ⟨str "adc", r32, rm32, 0x13, 0, 0, 0⟩,
   ⟨str "adc", eax, imm32, 0x15, 0, 0, 0⟩,
   ⟨str "adc", rm8, imm8, 0x80, 0x2, 0, 0⟩,
   ⟨str "adc", rm32, imm32, 0x81, 0x2, 0, 0⟩,
   ⟨str "adc", rm8, imm8, 0x82, 0x2, 0, 0⟩,
   ⟨str "adc", rm32, imm8, 0x83, 0x2, 0, 0⟩,
   ⟨str "add", rm32, imm8, 0x83, 0x2, 0, 0⟩,
   ⟨str "add", r8, rm8, 0x2, 0, 0, 0⟩,
   ⟨str "add", r32, rm32, 0x3, 0, 0, 0⟩,
   ⟨str "add", eax, imm32, 0x5, 0, 0, 0⟩,
   ⟨str "add", rm8, imm8, 0x80, 0, 0, 0⟩,
   ⟨str "add", rm32, imm32, 0x81, 0, 0, 0⟩,
   ⟨str "add", rm8, imm8, 0x82, 0, 0, 0⟩,
   ⟨str "add", rm32, imm8, 0x83, 0, 0, 0⟩,
   ⟨str "and", r8, rm8, 0x22, 0, 0, 0⟩,
   ⟨str "and", r32, rm32, 0x23, 0, 0, 0⟩,
   ⟨str "and", eax, imm32, 0x25, 0, 0, 0⟩,
   ⟨str "and", rm8, imm8, 0x80, 0x4, 0, 0⟩,
   ⟨str "and", rm32, imm32, 0x81, 0x4, 0, 0⟩,
   ⟨str "and", rm8, imm8, 0x82, 0x4, 0, 0⟩,
   ⟨str "and", rm32, imm8, 0x83, 0x4, 0, 0⟩,
   ⟨str "bsf", r32, rm32, 0xBC, 0, 0, 0xF⟩,
   ⟨str "bsr", r32, rm32, 0xBD, 0, 0, 0xF⟩,
   ⟨str "bswap", r32, opNone, 0xC8, 0xDEAD, 0, 0xF⟩,
   ⟨str "bt", rm32, imm8, 0xBA, 0x4, 0, 0xF⟩,
   ⟨str "btc", rm32, imm8, 0xBA, 0x7, 0, 0xF⟩,
   ⟨str "btr", rm32, imm8, 0xBA, 0x6, 0, 0xF⟩,
   ⟨str "bts", rm32, imm8, 0xBA, 0x5, 0, 0xF⟩,
   ⟨str "call", rel32, opNone, 0xE8, 0, 0, 0⟩,
   ⟨str "call", rm32, opNone, 0xFF, 0x2, 0, 0⟩,
   ⟨str "cdq", edx, eax, 0x99, 0, 0, 0⟩,
   ⟨str "clc", opNone, opNone, 0xF8, 0, 0, 0⟩,
   ⟨str "cld", opNone, opNone, 0xFC, 0, 0, 0⟩,
   ⟨str "cli", opNone, opNone, 0xFA, 0, 0, 0⟩,
   ⟨str "cmc", opNone, opNone, 0xF5, 0, 0, 0⟩,
   ⟨str "cmovb", r32, rm32, 0x42, 0, 0, 0xF⟩,
   ⟨str "cmovnae", r32, rm32, 0x42, 0, 0, 0xF⟩,
   ⟨str "cmovc", r32, rm32, 0x42, 0, 0, 0xF⟩,
   ⟨str "cmovbe", r32, rm32, 0x46, 0, 0, 0xF⟩,
   ⟨str "cmovna", r32, rm32, 0x46, 0, 0, 0xF⟩,
   ⟨str "cmovl", r32, rm32, 0x4C, 0, 0, 0xF⟩,
   ⟨str "cmovnge", r32, rm32, 0x4C, 0, 0, 0xF⟩,
   ⟨str "cmovle", r32, rm32, 0x4E, 0, 0, 0xF⟩,
   ⟨str "cmovng", r32, rm32, 0x4E, 0, 0, 0xF⟩,
   ⟨str "cmovnb", r32, rm32, 0x43, 0, 0, 0xF⟩,
   ⟨str "cmovae", r32, rm32, 0x43, 0, 0, 0xF⟩,
   ⟨str "cmovnc", r32, rm32, 0x43, 0, 0, 0xF⟩,
   ⟨str "cmovnbe", r32, rm32, 0x47, 0, 0, 0xF⟩,
   ⟨str "cmova", r32, rm32, 0x47, 0, 0, 0xF⟩,
   ⟨str "cmovnl", r32, rm32, 0x4D, 0, 0, 0xF⟩,
   ⟨str "cmovge", r32, rm32, 0x4D, 0, 0, 0xF⟩,
   ⟨str "cmovnle", r32, rm32, 0x4F, 0, 0, 0xF⟩,
   ⟨str "cmovg", r32, rm32, 0x4F, 0, 0, 0xF⟩,
   ⟨str "cmovno", r32, rm32, 0x41, 0, 0, 0xF⟩,
   ⟨str "cmovnp", r32, rm32, 0x4B, 0, 0, 0xF⟩,
   ⟨str "cmovpo", r32, rm32, 0x4B, 0, 0, 0xF⟩,
   ⟨str "cmovns", r32, rm32, 0x49, 0, 0, 0xF⟩,
   ⟨str "cmovnz", r32, rm32, 0x45, 0, 0, 0xF⟩,
   ⟨str "cmovne", r32, rm32, 0x45, 0, 0, 0xF⟩,
   ⟨str "cmovo", r32, rm32, 0x40, 0, 0, 0xF⟩,
   ⟨str "cmovp", r32, rm32, 0x4A, 0, 0, 0xF⟩,
   ⟨str "cmovpe", r32, rm32, 0x4A, 0, 0, 0xF⟩,
   ⟨str "cmovs", r32, rm32, 0x48, 0, 0, 0xF⟩,
   ⟨str "cmovz", r32, rm32, 0x44, 0, 0, 0xF⟩,
   ⟨str "cmove", r32, rm32, 0x44, 0, 0, 0xF⟩,
   ⟨str "cmp", r8, rm8, 0x3A, 0, 0, 0⟩,
   ⟨str "cmp", r32, rm32, 0x3B, 0, 0, 0⟩,
   ⟨str "cmp", eax, imm32, 0x3D, 0, 0, 0⟩,
   ⟨str "cmp", rm8, imm8, 0x80, 0x7, 0, 0⟩,
   ⟨str "cmp", rm32, imm32, 0x81, 0x7, 0, 0⟩,
   ⟨str "cmp", rm8, imm8, 0x82, 0x7, 0, 0⟩,
   ⟨str "cmp", rm32, imm8, 0x83, 0x7, 0, 0⟩,
   ⟨str "cmpsb", rm32, imm8, 0x83, 0x7, 0, 0⟩,
   ⟨str "cmpsw", rm32, imm8, 0x83, 0x7, 0, 0⟩,
   ⟨str "cmpsd", rm32, imm8, 0x83, 0x7, 0, 0⟩,
   ⟨str "cmpxchg", rm32, eax, 0xB1, 0, 0, 0xF⟩,
   ⟨str "crc32", r32, rm8, 0x38, 0, 0xF2, 0xF⟩,
   ⟨str "crc32", r32, rm32, 0x38, 0, 0xF2, 0xF⟩,
   ⟨str "cs", r32, rm32, 0x38, 0, 0xF2, 0xF⟩,
   ⟨str "dec", r32, opNone, 0x48, 0xDEAD, 0, 0⟩,
   ⟨str "dec", rm8, opNone, 0xFE, 0, 0, 0⟩,
   ⟨str "dec", rm32, opNone, 0xFF, 0, 0, 0⟩,
   ⟨str "div", rm8, opNone, 0xF6, 0x6, 0, 0⟩,
   ⟨str "div", rm32, opNone, 0xF7, 0x6, 0, 0⟩,
   ⟨str "ds", rm32, opNone, 0xF7, 0x6, 0, 0⟩,
   ⟨str "emms", opNone, opNone, 0x77, 0, 0, 0xF⟩,
   ⟨str "es", opNone, opNone, 0x77, 0, 0, 0xF⟩,
   ⟨str "fadd", opNone, opNone, 0x77, 0, 0, 0xF⟩,
   ⟨str "fclex", opNone, opNone, 0xDB, 0x4, 0x9B, 0⟩,
   ⟨str "fdecstp", opNone, opNone, 0xD9, 0x6, 0, 0⟩,
   ⟨str "fdiv", opNone, opNone, 0xD9, 0x6, 0, 0⟩,
   ⟨str "fdivr", opNone, opNone, 0xD9, 0x6, 0, 0⟩,
   ⟨str "fincstp", opNone, opNone, 0xD9, 0x6, 0, 0⟩,
   ⟨str "finit", opNone, opNone, 0xDB, 0x4, 0x9B, 0⟩,
   ⟨str "fmul", opNone, opNone, 0xDB, 0x4, 0x9B, 0⟩,
   ⟨str "fnclex", opNone, opNone, 0xDB, 0x4, 0, 0⟩,
   ⟨str "fndisi nop", opNone, opNone, 0xDB, 0x4, 0, 0⟩,
   ⟨str "fneni nop", opNone, opNone, 0xDB, 0x4, 0, 0⟩,
   ⟨str "fninit", opNone, opNone, 0xDB, 0x4, 0, 0⟩,
   ⟨str "fnop", opNone, opNone, 0xD9, 0x2, 0, 0⟩,
   ⟨str "fnsetpm nop", opNone, opNone, 0xDB, 0x4, 0, 0⟩,
   ⟨str "fs", opNone, opNone, 0xDB, 0x4, 0, 0⟩,
   ⟨str "fsub", opNone, opNone, 0xDB, 0x4, 0, 0⟩,
   ⟨str "fsubr", opNone, opNone, 0xDB, 0x4, 0, 0⟩,
   ⟨str "fwait", opNone, opNone, 0x9B, 0, 0, 0⟩,
   ⟨str "wait", opNone, opNone, 0x9B, 0, 0, 0⟩,
   ⟨str "getsec", eax, opNone, 0x37, 0, 0, 0xF⟩,
   ⟨str "gs", eax, opNone, 0x37, 0, 0, 0xF⟩,
   ⟨str "hint_nop", rm32, opNone, 0x18, 0x4, 0, 0xF⟩,
   ⟨str "hint_nop", rm32, opNone, 0x18, 0x5, 0, 0xF⟩,
   ⟨str "hint_nop", rm32, opNone, 0x18, 0x6, 0, 0xF⟩,
   ⟨str "hint_nop", rm32, opNone, 0x18, 0x7, 0, 0xF⟩,
   ⟨str "hint_nop", rm32, opNone, 0x19, 0, 0, 0xF⟩,
   ⟨str "hint_nop", rm32, opNone, 0x1A, 0, 0, 0xF⟩,
   ⟨str "hint_nop", rm32, opNone, 0x1B, 0, 0, 0xF⟩,
   ⟨str "hint_nop", rm32, opNone, 0x1C, 0, 0, 0xF⟩,
   ⟨str "hint_nop", rm32, opNone, 0x1D, 0, 0, 0xF⟩,
   ⟨str "hint_nop", rm32, opNone, 0x1E, 0, 0, 0xF⟩,
   ⟨str "hint_nop", rm32, opNone, 0x1F, 0, 0, 0xF⟩,
   ⟨str "hint_nop", rm32, opNone, 0x1F, 0x2, 0, 0xF⟩,
   ⟨str "hint_nop", rm32, opNone, 0x1F, 0x3, 0, 0xF⟩,
   ⟨str "hint_nop", rm32, opNone, 0x1F, 0x4, 0, 0xF⟩,
   ⟨str "hint_nop", rm32, opNone, 0x1F, 0x5, 0, 0xF⟩,
   ⟨str "hint_nop", rm32, opNone, 0x1F, 0x6, 0, 0xF⟩,
   ⟨str "hint_nop", rm32, opNone, 0x1F, 0x7, 0, 0xF⟩,
   ⟨str "hlt", opNone, opNone, 0xF4, 0, 0, 0⟩,
   ⟨str "idiv", edx, eax, 0xF7, 0x7, 0, 0⟩,
   ⟨str "imul", r32, rm32, 0x69, 0, 0, 0⟩,
   ⟨str "imul", r32, rm32, 0x6B, 0, 0, 0⟩,
   ⟨str "imul", edx, eax, 0xF7, 0x5, 0, 0⟩,
   ⟨str "imul", r32, rm32, 0xAF, 0, 0, 0xF⟩,
   ⟨str "in", eax, imm8, 0xE5, 0, 0, 0⟩,
   ⟨str "inc", r32, opNone, 0x40, 0xDEAD, 0, 0⟩,
   ⟨str "inc", rm8, opNone, 0xFE, 0, 0, 0⟩,
   ⟨str "inc", rm32, opNone, 0xFF, 0, 0, 0⟩,
   ⟨str "insb", rm32, opNone, 0xFF, 0, 0, 0⟩,
   ⟨str "insw", rm32, opNone, 0xFF, 0, 0, 0⟩,
   ⟨str "insd", rm32, opNone, 0xFF, 0, 0, 0⟩,
   ⟨str "insertps", rm32, opNone, 0xFF, 0, 0, 0⟩,
   ⟨str "int", imm8, opNone, 0xCD, 0, 0, 0⟩,
   ⟨str "int1", opNone, opNone, 0xF1, 0, 0, 0⟩,
   ⟨str "icebp", opNone, opNone, 0xF1, 0, 0, 0⟩,
   ⟨str "into", opNone, opNone, 0xCE, 0, 0, 0⟩,
   ⟨str "invd", opNone, opNone, 0x8, 0, 0, 0xF⟩,
   ⟨str "invlpg", opNone, opNone, 0x8, 0, 0, 0xF⟩,
   ⟨str "iret", opNone, opNone, 0xCF, 0, 0, 0⟩,
   ⟨str "iretd", opNone, opNone, 0xCF, 0, 0, 0⟩,
   ⟨str "jb", rel8, opNone, 0x72, 0, 0, 0⟩,
   ⟨str "jnae", rel8, opNone, 0x72, 0, 0, 0⟩,
   ⟨str "jc", rel8, opNone, 0x72, 0, 0, 0⟩,
   ⟨str "jb", rel32, opNone, 0x82, 0, 0, 0xF⟩,
   ⟨str "jnae", rel32, opNone, 0x82, 0, 0, 0xF⟩,
   ⟨str "jc", rel32, opNone, 0x82, 0, 0, 0xF⟩,
   ⟨str "jbe", rel8, opNone, 0x76, 0, 0, 0⟩,
   ⟨str "jna", rel8, opNone, 0x76, 0, 0, 0⟩,
   ⟨str "jbe", rel32, opNone, 0x86, 0, 0, 0xF⟩,
   ⟨str "jna", rel32, opNone, 0x86, 0, 0, 0xF⟩,
   ⟨str "jecxz", rel32, opNone, 0x86, 0, 0, 0xF⟩,
   ⟨str "jl", rel8, opNone, 0x7C, 0, 0, 0⟩,
   ⟨str "jnge", rel8, opNone, 0x7C, 0, 0, 0⟩,
   ⟨str "jl", rel32, opNone, 0x8C, 0, 0, 0xF⟩,
   ⟨str "jnge", rel32, opNone, 0x8C, 0, 0, 0xF⟩,
   ⟨str "jle", rel8, opNone, 0x7E, 0, 0, 0⟩,
   ⟨str "jng", rel8, opNone, 0x7E, 0, 0, 0⟩,
   ⟨str "jle", rel32, opNone, 0x8E, 0, 0, 0xF⟩,
   ⟨str "jng", rel32, opNone, 0x8E, 0, 0, 0xF⟩,
   ⟨str "jmp", rel32, opNone, 0xE9, 0, 0, 0⟩,
   ⟨str "jmp", rel8, opNone, 0xEB, 0, 0, 0⟩,
   ⟨str "jmp", rm32, opNone, 0xFF, 0x4, 0, 0⟩,
   ⟨str "jnb", rel8, opNone, 0x73, 0, 0, 0⟩,
   ⟨str "jae", rel8, opNone, 0x73, 0, 0, 0⟩,
   ⟨str "jnc", rel8, opNone, 0x73, 0, 0, 0⟩,
   ⟨str "jnb", rel32, opNone, 0x83, 0, 0, 0xF⟩,
   ⟨str "jae", rel32, opNone, 0x83, 0, 0, 0xF⟩,
   ⟨str "jnc", rel32, opNone, 0x83, 0, 0, 0xF⟩,
   ⟨str "jnbe", rel8, opNone, 0x77, 0, 0, 0⟩,
   ⟨str "ja", rel8, opNone, 0x77, 0, 0, 0⟩,
   ⟨str "jnbe", rel32, opNone, 0x87, 0, 0, 0xF⟩,
   ⟨str "ja", rel32, opNone, 0x87, 0, 0, 0xF⟩,
   ⟨str "jnl", rel8, opNone, 0x7D, 0, 0, 0⟩,
   ⟨str "jge", rel8, opNone, 0x7D, 0, 0, 0⟩,
   ⟨str "jnl", rel32, opNone, 0x8D, 0, 0, 0xF⟩,
   ⟨str "jge", rel32, opNone, 0x8D, 0, 0, 0xF⟩,
   ⟨str "jnle", rel8, opNone, 0x7F, 0, 0, 0⟩,
   ⟨str "jg", rel8, opNone, 0x7F, 0, 0, 0⟩,
   ⟨str "jnle", rel32, opNone, 0x8F, 0, 0, 0xF⟩,
   ⟨str "jg", rel32, opNone, 0x8F, 0, 0, 0xF⟩,
   ⟨str "jno", rel8, opNone, 0x71, 0, 0, 0⟩,
   ⟨str "jno", rel32, opNone, 0x81, 0, 0, 0xF⟩,
   ⟨str "jnp", rel8, opNone, 0x7B, 0, 0, 0⟩,
   ⟨str "jpo", rel8, opNone, 0x7B, 0, 0, 0⟩,
   ⟨str "jnp", rel32, opNone, 0x8B, 0, 0, 0xF⟩,
   ⟨str "jpo", rel32, opNone, 0x8B, 0, 0, 0xF⟩,
   ⟨str "jns", rel8, opNone, 0x79, 0, 0, 0⟩,
   ⟨str "jns", rel32, opNone, 0x89, 0, 0, 0xF⟩,
   ⟨str "jnz", rel8, opNone, 0x75, 0, 0, 0⟩,
   ⟨str "jne", rel8, opNone, 0x75, 0, 0, 0⟩,
   ⟨str "jnz", rel32, opNone, 0x85, 0, 0, 0xF⟩,
   ⟨str "jne", rel32, opNone, 0x85, 0, 0, 0xF⟩,
   ⟨str "jo", rel8, opNone, 0x70, 0, 0, 0⟩,
   ⟨str "jo", rel32, opNone, 0x80, 0, 0, 0xF⟩,
   ⟨str "jp", rel8, opNone, 0x7A, 0, 0, 0⟩,
   ⟨str "jpe", rel8, opNone, 0x7A, 0, 0, 0⟩,
   ⟨str "jp", rel32, opNone, 0x8A, 0, 0, 0xF⟩,
   ⟨str "jpe", rel32, opNone, 0x8A, 0, 0, 0xF⟩,
   ⟨str "js", rel8, opNone, 0x78, 0, 0, 0⟩,
   ⟨str "js", rel32, opNone, 0x88, 0, 0, 0xF⟩,
   ⟨str "jz", rel8, opNone, 0x74, 0, 0, 0⟩,
   ⟨str "je", rel8, opNone, 0x74, 0, 0, 0⟩,
   ⟨str "jz", rel32, opNone, 0x84, 0, 0, 0xF⟩,
   ⟨str "je", rel32, opNone, 0x84, 0, 0, 0xF⟩,
   ⟨str "lar", rel32, opNone, 0x84, 0, 0, 0xF⟩,
   ⟨str "lds", ds, r32, 0xC5, 0, 0, 0⟩,
   ⟨str "lea", r32, rel32, 0x8D, 0, 0, 0⟩,
   ⟨str "les", es, r32, 0xC4, 0, 0, 0⟩,
   ⟨str "lfence", opNone, opNone, 0xAE, 0x5, 0, 0xF⟩,
   ⟨str "lfs", fs, r32, 0xB4, 0, 0, 0xF⟩,
   ⟨str "lgdt", r32, opNone, 0x1, 0, 0, 0xF⟩,
   ⟨str "lgs", gs, r32, 0xB5, 0, 0, 0xF⟩,
   ⟨str "lidt", rel32, opNone, 0x1, 0, 0, 0xF⟩,
   ⟨str "lmsw", gs, r32, 0xB5, 0, 0, 0xF⟩,
   ⟨str "lock", gs, r32, 0xB5, 0, 0, 0xF⟩,
   ⟨str "lodsb", gs, r32, 0xB5, 0, 0, 0xF⟩,
   ⟨str "lodsw", gs, r32, 0xB5, 0, 0, 0xF⟩,
   ⟨str "lodsd", gs, r32, 0xB5, 0, 0, 0xF⟩,
   ⟨str "loop", ecx, rel8, 0xE2, 0, 0, 0⟩,
   ⟨str "loopnz", ecx, rel8, 0xE0, 0, 0, 0⟩,
   ⟨str "loopne", ecx, rel8, 0xE0, 0, 0, 0⟩,
   ⟨str "loopz", ecx, rel8, 0xE1, 0, 0, 0⟩,
   ⟨str "loope", ecx, rel8, 0xE1, 0, 0, 0⟩,
   ⟨str "lsl", ecx, rel8, 0xE1, 0, 0, 0⟩,
   ⟨str "lss", ss, r32, 0xB2, 0, 0, 0xF⟩,
   ⟨str "mfence", opNone, opNone, 0xAE, 0x6, 0, 0xF⟩,
   ⟨str "monitor", opNone, opNone, 0xAE, 0x6, 0, 0xF⟩,
   ⟨str "mov", r8, rm8, 0x8A, 0, 0, 0⟩,
   ⟨str "mov", r32, rm32, 0x8B, 0, 0, 0⟩,
   ⟨str "mov", r32, rm32, 0x8B, 0, 0, 0⟩,
   ⟨str "mov", sreg, rm32, 0x8E, 0, 0, 0⟩,
   ⟨str "mov", r8, imm8, 0xB0, 0xDEAD, 0, 0⟩,
   ⟨str "mov", r32, imm32, 0xB8, 0xDEAD, 0, 0⟩,
   ⟨str "mov", rm8, imm8, 0xC6, 0, 0, 0⟩,
   ⟨str "mov", rm32, imm32, 0xC7, 0, 0, 0⟩,
   ⟨str "mov", r32, crn, 0x20, 0, 0, 0xF⟩,
   ⟨str "mov", r32, crn, 0x20, 0, 0, 0xF⟩,
   ⟨str "mov", crn, r32, 0x22, 0, 0, 0xF⟩,
   ⟨str "mov", crn, r32, 0x22, 0, 0, 0xF⟩,
   ⟨str "movsb", crn, r32, 0x22, 0, 0, 0xF⟩,
   ⟨str "movsw", crn, r32, 0x22, 0, 0, 0xF⟩,
   ⟨str "movsd", crn, r32, 0x22, 0, 0, 0xF⟩,
   ⟨str "movsx", r32, rm8, 0xBE, 0, 0, 0xF⟩,
   ⟨str "movsx", r32, rm32, 0xBF, 0, 0, 0xF⟩,
   ⟨str "movzx", r32, rm8, 0xB6, 0, 0, 0xF⟩,
   ⟨str "movzx", r32, rm32, 0xB7, 0, 0, 0xF⟩,
   ⟨str "mul", rm8, opNone, 0xF6, 0x4, 0, 0⟩,
   ⟨str "mul", rm32, opNone, 0xF7, 0x4, 0, 0⟩,
   ⟨str "mwait", rm32, opNone, 0xF7, 0x4, 0, 0⟩,
   ⟨str "neg", rm8, opNone, 0xF6, 0x3, 0, 0⟩,
   ⟨str "neg", rm32, opNone, 0xF7, 0x3, 0, 0⟩,
   ⟨str "nop", opNone, opNone, 0x90, 0, 0, 0⟩,
   ⟨str "nop", rm32, opNone, 0xD, 0, 0, 0xF⟩,
   ⟨str "nop", rm32, opNone, 0x1F, 0, 0, 0xF⟩,
   ⟨str "not", rm8, opNone, 0xF6, 0x2, 0, 0⟩,
   ⟨str "not", rm32, opNone, 0xF7, 0x2, 0, 0⟩,
   ⟨str "or", r8, rm8, 0xA, 0, 0, 0⟩,
   ⟨str "or", r32, rm32, 0xB, 0, 0, 0⟩,
   ⟨str "or", eax, imm32, 0xD, 0, 0, 0⟩,
   ⟨str "or", rm8, imm8, 0x80, 0, 0, 0⟩,
   ⟨str "or", rm32, imm32, 0x81, 0, 0, 0⟩,
   ⟨str "or", rm8, imm8, 0x82, 0, 0, 0⟩,
   ⟨str "or", rm32, imm8, 0x83, 0, 0, 0⟩,
   ⟨str "out", imm8, eax, 0xE7, 0, 0, 0⟩,
   ⟨str "outsb", imm8, eax, 0xE7, 0, 0, 0⟩,
   ⟨str "outsw", imm8, eax, 0xE7, 0, 0, 0⟩,
   ⟨str "outsd", imm8, eax, 0xE7, 0, 0, 0⟩,
   ⟨str "pause", opNone, opNone, 0x90, 0, 0xF3, 0⟩,
   ⟨str "pextrb", opNone, opNone, 0x90, 0, 0xF3, 0⟩,
   ⟨str "pextrq", opNone, opNone, 0x90, 0, 0xF3, 0⟩,
   ⟨str "pextrw", opNone, opNone, 0x90, 0, 0xF3, 0⟩,
   ⟨str "pinsrb", opNone, opNone, 0x90, 0, 0xF3, 0⟩,
   ⟨str "pinsrq", opNone, opNone, 0x90, 0, 0xF3, 0⟩,
   ⟨str "pinsrw", opNone, opNone, 0x90, 0, 0xF3, 0⟩,
   ⟨str "pinsrw", opNone, opNone, 0x90, 0, 0xF3, 0⟩,
   ⟨str "pmovsxbd", opNone, opNone, 0x90, 0, 0xF3, 0⟩,
   ⟨str "pmovsxbq", opNone, opNone, 0x90, 0, 0xF3, 0⟩,
   ⟨str "pmovsxbw", opNone, opNone, 0x90, 0, 0xF3, 0⟩,
   ⟨str "pmovsxdq", opNone, opNone, 0x90, 0, 0xF3, 0⟩,
   ⟨str "pmovsxwd", opNone, opNone, 0x90, 0, 0xF3, 0⟩,
   ⟨str "pmovsxwq", opNone, opNone, 0x90, 0, 0xF3, 0⟩,
   ⟨str "pmovzxbd", opNone, opNone, 0x90, 0, 0xF3, 0⟩,
   ⟨str "pmovzxbq", opNone, opNone, 0x90, 0, 0xF3, 0⟩,
   ⟨str "pmovzxbw", opNone, opNone, 0x90, 0, 0xF3, 0⟩,
   ⟨str "pmovzxdq", opNone, opNone, 0x90, 0, 0xF3, 0⟩,
   ⟨str "pmovzxwd", opNone, opNone, 0x90, 0, 0xF3, 0⟩,
   ⟨str "pmovzxwq", opNone, opNone, 0x90, 0, 0xF3, 0⟩,
   ⟨str "pop", es, opNone, 0x7, 0, 0, 0⟩,
   ⟨str "pop", ss, opNone, 0x17, 0, 0, 0⟩,
   ⟨str "pop", ds, opNone, 0x1F, 0, 0, 0⟩,
   ⟨str "pop", r32, opNone, 0x58, 0xDEAD, 0, 0⟩,
   ⟨str "pop", rm32, opNone, 0x8F, 0, 0, 0⟩,
   ⟨str "pop", fs, opNone, 0xA1, 0, 0, 0xF⟩,
   ⟨str "pop", gs, opNone, 0xA9, 0, 0, 0xF⟩,
   ⟨str "popa", opNone, opNone, 0x61, 0, 0, 0⟩,
   ⟨str "popad", opNone, opNone, 0x61, 0, 0, 0⟩,
   ⟨str "popcnt", r32, rm32, 0xB8, 0, 0xF3, 0xF⟩,
   ⟨str "popf", opNone, opNone, 0x9D, 0, 0, 0⟩,
   ⟨str "popfd", opNone, opNone, 0x9D, 0, 0, 0⟩,
   ⟨str "push", es, opNone, 0x6, 0, 0, 0⟩,
   ⟨str "push", cs, opNone, 0xE, 0, 0, 0⟩,
   ⟨str "push", ss, opNone, 0x32, 0, 0, 0⟩,
   ⟨str "push", ds, opNone, 0x1E, 0, 0, 0⟩,
   ⟨str "push", r32, opNone, 0x50, 0xDEAD, 0, 0⟩,
   ⟨str "push", imm32, opNone, 0x68, 0, 0, 0⟩,
   ⟨str "push", imm8, opNone, 0x6A, 0, 0, 0⟩,
   ⟨str "push", rm32, opNone, 0xFF, 0x6, 0, 0⟩,
   ⟨str "push", fs, opNone, 0xA0, 0, 0, 0xF⟩,
   ⟨str "push", gs, opNone, 0xA8, 0, 0, 0xF⟩,
   ⟨str "pusha", opNone, opNone, 0x60, 0, 0, 0⟩,
   ⟨str "pushad", opNone, opNone, 0x60, 0, 0, 0⟩,
   ⟨str "pushf", opNone, opNone, 0x9C, 0, 0, 0⟩,
   ⟨str "pushfd", opNone, opNone, 0x9C, 0, 0, 0⟩,
   ⟨str "rcl", rm8, imm8, 0xC0, 0x2, 0, 0⟩,
   ⟨str "rcl", rm32, imm8, 0xC1, 0x2, 0, 0⟩,
   ⟨str "rcl", rm8, opNone, 0xD0, 0x2, 0, 0⟩,
   ⟨str "rcl", rm32, opNone, 0xD1, 0x2, 0, 0⟩,
   ⟨str "rcr", rm8, imm8, 0xC0, 0x3, 0, 0⟩,
   ⟨str "rcr", rm32, imm8, 0xC1, 0x3, 0, 0⟩,
   ⟨str "rcr", rm8, opNone, 0xD0, 0x3, 0, 0⟩,
   ⟨str "rcr", rm32, opNone, 0xD1, 0x3, 0, 0⟩,
   ⟨str "rdmsr", eax, edx, 0x32, 0, 0, 0xF⟩,
   ⟨str "rdpmc", eax, edx, 0x33, 0, 0, 0xF⟩,
   ⟨str "rdtsc", eax, edx, 0x31, 0, 0, 0xF⟩,
   ⟨str "rdtscp", eax, edx, 0x31, 0, 0, 0xF⟩,
   ⟨str "rep", eax, edx, 0x31, 0, 0, 0xF⟩,
   ⟨str "rep", eax, edx, 0x31, 0, 0, 0xF⟩,
   ⟨str "repnz", eax, edx, 0x31, 0, 0, 0xF⟩,
   ⟨str "repne", eax, edx, 0x31, 0, 0, 0xF⟩,
   ⟨str "repz", eax, edx, 0x31, 0, 0, 0xF⟩,
   ⟨str "repe", eax, edx, 0x31, 0, 0, 0xF⟩,
   ⟨str "retf", imm32, opNone, 0xCA, 0, 0, 0⟩,
   ⟨str "retf", opNone, opNone, 0xCB, 0, 0, 0⟩,
   ⟨str "retn", imm32, opNone, 0xC2, 0, 0, 0⟩,
   ⟨str "retn", opNone, opNone, 0xC3, 0, 0, 0⟩,
   ⟨str "rol", rm8, imm8, 0xC0, 0, 0, 0⟩,
   ⟨str "rol", rm32, imm8, 0xC1, 0, 0, 0⟩,
   ⟨str "rol", rm8, opNone, 0xD0, 0, 0, 0⟩,
   ⟨str "rol", rm32, opNone, 0xD1, 0, 0, 0⟩,
   ⟨str "ror", rm8, imm8, 0xC0, 0, 0, 0⟩,
   ⟨str "ror", rm32, imm8, 0xC1, 0, 0, 0⟩,
   ⟨str "ror", rm8, opNone, 0xD0, 0, 0, 0⟩,
   ⟨str "ror", rm32, opNone, 0xD1, 0, 0, 0⟩,
   ⟨str "rsm", opNone, opNone, 0xAA, 0, 0, 0xF⟩,
   ⟨str "sal", rm8, imm8, 0xC0, 0x6, 0, 0⟩,
   ⟨str "shl", rm8, imm8, 0xC0, 0x6, 0, 0⟩,
   ⟨str "sal", rm32, imm8, 0xC1, 0x6, 0, 0⟩,
   ⟨str "shl", rm32, imm8, 0xC1, 0x6, 0, 0⟩,
   ⟨str "sal", rm8, opNone, 0xD0, 0x6, 0, 0⟩,
   ⟨str "shl", rm8, opNone, 0xD0, 0x6, 0, 0⟩,
   ⟨str "sal", rm32, opNone, 0xD1, 0x6, 0, 0⟩,
   ⟨str "shl", rm32, opNone, 0xD1, 0x6, 0, 0⟩,
   ⟨str "shl", rm32, opNone, 0xD1, 0x6, 0, 0⟩,
   ⟨str "shl", rm32, opNone, 0xD1, 0x6, 0, 0⟩,
   ⟨str "setalc", rm32, opNone, 0xD1, 0x6, 0, 0⟩,
   ⟨str "sar", rm8, imm8, 0xC0, 0x7, 0, 0⟩,
   ⟨str "sar", rm32, imm8, 0xC1, 0x7, 0, 0⟩,
   ⟨str "sar", rm8, opNone, 0xD0, 0x7, 0, 0⟩,
   ⟨str "sar", rm32, opNone, 0xD1, 0x7, 0, 0⟩,
   ⟨str "sbb", r8, rm8, 0x1A, 0, 0, 0⟩,
   ⟨str "sbb", r32, rm32, 0x1B, 0, 0, 0⟩,
   ⟨str "sbb", eax, imm32, 0x1D, 0, 0, 0⟩,
   ⟨str "sbb", rm8, imm8, 0x80, 0x3, 0, 0⟩,
   ⟨str "sbb", rm32, imm32, 0x81, 0x3, 0, 0⟩,
   ⟨str "sbb", rm8, imm8, 0x82, 0x3, 0, 0⟩,
   ⟨str "sbb", rm32, imm8, 0x83, 0x3, 0, 0⟩,
   ⟨str "scasb", rm32, imm8, 0x83, 0x3, 0, 0⟩,
   ⟨str "scasw", rm32, imm8, 0x83, 0x3, 0, 0⟩,
   ⟨str "scasd", rm32, imm8, 0x83, 0x3, 0, 0⟩,
   ⟨str "setb", rm8, opNone, 0x92, 0, 0, 0xF⟩,
   ⟨str "setnae", rm8, opNone, 0x92, 0, 0, 0xF⟩,
   ⟨str "setc", rm8, opNone, 0x92, 0, 0, 0xF⟩,
   ⟨str "setbe", rm8, opNone, 0x96, 0, 0, 0xF⟩,
   ⟨str "setna", rm8, opNone, 0x96, 0, 0, 0xF⟩,
   ⟨str "setl", rm8, opNone, 0x9C, 0, 0, 0xF⟩,
   ⟨str "setnge", rm8, opNone, 0x9C, 0, 0, 0xF⟩,
   ⟨str "setle", rm8, opNone, 0x9E, 0, 0, 0xF⟩,
   ⟨str "setng", rm8, opNone, 0x9E, 0, 0, 0xF⟩,
   ⟨str "setnb", rm8, opNone, 0x93, 0, 0, 0xF⟩,
   ⟨str "setae", rm8, opNone, 0x93, 0, 0, 0xF⟩,
   ⟨str "setnc", rm8, opNone, 0x93, 0, 0, 0xF⟩,
   ⟨str "setnbe", rm8, opNone, 0x97, 0, 0, 0xF⟩,
   ⟨str "seta", rm8, opNone, 0x97, 0, 0, 0xF⟩,
   ⟨str "setnl", rm8, opNone, 0x9D, 0, 0, 0xF⟩,
   ⟨str "setge", rm8, opNone, 0x9D, 0, 0, 0xF⟩,
   ⟨str "setnle", rm8, opNone, 0x9F, 0, 0, 0xF⟩,
   ⟨str "setg", rm8, opNone, 0x9F, 0, 0, 0xF⟩,
   ⟨str "setno", rm8, opNone, 0x91, 0, 0, 0xF⟩,
   ⟨str "setnp", rm8, opNone, 0x9B, 0, 0, 0xF⟩,
   ⟨str "setpo", rm8, opNone, 0x9B, 0, 0, 0xF⟩,
   ⟨str "setns", rm8, opNone, 0x99, 0, 0, 0xF⟩,
   ⟨str "setnz", rm8, opNone, 0x95, 0, 0, 0xF⟩,
   ⟨str "setne", rm8, opNone, 0x95, 0, 0, 0xF⟩,
   ⟨str "seto", rm8, opNone, 0x90, 0, 0, 0xF⟩,
   ⟨str "setp", rm8, opNone, 0x9A, 0, 0, 0xF⟩,
   ⟨str "setpe", rm8, opNone, 0x9A, 0, 0, 0xF⟩,
   ⟨str "sets", rm8, opNone, 0x98, 0, 0, 0xF⟩,
   ⟨str "setz", rm8, opNone, 0x94, 0, 0, 0xF⟩,
   ⟨str "sete", rm8, opNone, 0x94, 0, 0, 0xF⟩,
   ⟨str "sfence", opNone, opNone, 0xAE, 0x7, 0, 0xF⟩,
   ⟨str "sgdt", opNone, opNone, 0xAE, 0x7, 0, 0xF⟩,
   ⟨str "shl", rm8, imm8, 0xC0, 0x4, 0, 0⟩,
   ⟨str "sal", rm8, imm8, 0xC0, 0x4, 0, 0⟩,
   ⟨str "shl", rm32, imm8, 0xC1, 0x4, 0, 0⟩,
   ⟨str "sal", rm32, imm8, 0xC1, 0x4, 0, 0⟩,
   ⟨str "shl", rm8, opNone, 0xD0, 0x4, 0, 0⟩,
   ⟨str "sal", rm8, opNone, 0xD0, 0x4, 0, 0⟩,
   ⟨str "shl", rm32, opNone, 0xD1, 0x4, 0, 0⟩,
   ⟨str "sal", rm32, opNone, 0xD1, 0x4, 0, 0⟩,
   ⟨str "sal", rm32, opNone, 0xD1, 0x4, 0, 0⟩,
   ⟨str "sal", rm32, opNone, 0xD1, 0x4, 0, 0⟩,
   ⟨str "shr", rm8, imm8, 0xC0, 0x5, 0, 0⟩,
   ⟨str "shr", rm32, imm8, 0xC1, 0x5, 0, 0⟩,
   ⟨str "shr", rm8, opNone, 0xD0, 0x5, 0, 0⟩,
   ⟨str "shr", rm32, opNone, 0xD1, 0x5, 0, 0⟩,
   ⟨str "sidt", rm32, opNone, 0xD1, 0x5, 0, 0⟩,
   ⟨str "sldt", rm32, opNone, 0xD1, 0x5, 0, 0⟩,
   ⟨str "smsw", rm32, opNone, 0xD1, 0x5, 0, 0⟩,
   ⟨str "smsw", rm32, opNone, 0xD1, 0x5, 0, 0⟩,
   ⟨str "ss", rm32, opNone, 0xD1, 0x5, 0, 0⟩,
   ⟨str "stc", opNone, opNone, 0xF9, 0, 0, 0⟩,
   ⟨str "std", opNone, opNone, 0xFD, 0, 0, 0⟩,
   ⟨str "sti", opNone, opNone, 0xFB, 0, 0, 0⟩,
   ⟨str "stos", opNone, opNone, 0xAA, 0, 0, 0⟩,
   ⟨str "stosb", opNone, opNone, 0xAA, 0, 0, 0⟩,
   ⟨str "stos", opNone, opNone, 0xAB, 0, 0, 0⟩,
   ⟨str "stosw", opNone, opNone, 0xAB, 0, 0, 0⟩,
   ⟨str "stos", opNone, opNone, 0xAB, 0, 0, 0⟩,
   ⟨str "stosd", opNone, opNone, 0xAB, 0, 0, 0⟩,
   ⟨str "str", opNone, opNone, 0xAB, 0, 0, 0⟩,
   ⟨str "sub", r8, rm8, 0x2A, 0, 0, 0⟩,
   ⟨str "sub", r32, rm32, 0x2B, 0, 0, 0⟩,
   ⟨str "sub", eax, imm32, 0x2D, 0, 0, 0⟩,
   ⟨str "sub", rm8, imm8, 0x80, 0x5, 0, 0⟩,
   ⟨str "sub", rm32, imm32, 0x81, 0x5, 0, 0⟩,
   ⟨str "sub", rm8, imm8, 0x82, 0x5, 0, 0⟩,
   ⟨str "sub", rm32, imm8, 0x83, 0x5, 0, 0⟩,
   ⟨str "sysenter", opNone, opNone, 0x34, 0, 0, 0xF⟩,
   ⟨str "sysexit", opNone, opNone, 0x35, 0, 0, 0xF⟩,
   ⟨str "test", rm8, r8, 0x84, 0, 0, 0⟩,
   ⟨str "test", rm32, r32, 0x85, 0, 0, 0⟩,
   ⟨str "test", eax, imm32, 0xA9, 0, 0, 0⟩,
   ⟨str "test", rm8, imm8, 0xF6, 0, 0, 0⟩,
   ⟨str "test", rm8, imm8, 0xF6, 0, 0, 0⟩,
   ⟨str "test", rm32, imm32, 0xF7, 0, 0, 0⟩,
   ⟨str "test", rm32, imm32, 0xF7, 0, 0, 0⟩,
   ⟨str "ud2", opNone, opNone, 0xB, 0, 0, 0xF⟩,
   ⟨str "verr", rm32, opNone, 0, 0x4, 0, 0xF⟩,
   ⟨str "verw", rm32, opNone, 0, 0x5, 0, 0xF⟩,
   ⟨str "vmcall", rm32, opNone, 0, 0x5, 0, 0xF⟩,
   ⟨str "vmlaunch", rm32, opNone, 0, 0x5, 0, 0xF⟩,
   ⟨str "vmresume", rm32, opNone, 0, 0x5, 0, 0xF⟩,
   ⟨str "vmwrite", r32, rm32, 0x79, 0, 0, 0xF⟩,
   ⟨str "vmxoff", r32, rm32, 0x79, 0, 0, 0xF⟩,
   ⟨str "wbinvd", opNone, opNone, 0x9, 0, 0, 0xF⟩,
   ⟨str "xchg", r8, rm8, 0x86, 0, 0, 0⟩,
   ⟨str "xchg", r32, rm32, 0x87, 0, 0, 0⟩,
   ⟨str "xchg", r32, eax, 0x90, 0xDEAD, 0, 0⟩,
   ⟨str "xgetbv", r32, eax, 0x90, 0xDEAD, 0, 0⟩,
   ⟨str "xlatb", r32, eax, 0x90, 0xDEAD, 0, 0⟩,
   ⟨str "xor", r8, rm8, 0x32, 0, 0, 0⟩,
   ⟨str "xor", r32, rm32, 0x33, 0, 0, 0⟩,
   ⟨str "xor", eax, imm32, 0x35, 0, 0, 0⟩,
   ⟨str "xor", rm8, imm8, 0x80, 0x6, 0, 0⟩,
   ⟨str "xor", rm32, imm32, 0x81, 0x6, 0, 0⟩,
   ⟨str "xor", rm8, imm8, 0x82, 0x6, 0, 0⟩,
   ⟨str "xor", rm32, imm8, 0x83, 0x6, 0, 0⟩]

end Crunchy.Lass
