/-
Module: Crunchy.Proofs.LassModRm
Purpose: For which memory operands the bytes of `mov R, [B]`, `mov R, [B+d]` and
  `mov R, [B-d]` are a load from that address.
Trusted boundary: none
Main exports: LoadsFrom, calcSib_base, parseLine_mov, memory_operand_faithful_iff
-/
import Crunchy.Lib.Ia32
import Crunchy.Proofs.LassOperands

variable {mod : BitVec 2} {c : BitVec 8} {inner : Text} {op1 : U32}

namespace Crunchy.Lass

open Lib.Ia32 BitVec Option List

/-! ### What the bytes mean -/

/-- The bytes are one instruction, which loads `r` from this address. -/
def LoadsFrom (bytes : List (BitVec 8)) (r : Reg) (address : Regs → BitVec 32) : Prop :=
  ∃ source, decode bytes = some (.load r (.memory source), []) ∧
    ∀ regs, source.eval regs = address regs

/-- The opcode, the ModR/M byte and a displacement, which is one byte if `mod` is 1 and four
bytes otherwise. -/
def loadBytes (mod : BitVec 2) (r b : Reg) (disp : U32) : List (BitVec 8) :=
  0x8B#8 :: modrmByte mod r b :: if mod = 1#2 then writeByte disp else writeDword disp

variable {r b : Reg} {disp offset : U32}

theorem eval_base (regs : Regs) (b : Reg) (disp : U32) :
    (Address.mk (some b) none disp).eval regs = regs b + disp := by
  simp [Address.eval]

theorem forall_offset (b : Reg) (disp offset : U32) :
    (∀ regs : Regs, (Address.mk (some b) none disp).eval regs = regs b + offset) ↔
      disp = offset := by
  constructor
  · intro same
    have zero := same fun _ => 0#32
    rwa [eval_base, BitVec.zero_add, BitVec.zero_add] at zero
  · rintro rfl regs
    exact eval_base regs b disp

/-- Where the bytes are a displacement and nothing else, the base is not `esp`: that needs a SIB
byte. -/
theorem loadsFrom_iff {bytes : List (BitVec 8)} {x : U32} (memory : mod ≠ 3#2) (hasDisp : mod ≠ 0#2)
    (read : displacement mod bytes = some (x, [])) (noSib : decodeSib mod bytes = none) :
    LoadsFrom (0x8B#8 :: modrmByte mod r b :: bytes) r (fun regs => regs b + offset) ↔
      b ≠ 4#3 ∧ x = offset := by
  by_cases isEsp : b = 4#3
  · refine ⟨?_, fun other => absurd isEsp other.1⟩
    rintro ⟨source, decoded, _⟩
    rw [isEsp, decode_load_sib memory, noSib] at decoded
    exact nomatch decoded
  · rw [LoadsFrom, decode_load_base memory isEsp (fun _ => hasDisp), read, map_some]
    constructor
    · rintro ⟨source, decoded, same⟩
      have isBase : ⟨some b, none, x⟩ = source := by simpa using decoded
      rw [← isBase] at same
      exact ⟨isEsp, (forall_offset b x offset).mp same⟩
    · rintro ⟨_, same⟩
      exact ⟨_, rfl, (forall_offset b x offset).mpr same⟩

/-- With one byte the number has to fit. -/
theorem loadsFrom_disp8 : LoadsFrom (loadBytes 1#2 r b disp) r (fun regs => regs b + offset) ↔
    b ≠ 4#3 ∧ (disp.setWidth 8).signExtend 32 = offset :=
  loadsFrom_iff (by decide) (by decide) rfl (decodeSib_missing _ 0#8 0#8 0#8).1

theorem loadsFrom_disp32 : LoadsFrom (loadBytes 2#2 r b disp) r (fun regs => regs b + offset) ↔
    b ≠ 4#3 ∧ disp = offset :=
  loadsFrom_iff (by decide) (by decide) (disp32_bytes disp []) (decodeSib_missing _ _ _ _).2

/-- With `mod` 0 the four bytes do not belong to the instruction. -/
theorem not_loadsFrom_zero (notEbp : b ≠ 5#3) (address : Regs → BitVec 32) :
    ¬LoadsFrom (loadBytes 0#2 r b 0#32) r address := by
  rintro ⟨source, decoded, _⟩
  by_cases isEsp : b = 4#3
  · have read : decodeSib 0#2 (writeDword 0#32) =
        some (⟨some 0#3, some (0#3, 0), 0#32⟩, [0#8, 0#8, 0#8]) := by decide
    rw [isEsp, loadBytes, decode_load_sib (by decide), if_neg (by decide), read] at decoded
    exact nomatch decoded
  · have read : displacement 0#2 (writeDword 0#32) = some (0#32, writeDword 0#32) := rfl
    rw [loadBytes, decode_load_base (by decide) isEsp (fun isEbp => absurd isEbp notEbp),
      if_neg (by decide), read] at decoded
    exact nomatch decoded

/-! ### The memory operand -/

/-- The delimiters of `calc_sib` are no part of a register's name or of a number. -/
theorem sibDelims : (∀ c ∈ str " [+-],", c ∈ marks) ∧ ∀ c ∈ str " [+-],*", c ∈ marks := by
  decide +kernel

/-- `calc_sib` starts with the name of a register, up to a delimiter. -/
theorem strtok_sib (b : Reg) {d : BitVec 8} (ends : d ∈ str " [+-],") (rest : Text) :
    strtok (some (91#8 :: (regName b ++ d :: rest))) (str " [+-],") none =
      (some (regName b), some rest) := by
  have plain : ∀ c ∈ regName b, c ∉ str " [+-]," := fun c inside isDelim =>
    notMem_regName (sibDelims.1 c isDelim) b inside
  obtain ⟨c, name, isName⟩ := exists_cons_of_ne_nil (regName_spec b).1
  have skip : strtok (some (91#8 :: (regName b ++ d :: rest))) (str " [+-],") none =
      strtok none (str " [+-],") (some (regName b ++ d :: rest)) := strtok_skip (by decide)
  rw [skip, isName]
  rw [isName] at plain
  exact strtok_next plain ends

theorem headD_regName (b : Reg) :
    ¬isdigit ((regName b).headD 0#8) ∧ (regName b).headD 0#8 ≠ 59#8 := by
  obtain ⟨nonempty, plain, _⟩ := regName_spec b
  obtain ⟨c, name, isName⟩ := exists_cons_of_ne_nil nonempty
  rw [isName, headD_cons]
  obtain ⟨noMark, noDigit⟩ := plain c (isName ▸ mem_cons_self)
  exact ⟨noDigit, fun semicolon => noMark (semicolon ▸ by decide)⟩

theorem regName_index (b : Reg) :
    classify (regName b) &&& ~~~(rm32 ||| rm8) = b.setWidth 32 := by
  revert b
  decide

/-- The name of the base, as the first token. -/
theorem plainStep_name (b : Reg) (left : Nat) (disp : U32) :
    plainStep ⟨0#32, -1#32, -1#32, 0, disp⟩ ⟨regName b, left⟩ =
      ⟨0#32, b.setWidth 32, -1#32, 1, disp⟩ := by
  rw [plainStep, if_neg (headD_regName b).1, regName_index]
  rfl

variable {digits : List (Fin 10)}

theorem headD_digitText (nonempty : digits ≠ []) : isdigit ((digitText digits).headD 0#8) := by
  obtain ⟨d, digits, rfl⟩ := exists_cons_of_ne_nil nonempty
  exact (digitChar_spec d).1

theorem plainStep_digits (nonempty : digits ≠ []) (left : Nat) (st : SibState) :
    plainStep st ⟨digitText digits, left⟩ =
      { st with disp := BitVec.ofNat 32 (digitValue digits) } := by
  rw [plainStep, if_pos (headD_digitText nonempty), atoi32_digitText]

theorem cuts_digits (nonempty : digits ≠ []) :
    ∃ left, cuts (str " [+-],*") (some (digitText digits ++ [93#8])) =
      [⟨digitText digits, left⟩, ⟨[], 0⟩] := by
  obtain ⟨d, digits, rfl⟩ := exists_cons_of_ne_nil nonempty
  have plain : ∀ c ∈ digitText (d :: digits), c ∉ str " [+-],*" := fun c inside isDelim =>
    notMem_digitText (mem_append_left (str "x") (sibDelims.2 c isDelim)) _ inside
  have cut : strtok none (str " [+-],*") (some (digitText (d :: digits) ++ [93#8])) =
      (some (digitText (d :: digits)), some []) := strtok_next plain (by decide)
  rw [cuts_cut cut, cuts_nil]
  exact ⟨_, rfl⟩

/-- Behind the name an empty token changes nothing that is looked at. -/
theorem plainModrm_empty (minus : Bool) (op1 index : U32) (disp : U32) :
    plainModrm minus op1 (plainStep ⟨0#32, index, -1#32, 1, disp⟩ ⟨[], 0⟩) =
      plainModrm minus op1 ⟨0#32, index, -1#32, 1, disp⟩ := rfl

theorem otherOperand_of_ne (known : op1 ≠ 0#32) (line : Text) :
    otherOperand line op1 = (op1, 0#32) :=
  if_neg known

/-- A mark that is no bracket is not in `[b]`. -/
theorem notMem_brackets (mark : c ∈ marks) (other : c ≠ 91#8 ∧ c ≠ 93#8) (b : Reg) :
    c ∉ 91#8 :: (regName b ++ [93#8]) := by
  simp [other, notMem_regName mark b]

/-- `[b]`. -/
theorem calcSib_base (known : op1 ≠ 0#32) (b : Reg) :
    calcSib (91#8 :: (regName b ++ [93#8])) op1 =
      plainModrm false op1 ⟨0#32, b.setWidth 32, -1#32, 1, 0#32⟩ := by
  have noStar := strchr_eq_none (notMem_brackets (c := 42#8) (by decide) (by decide) b)
  have noMinus := strchr_eq_none (notMem_brackets (c := 45#8) (by decide) (by decide) b)
  rw [calcSib, otherOperand_of_ne known, noStar, noMinus, strtok_sib b (by decide)]
  dsimp only
  rw [cuts_nil, map_some, toList_some, singleton_append, foldl_cons,
    foldl_cons, foldl_nil, Token.ofCut, plainStep_name, plainModrm_empty]
  rfl

/-- `[b+d]` or `[b-d]`. -/
def dispText (minus : Bool) (b : Reg) (digits : List (Fin 10)) : Text :=
  91#8 :: (regName b ++ (if minus then 45#8 else 43#8) :: (digitText digits ++ [93#8]))

/-- Nor is one in `[b+d]` that is not its sign. -/
theorem notMem_dispText {minus : Bool} (mark : c ∈ marks) (other : c ≠ 91#8 ∧ c ≠ 93#8)
    (notSign : c ≠ if minus then 45#8 else 43#8) (b : Reg) (digits : List (Fin 10)) :
    c ∉ dispText minus b digits := by
  have notDigit := notMem_digitText (mem_append_left (str "x") mark) digits
  simp [dispText, other, notMem_regName mark b, notDigit, notSign]

theorem calcSib_disp (known : op1 ≠ 0#32) (minus : Bool) (b : Reg) (nonempty : digits ≠ []) :
    calcSib (dispText minus b digits) op1 =
      plainModrm minus op1
        ⟨0#32, b.setWidth 32, -1#32, 1, BitVec.ofNat 32 (digitValue digits)⟩ := by
  have noStar : strchr (dispText minus b digits) 42#8 = none :=
    strchr_eq_none
      (notMem_dispText (by decide) (by decide) (by cases minus <;> decide) b digits)
  have hasMinus : (strchr (dispText minus b digits) 45#8).isSome = minus := by
    cases minus with
    | false =>
      rw [strchr_eq_none (notMem_dispText (by decide) (by decide) (by decide) b digits)]
      rfl
    | true =>
      have inside : 45#8 ∈ dispText true b digits := by simp [dispText]
      obtain ⟨rest, found, _⟩ := strchr_of_mem inside
      rw [found]
      rfl
  have sign : (if minus then 45#8 else 43#8) ∈ str " [+-]," := by cases minus <;> decide
  obtain ⟨left, tokens⟩ := cuts_digits nonempty
  rw [calcSib, otherOperand_of_ne known, noStar, hasMinus, dispText, strtok_sib b sign]
  dsimp only
  rw [tokens, map_some, toList_some, singleton_append, foldl_cons, foldl_cons, foldl_cons,
    foldl_nil, Token.ofCut, plainStep_name, plainStep_digits nonempty, plainModrm_empty]

/-! ### The line -/

/-- The row of `mov r32, rm32`. -/
def movRow : Isa := ⟨str "mov", r32, rm32, 0x8B#32, 0#32, 0#32, 0#32⟩

/-- The first operand, as it is stored. -/
def regOperand (r : Reg) : U32 := r.setWidth 32 ||| r32

theorem regOperand_spec : ∀ r : Reg, regOperand r ≠ 0#32 ∧ regOperand r ≠ -1#32 ∧
    regOperand r &&& (imm8 ||| imm32) = 0#32 ∧
    regOperand r &&& (r32 ||| r8 ||| sreg) ≠ 0#32 ∧
    regOperand r &&& (imm8 ||| imm32 ||| rel8 ||| rel32) = 0#32 ∧
    findInstruction (str "mov") (regOperand r) (0#32 ||| r32) = some movRow := by
  decide +kernel

theorem str_mov_word : Word (str "mov") := ⟨by decide, by decide⟩

/-- The line `mov r, memory`. -/
def movLine (r : Reg) (memory : Text) : Text :=
  str "mov" ++ 32#8 :: (regName r ++ 44#8 :: 32#8 :: memory)

/-- The locals when the memory operand is reached. -/
def movOperands (r : Reg) : Operands :=
  { Operands.named (str "mov") with syn0 := regOperand r, count := 2 }

theorem plainOperand_reg (r : Reg) (s : Asm) :
    plainOperand (regName r) (.named (str "mov")) s = some (movOperands r, s) := by
  obtain ⟨_, notLabel, notNumber, _⟩ := regOperand_spec r
  have isReg : classify (regName r) = regOperand r := (regName_spec r).2.2
  rw [plainOperand, isReg, if_neg notLabel, if_neg (not_not.mpr notNumber)]
  rfl

theorem strpbrk_movLine (r : Reg) (inner : Text) :
    strpbrk (movLine r (91#8 :: inner)) (str "[") = some (91#8 :: inner) := by
  have plain : ∀ c ∈ str "ov" ++ 32#8 :: (regName r ++ [44#8, 32#8]), c ∉ str "[" := by
    intro c inside isOpen
    have isBracket : c = 91#8 := List.mem_singleton.mp isOpen
    rw [isBracket] at inside
    have notName : 91#8 ∉ regName r := notMem_regName (by decide) r
    simp [str, notName] at inside
  have same : movLine r (91#8 :: inner) =
      109#8 :: ((str "ov" ++ 32#8 :: (regName r ++ [44#8, 32#8])) ++ 91#8 :: inner) := by
    simp [movLine, str]
  rw [same, strpbrk_append 109#8 plain (by decide)]

/-- The line is read as it is meant: the register, then the operand in memory. -/
theorem scan_movLine (r : Reg) (word : Word (91#8 :: inner)) (s : Asm) :
    scan (strpbrk (movLine r (91#8 :: inner)) (str "[")) (lineTokens (movLine r (91#8 :: inner)))
      .start s = some (memoryOperand (91#8 :: inner) (movOperands r), s) := by
  obtain ⟨_, tokens⟩ := lineTokens_two str_mov_word (regName_word r) word
  have notLast : ∀ {text : Text} {left : Nat}, text.headD 0#8 ≠ 59#8 →
      left ≠ (91#8 :: inner).length → ¬Last (some (91#8 :: inner)) ⟨text, left⟩ := by
    rintro text left notComment elsewhere (comment | memory)
    · exact notComment comment
    · exact elsewhere (Option.some.inj memory).symm
  rw [strpbrk_movLine, movLine, tokens,
    scan_first (notLast (by decide) (by simp; omega)),
    scan_plain (notLast (headD_regName r).2 (by simp; omega)) Nat.one_ne_zero
      (plainOperand_reg r s),
    scan_memory (by simp)]

/-- A ModR/M byte in the lower bits of a word. -/
theorem modrmWord_spec (m : BitVec 8) : m.setWidth 32 ≠ -1#32 ∧
    writeWord (m.setWidth 32 <<< 8 ||| movRow.primary) = [0x8B#8, m] := by
  constructor
  · intro unset
    have tooLarge : (m.setWidth 32).toNat = (-1#32).toNat := congrArg _ unset
    simp at tooLarge
    omega
  · have low : (m.setWidth 32 <<< 8 ||| 0x8B#32).setWidth 8 = 0x8B#8 := by
      apply eq_of_getLsbD_eq
      intro i inside
      simp [inside]
    have high : ((m.setWidth 32 <<< 8 ||| 0x8B#32) >>> 8).setWidth 8 = m := by
      have opcode : 0x8B#32 >>> 8 = 0#32 := by decide
      rw [ushiftRight_or_distrib, opcode, or_zero]
      apply eq_of_getLsbD_eq
      intro i inside
      simp
      grind
    rw [movRow, writeWord, low, high]

theorem modrmWord_mode (mod : BitVec 2) (r b : Reg) :
    ((modrmByte mod r b).setWidth 32 >>> 6 = 1#32 ↔ mod = 1#2) := by
  have field : (modrmByte mod r b).setWidth 32 >>> 6 = mod.setWidth 32 := by
    apply eq_of_getLsbD_eq
    intro i inside
    simp [modrmByte]
    grind
  have injective : ∀ mod : BitVec 2, mod.setWidth 32 = 1#32 ↔ mod = 1#2 := by decide
  rw [field, injective]

theorem encode_mov {memory : Text}
    (computed : calcSib memory (regOperand r) = ⟨(modrmByte mod r b).setWidth 32, 0#32, disp⟩)
    (start : U32) :
    encode movRow (memoryOperand memory (movOperands r)) start = loadBytes mod r b disp := by
  obtain ⟨nonzero, _, _, isReg, notNumber, _⟩ := regOperand_spec r
  obtain ⟨notUnset, bytes⟩ := modrmWord_spec (modrmByte mod r b)
  have syn0 : (movOperands r).syn0 = regOperand r := rfl
  have two : 0#32 ||| r32 ≠ 0#32 ∧ (0#32 ||| r32) &&& (r32 ||| r8 ||| sreg) ≠ 0#32 := by decide
  have operand : memoryOperand memory (movOperands r) =
      ⟨some (str "mov"), regOperand r, 0#32 ||| r32, 2, disp, true,
        (modrmByte mod r b).setWidth 32 >>> 6, (modrmByte mod r b).setWidth 32, false, 0#32⟩ := by
    rw [memoryOperand, syn0, computed]
    rw [if_neg nonzero, if_neg nonzero]
    rfl
  have kept : twoOperandModrm movRow (memoryOperand memory (movOperands r)) =
      ((modrmByte mod r b).setWidth 32, regOperand r) := by
    rw [operand, twoOperandModrm]
    rw [if_pos (And.intro isReg two.2), if_neg notUnset]
    exact if_neg (not_not.mpr notNumber)
  have code : opcodeBytes movRow (memoryOperand memory (movOperands r)) =
      [0x8B#8, modrmByte mod r b] := by
    rw [opcodeBytes, kept, operand]
    dsimp only
    exact bytes
  have number : ∀ position, immediateBytes movRow (memoryOperand memory (movOperands r)) start
      position = if mod = 1#2 then writeByte disp else writeDword disp := by
    intro position
    rw [operand, immediateBytes]
    simp only [movRow, rm32, r32, opNone, imm8, imm32, rel8, rel32, modrmWord_mode]
    simp
  rw [encode, code, number, operand]
  rfl

theorem parseLine_mov (word : Word (91#8 :: inner))
    (computed : calcSib (91#8 :: inner) (regOperand r) =
      ⟨(modrmByte mod r b).setWidth 32, 0#32, disp⟩) (s : Asm) :
    parseLine (movLine r (91#8 :: inner)) s = some (s.write (loadBytes mod r b disp)) := by
  obtain ⟨nonzero, _, _, _, _, found⟩ := regOperand_spec r
  have name : mnemonic (movLine r (91#8 :: inner)) = str "mov" :=
    (lineTokens_two str_mov_word (regName_word r) word).1
  have notData : ¬IsData (movLine r (91#8 :: inner)) := by
    rw [IsData, name]
    decide
  have syn0 : (memoryOperand (91#8 :: inner) (movOperands r)).syn0 = regOperand r := if_neg nonzero
  have syn1 : (memoryOperand (91#8 :: inner) (movOperands r)).syn1 = 0#32 ||| r32 := rfl
  have inst : (memoryOperand (91#8 :: inner) (movOperands r)).inst = some (str "mov") := rfl
  rw [parseLine_code notData, scan_movLine r word, bind_some, inst, map_some,
    emitInstruction, syn0, syn1, found]
  dsimp only
  rw [encode_mov computed]

/-! ### Which operands are right -/

/-- The field `mod` that goes with a displacement. -/
def dispMod (b : Reg) (disp : U32) : BitVec 2 :=
  if disp ≠ 0#32 then if 255 < disp.toInt then 2#2 else 1#2
  else if b = 5#3 then 1#2 else 0#2

theorem modrm_eq (mod : BitVec 2) (r b : Reg) :
    modrm (mod.setWidth 32) (regOperand r &&& ~~~(r8 ||| r32)) (b.setWidth 32) =
      (modrmByte mod r b).setWidth 32 ∧ (b.setWidth 32 = 5#32 ↔ b = 5#3) := by
  have number : regOperand r &&& ~~~(r8 ||| r32) = r.setWidth 32 := by
    revert r
    decide
  have ebp : ∀ b : Reg, b.setWidth 32 = 5#32 ↔ b = 5#3 := by decide
  have fields : (∀ x : BitVec 2, x.setWidth 32 &&& 3#32 = x.setWidth 32) ∧
      ∀ x : BitVec 3, x.setWidth 32 &&& 7#32 = x.setWidth 32 := by decide
  refine ⟨?_, ebp b⟩
  rw [number, modrm, modrmByte, fields.1, fields.2, fields.2]
  apply eq_of_getLsbD_eq
  intro i inside
  simp
  grind

theorem plainModrm_eq (minus : Bool) (r b : Reg) (disp : U32) :
    plainModrm minus (regOperand r) ⟨0#32, b.setWidth 32, -1#32, 1, disp⟩ =
      ⟨(modrmByte (dispMod b (if minus then disp * -1#32 else disp)) r b).setWidth 32, 0#32,
        if minus then disp * -1#32 else disp⟩ := by
  by_cases zero : disp = 0#32
  · have same : (if minus then disp * -1#32 else disp) = 0#32 := by
      rw [zero]
      cases minus <;> rfl
    have ebp : b.setWidth 32 = 5#32 ↔ b = 5#3 := (modrm_eq 0#2 r b).2
    rw [same, plainModrm, if_neg (not_not.mpr zero), dispMod, if_neg (not_not.mpr rfl)]
    by_cases isEbp : b = 5#3
    · rw [if_pos (ebp.mpr isEbp), if_pos isEbp, ← (modrm_eq 1#2 r b).1]
      rfl
    · rw [if_neg (mt ebp.mp isEbp), if_neg isEbp, ← (modrm_eq 0#2 r b).1]
      rfl
  · have nonzero : (if minus then disp * -1#32 else disp) ≠ 0#32 := by
      cases minus with
      | false => exact zero
      | true =>
        rw [if_pos rfl, BitVec.mul_neg, BitVec.mul_one]
        exact fun negated => zero (BitVec.neg_eq_zero_iff.mp negated)
    rw [plainModrm, if_pos zero, dispMod, if_pos nonzero]
    dsimp only
    generalize (if minus then disp * -1#32 else disp) = x
    by_cases large : 255 < x.toInt
    · rw [if_pos large, if_pos large, ← (modrm_eq 2#2 r b).1]
      rfl
    · rw [if_neg large, if_neg large, ← (modrm_eq 1#2 r b).1]
      rfl

/-- One byte has to be enough for the displacement, or is not used. -/
theorem loadsFrom_dispMod (r b : Reg) (disp : U32) :
    LoadsFrom (loadBytes (dispMod b disp) r b disp) r (fun regs => regs b + disp) ↔
      b ≠ 4#3 ∧ (disp = 0#32 ∧ b = 5#3 ∨
        disp ≠ 0#32 ∧ (255 < disp.toInt ∨ -128 ≤ disp.toInt ∧ disp.toInt < 128)) := by
  rw [dispMod]
  by_cases zero : disp = 0#32
  · rw [if_neg (not_not.mpr zero)]
    by_cases isEbp : b = 5#3
    · rw [if_pos isEbp, loadsFrom_disp8, signExtend_setWidth_eq_iff]
      simp [zero, isEbp]
    · rw [if_neg isEbp, zero]
      exact ⟨fun loads => absurd loads (not_loadsFrom_zero isEbp _), fun right => by
        simp [isEbp] at right⟩
  · rw [if_pos zero]
    by_cases large : 255 < disp.toInt
    · rw [if_pos large, loadsFrom_disp32]
      simp [zero, large]
    · rw [if_neg large, loadsFrom_disp8, signExtend_setWidth_eq_iff]
      simp [zero, large]

/-- Blanks are other marks than those of an operand in memory. -/
theorem blank_other : ∀ c ∈ blanks, (c ≠ 91#8 ∧ c ≠ 93#8) ∧ c ≠ 45#8 ∧ c ≠ 43#8 := by
  decide

theorem dispText_word (minus : Bool) (b : Reg) (digits : List (Fin 10)) :
    Word (dispText minus b digits) := by
  refine ⟨cons_ne_nil _ _, fun c inside blank => ?_⟩
  obtain ⟨other, notMinus, notPlus⟩ := blank_other c blank
  have notSign : c ≠ if minus then 45#8 else 43#8 := by
    cases minus with
    | false => exact notPlus
    | true => exact notMinus
  exact notMem_dispText (mem_marks_of_blank blank) other notSign b digits inside

/-- What is emitted for `mov r, [b+d]` and `mov r, [b-d]`. -/
theorem parseLine_disp (minus : Bool) (r b : Reg) (nonempty : digits ≠ []) (s : Asm) :
    parseLine (movLine r (dispText minus b digits)) s =
      let disp := BitVec.ofNat 32 (digitValue digits)
      let x := if minus then disp * -1#32 else disp
      some (s.write (loadBytes (dispMod b x) r b x)) := by
  have computed := calcSib_disp (regOperand_spec r).1 minus b nonempty
  rw [plainModrm_eq] at computed
  exact parseLine_mov (dispText_word minus b digits) computed s

/-- `[b]`. -/
def baseText (b : Reg) : Text := 91#8 :: (regName b ++ [93#8])

theorem baseText_word (b : Reg) : Word (baseText b) :=
  ⟨cons_ne_nil _ _, fun c inside blank =>
    notMem_brackets (mem_marks_of_blank blank) (blank_other c blank).1 b inside⟩

theorem parseLine_base (r b : Reg) (s : Asm) :
    parseLine (movLine r (baseText b)) s =
      some (s.write (loadBytes (dispMod b 0#32) r b 0#32)) := by
  have computed := calcSib_base (regOperand_spec r).1 b
  rw [plainModrm_eq] at computed
  exact parseLine_mov (baseText_word b) computed s

/-- For `[b]` the bytes are right if the base is `ebp`. For `[b+d]` and `[b-d]` they are right
if it is not `esp`, and the displacement is not 0 and fits into one byte with its sign, or is
256 or more and is added; and for 0 if the base is `ebp`. -/
theorem memory_operand_faithful_iff (r b : Reg) {digits : List (Fin 10)} (nonempty : digits ≠ [])
    (small : digitValue digits < 2 ^ 31) :
    (∃ bytes, (∀ s, parseLine (movLine r (baseText b)) s = some (s.write bytes)) ∧
        (LoadsFrom bytes r (fun regs => regs b) ↔ b = 5#3)) ∧
      (∃ bytes, (∀ s, parseLine (movLine r (dispText false b digits)) s = some (s.write bytes)) ∧
        (LoadsFrom bytes r (fun regs => regs b + BitVec.ofNat 32 (digitValue digits)) ↔
          b ≠ 4#3 ∧ (digitValue digits = 0 ∧ b = 5#3 ∨
            1 ≤ digitValue digits ∧ digitValue digits ≤ 127 ∨ 256 ≤ digitValue digits))) ∧
      ∃ bytes, (∀ s, parseLine (movLine r (dispText true b digits)) s = some (s.write bytes)) ∧
        (LoadsFrom bytes r (fun regs => regs b - BitVec.ofNat 32 (digitValue digits)) ↔
          b ≠ 4#3 ∧ (digitValue digits = 0 ∧ b = 5#3 ∨
            1 ≤ digitValue digits ∧ digitValue digits ≤ 128)) := by
  have value : (BitVec.ofNat 32 (digitValue digits)).toInt = digitValue digits := by
    rw [BitVec.toInt_eq_toNat_of_lt, BitVec.toNat_ofNat, Nat.mod_eq_of_lt (by omega)]
    rw [BitVec.toNat_ofNat]
    omega
  have zeroIff : BitVec.ofNat 32 (digitValue digits) = 0#32 ↔ digitValue digits = 0 := by
    rw [← BitVec.toInt_inj, value]
    simp
  refine ⟨⟨_, parseLine_base r b, ?_⟩, ⟨_, parseLine_disp false r b nonempty, ?_⟩,
    ⟨_, parseLine_disp true r b nonempty, ?_⟩⟩
  · have loads := loadsFrom_dispMod r b 0#32
    simp only [BitVec.add_zero] at loads
    rw [loads]
    constructor
    · rintro ⟨_, ⟨_, isEbp⟩ | ⟨nonzero, _⟩⟩
      · exact isEbp
      · exact absurd rfl nonzero
    · rintro rfl
      decide
  · rw [if_neg Bool.false_ne_true, loadsFrom_dispMod, value, Ne, Ne, zeroIff]
    refine and_congr_right fun _ => or_congr_right ?_
    omega
  · have negated : (-BitVec.ofNat 32 (digitValue digits)).toInt = -(digitValue digits : Int) := by
      rw [BitVec.toInt_neg_of_ne_intMin, value]
      intro least
      rw [least] at value
      have lowest : (BitVec.intMin 32).toInt = -2147483648 := by decide
      omega
    have zeroNeg : -BitVec.ofNat 32 (digitValue digits) = 0#32 ↔ digitValue digits = 0 := by
      rw [BitVec.neg_eq_zero_iff, zeroIff]
    rw [if_pos rfl, BitVec.mul_neg, BitVec.mul_one]
    simp only [BitVec.sub_eq_add_neg]
    rw [loadsFrom_dispMod, negated, Ne, Ne, zeroNeg]
    refine and_congr_right fun _ => or_congr_right ?_
    omega

/-- `mov eax, [ebx+8]`. -/
theorem load_at_eight :
    ∃ bytes, (∀ s, parseLine (str "mov eax, [ebx+8]") s = some (s.write bytes)) ∧
      LoadsFrom bytes 0#3 fun regs => regs 3#3 + 8#32 := by
  have nonempty : ([8] : List (Fin 10)) ≠ [] := by decide
  obtain ⟨_, ⟨bytes, emitted, loads⟩, _⟩ :=
    memory_operand_faithful_iff 0#3 3#3 nonempty (by decide)
  exact ⟨bytes, emitted, loads.mpr ⟨by decide, by decide⟩⟩

/-- Behind `mov eax, [ebx]` there are four bytes that do not belong to it. -/
theorem base_leaves_bytes :
    (∀ s, parseLine (str "mov eax, [ebx]") s =
        some (s.write [0x8B#8, 0x03#8, 0#8, 0#8, 0#8, 0#8])) ∧
      decode [0x8B#8, 0x03#8, 0#8, 0#8, 0#8, 0#8] =
        some (.load 0#3 (.memory ⟨some 3#3, none, 0#32⟩), [0#8, 0#8, 0#8, 0#8]) :=
  ⟨parseLine_base 0#3 3#3, by decide⟩

end Crunchy.Lass
