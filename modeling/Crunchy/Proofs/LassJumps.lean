/-
Module: Crunchy.Proofs.LassJumps
Purpose: Where the jumps of an assembled program go. Every jump to a label is a short one, so it
  comes to its label exactly when that is near enough.
Trusted boundary: none
Main exports: FirstPass, SecondPass, JumpLine, Target, parseLine_jump, jump_lands_iff
-/
import Crunchy.Lib.Ia32
import Crunchy.Proofs.LassLines
import Crunchy.Proofs.LassOperands

namespace Crunchy.Lass

open Lib Lib.Ia32 BitVec Option List

/-! ### The two passes -/

variable {s t : Asm} {lines : List Line} {placed : List (Line × U32)}

/-- The first pass over a source text: the lines with their positions, and the state it
ends in. -/
def FirstPass (buffer : Text) (output : Bytes) (placed : List (Line × U32)) (first : Asm) : Prop :=
  ∃ lines, sourceLines buffer = some lines ∧
    layout 1 lines ⟨output, 0#32, [], []⟩ = some (placed, first)

/-- The second pass is about to assemble the line `text`, in the state `t`. -/
def SecondPass (placed : List (Line × U32)) (first : Asm) (text : Text) (t : Asm) : Prop :=
  ∃ ahead after before, placed.map Prod.fst = ahead ++ .code text :: after ∧
    layout 2 ahead { first with currentPosition := 0#32 } = some (before, t)

variable {buffer : Text} {output : Bytes} {first : Asm} {text : Text}

theorem SecondPass.symtab (ran : FirstPass buffer output placed first)
    (visited : SecondPass placed first text t) : t.symtab = placed.filterMap recorded := by
  obtain ⟨lines, _, laidOut⟩ := ran
  obtain ⟨ahead, after, before, _, laidOut'⟩ := visited
  rw [symtab_second laidOut', (symtab_first laidOut).1, nil_append]

/-! ### Labels -/

/-- A label is cut out of a string at its first colon. -/
theorem read_label {text name : Text} (noNul : 0#8 ∉ text)
    (read : Line.read text = some (.label name)) : 0#8 ∉ name ∧ 58#8 ∉ name := by
  rw [Line.read] at read
  split_ifs at read with visible
  by_cases colon : 58#8 ∈ text
  · obtain ⟨rest, found, split⟩ := strchr_of_mem colon
    rw [found] at read
    have isName : (text.takeWhile fun c => c ≠ 58#8) = name := by
      rw [← take_front split]
      simpa using read
    rw [← isName]
    refine ⟨fun zero => noNul (takeWhile_subset _ zero), fun inside => ?_⟩
    simpa using mem_takeWhile_imp inside
  · rw [strchr_eq_none colon] at read
    cases read

theorem sourceLines_label {name : Text} (read : sourceLines buffer = some lines)
    (inside : Line.label name ∈ lines) : 0#8 ∉ name ∧ 58#8 ∉ name := by
  obtain ⟨slots, _, same⟩ := map_eq_some_iff.mp read
  rw [← same] at inside
  obtain ⟨p, _, isLabel⟩ := mem_filterMap.mp inside
  refine read_label (fun zero => ?_) isLabel
  simpa using mem_takeWhile_imp zero

/-- The labels are shorter than the field they are stored in. -/
def ShortLabels (placed : List (Line × U32)) : Prop :=
  ∀ name position, (Line.label name, position) ∈ placed → name.length < 32

/-- The name of a label as it is read back from the table. -/
theorem nameOf_label {name : Text} (short : name.length < 32) (clean : 0#8 ∉ name ∧ 58#8 ∉ name)
    (position : U32) (rest : List Symbol) :
    nameOf (Symbol.ofLabel name position :: rest) = name := by
  have stored : (name.take 32).map (fun c => if c ≠ 58#8 then c else 0#8) = name := by
    rw [List.take_of_length_le (by omega), List.map_congr_left (g := id), List.map_id]
    intro c inside
    exact if_pos fun colon : c = 58#8 => clean.2 (colon ▸ inside)
  obtain ⟨zeros, padded⟩ : ∃ zeros, List.replicate (32 - name.length) 0#8 = 0#8 :: zeros :=
    ⟨_, by rw [show 32 - name.length = (31 - name.length) + 1 by omega, List.replicate_succ]⟩
  rw [nameOf, List.flatMap_cons, Symbol.bytes, Symbol.ofLabel, stored, padded]
  simp only [List.append_assoc, List.cons_append]
  rw [cString_terminated, cString, List.takeWhile_eq_self_iff]
  intro c inside
  simpa using fun zero : c = 0#8 => clean.1 (zero ▸ inside)

variable {op : Text} {front back : List (Line × U32)}

/-- No label in `placed` is one that `op` starts with. -/
def Unshadowed (placed : List (Line × U32)) (op : Text) : Prop :=
  ∀ name position, (Line.label name, position) ∈ placed → ¬name <+: op

/-- Labels that the operand does not start with are passed over. -/
theorem symbolPosition_skip (short : ShortLabels front)
    (clean : ∀ name position, (Line.label name, position) ∈ front → 0#8 ∉ name ∧ 58#8 ∉ name)
    (unshadowed : Unshadowed front op) (symbols : List Symbol) :
    symbolPosition op (front.filterMap recorded ++ symbols) = symbolPosition op symbols := by
  induction front with
  | nil => rfl
  | cons placedLine front ih =>
    have rest := ih
      (fun name position inside => short name position (List.mem_cons_of_mem _ inside))
      (fun name position inside => clean name position (List.mem_cons_of_mem _ inside))
      (fun name position inside => unshadowed name position (List.mem_cons_of_mem _ inside))
    obtain ⟨l, position⟩ := placedLine
    rw [List.filterMap_cons]
    cases l with
    | code text => exact rest
    | label name =>
      have noNul := clean name position List.mem_cons_self
      have other : Libc.strcmp name op ≠ 0 := fun equal =>
        unshadowed name position List.mem_cons_self
          ((Libc.strcmp_eq_zero_iff noNul.1).mp equal)
      rw [recorded, List.cons_append, symbolPosition,
        nameOf_label (short name position List.mem_cons_self) noNul, if_neg other, rest]

/-- The first label that the operand starts with is found. -/
theorem symbolPosition_label {name : Text} {address : U32}
    (isPlaced : placed = front ++ (Line.label name, address) :: back) (short : ShortLabels placed)
    (clean : ∀ name position, (Line.label name, position) ∈ placed → 0#8 ∉ name ∧ 58#8 ∉ name)
    (unshadowed : Unshadowed front op) (starts : name <+: op) :
    symbolPosition op (placed.filterMap recorded) = some address := by
  subst isPlaced
  have here : (Line.label name, address) ∈ front ++ (Line.label name, address) :: back :=
    mem_append_right front mem_cons_self
  have noNul := clean name address here
  rw [filterMap_append, filterMap_cons,
    symbolPosition_skip (fun n p inside => short n p (mem_append_left _ inside)) (fun n p inside => clean n p (mem_append_left _ inside)) unshadowed,
    recorded, symbolPosition, nameOf_label (short name address here) noNul,
    if_pos ((Libc.strcmp_eq_zero_iff noNul.1).mpr starts)]
  exact congrArg some (add_zero address)

/-! ### Jump instructions -/

/-- What is stored for an operand: one that is neither a number nor a register is taken for a
label, and has a distance of 8 bits. -/
def operandClass (op : Text) : U32 := if classify op = -1#32 then rel8 else classify op

theorem mem_of_lookup {table : List SyntaxEntry} {entry : SyntaxEntry}
    (found : lookup table op = some entry) : entry ∈ table :=
  mem_of_find?_eq_some found

/-- A number or a register is no distance. -/
theorem classify_cases (op : Text) :
    classify op = -1#32 ∨ classify op &&& (rel8 ||| rel32) = 0#32 := by
  have tables : (∀ entry ∈ registers, (entry.code ||| r32) &&& (rel8 ||| rel32) = 0#32) ∧
      (∀ entry ∈ half, (entry.code ||| r8) &&& (rel8 ||| rel32) = 0#32) ∧
      ∀ entry ∈ segments, (entry.code ||| sreg) &&& (rel8 ||| rel32) = 0#32 := by
    decide
  rw [classify]
  by_cases number : isdigit (op.headD 0#8)
  · rw [if_pos number]
    split_ifs <;> exact Or.inr (by decide)
  rw [if_neg number]
  cases isRegister : lookup registers op with
  | some entry => exact Or.inr (tables.1 entry (mem_of_lookup isRegister))
  | none =>
    cases isHalf : lookup half op with
    | some entry => exact Or.inr (tables.2.1 entry (mem_of_lookup isHalf))
    | none =>
      cases isSegment : lookup segments op with
      | some entry => exact Or.inr (tables.2.2 entry (mem_of_lookup isSegment))
      | none => exact Or.inl rfl

variable {row : Isa} {mn : Text}

/-- The first operand of the instruction that is found is one of those asked for. -/
theorem findInstruction_spec {op1 op2 : U32} (found : findInstruction mn op1 op2 = some row) :
    row ∈ x86 ∧ row.op1 &&& op1 = row.op1 := by
  rw [findInstruction] at found
  cases exact : x86.find? fun row => exactMatch mn op1 op2 row with
  | some row' =>
    rw [exact] at found
    have same : row' = row := Option.some.inj found
    subst same
    refine ⟨List.mem_of_find?_eq_some exact, ?_⟩
    have holds : exactMatch mn op1 op2 row' := by simpa using List.find?_some exact
    have asked := holds.2
    split_ifs at asked with segment
    · rw [asked.1, BitVec.and_self]
    · rcases asked with matching | neither
      · exact matching.1
      · rw [neither.1, opNone, BitVec.zero_and]
  | none =>
    rw [exact] at found
    refine ⟨List.mem_of_find?_eq_some found, ?_⟩
    have holds : wideMatch mn op1 op2 row := by simpa using List.find?_some found
    exact holds.2.1

/-- Every instruction with a distance of 8 bits is a short jump. -/
theorem short_rows : ∀ row ∈ x86, row.op1 = rel8 →
    row.op2 = opNone ∧ row.secondary = 0#32 ∧ row.prefixByte = 0#32 ∧ row.extension = 0#32 ∧
      IsShortJump (row.primary.setWidth 8) := by
  decide +kernel

/-- `text` is a jump with the operand `op`, and `row` is the relative instruction that is found
for it. Behind the operand there is a comment at most. -/
structure JumpLine (text op : Text) (row : Isa) : Prop where
  code : ¬IsData text
  named : ¬Last (strpbrk text (str "[")) (Token.ofCut (mnemonic text) (behind text))
  operand : ∃ left rest, cuts blanks (behind text) = ⟨op, left⟩ :: rest ∧
    ¬Last (strpbrk text (str "[")) ⟨op, left⟩ ∧ ∀ pch ∈ rest.head?, pch.text.headD 0#8 = 59#8
  found : findInstruction (mnemonic text) (operandClass op) 0#32 = some row
  relative : row.op1 = rel8 ∨ row.op1 = rel32

/-- A relative jump is emitted for labels only, and it is always a short one. -/
theorem JumpLine.label (jump : JumpLine text op row) :
    classify op = -1#32 ∧ row.op1 = rel8 ∧ row ∈ x86 := by
  obtain ⟨inTable, asked⟩ := findInstruction_spec jump.found
  have isLabel : classify op = -1#32 := by
    by_contra other
    have noDistance := (classify_cases op).resolve_left other
    rw [operandClass, if_neg other] at asked
    have masked : ∀ n : U32, n &&& (rel8 ||| rel32) = n → n &&& classify op = 0#32 := by
      intro n inside
      rw [← inside, BitVec.and_assoc, BitVec.and_comm _ (classify op), noDistance, BitVec.and_zero]
    rcases jump.relative with isShort | isLong
    · rw [isShort, masked rel8 (by decide)] at asked
      exact absurd asked (by decide)
    · rw [isLong, masked rel32 (by decide)] at asked
      exact absurd asked (by decide)
  rw [operandClass, if_pos isLabel] at asked
  refine ⟨isLabel, jump.relative.resolve_right fun isLong => ?_, inTable⟩
  rw [isLong] at asked
  exact absurd asked (by decide)

/-- The locals behind the operand of a jump. -/
def jumpOperands (mn : Text) (immediate : U32) : Operands :=
  { Operands.named mn with imm := true, immediate := immediate, syn0 := rel8, count := 2 }

/-- The opcode, and the distance from the byte behind the two of the instruction. -/
theorem encode_jump (inTable : row ∈ x86) (isShort : row.op1 = rel8) (mn : Text)
    (immediate start : U32) :
    encode row (jumpOperands mn immediate) start =
      [row.primary.setWidth 8, (immediate - (start + 2#32)).setWidth 8] := by
  obtain ⟨op2, secondary, prefixByte, extension, _⟩ := short_rows row inTable isShort
  have code : opcodeBytes row (jumpOperands mn immediate) = [row.primary.setWidth 8] := by
    have noSecond : (jumpOperands mn immediate).syn1 = 0#32 := rfl
    have isRelative : (jumpOperands mn immediate).syn0 = rel8 := rfl
    rw [opcodeBytes, extension, noSecond, isRelative, if_neg (not_not.mpr rfl),
      if_neg fun both => absurd both.1 (by decide), if_neg (by decide), if_pos (by decide)]
    rfl
  have number : immediateBytes row (jumpOperands mn immediate) start (start + 1#32) =
      [(immediate - (start + 2#32)).setWidth 8] := by
    have distance : immediate - (start + 1#32) - (start + 1#32 - start) - elfOffset =
        immediate - (start + 2#32) := by
      have one : start + 1#32 - start = 1#32 := by rw [BitVec.add_comm, BitVec.add_sub_cancel]
      rw [one, elfOffset, BitVec.sub_zero, BitVec.sub_sub, BitVec.add_assoc]
      rfl
    rw [immediateBytes, op2, if_pos rfl, isShort]
    exact congrArg writeByte distance
  rw [encode, code, secondary, prefixByte]
  exact congrArg _ number

/-- What a jump with a known operand emits. -/
theorem parseLine_jump (jump : JumpLine text op row) {immediate : U32}
    (looked : findSymbol op s = (immediate, s)) :
    parseLine text s = some (s.write [row.primary.setWidth 8,
      (immediate - (s.currentPosition + 2#32)).setWidth 8]) := by
  obtain ⟨isLabel, isShort, inTable⟩ := jump.label
  obtain ⟨left, rest, tokens, isPlain, comment⟩ := jump.operand
  have found := jump.found
  rw [operandClass, if_pos isLabel] at found
  have stored : plainOperand op (.named (mnemonic text)) s =
      some (jumpOperands (mnemonic text) immediate, s) := by
    rw [plainOperand, if_pos isLabel, looked]
    rfl
  have scanned : scan (strpbrk text (str "[")) (lineTokens text) .start s =
      some (jumpOperands (mnemonic text) immediate, s) := by
    rw [lineTokens, scan_first jump.named, text_ofCut, tokens,
      scan_plain isPlain Nat.one_ne_zero stored]
    cases rest with
    | nil => rfl
    | cons pch rest => rw [scan, if_pos (comment pch rfl)]
  have inst : (jumpOperands (mnemonic text) immediate).inst = some (mnemonic text) := rfl
  have row' : findInstruction (mnemonic text) (jumpOperands (mnemonic text) immediate).syn0
      (jumpOperands (mnemonic text) immediate).syn1 = some row := found
  rw [parseLine_code jump.code, scanned, bind_some, inst, map_some, emitInstruction, row']
  dsimp only
  rw [encode_jump inTable isShort]

/-! ### Where it goes -/

/-- The address that the operand of a jump at `own` means: that of the label of this name, or
`own` for `$`. A comment may follow without a blank. No label that is recorded before may be
one that the operand starts with. -/
inductive Target (placed : List (Line × U32)) (op : Text) (own : U32) : U32 → Prop
  | label {front back : List (Line × U32)} {name comment : Text} {address : U32}
      (isPlaced : placed = front ++ (.label name, address) :: back) (isName : op = name ++ comment)
      (isComment : comment = [] ∨ comment.head? = some 59#8) (unshadowed : Unshadowed front op) :
      Target placed op own address
  | own (isOwn : op = str "$") (unshadowed : Unshadowed placed op) : Target placed op own own

theorem findSymbol_target {address : U32} (ran : FirstPass buffer output placed first)
    (short : ShortLabels placed) (symtab : s.symtab = placed.filterMap recorded)
    (target : Target placed op s.currentPosition address) : findSymbol op s = (address, s) := by
  have clean : ∀ name position, (Line.label name, position) ∈ placed →
      0#8 ∉ name ∧ 58#8 ∉ name := by
    obtain ⟨lines, read, laidOut⟩ := ran
    intro name position inside
    apply sourceLines_label read
    rw [← (symtab_first laidOut).2]
    exact List.mem_map_of_mem inside
  rw [findSymbol, symtab]
  cases target with
  | label isPlaced isName _ unshadowed =>
    rw [symbolPosition_label isPlaced short clean unshadowed (isName ▸ List.prefix_append _ _)]
  | own isOwn unshadowed =>
    have skipped := symbolPosition_skip short clean unshadowed []
    rw [List.append_nil] at skipped
    rw [skipped, symbolPosition, isOwn]
    rw [if_neg (by decide), if_pos (by decide), elfOffset, BitVec.add_zero]

/-- In the second pass a jump is assembled to a short one, and it goes to the address that its
operand means exactly when the distance from the byte behind it fits into 8 bits. -/
theorem jump_lands_iff {buffer : Text} {output : Bytes} {placed : List (Line × U32)} {first : Asm}
    (ran : FirstPass buffer output placed first) (short : ShortLabels placed) {text op : Text}
    {row : Isa} {t : Asm} (visited : SecondPass placed first text t) (jump : JumpLine text op row)
    {address : U32} (target : Target placed op t.currentPosition address) :
    ∃ opcode d, parseLine text t = some (t.write [opcode, d]) ∧
      (jumpTarget t.currentPosition [opcode, d] = some address ↔
        -128 ≤ (address - (t.currentPosition + 2#32)).toInt ∧
          (address - (t.currentPosition + 2#32)).toInt < 128) := by
  have looked := findSymbol_target ran short (visited.symtab ran) target
  obtain ⟨_, isShort, inTable⟩ := jump.label
  refine ⟨_, _, parseLine_jump jump looked, ?_⟩
  rw [jumpTarget_short (short_rows row inTable isShort).2.2.2.2, ← signExtend_setWidth_eq_iff,
    Option.some.injEq]
  exact eq_sub_iff_add_eq'.symm

/-- A jump over one instruction, in the second line of a text. -/
def nearText : Text := str "\njmp end\nnop\nend:\n"

/-- Its lines, where they are placed. -/
def nearPlaced : List (Line × U32) :=
  [(.code (str "jmp end"), 0#32), (.code (str "nop"), 2#32), (.label (str "end"), 3#32)]

/-- The row of `jmp rel8`. -/
def jmpRow : Isa := ⟨str "jmp", rel8, opNone, 0xEB#32, 0#32, 0#32, 0#32⟩

theorem jmp_line : JumpLine (str "jmp end") (str "end") jmpRow where
  code := by decide
  named := by decide
  operand := ⟨3, [], by decide, by decide, by decide⟩
  found := by decide +kernel
  relative := by decide

theorem near_jump_lands :
    ∃ (t : Asm) (opcode d : BitVec 8), parseLine (str "jmp end") t = some (t.write [opcode, d]) ∧
      jumpTarget 0#32 [opcode, d] = some 3#32 := by
  have positions : (layout 1 (nearPlaced.map Prod.fst) ⟨fun _ => 0#8, 0#32, [], []⟩).map Prod.fst =
      some nearPlaced := by decide +kernel
  obtain ⟨⟨_, first⟩, laidOut, rfl⟩ := map_eq_some_iff.mp positions
  have ran : FirstPass nearText (fun _ => 0#8) nearPlaced first :=
    ⟨nearPlaced.map Prod.fst, by decide, laidOut⟩
  have short : ShortLabels nearPlaced := by
    intro name position inside
    simp only [nearPlaced, mem_cons, Prod.mk.injEq, reduceCtorEq, false_and,
      Line.label.injEq, not_mem_nil, or_false, false_or] at inside
    rw [inside.1]
    decide
  have visited : SecondPass nearPlaced first (str "jmp end")
      { first with currentPosition := 0#32 } := ⟨[], _, [], rfl, rfl⟩
  have isPlaced : nearPlaced = [(.code (str "jmp end"), 0#32), (.code (str "nop"), 2#32)] ++
      (.label (str "end"), 3#32) :: [] := rfl
  have noLabel : Unshadowed [(.code (str "jmp end"), 0#32), (.code (str "nop"), 2#32)]
      (str "end") := by
    intro name position inside
    simp at inside
  have target : Target nearPlaced (str "end") 0#32 3#32 :=
    .label isPlaced (append_nil _).symm (Or.inl rfl) noLabel
  obtain ⟨opcode, d, parsed, lands⟩ := jump_lands_iff ran short visited jmp_line target
  have near : -128 ≤ (3#32 - (0#32 + 2#32)).toInt ∧ (3#32 - (0#32 + 2#32)).toInt < 128 := by decide
  exact ⟨_, opcode, d, parsed, lands.mpr near⟩

/-- A jump over 128 bytes. -/
def farText : Text := str "\njmp far\ndb " ++ List.replicate 128 97#8 ++ str "\nfar:\n"

/-- The jump to `far`, which is at 130, goes to -126; and the one to `loop2`, which is at 1, goes
to the label `loop` at 0. -/
theorem jumps_miss :
    (assemble farText fun _ => 0#8).map (fun s => ((List.range 2).map s.output,
        s.symtab.map Symbol.position)) = some ([0xEB#8, 0x80#8], [130#32]) ∧
      jumpTarget 0#32 [0xEB#8, 0x80#8] = some (-126#32) ∧
      (assemble (str "\nloop:\nnop\nloop2:\njmp loop2\n") fun _ => 0#8).map (fun s =>
        ((List.range 3).map s.output, s.symtab.map Symbol.position)) =
          some ([0x90#8, 0xEB#8, 0xFD#8], [0#32, 1#32]) ∧
      jumpTarget 1#32 [0xEB#8, 0xFD#8] = some 0#32 := by
  decide +kernel

end Crunchy.Lass
