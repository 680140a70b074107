/-
Module: Crunchy.Proofs.LassLayout
Purpose: How many bytes the assembler emits for a line does not depend on the table of
  labels, so both passes place every line at the same position.
Trusted boundary: none
Main exports: Emits, WellFormed, layout, pass_eq, layout_alike, passes_lay_out_alike
-/
import Crunchy.User.Lass

variable {lines : List Line} {ops ops' : Operands} {text : Text} {pch : Token}

namespace Crunchy.Lass

open Lib List Option

/-! ### Writing -/

variable {s t u : Asm} {bytes : List (BitVec 8)}

theorem write_eq (s : Asm) (bytes : List (BitVec 8)) :
    (s.write bytes).currentPosition = s.currentPosition + BitVec.ofNat 32 bytes.length ∧
      (s.write bytes).symtab = s.symtab := by
  rw [Asm.write]
  induction bytes generalizing s with
  | nil => simp
  | cons c bytes ih =>
    obtain ⟨position, symtab⟩ := ih { s with
      output := put8 s.output s.currentPosition.toNat c
      currentPosition := s.currentPosition + 1#32 }
    rw [foldl_cons, position, symtab, length_cons, Nat.add_comm, BitVec.ofNat_add, BitVec.add_assoc]
    exact ⟨rfl, rfl⟩

/-- The new output is a function of the old one and the position. -/
theorem output_write (bytes : List (BitVec 8)) (sameOutput : s.output = t.output)
    (samePosition : s.currentPosition = t.currentPosition) :
    (s.write bytes).output = (t.write bytes).output := by
  rw [Asm.write, Asm.write]
  induction bytes generalizing s t with
  | nil => exact sameOutput
  | cons c bytes ih =>
    apply ih
    · dsimp only
      rw [sameOutput, samePosition]
    · dsimp only
      rw [samePosition]

/-- Between the two states only these bytes were written, and only `unresolved` has changed
besides. -/
structure Emits (bytes : List (BitVec 8)) (s t : Asm) : Prop where
  output : t.output = (s.write bytes).output
  position : t.currentPosition = s.currentPosition + BitVec.ofNat 32 bytes.length
  symtab : t.symtab = s.symtab

theorem Emits.refl (s : Asm) : Emits [] s s := ⟨rfl, by simp, rfl⟩

/-- What is written behind an operand that was looked up. -/
theorem Emits.write (looked : Emits [] s t) (bytes : List (BitVec 8)) :
    Emits bytes s (t.write bytes) := by
  have position : t.currentPosition = s.currentPosition := by simpa using looked.position
  refine ⟨output_write bytes looked.output position, ?_, ?_⟩
  · rw [(write_eq t bytes).1, position]
  · rw [(write_eq t bytes).2, looked.symtab]

theorem Emits.trans (first : Emits [] s t) (second : Emits [] t u) : Emits [] s u := by
  have start : t.currentPosition = s.currentPosition := by simpa using first.position
  refine ⟨second.output.trans first.output, ?_, second.symtab.trans first.symtab⟩
  rw [second.position, start]

/-! ### Operands -/

/-- The locals of `parse_line` but for the value of `immediate`. -/
def Operands.shape (ops : Operands) : Operands := { ops with immediate := 0#32 }

variable {a b : Operands} {disp : Option Text} {tokens : List Token}

theorem Operands.eq_of_shape (alike : a.shape = b.shape) :
    b = { a with immediate := b.immediate } := by
  cases a
  cases b
  simp_all [shape]

theorem push_shape (ops : Operands) (n : U32) :
    (ops.push n).map Operands.shape = ops.shape.push n := by
  obtain ⟨inst, syn0, syn1, count, immediate, imm, mode, m, rev, sib⟩ := ops
  match count with
  | 0 => rfl
  | 1 => rfl
  | 2 => rfl
  | _ + 3 => rfl

/-- The number of bytes is decided by everything but the value of the immediate. -/
theorem length_encode (row : Isa) (alike : a.shape = b.shape) (start start' : U32) :
    (encode row a start).length = (encode row b start').length := by
  rw [Operands.eq_of_shape alike]
  have sameNumber : ∀ position position', (immediateBytes row a start position).length =
      (immediateBytes row { a with immediate := b.immediate } start' position').length := by
    intro position position'
    simp only [immediateBytes]
    split_ifs <;> rfl
  have sameCode : opcodeBytes row { a with immediate := b.immediate } = opcodeBytes row a := rfl
  simp only [encode, sameCode, length_append]
  cases a.imm with
  | false => rfl
  | true => exact congrArg _ (sameNumber _ _)

/-- Looking a label up changes `unresolved` at most. -/
theorem findSymbol_emits (label : Text) (s : Asm) : Emits [] s (findSymbol label s).2 := by
  rw [findSymbol]
  cases symbolPosition label s.symtab with
  | some position => exact .refl s
  | none =>
    split_ifs
    · exact .refl s
    · exact .refl s
    · exact ⟨rfl, by simp, rfl⟩

/-- How an operand is stored, and whether it can be, is the same for any table. -/
theorem plainOperand_alike (alike : a.shape = b.shape) (text : Text) (s t : Asm) :
    (plainOperand text a s).map (fun r => r.1.shape) =
      (plainOperand text b t).map fun r => r.1.shape := by
  have pushed : ∀ (ops : Operands) (n : U32) (r : Asm),
      ((ops.push n).map fun ops => (ops, r)).map (fun r => r.1.shape) = ops.shape.push n := by
    intro ops n r
    rw [Option.map_map, ← push_shape]
    rfl
  rw [Operands.eq_of_shape alike, plainOperand, plainOperand]
  by_cases symbol : classify text = -1#32
  · rw [if_pos symbol, if_pos symbol, pushed, pushed]
    rfl
  · rw [if_neg symbol, if_neg symbol, pushed, pushed]
    split_ifs <;> rfl

theorem plainOperand_emits (read : plainOperand text ops s = some (ops', t)) : Emits [] s t := by
  rw [plainOperand] at read
  by_cases symbol : classify text = -1#32
  · rw [if_pos symbol] at read
    obtain ⟨_, _, same⟩ := map_eq_some_iff.mp read
    rw [← (Prod.mk.inj same).2]
    exact findSymbol_emits text s
  · rw [if_neg symbol] at read
    obtain ⟨_, _, same⟩ := map_eq_some_iff.mp read
    rw [← (Prod.mk.inj same).2]
    exact .refl s

theorem scan_alike (alike : a.shape = b.shape) (s t : Asm) :
    (scan disp tokens a s).map (fun r => r.1.shape) =
      (scan disp tokens b t).map fun r => r.1.shape := by
  induction tokens generalizing a b s t with
  | nil => exact congrArg some alike
  | cons pch tokens ih =>
    have same := Operands.eq_of_shape alike
    have sameCount : b.count = a.count := by rw [same]
    rw [scan, scan, sameCount]
    by_cases comment : pch.text.headD 0#8 = 59#8
    · rw [if_pos comment, if_pos comment]
      exact congrArg some alike
    rw [if_neg comment, if_neg comment]
    by_cases memory : disp.map List.length = some pch.left
    · rw [if_pos memory, if_pos memory, same]
      rfl
    rw [if_neg memory, if_neg memory]
    by_cases first : a.count = 0
    · rw [if_pos first, if_pos first]
      apply ih
      rw [same]
      rfl
    rw [if_neg first, if_neg first]
    have read := plainOperand_alike alike pch.text s t
    cases left : plainOperand pch.text a s with
    | none =>
      rw [left] at read
      rw [map_eq_none_iff.mp read.symm]
    | some r =>
      rw [left] at read
      obtain ⟨r', right, alike'⟩ := map_eq_some_iff.mp read.symm
      rw [right]
      exact ih alike'.symm r.2 r'.2

theorem scan_emits (read : scan disp tokens ops s = some (ops', t)) :
    Emits [] s t := by
  induction tokens generalizing ops s with
  | nil => exact (Prod.mk.inj (Option.some.inj read)).2 ▸ .refl s
  | cons pch tokens ih =>
    rw [scan] at read
    split_ifs at read
    · exact (Prod.mk.inj (Option.some.inj read)).2 ▸ .refl s
    · exact (Prod.mk.inj (Option.some.inj read)).2 ▸ .refl s
    · exact ih read
    · obtain ⟨⟨next, r⟩, stored, rest⟩ := bind_eq_some_iff.mp read
      exact (plainOperand_emits stored).trans (ih rest)

/-! ### Which lines are defined -/

/-- The loop ends at this token: a comment or the memory operand. -/
def Last (disp : Option Text) (pch : Token) : Prop :=
  pch.text.headD 0#8 = 59#8 ∨ disp.map List.length = some pch.left

instance (disp : Option Text) (pch : Token) : Decidable (Last disp pch) :=
  inferInstanceAs (Decidable (_ ∨ _))

/-- The first word of a line. -/
def mnemonic (text : Text) : Text := (strtok (some text) blanks none).1.getD []

/-- What is behind it. -/
def behind (text : Text) : Option Text := (strtok (some text) blanks none).2

/-- The operands in front of a memory operand or a comment. -/
def operands (text : Text) : List Token :=
  (cuts blanks (behind text)).takeWhile fun pch => ¬Last (strpbrk text (str "[")) pch

/-- A line of data. -/
def IsData (text : Text) : Prop :=
  Libc.strcmp (mnemonic text) (str "db") = 0 ∨ Libc.strcmp (mnemonic text) (str "dw") = 0 ∨
    Libc.strcmp (mnemonic text) (str "dd") = 0

/-- A mnemonic with two operands at most, besides the one in memory. -/
def IsInstruction (text : Text) : Prop :=
  ¬Last (strpbrk text (str "[")) (Token.ofCut (mnemonic text) (behind text)) ∧
    (operands text).length ≤ 2

/-- Data or an instruction. -/
def WellFormed (text : Text) : Prop := IsData text ∨ IsInstruction text

instance (text : Text) : Decidable (IsData text) := inferInstanceAs (Decidable (_ ∨ _))

instance (text : Text) : Decidable (IsInstruction text) := inferInstanceAs (Decidable (_ ∧ _))

instance (text : Text) : Decidable (WellFormed text) := inferInstanceAs (Decidable (_ ∨ _))

theorem strtok_line (text : Text) :
    strtok (some text) blanks none = (some (mnemonic text), behind text) := by
  simp only [mnemonic, behind, strtok]
  split <;> rfl

theorem push_isSome (n : U32) (begun : ops.count ≠ 0) :
    (ops.count ≤ 2 → ∃ next, ops.push n = some next ∧ next.count = ops.count + 1 ∧
      next.inst = ops.inst) ∧ (2 < ops.count → ops.push n = none) := by
  obtain ⟨inst, syn0, syn1, count, immediate, imm, mode, m, rev, sib⟩ := ops
  match count, begun with
  | 1, _ => exact ⟨fun _ => ⟨_, rfl, rfl, rfl⟩, fun more => absurd more (by simp)⟩
  | 2, _ => exact ⟨fun _ => ⟨_, rfl, rfl, rfl⟩, fun more => absurd more (by simp)⟩
  | k + 3, _ => exact ⟨fun small => absurd small (by simp), fun _ => rfl⟩

theorem plainOperand_isSome (text : Text) (s : Asm) (begun : ops.count ≠ 0) :
    (ops.count ≤ 2 → ∃ r, plainOperand text ops s = some r ∧ r.1.count = ops.count + 1 ∧
      r.1.inst = ops.inst) ∧ (2 < ops.count → plainOperand text ops s = none) := by
  -- the locals that `push` gets differ from `ops` in the immediate at most
  have stored : ∀ (next : Operands) (n : U32) (t : Asm), next.count = ops.count →
      next.inst = ops.inst →
      (ops.count ≤ 2 → ∃ r, ((next.push n).map fun ops => (ops, t)) = some r ∧
        r.1.count = ops.count + 1 ∧ r.1.inst = ops.inst) ∧
      (2 < ops.count → ((next.push n).map fun ops => (ops, t)) = none) := by
    intro next n t sameCount sameInst
    obtain ⟨room, noRoom⟩ := push_isSome n (sameCount ▸ begun : next.count ≠ 0)
    rw [sameCount] at room noRoom
    constructor
    · intro small
      obtain ⟨ops', pushed, count, inst⟩ := room small
      exact ⟨(ops', t), by rw [pushed, map_some], count, inst.trans sameInst⟩
    · intro large
      rw [noRoom large, map_none]
  rw [plainOperand]
  by_cases symbol : classify text = -1#32
  · rw [if_pos symbol]
    exact stored _ _ _ rfl rfl
  · rw [if_neg symbol]
    split_ifs
    · exact stored _ _ _ rfl rfl
    · exact stored _ _ _ rfl rfl

/-- Behind the mnemonic there is room for two operands. -/
theorem scan_isSome (s : Asm) (begun : ops.count ≠ 0) (three : ops.count ≤ 3) :
    ((tokens.takeWhile fun pch => ¬Last disp pch).length + ops.count ≤ 3 →
        ∃ r, scan disp tokens ops s = some r ∧ r.1.inst = ops.inst) ∧
      (3 < (tokens.takeWhile fun pch => ¬Last disp pch).length + ops.count →
        scan disp tokens ops s = none) := by
  induction tokens generalizing ops s with
  | nil =>
    rw [takeWhile_nil, length_nil]
    exact ⟨fun _ => ⟨_, rfl, rfl⟩, fun more => by omega⟩
  | cons pch tokens ih =>
    rw [scan]
    by_cases last : Last disp pch
    · rw [takeWhile_cons_of_neg (by simpa using last), length_nil]
      refine ⟨fun _ => ?_, fun more => by omega⟩
      by_cases comment : pch.text.headD 0#8 = 59#8
      · exact ⟨_, if_pos comment, rfl⟩
      · rw [if_neg comment, if_pos (last.resolve_left comment)]
        exact ⟨_, rfl, rfl⟩
    · rw [takeWhile_cons_of_pos (by simpa using last), length_cons,
        if_neg fun comment => last (Or.inl comment), if_neg fun memory => last (Or.inr memory),
        if_neg begun]
      obtain ⟨room, noRoom⟩ := plainOperand_isSome pch.text s begun
      by_cases small : ops.count ≤ 2
      · obtain ⟨r, read, count, inst⟩ := room small
        have begun' : r.1.count ≠ 0 := by omega
        obtain ⟨defined, undefined⟩ := ih r.2 begun' (by omega)
        rw [read, bind_some, ← inst]
        exact ⟨fun few => defined (by omega), fun many => undefined (by omega)⟩
      · rw [noRoom (by omega), bind_none]
        exact ⟨fun few => by omega, fun _ => rfl⟩

/-! ### The size of a line -/

variable {text : Text}

/-- The tokens of a line. -/
def lineTokens (text : Text) : List Token :=
  Token.ofCut (mnemonic text) (behind text) :: cuts blanks (behind text)

theorem parseLine_data (data : IsData text) :
    ∃ bytes, ∀ s, parseLine text s = some (s.write bytes) := by
  by_cases db : Libc.strcmp (mnemonic text) (str "db") = 0
  · refine ⟨dataBytes writeByte id (cuts quotes (behind text)), fun s => ?_⟩
    simp only [parseLine, strtok_line, if_pos db]
  by_cases dw : Libc.strcmp (mnemonic text) (str "dw") = 0
  · refine ⟨dataBytes writeWord (fun _ => []) (cuts quotes (behind text)), fun s => ?_⟩
    simp only [parseLine, strtok_line, if_neg db, if_pos dw]
  · have dd := (data.resolve_left db).resolve_left dw
    refine ⟨dataBytes writeDword (fun _ => []) (cuts quotes (behind text)), fun s => ?_⟩
    simp only [parseLine, strtok_line, if_neg db, if_neg dw, if_pos dd]

/-- What is emitted once the operands are known. -/
def emitInstruction (inst : Text) (ops : Operands) (s : Asm) : Asm :=
  match findInstruction inst ops.syn0 ops.syn1 with
  | some row => s.write (encode row ops s.currentPosition)
  | none => s

theorem parseLine_code (code : ¬IsData text) (s : Asm) :
    parseLine text s = (scan (strpbrk text (str "[")) (lineTokens text) .start s).bind fun r =>
      r.1.inst.map fun inst => emitInstruction inst r.1 r.2 := by
  rw [IsData, not_or, not_or] at code
  simp only [parseLine, strtok_line, if_neg code.1, if_neg code.2.1, if_neg code.2.2, lineTokens,
    Option.bind_eq_bind]
  congr 1
  funext r
  rw [Option.map_eq_bind]
  congr 1
  funext inst
  rw [Function.comp_apply, emitInstruction]
  cases findInstruction inst r.1.syn0 r.1.syn1 <;> rfl

/-- The locals behind the mnemonic. -/
def Operands.named (inst : Text) : Operands := { Operands.start with inst := some inst, count := 1 }

/-! One round of the loop, for each kind of token. -/

theorem scan_first (isName : ¬Last disp pch) (s : Asm) :
    scan disp (pch :: tokens) .start s = scan disp tokens (.named pch.text) s := by
  rw [scan, if_neg fun comment => isName (Or.inl comment),
    if_neg fun memory => isName (Or.inr memory)]
  rfl

theorem scan_plain (isPlain : ¬Last disp pch) (begun : ops.count ≠ 0)
    (stored : plainOperand pch.text ops s = some (ops', t)) :
    scan disp (pch :: tokens) ops s = scan disp tokens ops' t := by
  rw [scan, if_neg fun comment => isPlain (Or.inl comment),
    if_neg fun memory => isPlain (Or.inr memory), if_neg begun, stored, bind_some]

theorem scan_memory {memory : Text} (notComment : memory.headD 0#8 ≠ 59#8) (ops : Operands)
    (s : Asm) : scan (some memory) (⟨memory, memory.length⟩ :: tokens) ops s =
      some (memoryOperand memory ops, s) := by
  rw [scan, if_neg notComment]
  exact if_pos rfl

theorem text_ofCut (text : Text) (rest : Option Text) : (Token.ofCut text rest).text = text := rfl

theorem scan_instruction (instruction : IsInstruction text) (s : Asm) :
    ∃ r, scan (strpbrk text (str "[")) (lineTokens text) .start s = some r ∧
      r.1.inst = some (mnemonic text) := by
  have few : (operands text).length + 1 ≤ 3 := Nat.succ_le_succ instruction.2
  have begun : (Operands.named (mnemonic text)).count ≠ 0 := Nat.one_ne_zero
  rw [lineTokens, scan_first instruction.1]
  exact (scan_isSome s begun (by decide : (1 : Nat) ≤ 3)).1 few

/-- A line is defined exactly when it is well formed. -/
theorem parseLine_isSome_iff (text : Text) (s : Asm) :
    (parseLine text s).isSome ↔ WellFormed text := by
  by_cases data : IsData text
  · obtain ⟨bytes, parsed⟩ := parseLine_data data
    rw [parsed]
    exact ⟨fun _ => Or.inl data, fun _ => rfl⟩
  rw [parseLine_code data]
  constructor
  · intro defined
    refine Or.inr ?_
    by_contra malformed
    rw [IsInstruction, not_and_or, not_not] at malformed
    by_cases last : Last (strpbrk text (str "[")) (Token.ofCut (mnemonic text) (behind text))
    · -- the loop ends before `inst` has a value
      rw [lineTokens, scan] at defined
      by_cases comment : (Token.ofCut (mnemonic text) (behind text)).text.headD 0#8 = 59#8
      · rw [if_pos comment] at defined
        exact absurd defined nofun
      · rw [if_neg comment, if_pos (last.resolve_left comment)] at defined
        exact absurd defined nofun
    · have many : 3 < (operands text).length + 1 := by
        have more := malformed.resolve_left last
        omega
      have begun : (Operands.named (mnemonic text)).count ≠ 0 := Nat.one_ne_zero
      rw [lineTokens, scan_first last, text_ofCut,
        (scan_isSome s begun (by decide : (1 : Nat) ≤ 3)).2 many] at defined
      exact absurd defined nofun
  · intro wellFormed
    obtain ⟨r, scanned, inst⟩ := scan_instruction (wellFormed.resolve_left data) s
    rw [scanned, bind_some, inst]
    rfl

/-- A line has the same number of bytes in every state of the assembler. -/
theorem parseLine_size (wellFormed : WellFormed text) :
    ∃ n, ∀ s, ∃ bytes t, parseLine text s = some t ∧ Emits bytes s t ∧ bytes.length = n := by
  by_cases data : IsData text
  · obtain ⟨bytes, parsed⟩ := parseLine_data data
    exact ⟨bytes.length, fun s => ⟨bytes, _, parsed s, (Emits.refl s).write bytes, rfl⟩⟩
  have instruction := wellFormed.resolve_left data
  -- the size in some state, which is then the one in all states
  obtain ⟨r₀, scanned₀, _⟩ := scan_instruction instruction ⟨fun _ => 0#8, 0#32, [], []⟩
  refine ⟨match findInstruction (mnemonic text) r₀.1.syn0 r₀.1.syn1 with
    | some row => (encode row r₀.1 0#32).length
    | none => 0, fun s => ?_⟩
  obtain ⟨r, scanned, inst⟩ := scan_instruction instruction s
  have alike : r₀.1.shape = r.1.shape := by
    have same : (some r₀).map (fun r => r.1.shape) = (some r).map fun r => r.1.shape := by
      rw [← scanned₀, ← scanned]
      exact scan_alike rfl _ s
    exact Option.some.inj same
  have syn0 : r.1.syn0 = r₀.1.syn0 := by rw [Operands.eq_of_shape alike]
  have syn1 : r.1.syn1 = r₀.1.syn1 := by rw [Operands.eq_of_shape alike]
  have looked : Emits [] s r.2 := scan_emits scanned
  rw [parseLine_code data, scanned, bind_some, inst, map_some, emitInstruction, syn0, syn1]
  cases findInstruction (mnemonic text) r₀.1.syn0 r₀.1.syn1 with
  | none => exact ⟨[], r.2, rfl, looked, rfl⟩
  | some row => exact ⟨_, _, rfl, looked.write _, length_encode row alike.symm _ _⟩

/-! ### A pass -/

/-- What `pass` does for a line. -/
def Line.exec (passNo : Nat) (s : Asm) (l : Line) : Option Asm :=
  match l.call passNo with
  | some call => call.exec s
  | none => some s

/-- The lines of a pass with `current_position` in front of each, and the state behind the
last one. -/
def layout (passNo : Nat) : List Line → Asm → Option (List (Line × U32) × Asm)
  | [], s => some ([], s)
  | l :: lines, s =>
    (l.exec passNo s).bind fun next =>
      (layout passNo lines next).map fun r => ((l, s.currentPosition) :: r.1, r.2)

theorem foldlM_calls (passNo : Nat) (lines : List Line) (s : Asm) :
    (lines.filterMap (Line.call passNo)).foldlM Call.exec s =
      (layout passNo lines s).map Prod.snd := by
  induction lines generalizing s with
  | nil => rfl
  | cons l lines ih =>
    rw [filterMap_cons, layout, Line.exec]
    cases l.call passNo with
    | none =>
      rw [Option.bind_some, Option.map_map]
      exact ih s
    | some call =>
      rw [foldlM_cons, Option.bind_eq_bind]
      dsimp only
      cases call.exec s with
      | none => rfl
      | some next =>
        rw [Option.bind_some, Option.bind_some, Option.map_map]
        exact ih next

/-- A pass goes through the lines one by one. -/
theorem pass_eq {buffer : Text} (read : sourceLines buffer = some lines) (passNo : Nat) (s : Asm) :
    pass buffer passNo s = (layout passNo lines s).map Prod.snd := by
  rw [pass, calls, read, map_some]
  exact foldlM_calls passNo lines s

/-- The entry of `symtab` for a label at a position. -/
def recorded : Line × U32 → Option Symbol
  | (.label name, position) => some (Symbol.ofLabel name position)
  | (.code _, _) => none

/-- One line, and then the others. -/
theorem layout_cons_eq_some {passNo : Nat} {l : Line} {s last : Asm} {placed : List (Line × U32)} :
    layout passNo (l :: lines) s = some (placed, last) ↔
      ∃ next rest, l.exec passNo s = some next ∧ layout passNo lines next = some (rest, last) ∧
        placed = (l, s.currentPosition) :: rest := by
  rw [layout]
  constructor
  · intro ran
    obtain ⟨next, executed, ranOn⟩ := bind_eq_some_iff.mp ran
    obtain ⟨⟨rest, _⟩, laidOut, same⟩ := map_eq_some_iff.mp ranOn
    obtain ⟨rfl, rfl⟩ := Prod.mk.inj same
    exact ⟨next, rest, executed, laidOut, rfl⟩
  · rintro ⟨next, rest, executed, laidOut, rfl⟩
    rw [executed, bind_some, laidOut, map_some]

variable {l : Line} {lines : List Line} {s' : Asm} {placed : List (Line × U32)}

/-- A label takes no bytes in either pass, and is recorded in the first. -/
theorem exec_label (name : Text) (s : Asm) :
    Line.exec 1 s (.label name) = some (addSymbol name s) ∧
      Line.exec 2 s (.label name) = some s :=
  ⟨rfl, rfl⟩

theorem parseLine_emits (parsed : parseLine text s = some t) :
    ∃ bytes, Emits bytes s t := by
  have wellFormed := (parseLine_isSome_iff text s).mp (by rw [parsed]; rfl)
  obtain ⟨_, sized⟩ := parseLine_size wellFormed
  obtain ⟨bytes, t', parsed', emits, _⟩ := sized s
  exact ⟨bytes, Option.some.inj (parsed'.symm.trans parsed) ▸ emits⟩

/-- What a line adds to the table: in the first pass a label, and nothing in the second. -/
theorem exec_symtab :
    (l.exec 1 s = some t → t.symtab = s.symtab ++ (recorded (l, s.currentPosition)).toList) ∧
      (l.exec 2 s = some t → t.symtab = s.symtab) := by
  cases l with
  | label name =>
    refine ⟨fun executed => ?_, fun executed => ?_⟩
    · rw [← Option.some.inj executed]
      rfl
    · rw [Option.some.inj executed]
  | code text =>
    have kept : parseLine text s = some t → t.symtab = s.symtab := by
      intro parsed
      obtain ⟨_, emits⟩ := parseLine_emits parsed
      exact emits.symtab
    exact ⟨fun parsed => (kept parsed).trans (append_nil _).symm, kept⟩

/-- The first pass records every label with the position in front of it. -/
theorem symtab_first (ran : layout 1 lines s = some (placed, t)) :
    t.symtab = s.symtab ++ placed.filterMap recorded ∧ placed.map Prod.fst = lines := by
  induction lines generalizing s placed with
  | nil =>
    obtain ⟨rfl, rfl⟩ := Prod.mk.inj (Option.some.inj ran)
    exact ⟨(append_nil _).symm, rfl⟩
  | cons l lines ih =>
    obtain ⟨next, rest, executed, ranOn, rfl⟩ := layout_cons_eq_some.mp ran
    obtain ⟨symtab, passed⟩ := ih ranOn
    refine ⟨?_, by rw [map_cons, passed]⟩
    rw [symtab, exec_symtab.1 executed, append_assoc, filterMap_cons]
    cases recorded (l, s.currentPosition) <;> rfl

/-- The second pass leaves the table alone. -/
theorem symtab_second (ran : layout 2 lines s = some (placed, t)) : t.symtab = s.symtab := by
  induction lines generalizing s placed with
  | nil => rw [(Prod.mk.inj (Option.some.inj ran)).2]
  | cons l lines ih =>
    obtain ⟨next, rest, executed, ranOn, _⟩ := layout_cons_eq_some.mp ran
    rw [ih ranOn, exec_symtab.2 executed]

/-- From the same position on a line ends at the same position in both passes. -/
theorem exec_alike (wellFormed : ∀ text, l = .code text → WellFormed text)
    (same : s.currentPosition = s'.currentPosition) :
    ∃ next next', l.exec 1 s = some next ∧ l.exec 2 s' = some next' ∧
      next.currentPosition = next'.currentPosition := by
  cases l with
  | label name => exact ⟨_, _, (exec_label name s).1, (exec_label name s').2, same⟩
  | code text =>
    obtain ⟨n, sized⟩ := parseLine_size (wellFormed text rfl)
    obtain ⟨bytes, next, parsed, emits, length⟩ := sized s
    obtain ⟨bytes', next', parsed', emits', length'⟩ := sized s'
    refine ⟨next, next', parsed, parsed', ?_⟩
    rw [emits.position, emits'.position, same, length, length']

/-- From the same position on both passes place the lines alike. -/
theorem layout_alike (wellFormed : ∀ text, Line.code text ∈ lines → WellFormed text)
    (same : s.currentPosition = s'.currentPosition) :
    ∃ placed last last', layout 1 lines s = some (placed, last) ∧
      layout 2 lines s' = some (placed, last') := by
  induction lines generalizing s s' with
  | nil => exact ⟨[], s, s', rfl, rfl⟩
  | cons l lines ih =>
    obtain ⟨next, next', executed, executed', samePosition⟩ := exec_alike
      (fun text isCode => wellFormed text (isCode ▸ mem_cons_self)) same
    obtain ⟨placed, last, last', first, second⟩ := ih
      (fun text inside => wellFormed text (mem_cons_of_mem _ inside)) samePosition
    refine ⟨(l, s.currentPosition) :: placed, last, last', ?_, ?_⟩
    · exact layout_cons_eq_some.mpr ⟨next, placed, executed, first, rfl⟩
    · exact layout_cons_eq_some.mpr ⟨next', placed, executed', second, by rw [same]⟩

/-- Each line has a size of its own, whatever the tables hold, so that both passes have the
same position in front of each line, and the table has the position of every label. -/
theorem passes_lay_out_alike {lines : List Line}
    (wellFormed : ∀ text, Line.code text ∈ lines → WellFormed text) :
    (∀ text, Line.code text ∈ lines →
        ∃ n, ∀ s, ∃ bytes t, parseLine text s = some t ∧ Emits bytes s t ∧ bytes.length = n) ∧
      ∀ s s' : Asm, s.currentPosition = s'.currentPosition →
        ∃ placed last last', layout 1 lines s = some (placed, last) ∧
          layout 2 lines s' = some (placed, last') ∧
          last.symtab = s.symtab ++ placed.filterMap recorded ∧
          ∀ buffer, sourceLines buffer = some lines →
            pass buffer 1 s = some last ∧ pass buffer 2 s' = some last' := by
  refine ⟨fun text inside => parseLine_size (wellFormed text inside), fun s s' same => ?_⟩
  obtain ⟨placed, last, last', first, second⟩ := layout_alike wellFormed same
  refine ⟨placed, last, last', first, second, (symtab_first first).1, fun buffer read => ?_⟩
  rw [pass_eq read, pass_eq read, first, second]
  exact ⟨rfl, rfl⟩

/-- A jump forward: in the first pass the label is not known yet. -/
def forwardJump : List Line := [.code (str "jmp end"), .code (str "nop"), .label (str "end")]

theorem forward_jump_placed : ∃ placed last last',
    layout 1 forwardJump ⟨fun _ => 0#8, 0#32, [], []⟩ = some (placed, last) ∧
      layout 2 forwardJump ⟨fun _ => 0#8, 0#32, [⟨str "end", 3#32⟩], []⟩ =
        some (placed, last') := by
  have wellFormed : ∀ text, Line.code text ∈ forwardJump → WellFormed text := by
    intro text inside
    simp only [forwardJump, mem_cons, Line.code.injEq, reduceCtorEq, not_mem_nil,
      or_false] at inside
    rcases inside with rfl | rfl <;> decide
  obtain ⟨placed, last, last', first, second, _⟩ := (passes_lay_out_alike wellFormed).2
    ⟨fun _ => 0#8, 0#32, [], []⟩ ⟨fun _ => 0#8, 0#32, [⟨str "end", 3#32⟩], []⟩ rfl
  exact ⟨placed, last, last', first, second⟩

end Crunchy.Lass
