/-
Module: Crunchy.User.Lass
Purpose: The assembler `user/lass.c`: the operands of a line, the search for an instruction,
  the bytes that are emitted for it, the table of labels, and the two passes.
Trusted boundary: human-reviewed spec. Memory is zero where nothing has been written, also
  behind the source text, and the tables and the output are as large as a program needs.
  `make_elf` is not called, so `elf_offset` is 0, and what is printed is left out.
Main exports: lassAtoi, classify, calcSib, scan, encode, Asm, addSymbol, findSymbol, parseLine,
  pass, assemble
-/
import Crunchy.Stdlib
import Crunchy.User.Opcodes

namespace Crunchy.Lass

open Lib

/-- A string, without its `NUL`. -/
abbrev Text := List (BitVec 8)

/-! ### Numbers -/

/-- `tolower(c)`. What is neither a digit nor a small letter is taken for a capital. -/
def tolower (c : BitVec 8) : Int :=
  if isdigit c then c.toInt
  else if 97#8 ≤ c ∧ c ≤ 122#8 then c.toInt
  else c.toInt - 65 + 97

/-- `ishex(c)`. -/
def ishex (c : BitVec 8) : Prop := tolower c ≤ 102 ∧ 48 ≤ tolower c

instance (c : BitVec 8) : Decidable (ishex c) := inferInstanceAs (Decidable (_ ∧ _))

/-- One round of the loop of `lass_atoi`. -/
def atoiStep (base num : BitVec 64) (c : BitVec 8) : BitVec 64 :=
  if isdigit c then num * base + BitVec.ofInt 64 (c.toInt - 48)
  else if ishex c then num * base + BitVec.ofInt 64 (tolower c - 97) + 10#64
  else num

/-- `lass_atoi(s)`. -/
def lassAtoi (s : Text) : BitVec 64 :=
  let (base, s) := match strpbrk s (str "x") with
    | some d => (16#64, d.tail)
    | none => (10#64, s)
  let sign := if s.headD 0#8 = 45#8 then -1#64 else 1#64
  sign * s.foldl (atoiStep base) 0#64

/-- `lass_atoi(s)` as it is stored in an `int`. -/
def atoi32 (s : Text) : U32 := (lassAtoi s).setWidth 32

/-- `while (s /= 2) i++` of `log2`. -/
def log2Loop : (fuel : Nat) → (s : Int) → (i : U32) → U32
  | 0, _, i => i
  | fuel + 1, s, i => if s.tdiv 2 = 0 then i else log2Loop fuel (s.tdiv 2) (i + 1#32)

/-- `log2(s)`; an `int` is 0 after 32 divisions. -/
def log2 (s : U32) : U32 := log2Loop 32 s.toInt 0#32

/-! ### Operands and instructions -/

/-- The first entry of a table of names that `s` starts with. -/
def lookup (table : List SyntaxEntry) (s : Text) : Option SyntaxEntry :=
  table.find? fun entry => Libc.strcmp entry.name s = 0

/-- `classify(s)`, where -1 is an operand that is neither a number nor a register. `abs` is
not declared, so that its result is an `int`. -/
def classify (s : Text) : U32 :=
  if isdigit (s.headD 0#8) then if 255 < (abs (atoi32 s)).toInt then imm32 else imm8
  else match lookup registers s with
    | some entry => entry.code ||| r32
    | none => match lookup half s with
      | some entry => entry.code ||| r8
      | none => match lookup segments s with
        | some entry => entry.code ||| sreg
        | none => -1#32

/-- What the first loop of `find_instruction` returns. -/
def exactMatch (s : Text) (op1 op2 : U32) (row : Isa) : Prop :=
  Libc.strcmp row.name s = 0 ∧
    if op1 &&& sreg ≠ 0#32 then row.op1 = op1 ∧ (row.op2 = op2 ∨ row.op2 = opNone)
    else row.op1 &&& op1 = row.op1 ∧ (row.op2 = op2 ∨ row.op2 = opNone) ∨
      row.op1 = opNone ∧ row.op2 = opNone

instance (s : Text) (op1 op2 : U32) (row : Isa) : Decidable (exactMatch s op1 op2 row) :=
  inferInstanceAs (Decidable (_ ∧ _))

/-- What the second loop returns: any number will do where the instruction has one. -/
def wideMatch (s : Text) (op1 op2 : U32) (row : Isa) : Prop :=
  Libc.strcmp row.name s = 0 ∧ row.op1 &&& op1 = row.op1 ∧
    (row.op2 &&& (if op2 &&& (imm8 ||| rel8) ≠ 0#32 then 0x6C0#32 else op2) ≠ 0#32 ∨
      row.op2 = opNone)

instance (s : Text) (op1 op2 : U32) (row : Isa) : Decidable (wideMatch s op1 op2 row) :=
  inferInstanceAs (Decidable (_ ∧ _))

/-- `find_instruction(s, op1, op2)`. -/
def findInstruction (s : Text) (op1 op2 : U32) : Option Isa :=
  match x86.find? fun row => exactMatch s op1 op2 row with
  | some row => some row
  | none => x86.find? fun row => wideMatch s op1 op2 row

/-! ### Tokens -/

/-- What `strtok` returns. Of the pointer only its place in the line matters: `left` is the
number of characters from there to the end of the line. -/
structure Token where
  text : Text
  left : Nat
  deriving DecidableEq

/-- The token `text`, where `rest` is what `strtok` keeps for the next call. -/
def Token.ofCut (text : Text) (rest : Option Text) : Token :=
  ⟨text, text.length + match rest with
    | some rest => rest.length + 1
    | none => 0⟩

/-- `while (pch) { ...; pch = strtok(NULL, delim); }`, `fuel` rounds at most. -/
def cutsLoop (delim : Text) : (fuel : Nat) → (ptr : Option Text) → List Token
  | 0, _ => []
  | fuel + 1, ptr =>
    match strtok none delim ptr with
    | (some text, rest) => Token.ofCut text rest :: cutsLoop delim fuel rest
    | (none, _) => []

/-- The tokens from `ptr` on. Each call but the last one uses up a character. -/
def cuts (delim : Text) (ptr : Option Text) : List Token :=
  cutsLoop delim ((ptr.getD []).length + 1) ptr

/-! ### Memory operands -/

/-- The fields of `instruction_s` that are used. -/
structure InstructionS where
  modrm : U32
  sib : U32
  disp : U32

/-- The locals of `calc_sib`. `c` counts the operands that are not numbers. -/
structure SibState where
  scale : U32
  index : U32
  base : U32
  c : Nat
  disp : U32

/-- The loop of `calc_sib` when there is no `*`. It does not look at `base`. -/
def plainStep (st : SibState) (pch : Token) : SibState :=
  if isdigit (pch.text.headD 0#8) then { st with disp := atoi32 pch.text }
  else
    { st with
      index := if st.c = 0 then classify pch.text &&& ~~~(rm32 ||| rm8) else st.index
      base := if st.c = 1 then classify pch.text else st.base
      c := st.c + 1 }

/-- The loop of `calc_sib` when there is a `*`. A `NULL` for `plus` is below every other
pointer. -/
def scaledStep (plus : Option Text) (star : Text) (st : SibState) (pch : Token) : SibState :=
  if isdigit (pch.text.headD 0#8) then
    let n := atoi32 pch.text
    match plus with
    | none => { st with scale := n }
    | some plus =>
      if star.length < plus.length then
        { st with
          disp := if plus.length < pch.left then n else st.disp
          scale := if pch.left < plus.length then n else st.scale }
      else st
  else
    { st with
      index := if st.c = 0 then classify pch.text else st.index
      base := if st.c = 1 then classify pch.text else st.base
      c := st.c + 1 }

/-- The end of `calc_sib` when there is no `*`. -/
def plainModrm (minus : Bool) (op1 : U32) (st : SibState) : InstructionS :=
  let reg := op1 &&& ~~~(r8 ||| r32)
  if st.disp ≠ 0#32 then
    let disp := if minus then st.disp * -1#32 else st.disp
    ⟨modrm (if 255 < disp.toInt then modFour else modOne) reg st.index, 0#32, disp⟩
  else ⟨modrm (if st.index = 5#32 then modOne else modZero) reg st.index, 0#32, 0#32⟩

/-- The end of `calc_sib` when there is a `*`. -/
def scaledModrm (op1 : U32) (st : SibState) : InstructionS :=
  let (mod, index, base) :=
    if st.index ≠ 0#32 ∧ st.base ≠ 0#32 then
      (if st.index &&& r32 ≠ 0#32 then 2#32 else 1#32, st.index &&& ~~~(r8 ||| r32),
        st.base &&& ~~~(r8 ||| r32))
    else (0#32, st.index, st.base)
  let (mod, base) := if base = -1#32 then (0#32, 5#32) else (mod, base)
  ⟨modrm mod op1 4#32, modrm (log2 st.scale) index base, st.disp⟩

/-- `if (op1 == 0) ...` of `calc_sib`: the memory operand is the first one, and the other
one is behind the comma. It gives `op1` and `disp`. -/
def otherOperand (line : Text) (op1 : U32) : U32 × U32 :=
  if op1 = 0#32 then
    match strchr line 44#8 with
    | some op =>
      let op := op.dropWhile fun c => c = 32#8 ∨ c = 44#8
      (classify op, if classify op &&& (imm8 ||| imm32) ≠ 0#32 then atoi32 op else 0#32)
    | none => (op1, 0#32)
  else (op1, 0#32)

/-- `calc_sib(line, op1)`. -/
def calcSib (line : Text) (op1 : U32) : InstructionS :=
  let plus := strchr line 43#8
  let minus := strchr line 45#8
  let (op1, disp) := otherOperand line op1
  match strchr line 42#8 with
  | none =>
    let (pch, ptr) := strtok (some line) (str " [+-],") none
    let first := (pch.map fun text => Token.ofCut text ptr).toList
    let st := (first ++ cuts (str " [+-],*") ptr).foldl plainStep ⟨0#32, -1#32, -1#32, 0, disp⟩
    plainModrm minus.isSome op1 st
  | some star =>
    let st := (cuts (str " [+],*") (some line)).foldl (scaledStep plus star)
      ⟨-1#32, -1#32, -1#32, 0, disp⟩
    scaledModrm op1 st

/-! ### The bytes of an instruction -/

/-- `write_byte(x)`: the byte it appends to the output. -/
def writeByte (x : U32) : List (BitVec 8) := [x.setWidth 8]

/-- `write_word(x)`. -/
def writeWord (x : U32) : List (BitVec 8) := [x.setWidth 8, (x >>> 8).setWidth 8]

/-- `write_dword(x)`. -/
def writeDword (x : U32) : List (BitVec 8) :=
  [x.setWidth 8, (x >>> 8).setWidth 8, (x >>> 16).setWidth 8, (x >>> 24).setWidth 8]

/-- `elf_offset`. -/
def elfOffset : U32 := 0#32

/-- The locals of `parse_line`. `inst` has no value before the first token is read, and `m`
is -1 as long as there is no memory operand. -/
structure Operands where
  inst : Option Text
  syn0 : U32
  syn1 : U32
  count : Nat
  immediate : U32
  imm : Bool
  mode : U32
  m : U32
  rev : Bool
  sib : U32

/-- The locals before the first token. -/
def Operands.start : Operands :=
  ⟨none, 0#32, 0#32, 0, 0#32, false, modReg, -1#32, false, 0#32⟩

/-- `m` and `syn[0]` of an instruction with two operands. The assignments in the arguments
of `MODRM` bind weaker than the `& 0x7` in it. -/
def twoOperandModrm (row : Isa) (ops : Operands) : U32 × U32 :=
  let (m, syn0) :=
    if ops.syn0 &&& (r32 ||| r8 ||| sreg) ≠ 0#32 ∧ ops.syn1 &&& (r32 ||| r8 ||| sreg) ≠ 0#32 then
      if ops.m = -1#32 then (modrm ops.mode ops.syn0 ops.syn1, ops.syn0 &&& 7#32)
      else (ops.m, ops.syn0)
    else if ops.syn0 &&& (r32 ||| r8) ≠ 0#32 ∧
        ops.syn1 &&& (imm8 ||| imm32 ||| rel8 ||| rel32) ≠ 0#32 then
      if ops.m = -1#32 then (modrm ops.mode row.extension ops.syn0, ops.syn0 &&& 7#32)
      else (ops.m, ops.syn0)
    else (ops.m, ops.syn0)
  if syn0 &&& (imm8 ||| imm32 ||| rel8 ||| rel32) ≠ 0#32 then
    (modrm ops.mode row.extension 0#32, syn0)
  else (m, syn0)

/-- The opcode and the ModR/M byte. -/
def opcodeBytes (row : Isa) (ops : Operands) : List (BitVec 8) :=
  let o := row.primary
  if ops.syn1 ≠ 0#32 then
    let (m, syn0) := twoOperandModrm row ops
    let o := if ops.rev then o ^^^ 2#32 else o
    if row.extension = altEncoding then
      writeByte (o &&& ~~~7#32 ||| syn0 &&& ~~~(r32 ||| r8))
    else writeWord (m <<< 8 ||| o)
  else if row.extension = altEncoding ∧ ops.m = -1#32 then
    writeByte (o &&& ~~~7#32 ||| ops.syn0 &&& ~~~(r32 ||| r8 ||| sreg))
  else if ops.syn0 = 0#32 then writeByte o
  else if ops.syn0 &&& 0x6C0#32 ≠ 0#32 ∨ ops.syn0 &&& sreg ≠ 0#32 then writeByte o
  else
    let m := if ops.m = -1#32 then
        modrm ops.mode row.extension (ops.syn0 &&& ~~~(r32 ||| r8 ||| sreg))
      else ops.m
    writeWord (m <<< 8 ||| o)

/-- `if (imm)`: the number, the distance or the displacement, at `position`. -/
def immediateBytes (row : Isa) (ops : Operands) (start position : U32) : List (BitVec 8) :=
  let sw := if row.op2 = opNone then row.op1 else row.op2
  let relative := ops.immediate - position - (position - start) - elfOffset
  if sw = imm8 then writeByte (ops.immediate &&& 0xFF#32)
  else if sw = imm32 then writeDword ops.immediate
  else if sw = rel8 then writeByte relative
  else if sw = rel32 then writeDword relative
  else if ops.mode = 1#32 then writeByte ops.immediate
  else writeDword ops.immediate

/-- What `parse_line` emits for an instruction at `start`. -/
def encode (row : Isa) (ops : Operands) (start : U32) : List (BitVec 8) :=
  let lead := (if row.secondary ≠ 0#32 then writeByte row.secondary else []) ++
    (if row.prefixByte ≠ 0#32 then writeByte 0x0F#32 else [])
  let written := lead ++ opcodeBytes row ops ++ (if ops.sib ≠ 0#32 then writeByte ops.sib else [])
  written ++
    if ops.imm then immediateBytes row ops start (start + BitVec.ofNat 32 written.length) else []

/-! ### Labels -/

/-- An entry of `symtab` or `unresolved`: the characters that were stored in its `name`,
which has zeros behind them, and its `position`. -/
structure Symbol where
  name : Text
  position : U32

/-- An entry as it stands in memory. -/
def Symbol.bytes (symbol : Symbol) : List (BitVec 8) :=
  symbol.name ++ List.replicate (32 - symbol.name.length) 0#8 ++ writeDword symbol.position

/-- The name of the first of some entries as a string. One of 32 characters has no `NUL`,
and goes on with the position and with what is behind it. -/
def nameOf (symbols : List Symbol) : Text :=
  (symbols.flatMap Symbol.bytes).takeWhile fun c => c ≠ 0#8

/-- The globals of the assembler. -/
structure Asm where
  output : Bytes
  currentPosition : U32
  symtab : List Symbol
  unresolved : List Symbol

/-- Append bytes to the output. -/
def Asm.write (s : Asm) (bytes : List (BitVec 8)) : Asm :=
  bytes.foldl (fun s c => { s with
    output := put8 s.output s.currentPosition.toNat c
    currentPosition := s.currentPosition + 1#32 }) s

/-- `for (i = dummy; i < dummy + 4; i += 2)` of `add_symbol`: a word that still has the
dummy value gets the position of the label. -/
def patchDummy (currentPosition dummy : U32) (output : Bytes) : Bytes :=
  [dummy, dummy + 2#32].foldl (fun output i =>
    if (output (i.toNat + 1) ++ output i.toNat).setWidth 32 = dummy then
      put8 (put8 output i.toNat (currentPosition.setWidth 8)) (i.toNat + 1)
        ((currentPosition >>> 8).setWidth 8)
    else output) output

/-- The loop of `add_symbol` over `unresolved`. -/
def resolveLoop (label : Text) (currentPosition : U32) : List Symbol → Bytes → Bytes
  | [], output => output
  | symbol :: rest, output =>
    let name := nameOf (symbol :: rest)
    resolveLoop label currentPosition rest
      (if Libc.strncmp label name name.length = 0 then
        patchDummy currentPosition symbol.position output
      else output)

/-- The entry that `add_symbol` makes: a colon is not copied. -/
def Symbol.ofLabel (label : Text) (position : U32) : Symbol :=
  ⟨(label.take 32).map fun c => if c ≠ 58#8 then c else 0#8, position⟩

/-- `add_symbol(label)`. -/
def addSymbol (label : Text) (s : Asm) : Asm :=
  { s with
    output := resolveLoop label s.currentPosition s.unresolved s.output
    symtab := s.symtab ++ [Symbol.ofLabel label s.currentPosition] }

/-- The loop of `find_symbol`. -/
def symbolPosition (label : Text) : List Symbol → Option U32
  | [] => none
  | symbol :: rest =>
    if Libc.strcmp (nameOf (symbol :: rest)) label = 0 then some (symbol.position + elfOffset)
    else symbolPosition label rest

/-- `find_symbol(label)`. -/
def findSymbol (label : Text) (s : Asm) : U32 × Asm :=
  match symbolPosition label s.symtab with
  | some position => (position, s)
  | none =>
    if Libc.strncmp label (str "$$") 2 = 0 then (0#32, s)
    else if Libc.strcmp label (str "$") = 0 then (s.currentPosition + elfOffset, s)
    else (s.currentPosition,
      { s with unresolved := s.unresolved ++ [⟨label.take 32, s.currentPosition⟩] })

/-! ### A line -/

/-- The memory operand, of which the characters from the bracket on are `displacement`. -/
def memoryOperand (displacement : Text) (ops : Operands) : Operands :=
  let a := calcSib displacement ops.syn0
  { ops with
    m := a.modrm
    sib := a.sib
    immediate := a.disp
    mode := a.modrm >>> 6
    imm := true
    syn1 := ops.syn1 ||| r32
    syn0 := if ops.syn0 = 0#32 then (a.modrm >>> 3) &&& 7#32 ||| r32 else ops.syn0
    rev := if ops.syn0 = 0#32 then true else ops.rev }

/-- `syn[count - 1] = n; count++`. There is room for two operands: `none` for a third. -/
def Operands.push (ops : Operands) (n : U32) : Option Operands :=
  match ops.count with
  | 1 => some { ops with syn0 := n, count := 2 }
  | 2 => some { ops with syn1 := n, count := 3 }
  | _ => none

/-- An operand that is not in memory. -/
def plainOperand (text : Text) (ops : Operands) (s : Asm) : Option (Operands × Asm) :=
  let n := classify text
  if n = -1#32 then
    let (immediate, s) := findSymbol text s
    (({ ops with imm := true, immediate := immediate } : Operands).push rel8).map
      fun ops => (ops, s)
  else
    let ops := if n &&& (imm8 ||| imm32) ≠ 0#32 then
      { ops with imm := true, immediate := atoi32 text } else ops
    (ops.push n).map fun ops => (ops, s)

/-- The loop of `parse_line` over the tokens, where `disp` is the pointer to the bracket. -/
def scan (disp : Option Text) : List Token → Operands → Asm → Option (Operands × Asm)
  | [], ops, s => some (ops, s)
  | pch :: rest, ops, s =>
    if pch.text.headD 0#8 = 59#8 then some (ops, s)
    else if disp.map List.length = some pch.left then
      some (memoryOperand (disp.getD []) ops, s)
    else if ops.count = 0 then scan disp rest { ops with inst := some pch.text, count := 1 } s
    else (plainOperand pch.text ops s).bind fun (ops, s) => scan disp rest ops s

/-- The bytes of a `db`, `dw` or `dd`: a number is written by `write`, and other tokens are
`chars`. -/
def dataBytes (write : U32 → List (BitVec 8)) (chars : Text → List (BitVec 8))
    (tokens : List Token) : List (BitVec 8) :=
  tokens.flatMap fun pch =>
    if isdigit (pch.text.headD 0#8) then write (atoi32 pch.text) else chars pch.text

/-- The delimiters of the operands. -/
def blanks : Text := str " ,\t"

/-- The delimiters of data. -/
def quotes : Text := str ", '\""

/-- `parse_line(line, pass_no)`; `none` if it is undefined, because there is no room for an
operand or because `inst` is read and has no value. -/
def parseLine (text : Text) (s : Asm) : Option Asm :=
  let (pch, ptr) := strtok (some text) blanks none
  match pch with
  | none => none
  | some first =>
    if Libc.strcmp first (str "db") = 0 then
      some (s.write (dataBytes writeByte id (cuts quotes ptr)))
    else if Libc.strcmp first (str "dw") = 0 then
      some (s.write (dataBytes writeWord (fun _ => []) (cuts quotes ptr)))
    else if Libc.strcmp first (str "dd") = 0 then
      some (s.write (dataBytes writeDword (fun _ => []) (cuts quotes ptr)))
    else do
      let (ops, s) ← scan (strpbrk text (str "[")) (Token.ofCut first ptr :: cuts blanks ptr)
        .start s
      let inst ← ops.inst
      match findInstruction inst ops.syn0 ops.syn1 with
      | some row => some (s.write (encode row ops s.currentPosition))
      | none => some s

/-! ### The passes -/

/-- A line that is not empty and not a comment. -/
inductive Line where
  | label (name : Text)
  | code (text : Text)
  deriving DecidableEq

/-- `**lines != ';' && **lines`, and the cut at the colon. -/
def Line.read (text : Text) : Option Line :=
  if text.headD 0#8 ≠ 59#8 ∧ text.headD 0#8 ≠ 0#8 then
    match strchr text 58#8 with
    | some c => some (.label (text.take (text.length - c.length)))
    | none => some (.code text)
  else none

/-- The first loop of `pass`, `left` rounds before `i` reaches `sz`: every newline becomes a
`NUL`, and a pointer to what is behind it is stored, if something is. -/
def lineLoop : (left i : Nat) → (buffer : Text) → (lines : List Nat) → Text × List Nat
  | 0, _, buffer, lines => (buffer, lines)
  | left + 1, i, buffer, lines =>
    if buffer.getD i 0#8 = 10#8 then
      let buffer := buffer.set i 0#8
      if buffer.getD (i + 1) 0#8 ≠ 0#8 then lineLoop left (i + 1) buffer (lines ++ [i + 1])
      else lineLoop left (i + 1) buffer lines
    else lineLoop left (i + 1) buffer lines

/-- The pointers that the second loop of `pass` reads up to a `NULL`, in an array of `sz`
bytes. `buffer` is stored in the first place, but `lines` does not move on, so that the next
pointer takes this place. `none` if the array is too small. -/
def pointers (sz : Nat) (found : List Nat) : Option (List Nat) :=
  let slots := if found = [] then [0] else found
  if slots.length < sz / 4 then some slots else none

/-- The string at a pointer. -/
def stringAt (buffer : Text) (p : Nat) : Text := (buffer.drop p).takeWhile fun c => c ≠ 0#8

/-- The lines that `pass(buffer, sz, pass_no)` works on. -/
def sourceLines (buffer : Text) : Option (List Line) :=
  let (cut, found) := lineLoop buffer.length 0 buffer []
  (pointers buffer.length found).map fun slots =>
    slots.filterMap fun p => Line.read (stringAt cut p)

/-- What `pass` calls for a line. -/
inductive Call where
  | addSymbol (label : Text)
  | parseLine (line : Text)
  deriving DecidableEq

/-- Labels are for the first pass only. -/
def Line.call (passNo : Nat) : Line → Option Call
  | .label name => if passNo = 1 then some (.addSymbol name) else none
  | .code text => some (.parseLine text)

/-- The call itself. -/
def Call.exec (s : Asm) : Call → Option Asm
  | .addSymbol label => some (Lass.addSymbol label s)
  | .parseLine line => Lass.parseLine line s

/-- All calls of a pass, in their order. -/
def calls (buffer : Text) (passNo : Nat) : Option (List Call) :=
  (sourceLines buffer).map fun lines => lines.filterMap (Line.call passNo)

/-- `pass(buffer, sz, pass_no)`. -/
def pass (buffer : Text) (passNo : Nat) (s : Asm) : Option Asm := do
  let calls ← calls buffer passNo
  calls.foldlM Call.exec s

/-- The two passes of `main`, over two copies of the text. -/
def assemble (buffer : Text) (output : Bytes) : Option Asm := do
  let s ← pass buffer 1 ⟨output, 0#32, [], []⟩
  pass buffer 2 { s with currentPosition := 0#32 }

end Crunchy.Lass
