/-
Module: Crunchy.Process.Ksyms
Purpose: The kernel's own symbol table of `kernel/elf.c`: `build_ksyms`, which finds the
  symbols of the kernel's ELF file and records them, and `ksym_find`, which names the
  function an address lies in.
Trusted boundary: human-reviewed spec. The file and the memory for the records lie apart.
Main exports: KernelSymbols, recordsFrom, buildKsyms, ksymFind
-/
import Crunchy.Process.Elf
import Crunchy.Strings

namespace Crunchy

open Lib

/-! ### Layout -/

/-- `sizeof(struct ksym)`. -/
@[simp] def ksymSize : Nat := 40

namespace Ksym

@[simp] def address : Nat := 0
@[simp] def name : Nat := 4
@[simp] def size : Nat := 36

end Ksym

/-- `sizeof(elf32_shdr)`. -/
@[simp] def shdrSize : U32 := 40#32

/-- `sizeof(elf32_sym)`. -/
@[simp] def symSize : U32 := 16#32

/-- The fields of an `elf32_shdr` that are read. -/
structure Shdr where
  shName : U32
  shOffset : U32
  shSize : U32
deriving DecidableEq

/-- The `elf32_shdr` at the address `p`. -/
def shdrAt (window : U32 → BitVec 8) (p : U32) : Shdr where
  shName := get32 (bytesFrom window p) 0
  shOffset := get32 (bytesFrom window p) 16
  shSize := get32 (bytesFrom window p) 20

/-- The fields of an `elf32_sym` that are read. `elf.h` gives `st_name` and `st_size` 16
bits each, with two bytes of padding behind the first. -/
structure Sym where
  stName : BitVec 16
  stValue : U32
  stSize : BitVec 16
deriving DecidableEq

/-- The `elf32_sym` at the address `p`. -/
def symAt (window : U32 → BitVec 8) (p : U32) : Sym where
  stName := get16 (bytesFrom window p) 0
  stValue := get32 (bytesFrom window p) 4
  stSize := get16 (bytesFrom window p) 8

/-! ### The sections of the file -/

/-- The pointers that `while (p < last) ... p++` comes to, for records of `size` bytes;
`none` when the loop never ends. -/
def recordsFrom (size last : U32) : Nat → U32 → Option (List U32)
  | 0, _ => none
  | rounds + 1, p =>
    if p < last then (recordsFrom size last rounds (p + size)).map (p :: ·) else some []

/-- `shdr` before it is moved on: `data + e_shoff`. -/
def firstShdr (window : U32 → BitVec 8) (data : U32) : U32 :=
  data + get32 (bytesFrom window data) 32

/-- Section header `i`, by `e_shentsize`: `sh_str` and `last_shdr` are found so. -/
def shdrPtr (window : U32 → BitVec 8) (data : U32) (i : BitVec 16) : U32 :=
  firstShdr window data + (get16 (bytesFrom window data) 46).zeroExtend 32 * i.zeroExtend 32

/-- `ehdr->e_shnum`. -/
def eShnum (window : U32 → BitVec 8) (data : U32) : BitVec 16 := get16 (bytesFrom window data) 48

/-- `ehdr->e_shstrndx`. -/
def eShstrndx (window : U32 → BitVec 8) (data : U32) : BitVec 16 :=
  get16 (bytesFrom window data) 50

/-- `string_table`. -/
def stringTable (window : U32 → BitVec 8) (data : U32) : U32 :=
  data + (shdrAt window (shdrPtr window data (eShstrndx window data))).shOffset

/-- `string_table + shdr->sh_name`, as the memory from there on. -/
def sectionName (window : U32 → BitVec 8) (data shdr : U32) : Bytes :=
  bytesFrom window (stringTable window data + (shdrAt window shdr).shName)

/-- The section headers that the loop looks at. It moves by the size of an `elf32_shdr`, over
the null entry first; after `2 ^ 29` steps the pointer is back where it was. -/
def sections (window : U32 → BitVec 8) (data : U32) : Option (List U32) :=
  recordsFrom shdrSize (shdrPtr window data (eShnum window data)) (2 ^ 29 + 1)
    (firstShdr window data + shdrSize)

/-- The section that the loop leaves in `symtab` or `strtab`; a later one takes the place of
an earlier one. -/
def sectionNamed (window : U32 → BitVec 8) (data : U32) (name : List (BitVec 8)) :
    List U32 → Option U32
  | shdrs => shdrs.foldl (fun found shdr =>
    if strcmp name (sectionName window data shdr) = 0 then some shdr else found) none

/-- `".symtab"`. -/
def symtabName : List (BitVec 8) :=
  [0x2E#8, 0x73#8, 0x79#8, 0x6D#8, 0x74#8, 0x61#8, 0x62#8]

/-- `".strtab"`. -/
def strtabName : List (BitVec 8) :=
  [0x2E#8, 0x73#8, 0x74#8, 0x72#8, 0x74#8, 0x61#8, 0x62#8]

/-! ### Recording the symbols -/

/-- `kernel_symbols`, as the memory from there on, and `no_ksym`. -/
structure KernelSymbols where
  kernelSymbols : Option Bytes
  noKsym : Nat

/-- The symbols that are recorded. -/
def Sym.isRecorded (sym : Sym) : Prop := sym.stName ≠ 0#16 ∧ kernelVirt < sym.stValue

instance (sym : Sym) : Decidable sym.isRecorded := inferInstanceAs (Decidable (_ ∧ _))

/-- `tmp`, the name of a symbol. -/
def symName (strtabD : U32) (sym : Sym) : U32 := sym.stName.zeroExtend 32 + strtabD

/-- One round of the loop over the symbols; `none` for a name without an end. The condition of
the inner loop is `i < 32, i < strlen(tmp)`, whose first part is without effect. -/
def recordSymbol (window : U32 → BitVec 8) (strtabD : U32) (sym : Sym) (table : Bytes) (q : Nat) :
    Option (Bytes × Nat) :=
  if sym.isRecorded then do
    let tmp := bytesFrom window (symName strtabD sym)
    let length ← strlen tmp 0
    let table := put32 table (ksymSize * q + Ksym.address) sym.stValue
    let table := put32 table (ksymSize * q + Ksym.size) (sym.stSize.zeroExtend 32)
    some (patch table (ksymSize * q + Ksym.name) length tmp, q + 1)
  else some (table, q)

/-- The loop over the symbols. -/
def recordSymbols (window : U32 → BitVec 8) (strtabD : U32) :
    List Sym → Bytes → Nat → Option (Bytes × Nat)
  | [], table, q => some (table, q)
  | sym :: syms, table, q => do
      let (table, q) ← recordSymbol window strtabD sym table q
      recordSymbols window strtabD syms table q

/-- The symbols of the table `symtab`. After `2 ^ 28` steps the pointer is back where it
was. -/
def symbols (window : U32 → BitVec 8) (data : U32) (symtab : Shdr) : Option (List Sym) :=
  let sym := data + symtab.shOffset
  (recordsFrom symSize (sym + symtab.shSize) (2 ^ 28 + 1) sym).map (List.map (symAt window))

/-- `build_ksyms()` on the file that `ext2_open` has read to the address `data`, where
`memory` is what `malloc` returns; `none` when a loop never ends. The checks of the header
only print. -/
def buildKsyms (window : U32 → BitVec 8) (data : U32) (memory : Bytes) (k : KernelSymbols) :
    Option KernelSymbols := do
  let shdrs ← sections window data
  match sectionNamed window data symtabName shdrs, sectionNamed window data strtabName shdrs with
  | some symtab, some strtab => do
      let syms ← symbols window data (shdrAt window symtab)
      let (table, q) ← recordSymbols window (data + (shdrAt window strtab).shOffset) syms memory 0
      some ⟨some table, q⟩
  | _, _ => some k

/-! ### Finding a symbol -/

/-- The loop of `ksym_find`, `left` rounds before `i` reaches `no_ksym`; `found` is the
variable `match`. -/
def ksymFindLoop (table : Bytes) (addr : U32) : (left i found : Nat) → (closestDiff : Int) → Nat
  | 0, _, found, _ => found
  | left + 1, i, found, closestDiff =>
    let diff := (addr - get32 table (ksymSize * i + Ksym.address)).toInt
    if diff < closestDiff ∧ 0 < diff then ksymFindLoop table addr left (i + 1) i diff
    else ksymFindLoop table addr left (i + 1) found closestDiff

/-- `ksym_find(addr)`: a pointer into `kernel_symbols`, as an offset from there; `none` for
`NULL`. -/
def ksymFind (k : KernelSymbols) (addr : U32) : Option Nat :=
  k.kernelSymbols.map fun table =>
    ksymSize * ksymFindLoop table addr k.noKsym 0 0 0x1000 + Ksym.name

end Crunchy
