/-
Module: Crunchy.Proofs.KsymTable
Purpose: What `build_ksyms` leaves in its records. A name is written whole, over the end of
  its field and into the next records if it is long, and without a `NUL` behind it.
Trusted boundary: none
Main exports: KsymEntry, writeEntries, stringFrom, ElfSym, KernelElf, Records, Kept,
  build_ksyms_iff
-/
import Crunchy.Process.Ksyms
import Mathlib.Data.List.Basic

namespace Crunchy

open Lib BitVec Option List BitVec

variable {window : U32 → BitVec 8} {data strtabD : U32} {table memory : Bytes} {q k i j : Nat}

/-! ### Records

What the loop writes, in terms of the names it reads. -/

/-- What is written into a record. -/
structure KsymEntry where
  value : U32
  size : U32
  name : List (BitVec 8)

variable {e : KsymEntry} {es : List KsymEntry}

/-- Write record `q`. -/
def KsymEntry.write (e : KsymEntry) (table : Bytes) (q : Nat) : Bytes :=
  let table := put32 table (ksymSize * q + Ksym.address) e.value
  let table := put32 table (ksymSize * q + Ksym.size) e.size
  patch table (ksymSize * q + Ksym.name) e.name.length fun j => e.name.getD j 0#8

/-- Write the records from `q` on. -/
def writeEntries : List KsymEntry → Bytes → Nat → Bytes
  | [], table, _ => table
  | e :: es, table, q => writeEntries es (e.write table q) (q + 1)

theorem KsymEntry.write_before (before : i < ksymSize * q) : e.write table q i = table i := by
  simp only [ksymSize] at before
  simp only [write, ksymSize, Ksym.address, Ksym.size, Ksym.name]
  rw [patch_outside (by omega), put32, patch_outside (by omega), put32, patch_outside (by omega)]

/-- A name of at most 36 bytes does not leave its record. -/
theorem KsymEntry.write_behind (short : e.name.length ≤ 36) (behind : ksymSize * (q + 1) ≤ i) :
    e.write table q i = table i := by
  simp only [ksymSize] at behind
  simp only [write, ksymSize, Ksym.address, Ksym.size, Ksym.name]
  rw [patch_outside (by omega), put32, patch_outside (by omega), put32, patch_outside (by omega)]

theorem KsymEntry.write_char (inside : j < e.name.length) :
    e.write table q (ksymSize * q + Ksym.name + j) = e.name[j] := by
  rw [write, patch_inside (by omega) (by omega), Nat.add_sub_cancel_left,
    getD_eq_getElem _ _ inside]

/-- Behind the name its field keeps what was there. -/
theorem KsymEntry.write_rest (behind : e.name.length ≤ j) (inside : j < 32) :
    e.write table q (ksymSize * q + Ksym.name + j) = table (ksymSize * q + Ksym.name + j) := by
  simp only [write, ksymSize, Ksym.address, Ksym.size, Ksym.name]
  rw [patch_outside (by omega), put32, patch_outside (by omega), put32, patch_outside (by omega)]

theorem KsymEntry.write_address :
    get32 (e.write table q) (ksymSize * q + Ksym.address) = e.value := by
  simp only [write, ksymSize, Ksym.address, Ksym.size, Ksym.name]
  rw [get32_patch_apart (by omega), get32_put32_apart (by omega), get32_put32]

theorem KsymEntry.write_size (short : e.name.length ≤ 32) :
    get32 (e.write table q) (ksymSize * q + Ksym.size) = e.size := by
  simp only [write, ksymSize, Ksym.address, Ksym.size, Ksym.name]
  rw [get32_patch_apart (by omega), get32_put32]

theorem writeEntries_before (before : i < ksymSize * q) :
    writeEntries es table q i = table i := by
  induction es generalizing table q with
  | nil => rfl
  | cons e es ih =>
    rw [writeEntries, ih (by simp only [ksymSize] at before ⊢; omega),
      e.write_before before]

/-- A record stays as it is written. What it is written over is the memory from before, when
no name leaves its record. -/
theorem writeEntries_record (table : Bytes) (q : Nat) (entry : es[k]? = some e) :
    ∃ under : Bytes,
      (∀ off < ksymSize, writeEntries es table q (ksymSize * (q + k) + off) =
        e.write under (q + k) (ksymSize * (q + k) + off)) ∧
      ((∀ e ∈ es, e.name.length ≤ 36) → ∀ i, ksymSize * (q + k) ≤ i → under i = table i) := by
  induction es generalizing table q k with
  | nil => exact nomatch entry
  | cons first es ih =>
    rw [writeEntries]
    cases k with
    | zero =>
      obtain rfl : first = e := Option.some.inj entry
      refine ⟨table, fun off inside => ?_, fun _ i _ => rfl⟩
      exact writeEntries_before (by simp only [ksymSize] at inside ⊢; omega)
    | succ k =>
      obtain ⟨under, written, clean⟩ := ih (first.write table q) (q + 1) entry
      rw [show q + (k + 1) = q + 1 + k by omega]
      refine ⟨under, written, fun short i behind => ?_⟩
      rw [clean (fun e inside => short e (mem_cons_of_mem _ inside)) i behind]
      refine KsymEntry.write_behind (short first mem_cons_self) ?_
      simp only [ksymSize] at behind ⊢
      omega

/-- A word of a record is the one that is written there. -/
theorem writeEntries_word (table : Bytes) (off : Nat) (entry : es[k]? = some e)
    (field : off + 4 ≤ ksymSize) :
    ∃ under : Bytes, get32 (writeEntries es table 0) (ksymSize * k + off) =
      get32 (e.write under k) (ksymSize * k + off) := by
  obtain ⟨under, written, _⟩ := writeEntries_record table 0 entry
  rw [Nat.zero_add] at written
  refine ⟨under, get32_congr fun i start stop => ?_⟩
  have here := written (i - ksymSize * k) (by omega)
  rwa [Nat.add_sub_cancel' (by omega)] at here

theorem writeEntries_address (table : Bytes) (entry : es[k]? = some e) :
    get32 (writeEntries es table 0) (ksymSize * k + Ksym.address) = e.value := by
  obtain ⟨under, same⟩ := writeEntries_word table Ksym.address entry (by decide)
  rw [same, e.write_address]

theorem writeEntries_size (table : Bytes) (entry : es[k]? = some e)
    (short : e.name.length ≤ 32) :
    get32 (writeEntries es table 0) (ksymSize * k + Ksym.size) = e.size := by
  obtain ⟨under, same⟩ := writeEntries_word table Ksym.size entry (by decide)
  rw [same, e.write_size short]

/-- The characters of a name that lie in the field. -/
theorem writeEntries_char (table : Bytes) (entry : es[k]? = some e) (inside : j < e.name.length)
    (field : j < 32) :
    writeEntries es table 0 (ksymSize * k + Ksym.name + j) = e.name[j] := by
  obtain ⟨under, written, _⟩ := writeEntries_record table 0 entry
  have here := written (Ksym.name + j) (by simp only [ksymSize, Ksym.name]; omega)
  rw [Nat.zero_add, ← Nat.add_assoc] at here
  rw [here, e.write_char inside]

/-- The rest of the field keeps what `malloc` left there. -/
theorem writeEntries_rest (table : Bytes) (entry : es[k]? = some e)
    (short : ∀ e ∈ es, e.name.length ≤ 36) (behind : e.name.length ≤ j) (field : j < 32) :
    writeEntries es table 0 (ksymSize * k + Ksym.name + j) =
      table (ksymSize * k + Ksym.name + j) := by
  obtain ⟨under, written, clean⟩ := writeEntries_record table 0 entry
  have here := written (Ksym.name + j) (by simp only [ksymSize, Ksym.name]; omega)
  rw [Nat.zero_add, ← Nat.add_assoc] at here
  rw [here, e.write_rest behind field, clean short _ (by rw [Nat.zero_add]; omega)]

/-! ### Names -/

/-- The string at the address `p`. -/
def stringFrom (window : U32 → BitVec 8) (p : U32) : List (BitVec 8) :=
  (List.range ((strlen (bytesFrom window p) 0).getD 0)).map (bytesFrom window p)

/-- A string that ends has no `NUL` in it. -/
theorem stringFrom_ne_zero {p : U32} (inside : j < (stringFrom window p).length) :
    (stringFrom window p)[j] ≠ 0#8 := by
  simp only [stringFrom, getElem_map, getElem_range]
  cases ends : strlen (bytesFrom window p) 0 with
  | none => simp [stringFrom, ends] at inside
  | some length =>
    simp only [stringFrom, ends, getD_some, length_map, length_range] at inside
    have nonzero := (strlen_eq_some_iff.mp ends).2.1 j inside
    rwa [Nat.zero_add] at nonzero

/-- A string ends when there is a `NUL` behind its start. -/
theorem strlen_bytesFrom {p : U32} {n : Nat} (bound : n < 2 ^ 32)
    (nul : bytesFrom window p n = 0#8) :
    ∃ length, strlen (bytesFrom window p) 0 = some length := by
  rw [← Nat.zero_add n] at nul
  obtain ⟨length, _, ends⟩ := strlen_of_nul bound nul
  exact ⟨length, ends⟩

/-! ### The loop over the symbols -/

/-- What the loop records of a symbol. -/
def entryOf (window : U32 → BitVec 8) (strtabD : U32) (sym : Sym) : KsymEntry :=
  ⟨sym.stValue, sym.stSize.zeroExtend 32, stringFrom window (symName strtabD sym)⟩

/-- The symbols that are recorded have names that end. -/
def NamesEnd (window : U32 → BitVec 8) (strtabD : U32) (syms : List Sym) : Prop :=
  ∀ sym ∈ syms, sym.isRecorded →
    ∃ length, strlen (bytesFrom window (symName strtabD sym)) 0 = some length

theorem recordSymbol_eq {sym : Sym} {length : Nat} (recorded : sym.isRecorded)
    (ends : strlen (bytesFrom window (symName strtabD sym)) 0 = some length) :
    recordSymbol window strtabD sym table q =
      some ((entryOf window strtabD sym).write table q, q + 1) := by
  have name : stringFrom window (symName strtabD sym) =
      (List.range length).map (bytesFrom window (symName strtabD sym)) := by
    rw [stringFrom, ends, getD_some]
  have same : ∀ (b : Bytes) (o : Nat), patch b o length (bytesFrom window (symName strtabD sym)) =
      patch b o (stringFrom window (symName strtabD sym)).length
        fun j => (stringFrom window (symName strtabD sym)).getD j 0#8 := by
    intro b o
    rw [name, length_map, length_range]
    funext i
    by_cases inside : o ≤ i ∧ i < o + length
    · rw [patch_inside inside.1 inside.2, patch_inside inside.1 inside.2,
        getD_eq_getElem _ _ (by simp; omega), getElem_map, getElem_range]
    · rw [patch_outside (by omega), patch_outside (by omega)]
  rw [recordSymbol, if_pos recorded]
  simp only [ends, bind_eq_bind, bind_some, same]
  rfl

theorem recordSymbols_eq {syms : List Sym} (ends : NamesEnd window strtabD syms) :
    recordSymbols window strtabD syms table q =
      some (writeEntries ((syms.filter fun sym => sym.isRecorded).map (entryOf window strtabD))
          table q,
        q + (syms.filter fun sym => sym.isRecorded).length) := by
  induction syms generalizing table q with
  | nil => rfl
  | cons sym syms ih =>
    have rest : NamesEnd window strtabD syms :=
      fun other inside => ends other (mem_cons_of_mem _ inside)
    rw [recordSymbols]
    by_cases recorded : sym.isRecorded
    · obtain ⟨length, terminated⟩ := ends sym mem_cons_self recorded
      rw [recordSymbol_eq recorded terminated, filter_cons_of_pos (by simpa using recorded)]
      simp only [bind_eq_bind, bind_some, ih rest, map_cons, writeEntries, length_cons]
      rw [Nat.add_assoc, Nat.add_comm 1]
    · have skipped : recordSymbol window strtabD sym table q = some (table, q) := if_neg recorded
      rw [skipped, filter_cons_of_neg (by simpa using recorded)]
      exact ih rest

/-! ### The file -/

/-- An `Elf32_Sym` as the file format has it: all three fields have 32 bits. -/
structure ElfSym where
  stName : U32
  stValue : U32
  stSize : U32
deriving DecidableEq

def elfSymAt (window : U32 → BitVec 8) (p : U32) : ElfSym where
  stName := get32 (bytesFrom window p) 0
  stValue := get32 (bytesFrom window p) 4
  stSize := get32 (bytesFrom window p) 8

/-- The symbol as `elf.h` has it. -/
def ElfSym.cut (sym : ElfSym) : Sym :=
  ⟨sym.stName.setWidth 16, sym.stValue, sym.stSize.setWidth 16⟩

theorem get16_eq_get32 (b : Bytes) (o : Nat) : get16 b o = (get32 b o).setWidth 16 := by
  apply eq_of_toNat_eq
  simp only [get16, get32, number, toNat_ofNat, toNat_setWidth]
  omega

theorem symAt_eq (window : U32 → BitVec 8) (p : U32) :
    symAt window p = (elfSymAt window p).cut := by
  simp only [symAt, elfSymAt, ElfSym.cut, get16_eq_get32]

/-- The symbols that are to be recorded. -/
def ElfSym.isWanted (sym : ElfSym) : Prop := sym.stName ≠ 0#32 ∧ kernelVirt < sym.stValue

instance (sym : ElfSym) : Decidable sym.isWanted := inferInstanceAs (Decidable (_ ∧ _))

/-- Section header `i`. -/
def headerPtr (window : U32 → BitVec 8) (data : U32) (i : Nat) : U32 :=
  firstShdr window data + BitVec.ofNat 32 (40 * i)

/-- The contents of section header `i`. -/
abbrev headerAt (window : U32 → BitVec 8) (data : U32) (i : Nat) : Shdr :=
  shdrAt window (headerPtr window data i)

/-- Section `i` has the name, and no section behind it has a name that begins so. -/
structure IsSection (window : U32 → BitVec 8) (data : U32) (name : List (BitVec 8)) (i : Nat) :
    Prop where
  notNull : 0 < i
  inside : i < (eShnum window data).toNat
  named : CString (sectionName window data (headerPtr window data i)) name
  last : ∀ j, i < j → j < (eShnum window data).toNat →
    ∃ c < name.length, sectionName window data (headerPtr window data j) c ≠ name.getD c 0#8

/-- A kernel file with a symbol table and a string table. -/
structure KernelElf (window : U32 → BitVec 8) (data : U32) where
  symtab : Nat
  strtab : Nat
  isSymtab : IsSection window data symtabName symtab
  isStrtab : IsSection window data strtabName strtab
  entrySize : get16 (bytesFrom window data) 46 = 40#16
  headersFit : (firstShdr window data).toNat + 40 * (eShnum window data).toNat < 2 ^ 32
  symbolsFit : (data + (headerAt window data symtab).shOffset).toNat +
    (headerAt window data symtab).shSize.toNat < 2 ^ 32
  symbolsWhole : 16 ∣ (headerAt window data symtab).shSize.toNat
  /-- The strings end with a `NUL`. -/
  stringsEnd : window (data + (headerAt window data strtab).shOffset +
    ((headerAt window data strtab).shSize - 1#32)) = 0#8
  namesInside : ∀ i < (headerAt window data symtab).shSize.toNat / 16,
    (elfSymAt window (data + (headerAt window data symtab).shOffset +
      BitVec.ofNat 32 (16 * i))).stName < (headerAt window data strtab).shSize

namespace KernelElf

variable (file : KernelElf window data)

/-- The header of the symbol table. -/
abbrev symtabHeader : Shdr := headerAt window data file.symtab

/-- The header of the string table. -/
abbrev strtabHeader : Shdr := headerAt window data file.strtab

/-- Where the strings are. -/
def strings : U32 := data + file.strtabHeader.shOffset

/-- The symbols of the file. -/
def symbols : List ElfSym :=
  (List.range (file.symtabHeader.shSize.toNat / 16)).map fun i =>
    elfSymAt window (data + file.symtabHeader.shOffset + BitVec.ofNat 32 (16 * i))

/-- The symbols that are to be recorded, in file order. -/
def wanted : List ElfSym := file.symbols.filter fun sym => sym.isWanted

/-- The name of a symbol. -/
def name (sym : ElfSym) : List (BitVec 8) := stringFrom window (file.strings + sym.stName)

/-- The string that is read as the name of a symbol: the one at the lower 16 bits of its
index. -/
def readName (sym : ElfSym) : List (BitVec 8) :=
  stringFrom window (symName file.strings sym.cut)

end KernelElf

/-! ### Finding the tables -/

/-- The pointers a loop comes to when it ends just at `last`. -/
theorem recordsFrom_eq {size last p : U32} {count rounds : Nat} (moves : 0 < size.toNat)
    (ends : last.toNat = p.toNat + size.toNat * count) (enough : count < rounds) :
    recordsFrom size last rounds p =
      some ((List.range count).map fun i => p + BitVec.ofNat 32 (size.toNat * i)) := by
  induction count generalizing p rounds with
  | zero =>
    obtain ⟨rounds, rfl⟩ := Nat.exists_eq_succ_of_ne_zero (show rounds ≠ 0 by omega)
    rw [recordsFrom, if_neg (by rw [lt_def]; omega)]
    rfl
  | succ count ih =>
    obtain ⟨rounds, rfl⟩ := Nat.exists_eq_succ_of_ne_zero (show rounds ≠ 0 by omega)
    rw [Nat.mul_succ] at ends
    have next : (p + size).toNat = p.toNat + size.toNat := by
      rw [toNat_add, Nat.mod_eq_of_lt (by omega)]
    rw [recordsFrom, if_pos (by rw [lt_def]; omega),
      ih (by omega) (by omega), List.range_succ_eq_map]
    simp only [Option.map_some, List.map_cons, List.map_map, Nat.mul_zero]
    congr 2
    · simp
    · refine List.map_congr_left fun i _ => ?_
      apply eq_of_toNat_eq
      simp only [Function.comp, toNat_add, toNat_ofNat, Nat.mul_succ]
      omega

theorem sections_eq (file : KernelElf window data) :
    sections window data = some ((List.range ((eShnum window data).toNat - 1)).map fun i =>
      headerPtr window data (i + 1)) := by
  have fits := file.headersFit
  have some' := file.isSymtab.inside
  have first : (firstShdr window data + shdrSize).toNat = (firstShdr window data).toNat + 40 := by
    rw [toNat_add, Nat.mod_eq_of_lt]
    · rfl
    · simp only [shdrSize, toNat_ofNat]
      omega
  have last : (shdrPtr window data (eShnum window data)).toNat =
      (firstShdr window data + shdrSize).toNat +
        shdrSize.toNat * ((eShnum window data).toNat - 1) := by
    rw [first, shdrPtr, file.entrySize]
    simp only [toNat_add, toNat_mul, truncate_eq_setWidth,
      toNat_setWidth, toNat_ofNat, shdrSize, Nat.reducePow, Nat.reduceMod]
    omega
  rw [sections, recordsFrom_eq (by decide) last (by omega)]
  refine congrArg some (map_congr_left fun i inside => ?_)
  apply eq_of_toNat_eq
  simp only [headerPtr, toNat_add, toNat_ofNat, shdrSize]
  omega

theorem strcmp_eq_zero_iff {s : List (BitVec 8)} {memory : Bytes} :
    strcmp s memory = 0 ↔ ∀ c < s.length, s.getD c 0#8 = memory c :=
  strncmp_eq_zero_iff

/-- The loop keeps the last section that has the name. -/
theorem sectionNamed_append {name : List (BitVec 8)} {shdr : U32} {before after : List U32}
    (here : strcmp name (sectionName window data shdr) = 0)
    (none : ∀ other ∈ after, strcmp name (sectionName window data other) ≠ 0) :
    sectionNamed window data name (before ++ shdr :: after) = some shdr := by
  rw [sectionNamed, foldl_append, foldl_cons, if_pos here]
  induction after with
  | nil => rfl
  | cons other after ih =>
    rw [foldl_cons, if_neg (none other mem_cons_self)]
    exact ih fun other inside => none other (mem_cons_of_mem _ inside)

theorem IsSection.found {name : List (BitVec 8)} {i : Nat}
    (isSection : IsSection window data name i) :
    sectionNamed window data name ((List.range ((eShnum window data).toNat - 1)).map fun i =>
      headerPtr window data (i + 1)) = some (headerPtr window data i) := by
  obtain ⟨i, rfl⟩ := Nat.exists_eq_succ_of_ne_zero (Nat.pos_iff_ne_zero.mp isSection.notNull)
  have inside := isSection.inside
  have split : List.range ((eShnum window data).toNat - 1) =
      List.range i ++ i :: (List.range ((eShnum window data).toNat - 1 - (i + 1))).map
        fun j => i + 1 + j := by
    rw [← List.singleton_append, ← List.append_assoc, ← List.range_succ, ← List.range_add]
    congr 1
    omega
  rw [split, List.map_append, List.map_cons, List.map_map]
  refine sectionNamed_append ?_ ?_
  · rw [strcmp_eq_zero_iff]
    intro c below
    rw [isSection.named.chars c below, List.getD_eq_getElem _ _ below]
  · intro other behind same
    obtain ⟨j, below, rfl⟩ := List.mem_map.mp behind
    rw [List.mem_range] at below
    obtain ⟨c, short, differs⟩ := isSection.last (i + 1 + j + 1) (by omega) (by omega)
    exact differs (strcmp_eq_zero_iff.mp same c short).symm

/-! ### What is recorded -/

/-- The last byte of the string table, seen from a name. -/
theorem end_of_strings {start size index : U32} (inside : index < size) :
    (index.setWidth 16).zeroExtend 32 + start +
      BitVec.ofNat 32 (size.toNat - 1 - index.toNat % 2 ^ 16) = start + (size - 1#32) := by
  rw [lt_def] at inside
  have last : (size - 1#32).toNat = size.toNat - 1 := by
    rw [toNat_sub]
    simp only [toNat_ofNat]
    omega
  have low : ((index.setWidth 16).zeroExtend 32).toNat = index.toNat % 2 ^ 16 := by
    rw [toNat_setWidth, toNat_setWidth, Nat.mod_eq_of_lt (by omega)]
  have small : index.toNat % 2 ^ 16 ≤ index.toNat := Nat.mod_le _ _
  apply eq_of_toNat_eq
  rw [toNat_add, toNat_add, toNat_add, low, last, toNat_ofNat]
  generalize index.toNat % 2 ^ 16 = low at small ⊢
  omega

namespace KernelElf

variable (file : KernelElf window data)

/-- The symbols that are recorded. -/
def recorded : List ElfSym := file.symbols.filter fun sym => sym.cut.isRecorded

/-- What is written for them. -/
def entries : List KsymEntry :=
  file.recorded.map fun sym => entryOf window file.strings sym.cut

theorem symbols_eq :
    Crunchy.symbols window data file.symtabHeader = some (file.symbols.map ElfSym.cut) := by
  have last : (data + file.symtabHeader.shOffset + file.symtabHeader.shSize).toNat =
      (data + file.symtabHeader.shOffset).toNat +
        symSize.toNat * (file.symtabHeader.shSize.toNat / 16) := by
    have whole : symSize.toNat * (file.symtabHeader.shSize.toNat / 16) =
        file.symtabHeader.shSize.toNat := Nat.mul_div_cancel' file.symbolsWhole
    rw [toNat_add, Nat.mod_eq_of_lt file.symbolsFit, whole]
  simp only [Crunchy.symbols]
  rw [recordsFrom_eq (by decide) last (by omega), Option.map_some, List.map_map, symbols,
    List.map_map]
  exact congrArg some (List.map_congr_left fun i _ => symAt_eq window _)

/-- All names end before the end of the string table. -/
theorem namesEnd : NamesEnd window file.strings (file.symbols.map ElfSym.cut) := by
  intro sym inside _
  obtain ⟨full, isSymbol, rfl⟩ := mem_map.mp inside
  obtain ⟨i, below, rfl⟩ := mem_map.mp isSymbol
  have short := file.namesInside i (mem_range.mp below)
  refine strlen_bytesFrom ?_ ((congrArg window (end_of_strings short)).trans file.stringsEnd)
  omega

theorem build_eq (memory : Bytes) (k : KernelSymbols) :
    buildKsyms window data memory k =
      some ⟨some (writeEntries file.entries memory 0), file.entries.length⟩ := by
  have kept : (file.symbols.map ElfSym.cut).filter (fun sym => sym.isRecorded) =
      file.recorded.map ElfSym.cut := List.filter_map
  have entries : ((file.symbols.map ElfSym.cut).filter fun sym => sym.isRecorded).map
      (entryOf window file.strings) = file.entries := by
    rw [kept, List.map_map]
    rfl
  have count : ((file.symbols.map ElfSym.cut).filter fun sym => sym.isRecorded).length =
      file.entries.length := by
    rw [← entries, List.length_map]
  have syms : Crunchy.symbols window data (headerAt window data file.symtab) =
      some (file.symbols.map ElfSym.cut) := file.symbols_eq
  have tables : recordSymbols window (data + (headerAt window data file.strtab).shOffset)
      (file.symbols.map ElfSym.cut) memory 0 =
        some (writeEntries file.entries memory 0, file.entries.length) := by
    have written : recordSymbols window file.strings (file.symbols.map ElfSym.cut) memory 0 = _ :=
      recordSymbols_eq file.namesEnd
    rwa [entries, count, Nat.zero_add] at written
  rw [buildKsyms, sections_eq file]
  simp only [Option.bind_eq_bind, Option.bind_some, file.isSymtab.found, file.isStrtab.found,
    syms, tables]

/-! ### Which symbols survive -/

/-- Record `q` holds the symbol as it should. -/
structure Records (table : Bytes) (q : Nat) (sym : ElfSym) : Prop where
  address : get32 table (ksymSize * q + Ksym.address) = sym.stValue
  size : get32 table (ksymSize * q + Ksym.size) = sym.stSize
  chars : ∀ j < min 31 (file.name sym).length,
    table (ksymSize * q + Ksym.name + j) = (file.name sym).getD j 0#8
  nul : table (ksymSize * q + Ksym.name + min 31 (file.name sym).length) = 0#8

/-- The records are the wanted symbols, in file order. -/
def Faithful (k : KernelSymbols) : Prop :=
  ∃ table, k.kernelSymbols = some table ∧ k.noKsym = file.wanted.length ∧
    ∀ (q : Nat) (sym : ElfSym), file.wanted[q]? = some sym → file.Records table q sym

/-- The symbol fits the fields of `elf.h` and of its record, and the memory for the record
holds a `NUL` behind its name. Where the name is read from another place because its index has
more than 16 bits, the memory holds the rest of the name too. -/
structure Kept (memory : Bytes) (q : Nat) (sym : ElfSym) : Prop where
  index : sym.stName.setWidth 16 ≠ 0#16
  size : sym.stSize.toNat < 2 ^ 16
  read : file.readName sym <+: (file.name sym).take 31
  rest : ∀ j, (file.readName sym).length ≤ j → j < min 31 (file.name sym).length →
    memory (ksymSize * q + Ksym.name + j) = (file.name sym).getD j 0#8
  nul : memory (ksymSize * q + Ksym.name + min 31 (file.name sym).length) = 0#8

variable {file} {sym : ElfSym}

/-- A symbol that is recorded is wanted. -/
theorem recorded_eq : file.recorded = file.wanted.filter fun sym => sym.cut.isRecorded := by
  rw [recorded, wanted, List.filter_filter]
  refine List.filter_congr fun sym _ => ?_
  have wanted : sym.cut.isRecorded → sym.isWanted := by
    rintro ⟨index, value⟩
    refine ⟨fun zero => index ?_, value⟩
    simp [ElfSym.cut, zero]
  by_cases kept : sym.cut.isRecorded
  · simp [kept, wanted kept]
  · simp [kept]

theorem isRecorded_iff (inside : sym ∈ file.wanted) :
    sym.cut.isRecorded ↔ sym.stName.setWidth 16 ≠ 0#16 := by
  have value := (of_decide_eq_true (mem_filter.mp inside).2).2
  exact and_iff_left value

/-- As many symbols are recorded as there are wanted just when none of them is skipped. -/
theorem length_recorded_iff : file.recorded.length = file.wanted.length ↔
    ∀ sym ∈ file.wanted, sym.stName.setWidth 16 ≠ 0#16 := by
  rw [recorded_eq, length_filter_eq_length_iff]
  exact forall₂_congr fun sym inside => by rw [decide_eq_true_iff, isRecorded_iff inside]

theorem recorded_eq_wanted (all : ∀ sym ∈ file.wanted, sym.stName.setWidth 16 ≠ 0#16) :
    file.recorded = file.wanted := by
  rw [recorded_eq, filter_eq_self]
  intro sym inside
  rw [decide_eq_true_iff, isRecorded_iff inside]
  exact all sym inside

/-- The entry of a symbol. -/
theorem entries_get (all : ∀ sym ∈ file.wanted, sym.stName.setWidth 16 ≠ 0#16)
    (at' : file.wanted[q]? = some sym) :
    file.entries[q]? = some (entryOf window file.strings sym.cut) := by
  rw [entries, recorded_eq_wanted all, getElem?_map, at', map_some]

/-- A name that is recorded as it should be has been read as a part of the right one. -/
theorem Records.read {memory : Bytes}
    (records : file.Records (writeEntries file.entries memory 0) q sym)
    (entry : file.entries[q]? = some (entryOf window file.strings sym.cut)) :
    file.readName sym <+: (file.name sym).take 31 := by
  have short : (file.readName sym).length ≤ min 31 (file.name sym).length := by
    by_contra longer
    have inside : min 31 (file.name sym).length < (file.readName sym).length := by omega
    have char := writeEntries_char memory entry inside (by omega)
    exact stringFrom_ne_zero inside (char.symm.trans records.nul)
  rw [prefix_iff_eq_take]
  refine ext_getElem (by rw [length_take, length_take]; omega) fun j inside _ => ?_
  have char := writeEntries_char memory entry inside (by omega)
  have right := records.chars j (by omega)
  rw [getD_eq_getElem _ _ (by omega)] at right
  rw [getElem_take, getElem_take]
  exact char.symm.trans right

theorem length_readName_le (read : file.readName sym <+: (file.name sym).take 31) :
    (file.readName sym).length ≤ min 31 (file.name sym).length := by
  have length := read.length_le
  rwa [length_take] at length

/-- Names that stay in their fields. -/
theorem entries_short (all : ∀ sym ∈ file.wanted, sym.stName.setWidth 16 ≠ 0#16)
    (read : ∀ (q : Nat) (sym : ElfSym), file.wanted[q]? = some sym →
      file.readName sym <+: (file.name sym).take 31) :
    ∀ e ∈ file.entries, e.name.length ≤ 36 := by
  intro e inside
  rw [entries, recorded_eq_wanted all] at inside
  obtain ⟨sym, isWanted, rfl⟩ := mem_map.mp inside
  obtain ⟨q, at'⟩ := mem_iff_getElem?.mp isWanted
  have length : (file.readName sym).length ≤ min 31 (file.name sym).length :=
    length_readName_le (read q sym at')
  show (file.readName sym).length ≤ 36
  omega

theorem toNat_low_iff {x : U32} : (x.setWidth 16).zeroExtend 32 = x ↔ x.toNat < 2 ^ 16 := by
  rw [← toNat_inj, toNat_setWidth, toNat_setWidth]
  omega

/-- A record whose name and whose neighbours' names stay in their fields. -/
theorem records_iff {memory : Bytes}
    (entry : file.entries[q]? = some (entryOf window file.strings sym.cut))
    (short : ∀ e ∈ file.entries, e.name.length ≤ 36)
    (index : sym.stName.setWidth 16 ≠ 0#16)
    (read : file.readName sym <+: (file.name sym).take 31) :
    file.Records (writeEntries file.entries memory 0) q sym ↔ file.Kept memory q sym := by
  have length := length_readName_le read
  have rest : ∀ j, (file.readName sym).length ≤ j → j < 32 →
      writeEntries file.entries memory 0 (ksymSize * q + Ksym.name + j) =
        memory (ksymSize * q + Ksym.name + j) :=
    fun j behind field => writeEntries_rest memory entry short behind field
  have size := writeEntries_size memory entry
    (show (file.readName sym).length ≤ 32 by omega)
  constructor
  · intro records
    refine ⟨index, toNat_low_iff.mp (size.symm.trans records.size), read, ?_, ?_⟩
    · intro j behind inside
      rw [← rest j behind (by omega), records.chars j inside]
    · rw [← rest _ length (by omega), records.nul]
  · intro kept
    refine ⟨writeEntries_address memory entry, size.trans (toNat_low_iff.mpr kept.size), ?_, ?_⟩
    · intro j inside
      by_cases own : j < (file.readName sym).length
      · have char := writeEntries_char memory entry own (by omega)
        have same := read.getElem own
        rw [getElem_take] at same
        rw [char, getD_eq_getElem _ _ (by omega), ← same]
        rfl
      · rw [rest j (by omega) (by omega), kept.rest j (by omega) inside]
    · rw [rest _ length (by omega), kept.nul]

/-- The records are what they should be when every wanted symbol is kept. -/
theorem faithful_iff (memory : Bytes) :
    file.Faithful ⟨some (writeEntries file.entries memory 0), file.entries.length⟩ ↔
      ∀ (q : Nat) (sym : ElfSym), file.wanted[q]? = some sym → file.Kept memory q sym := by
  constructor
  · rintro ⟨table, isTable, count, records⟩ q sym at'
    obtain rfl := Option.some.inj isTable
    have all := length_recorded_iff.mp (by rw [← count, entries, length_map])
    have read := fun (q : Nat) (sym : ElfSym) (at' : file.wanted[q]? = some sym) =>
      (records q sym at').read (entries_get all at')
    refine (records_iff (entries_get all at') (entries_short all read) ?_ (read q sym at')).mp
      (records q sym at')
    exact all sym (mem_iff_getElem?.mpr ⟨q, at'⟩)
  · intro kept
    have all : ∀ sym ∈ file.wanted, sym.stName.setWidth 16 ≠ 0#16 := by
      intro sym inside
      obtain ⟨q, at'⟩ := mem_iff_getElem?.mp inside
      exact (kept q sym at').index
    have short := entries_short all fun q sym at' => (kept q sym at').read
    refine ⟨_, rfl, ?_, fun q sym at' => ?_⟩
    · show file.entries.length = file.wanted.length
      rw [entries, length_map, recorded_eq_wanted all]
    · exact (records_iff (entries_get all at') short (kept q sym at').index
        (kept q sym at').read).mpr (kept q sym at')

/-- A symbol whose name index fits into 16 bits is kept when its size does too, its name has
at most 31 characters and the byte behind it is 0. -/
theorem kept_iff {memory : Bytes} (low : sym.stName.toNat < 2 ^ 16) (named : sym.stName ≠ 0#32) :
    file.Kept memory q sym ↔ sym.stSize.toNat < 2 ^ 16 ∧ (file.name sym).length ≤ 31 ∧
      memory (ksymSize * q + Ksym.name + (file.name sym).length) = 0#8 := by
  have index : sym.stName.setWidth 16 ≠ 0#16 := by
    intro zero
    have same := toNat_low_iff.mpr low
    rw [zero] at same
    exact named same.symm
  have read : file.readName sym = file.name sym := by
    rw [readName, name, symName, ElfSym.cut]
    congr 1
    exact (congrArg (· + file.strings) (toNat_low_iff.mpr low)).trans (add_comm _ _)
  constructor
  · intro kept
    have length := length_readName_le kept.read
    rw [read] at length
    have nul := kept.nul
    rw [Nat.min_eq_right (by omega)] at nul
    exact ⟨kept.size, by omega, nul⟩
  · rintro ⟨size, length, nul⟩
    refine ⟨index, size, ?_, fun j behind inside => ?_, ?_⟩
    · rw [read, take_of_length_le length]
    · rw [read] at behind
      omega
    · rwa [Nat.min_eq_right length]

end KernelElf

/-- On every kernel file, `build_ksyms` ends with the records as they should be exactly when
each wanted symbol is kept. -/
theorem build_ksyms_iff (file : KernelElf window data) (memory : Bytes) (k : KernelSymbols) :
    ∃ k', buildKsyms window data memory k = some k' ∧
      (file.Faithful k' ↔ ∀ (q : Nat) (sym : ElfSym), file.wanted[q]? = some sym →
        file.Kept memory q sym) :=
  ⟨_, file.build_eq memory k, KernelElf.faithful_iff memory⟩

/-! ### A small file -/

/-- A file with the sections `.symtab` and `.strtab`, and with the symbol `a` of 5 bytes at
0xC0100000. The names of the sections are in `.strtab` too. -/
def smallImage : Bytes :=
  let b : Bytes := fun _ => 0#8
  let b := put16 (put16 (put16 (put32 b 32 52#32) 46 40#16) 48 3#16) 50 2#16
  let b := put32 (put32 (put32 b 92 1#32) 108 192#32) 112 32#32
  let b := put32 (put32 (put32 b 132 9#32) 148 172#32) 152 19#32
  let b := patch b 173 7 fun i => symtabName.getD i 0#8
  let b := put8 (patch b 181 7 fun i => strtabName.getD i 0#8) 189 97#8
  put32 (put32 (put32 b 208 17#32) 212 0xC0100000#32) 216 5#32

/-- The file at 0x1000. -/
def smallWindow (p : U32) : BitVec 8 := smallImage (p - 0x1000#32).toNat

def smallFile : KernelElf smallWindow 0x1000#32 where
  symtab := 1
  strtab := 2
  isSymtab := by
    refine ⟨by decide, by decide, ⟨by decide, by decide, by decide⟩, fun j behind inside => ?_⟩
    have count : (eShnum smallWindow 0x1000#32).toNat = 3 := by decide
    obtain rfl : j = 2 := by omega
    exact ⟨2, by decide, by decide⟩
  isStrtab := by
    refine ⟨by decide, by decide, ⟨by decide, by decide, by decide⟩, fun j behind inside => ?_⟩
    have count : (eShnum smallWindow 0x1000#32).toNat = 3 := by decide
    omega
  entrySize := by decide
  headersFit := by decide
  symbolsFit := by decide
  symbolsWhole := by decide
  stringsEnd := by decide
  namesInside := by decide

theorem smallFile_wanted : smallFile.wanted = [⟨17#32, 0xC0100000#32, 5#32⟩] := by decide

theorem smallFile_name : smallFile.name ⟨17#32, 0xC0100000#32, 5#32⟩ = [97#8] := by
  have length : strlen (bytesFrom smallWindow (smallFile.strings + 17#32)) 0 = some 1 :=
    strlen_eq_some_iff.mpr ⟨by decide, by decide, by decide⟩
  decide

theorem smallFile_kept_iff (memory : Bytes) :
    (∀ (q : Nat) (sym : ElfSym), smallFile.wanted[q]? = some sym → smallFile.Kept memory q sym) ↔
      memory 5 = 0#8 := by
  have one : smallFile.Kept memory 0 ⟨17#32, 0xC0100000#32, 5#32⟩ ↔ memory 5 = 0#8 := by
    rw [KernelElf.kept_iff (by decide) (by decide), smallFile_name]
    simp
  rw [smallFile_wanted, ← one]
  constructor
  · exact fun all => all 0 _ rfl
  · intro kept q sym at'
    cases q with
    | zero => exact Option.some.inj at' ▸ kept
    | succ q => exact nomatch at'

theorem small_file_recorded :
    ∃ k', buildKsyms smallWindow 0x1000#32 (fun _ => 0#8) ⟨none, 0⟩ = some k' ∧
      smallFile.Faithful k' := by
  obtain ⟨k', built, iff⟩ := build_ksyms_iff smallFile (fun _ => 0#8) ⟨none, 0⟩
  exact ⟨k', built, iff.mpr ((smallFile_kept_iff _).mpr rfl)⟩

/-- With other memory from `malloc` the name has no end. -/
theorem small_file_not_terminated :
    ¬ ∀ (window : U32 → BitVec 8) (data : U32) (file : KernelElf window data) (memory : Bytes)
      (k : KernelSymbols), ∃ k', buildKsyms window data memory k = some k' ∧ file.Faithful k' := by
  intro all
  obtain ⟨k', built, faithful⟩ := all smallWindow 0x1000#32 smallFile (fun _ => 0xFF#8) ⟨none, 0⟩
  rw [smallFile.build_eq] at built
  obtain rfl := Option.some.inj built
  have zero := (smallFile_kept_iff _).mp ((KernelElf.faithful_iff _).mp faithful)
  exact absurd zero (by decide)

end Crunchy
