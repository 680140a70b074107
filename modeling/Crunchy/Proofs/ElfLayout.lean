/-
Module: Crunchy.Proofs.ElfLayout
Purpose: Where a program header table puts a program: the pages the segment loop of
  `elf_load` maps for it, and the break that `elf_load` sets and `sys_sbrk` moves
  up from.
Trusted boundary: none
Main exports: SegmentsMapped, segments_mapped_iff, BreakClear, break_clear_iff
-/
import Crunchy.Process.UserHeap
import Crunchy.Proofs.AddressSpace
import Mathlib.Algebra.BigOperators.Group.List.Basic

namespace Crunchy

open Lib BitVec Option List

variable {phdrs : List Phdr} {pages : List U32} {j : Nat} {ph : Phdr}

/-! ### The pages of a segment -/

/-- The page loop from round `j` on, with `left` rounds to go. -/
theorem segmentPagesFrom_eq {left : Nat} (extra : Nat) (ends : ph.pMemsz.toNat < 0xFFFFF000)
    (count : j + left = ph.pMemsz.toNat / 0x1000 + 1) :
    segmentPagesFrom ph (extra + left + 1) (BitVec.ofNat 32 (j * 0x1000)) =
      some ((List.range' j left).map (pageAbove ph.pVaddr)) := by
  have value : (BitVec.ofNat 32 (j * 0x1000)).toNat = j * 0x1000 := by
    rw [toNat_ofNat]
    omega
  induction left generalizing j with
  | zero =>
    have beyond : ¬ BitVec.ofNat 32 (j * 0x1000) ≤ ph.pMemsz := by
      rw [le_def, value]
      omega
    rw [segmentPagesFrom, if_neg beyond]
    rfl
  | succ left ih =>
    have inside : BitVec.ofNat 32 (j * 0x1000) ≤ ph.pMemsz := by
      rw [le_def, value]
      omega
    have next : BitVec.ofNat 32 (j * 0x1000) + 0x1000#32 =
        BitVec.ofNat 32 ((j + 1) * 0x1000) := by
      rw [Nat.add_mul, Nat.one_mul, ofNat_add]
    rw [segmentPagesFrom, if_pos inside, next, Nat.add_succ extra left,
      ih (by omega) (by rw [toNat_ofNat]; omega), range'_succ]
    rfl

/-- From `0xFFFFF000` bytes on the page loop does not end: no multiple of the page
size is above the size. -/
theorem segmentPagesFrom_eq_none (endless : 0xFFFFF000 ≤ ph.pMemsz.toNat) (rounds : Nat) {i : U32}
    (aligned : i.toNat % 0x1000 = 0) :
    segmentPagesFrom ph rounds i = none := by
  induction rounds generalizing i with
  | zero => rfl
  | succ rounds ih =>
    have inside : i ≤ ph.pMemsz := by
      rw [le_def]
      omega
    have next : (i + 0x1000#32).toNat % 0x1000 = 0 := by
      rw [toNat_add, toNat_ofNat]
      omega
    rw [segmentPagesFrom, if_pos inside, ih next]
    rfl

/-- The pages a segment's loop maps: from the page of `p_vaddr`, one for every whole
page in `p_memsz` and one more. -/
theorem segmentPages_eq (ends : ph.pMemsz.toNat < 0xFFFFF000) :
    segmentPages ph =
      some ((List.range (ph.pMemsz.toNat / 0x1000 + 1)).map (pageAbove ph.pVaddr)) := by
  have counted := segmentPagesFrom_eq (j := 0)
    (2 ^ 20 - (ph.pMemsz.toNat / 0x1000 + 1)) ends (Nat.zero_add _)
  have rounds : 2 ^ 20 - (ph.pMemsz.toNat / 0x1000 + 1) + (ph.pMemsz.toNat / 0x1000 + 1) + 1 =
      2 ^ 20 + 1 := by omega
  rw [rounds, Nat.zero_mul] at counted
  rw [segmentPages, range_eq_range']
  exact counted

theorem segmentPages_ends (done : segmentPages ph = some pages) :
    ph.pMemsz.toNat < 0xFFFFF000 := by
  by_contra endless
  rw [segmentPages, segmentPagesFrom_eq_none (by omega) _ (by decide)] at done
  cases done

/-- The addresses the whole segment loop maps, in order. -/
def tablePages : List Phdr → Option (List U32)
  | [] => some []
  | ph :: phdrs => do
      let pages ← segmentPages ph
      let more ← tablePages phdrs
      some (pages ++ more)

theorem tablePages_ends (done : tablePages phdrs = some pages) :
    ∀ ph ∈ phdrs, ph.pMemsz.toNat < 0xFFFFF000 := by
  induction phdrs generalizing pages with
  | nil => simp
  | cons ph phdrs ih =>
    obtain ⟨first, mapped, done⟩ := bind_eq_some_iff.mp done
    obtain ⟨more, rest, _⟩ := bind_eq_some_iff.mp done
    exact forall_mem_cons.mpr ⟨segmentPages_ends mapped, ih rest⟩

/-- Where every page loop ends, the pages are those of the segments. -/
theorem tablePages_eq_some (ends : ∀ ph ∈ phdrs, ph.pMemsz.toNat < 0xFFFFF000) :
    ∃ pages, tablePages phdrs = some pages ∧ ∀ v, v ∈ pages ↔
      ∃ ph ∈ phdrs, ∃ j ≤ ph.pMemsz.toNat / 0x1000, v = pageAbove ph.pVaddr j := by
  induction phdrs with
  | nil => exact ⟨[], rfl, by simp⟩
  | cons ph phdrs ih =>
    obtain ⟨first, others⟩ := List.forall_mem_cons.mp ends
    obtain ⟨more, rest, members⟩ := ih others
    refine ⟨_, by rw [tablePages, segmentPages_eq first, rest]; rfl, fun v => ?_⟩
    rw [List.mem_append, members]
    simp only [List.mem_map, List.mem_range, List.mem_cons, exists_eq_or_imp]
    refine or_congr ?_ Iff.rfl
    constructor
    · rintro ⟨j, inside, rfl⟩
      exact ⟨j, by omega, rfl⟩
    · rintro ⟨j, inside, rfl⟩
      exact ⟨j, by omega, rfl⟩

/-! ### Every byte of a segment in a mapped page -/

/-- No segment reaches past the end of the address space. -/
def NoWrapAround (phdrs : List Phdr) : Prop :=
  ∀ ph ∈ phdrs, ph.pVaddr.toNat + ph.pMemsz.toNat ≤ 2 ^ 32

/-- The segment loop ends, and every byte of every segment lies in a page it has
mapped. -/
def SegmentsMapped (phdrs : List Phdr) : Prop :=
  ∃ pages, tablePages phdrs = some pages ∧ ∀ ph ∈ phdrs, ∀ j < ph.pMemsz.toNat,
    ∃ v ∈ pages, pageOf v = pageOf (ph.pVaddr + BitVec.ofNat 32 j)

/-- The page index of an address, counting from address 0. -/
def pageIndex (v : U32) : Nat := v.toNat / 0x1000

theorem pageOf_eq_iff_index {v w : U32} : pageOf v = pageOf w ↔ pageIndex v = pageIndex w := by
  rw [← toNat_inj, pageOf, pageOf, toNat_and_not_fff, toNat_and_not_fff, pageIndex, pageIndex]
  omega

/-- The page behind those a segment's own loop maps. -/
def pageBehind (ph : Phdr) : Nat :=
  pageIndex ph.pVaddr + ph.pMemsz.toNat / 0x1000 + 1

/-- The segment's last byte lies in a page of its own loop, or another header's loop
maps the page behind. -/
def SegmentCovered (phdrs : List Phdr) (ph : Phdr) : Prop :=
  ph.pVaddr.toNat % 0x1000 + ph.pMemsz.toNat % 0x1000 ≤ 0x1000 ∨
    ∃ other ∈ phdrs, pageIndex other.pVaddr ≤ pageBehind ph ∧ pageBehind ph < pageBehind other

theorem pageIndex_segmentByte (noWrap : ph.pVaddr.toNat + ph.pMemsz.toNat ≤ 2 ^ 32)
    (inside : j < ph.pMemsz.toNat) :
    pageIndex (ph.pVaddr + BitVec.ofNat 32 j) = (ph.pVaddr.toNat + j) / 0x1000 := by
  rw [pageIndex, toNat_add_ofNat (by omega)]

theorem pageIndex_pageAbove {virt : U32} (fits : virt.toNat + j * 0x1000 < 2 ^ 32) :
    pageIndex (pageAbove virt j) = pageIndex virt + j := by
  rw [pageIndex, pageIndex, toNat_pageAbove fits]
  omega

/-- The loop maps every byte of the table exactly when each segment ends in its own
pages or in those of another header, and no segment is so large that its page loop
never ends. -/
theorem segments_mapped_iff {phdrs : List Phdr} (noWrap : NoWrapAround phdrs) :
    SegmentsMapped phdrs ↔
      ∀ ph ∈ phdrs, ph.pMemsz.toNat < 0xFFFFF000 ∧ SegmentCovered phdrs ph := by
  constructor
  · rintro ⟨pages, done, mapped⟩ ph member
    have ends := tablePages_ends done
    refine ⟨ends ph member, ?_⟩
    obtain ⟨_, same, members⟩ := tablePages_eq_some ends
    cases done.symm.trans same
    by_cases own : ph.pVaddr.toNat % 0x1000 + ph.pMemsz.toNat % 0x1000 ≤ 0x1000
    · exact Or.inl own
    · -- the last byte lies in the page behind
      have fits := noWrap ph member
      obtain ⟨v, isPage, samePage⟩ := mapped ph member (ph.pMemsz.toNat - 1) (by omega)
      obtain ⟨other, otherMember, j, upTo, rfl⟩ := (members v).mp isPage
      have otherFits := noWrap other otherMember
      rw [pageOf_eq_iff_index, pageIndex_segmentByte fits (by omega)] at samePage
      refine Or.inr ⟨other, otherMember, ?_⟩
      rw [pageBehind, pageBehind]
      by_cases top : other.pVaddr.toNat + j * 0x1000 < 2 ^ 32
      · rw [pageIndex_pageAbove top] at samePage
        simp only [pageIndex] at samePage ⊢
        omega
      · -- a page beyond the last one is page 0, and the page behind is not
        rw [pageIndex, pageAbove, toNat_add, toNat_ofNat] at samePage
        omega
  · intro condition
    obtain ⟨pages, done, members⟩ := tablePages_eq_some fun ph member => (condition ph member).1
    refine ⟨pages, done, fun ph member j inside => ?_⟩
    have fits := noWrap ph member
    have index := pageIndex_segmentByte fits inside
    by_cases behind : (ph.pVaddr.toNat + j) / 0x1000 < pageBehind ph
    · rw [pageBehind, pageIndex] at behind
      refine ⟨pageAbove ph.pVaddr ((ph.pVaddr.toNat + j) / 0x1000 - ph.pVaddr.toNat / 0x1000),
        (members _).mpr ⟨ph, member, _, by omega, rfl⟩, ?_⟩
      rw [pageOf_eq_iff_index, index, pageIndex_pageAbove (by omega), pageIndex]
      omega
    · rw [pageBehind, pageIndex] at behind
      rcases (condition ph member).2 with own | ⟨other, otherMember, lower, upper⟩
      · omega
      · have otherFits := noWrap other otherMember
        rw [pageBehind, pageIndex, pageIndex] at lower
        rw [pageBehind, pageBehind, pageIndex, pageIndex] at upper
        refine ⟨pageAbove other.pVaddr
          ((ph.pVaddr.toNat + j) / 0x1000 - other.pVaddr.toNat / 0x1000),
          (members _).mpr ⟨other, otherMember, _, by omega, rfl⟩, ?_⟩
        rw [pageOf_eq_iff_index, index, pageIndex_pageAbove (by omega), pageIndex]
        omega

/-- A segment of two bytes inside one page. -/
theorem two_bytes_mapped :
    SegmentsMapped [{ pOffset := 0#32, pVaddr := 0x8048000#32, pFilesz := 2#32, pMemsz := 2#32 }] :=
  (segments_mapped_iff (by simp [NoWrapAround])).mpr (by simp [SegmentCovered])

/-- The same two bytes across a page boundary: the second page is not mapped. -/
theorem byte_across_boundary_unmapped :
    ¬ ∀ phdrs, NoWrapAround phdrs → SegmentsMapped phdrs := by
  intro always
  have mapped := always
    [{ pOffset := 0#32, pVaddr := 0x8048FFF#32, pFilesz := 2#32, pMemsz := 2#32 }]
    (by simp [NoWrapAround])
  obtain ⟨pages, done, bytes⟩ := mapped
  have onePage : tablePages
      [{ pOffset := 0#32, pVaddr := 0x8048FFF#32, pFilesz := 2#32, pMemsz := 2#32 }] =
        some [0x8048FFF#32] := by decide +kernel
  cases onePage.symm.trans done
  obtain ⟨v, member, samePage⟩ := bytes _ (mem_singleton_self _) 1 (by decide)
  rw [mem_singleton.mp member] at samePage
  exact absurd samePage (by decide)

/-! ### The break -/

/-- The pages one call of `sys_sbrk(n)` maps. -/
def sbrkPages (n : U32) : Nat :=
  if n.toNat < 2 ^ 31 then (n.toNat + 0xFFF) / 0x1000 else 0

/-- The rounds the loop of `sys_sbrk` has to go. -/
def sbrkRounds (i : Int) : Nat := ((i + 0xFFF) / 0x1000).toNat

/-- `sys_sbrk` is a run of `mapFresh` from the break on. -/
theorem sysSbrkLoop_eq {pd brk : U32} {rounds : Nat} {i : Int} {k : Kernel}
    (enough : sbrkRounds i < rounds) :
    sysSbrkLoop pd rounds i brk k =
      (mapFresh pd 7#32 (sbrkRounds i) brk k).map fun k =>
        (pageAbove brk (sbrkRounds i), k) := by
  induction rounds generalizing i brk k with
  | zero => cases enough
  | succ rounds ih =>
    rw [sysSbrkLoop]
    by_cases more : 0 < i
    · have count : sbrkRounds i = sbrkRounds (i - 0x1000) + 1 := by
        rw [sbrkRounds, sbrkRounds]
        omega
      rw [if_pos more, count, mapFresh]
      cases k.pageAlloc with
      | none => rfl
      | some allocated =>
        obtain ⟨phys, k₁⟩ := allocated
        simp only [bind_eq_bind, bind_some]
        cases k₁.pagingMap pd phys brk 7#32 with
        | none => rfl
        | some k₂ =>
          simp only [bind_some]
          rw [ih (by omega), pageAbove_succ]
    · have none : sbrkRounds i = 0 := by
        rw [sbrkRounds]
        omega
      rw [if_neg more, none, mapFresh, pageAbove_zero]
      rfl

theorem sbrkRounds_toInt (n : U32) : sbrkRounds n.toInt = sbrkPages n := by
  rw [sbrkRounds, sbrkPages, toInt_eq_toNat_cond]
  split
  · rw [if_pos (by omega)]
    omega
  · rw [if_neg (by omega)]
    omega

theorem sysSbrk_eq (m : ProcMmap) (n : U32) (k : Kernel) :
    sysSbrk m n k = (mapFresh m.pd 7#32 (sbrkPages n) m.brk k).map fun k =>
      ({ m with brk := pageAbove m.brk (sbrkPages n) }, k) := by
  have enough : sbrkRounds n.toInt < 2 ^ 19 + 1 := by
    rw [sbrkRounds_toInt, sbrkPages]
    split <;> omega
  rw [sysSbrk, sysSbrkLoop_eq enough, sbrkRounds_toInt]
  cases mapFresh m.pd 7#32 (sbrkPages n) m.brk k <;> rfl

/-- No byte of a segment lies in the page `elf_load` maps at the break, nor in one
that `sys_sbrk` maps above it, however often it is called, as long as the break does
not run over the end of the address space. -/
def BreakClear (phdrs : List Phdr) (base : U32) : Prop :=
  ∀ ph ∈ phdrs, ∀ i < ph.pMemsz.toNat,
    pageOf (ph.pVaddr + BitVec.ofNat 32 i) ≠ pageOf base ∧
    ∀ requests : List U32,
      base.toNat + (requests.map sbrkPages).sum * 0x1000 ≤ 2 ^ 32 →
      ∀ j < (requests.map sbrkPages).sum,
        pageOf (ph.pVaddr + BitVec.ofNat 32 i) ≠ pageOf (pageAbove base j)

/-- The break is clear of the image exactly when every segment with a byte ends at
or below it. -/
theorem break_clear_iff {phdrs : List Phdr} (noWrap : NoWrapAround phdrs) (last : Phdr) :
    BreakClear phdrs (breakBase last) ↔ ∀ ph ∈ phdrs, ph.pMemsz ≠ 0#32 →
      ph.pVaddr.toNat + ph.pMemsz.toNat ≤ (breakBase last).toNat := by
  have aligned : (breakBase last).toNat % 0x1000 = 0 := by
    rw [breakBase, toNat_and_not_fff]
    omega
  constructor
  · intro clear ph member bytes
    by_contra beyond
    have fits := noWrap ph member
    have some : ph.pMemsz.toNat ≠ 0 := fun zero => bytes (eq_of_toNat_eq zero)
    -- one request of a byte a page, up to the page of the last byte
    have total : (((List.replicate ((ph.pVaddr.toNat + ph.pMemsz.toNat - 1 -
        (breakBase last).toNat) / 0x1000 + 1) 1#32).map sbrkPages)).sum =
        (ph.pVaddr.toNat + ph.pMemsz.toNat - 1 - (breakBase last).toNat) / 0x1000 + 1 := by
      rw [map_replicate, sum_replicate, show sbrkPages 1#32 = 1 by decide]
      exact Nat.mul_one _
    have hit := (clear ph member (ph.pMemsz.toNat - 1) (by omega)).2 _
      (by rw [total]; omega)
      ((ph.pVaddr.toNat + ph.pMemsz.toNat - 1 - (breakBase last).toNat) / 0x1000)
      (by rw [total]; omega)
    apply hit
    rw [pageOf_eq_iff_index, pageIndex_segmentByte fits (by omega),
      pageIndex_pageAbove (by omega), pageIndex]
    omega
  · intro below ph member i inside
    have fits := noWrap ph member
    have some : ph.pMemsz ≠ 0#32 := by
      rintro zero
      rw [zero] at inside
      exact absurd inside (Nat.not_lt_zero i)
    have ends := below ph member some
    constructor
    · rw [Ne, pageOf_eq_iff_index, pageIndex_segmentByte fits inside, pageIndex]
      omega
    · intro requests room j counted
      rw [Ne, pageOf_eq_iff_index, pageIndex_segmentByte fits inside,
        pageIndex_pageAbove (by omega), pageIndex]
      omega

/-- A program with four bytes of text and, a page above, four bytes of data. -/
def textSegment : Phdr :=
  { pOffset := 0x1000#32, pVaddr := 0x8048000#32, pFilesz := 4#32, pMemsz := 4#32 }

def dataSegment : Phdr :=
  { pOffset := 0x2000#32, pVaddr := 0x8049000#32, pFilesz := 4#32, pMemsz := 4#32 }

/-- With the highest segment listed last the break is clear. -/
theorem break_above_image : BreakClear [textSegment, dataSegment] (breakBase dataSegment) := by
  refine (break_clear_iff (by simp [NoWrapAround, textSegment, dataSegment]) _).mpr ?_
  simp only [forall_mem_cons, not_mem_nil, false_implies, implies_true, and_true]
  exact ⟨fun _ => by decide, fun _ => by decide⟩

/-- A file at `data` whose bytes are given, zero behind them. -/
def fileWindow (data : U32) (bytes : List (BitVec 8)) : U32 → BitVec 8 :=
  fun a => bytes.getD (a - data).toNat 0#8

/-- The bytes of a 32-bit word, the lowest first. -/
def wordBytes (w : U32) : List (BitVec 8) :=
  [w.extractLsb' 0 8, w.extractLsb' 8 8, w.extractLsb' 16 8, w.extractLsb' 24 8]

/-- The bytes of an `elf32_phdr`. -/
def phdrBytes (ph : Phdr) : List (BitVec 8) :=
  [1#32, ph.pOffset, ph.pVaddr, ph.pVaddr, ph.pFilesz, ph.pMemsz, 7#32, 0x1000#32].flatMap wordBytes

/-- The bytes of an ELF file: the header of 52 bytes, with the table right behind
it, and the table. -/
def elfBytes (entry : U32) (phdrs : List Phdr) : List (BitVec 8) :=
  [0x464C457F#32, 0x10101#32, 0#32, 0#32, 0x30002#32, 1#32, entry, 52#32, 0#32, 0#32,
      0x200034#32, BitVec.ofNat 32 phdrs.length, 0#32].flatMap wordBytes ++
    phdrs.flatMap phdrBytes

/-- With it listed first the page at the break is its page. -/
theorem break_in_image :
    ¬ ∀ window data phdrs, elfPhdrs window data = some phdrs → NoWrapAround phdrs →
      BreakClear phdrs (breakBase (phdrAt window (lastPhdr window data - 32#32))) := by
  intro clear
  have table : elfPhdrs
      (fileWindow 0xC0200000#32 (elfBytes 0x8048000#32 [dataSegment, textSegment]))
      0xC0200000#32 = some [dataSegment, textSegment] := by decide +kernel
  have isClear := clear _ _ _ table (by simp [NoWrapAround, textSegment, dataSegment])
  have hit := (isClear dataSegment (mem_cons_self ..) 0 (by decide)).1
  exact hit (by decide +kernel)

end Crunchy
