/-
Module: Crunchy.Proofs.ElfLoad
Purpose: Loading a program. Below the kernel's half user memory is one function from addresses
  to bytes, and the image the segment loop leaves follows segment by segment.
Trusted boundary: none
Main exports: UserSpace, storeByte_spec, loadSegment_spec, image_is_file_image_iff
-/
import Crunchy.Proofs.ElfLayout

namespace Crunchy

open Lib BitVec Option List Function

variable {b c : BitVec 8} {m m' m₀ : ElfMachine} {P : ElfMachine → Prop} {k k' : Kernel}
  {after before phdrs : List Phdr} {j left n region spare : Nat} {ph : Phdr}
  {a data dest f src v virt w : U32}

/-! ### Entries -/

/-- A user address. -/
def UserAddress (v : U32) : Prop := v.toNat < 0xC0000000

theorem UserAddress.low (user : UserAddress v) : LowSlot v :=
  lowSlot_of_lt (Nat.lt_trans user (by decide))

theorem UserAddress.not_kernel (user : UserAddress v) : ¬ kernelVirt ≤ v := by
  rw [UserAddress] at user
  rw [kernelVirt, le_def, toNat_ofNat]
  omega

/-- An entry of a page mapped with flags 7: the frame with the flags in its low
bits. -/
theorem toNat_userEntry (aligned : f.toNat % 4096 = 0) :
    (f ||| 7#32).toNat = f.toNat + 7 := by
  rw [toNat_or_of_aligned (k := 12) (by omega) (by decide)]
  rfl

theorem userEntry_inj {g : U32} (fAligned : f.toNat % 4096 = 0) (gAligned : g.toNat % 4096 = 0)
    (same : f ||| 7#32 = g ||| 7#32) : f = g := by
  have value := congrArg BitVec.toNat same
  rw [toNat_userEntry fAligned, toNat_userEntry gAligned] at value
  exact eq_of_toNat_eq (by omega)

theorem userEntry_ne_zero (f : U32) : f ||| 7#32 ≠ 0#32 := by
  rw [Ne, or_eq_zero_iff]
  exact fun zero => absurd zero.2 (by decide)

theorem userEntry_present (f : U32) : (f ||| 7#32).getLsbD 0 = true := by
  simp

theorem userEntry_frame (aligned : f.toNat % 4096 = 0) :
    (f ||| 7#32) >>> 12 <<< 12 = f := by
  apply eq_of_toNat_eq
  rw [toNat_shiftLeft, toNat_ushiftRight_div, toNat_userEntry aligned, Nat.shiftLeft_eq]
  omega

/-! ### User memory -/

theorem toNat_offset (v : U32) : (v &&& 0xFFF#32).toNat = v.toNat % 4096 :=
  Lib.toNat_and_lowMask (k := 12) v (by decide)

/-- The page of a byte of a frame is the frame. -/
theorem pageOf_frame (aligned : f.toNat % 4096 = 0) (v : U32) :
    pageOf (f + (v &&& 0xFFF#32)) = f := by
  apply eq_of_toNat_eq
  rw [pageOf, toNat_and_not_fff, toNat_add, toNat_offset]
  omega

/-- What the loader keeps to: below the kernel's half a page is unmapped or has a
frame that is out, and no two pages have the same. -/
structure UserSpace (m : ElfMachine) : Prop where
  shape : DirShape m.kernel.currentPageDirectory m.kernel
  sweeping : Sweeping m.kernel.mm
  slots : SlotsPresent m.kernel.currentPageDirectory m.kernel.mem
  entry : ∀ v, UserAddress v →
    walkEntry m.kernel.currentPageDirectory v m.kernel.mem = 0#32 ∨
      ∃ f, FrameTaken m.kernel.mm f ∧
        walkEntry m.kernel.currentPageDirectory v m.kernel.mem = f ||| 7#32
  apart : ∀ v w f, UserAddress v → UserAddress w → FrameTaken m.kernel.mm f →
    walkEntry m.kernel.currentPageDirectory v m.kernel.mem = f ||| 7#32 →
    walkEntry m.kernel.currentPageDirectory w m.kernel.mem = f ||| 7#32 → pageOf v = pageOf w

namespace UserSpace

variable {m m' : ElfMachine} {v w : U32}

theorem physical_of_entry (holds : UserSpace m) (user : UserAddress v)
    (taken : FrameTaken m.kernel.mm f)
    (entry : walkEntry m.kernel.currentPageDirectory v m.kernel.mem = f ||| 7#32) :
    m.physical v = some (f + (v &&& 0xFFF#32)) := by
  have present := holds.shape.present_iff holds.slots user.low
  rw [entry, userEntry_present] at present
  have frame : (effective m.kernel.currentPageDirectory v m.kernel.mem).frame <<< 12 = f := by
    rw [effective, entry]
    exact userEntry_frame taken.page.1
  simp only [ElfMachine.physical, present, if_true, frame]

theorem physical_of_unmapped (holds : UserSpace m) (user : UserAddress v)
    (unmapped : walkEntry m.kernel.currentPageDirectory v m.kernel.mem = 0#32) :
    m.physical v = none := by
  have present := holds.shape.present_iff holds.slots user.low
  rw [unmapped] at present
  have absent : (effective m.kernel.currentPageDirectory v m.kernel.mem).present = false := present
  simp only [ElfMachine.physical, absent, Bool.false_eq_true, if_false]

/-- A user address is a byte of a frame that is out. -/
theorem physical_taken (holds : UserSpace m) (user : UserAddress v) (found : m.physical v = some a) :
    FrameTaken m.kernel.mm (pageOf a) := by
  rcases holds.entry v user with unmapped | ⟨f, taken, entry⟩
  · rw [holds.physical_of_unmapped user unmapped] at found
    cases found
  · rw [holds.physical_of_entry user taken entry] at found
    cases found
    rw [pageOf_frame taken.page.1]
    exact taken

/-- Different addresses are different bytes. -/
theorem physical_inj (holds : UserSpace m) (userV : UserAddress v) (userW : UserAddress w)
    (atV : m.physical v = some a) (atW : m.physical w = some a) : v = w := by
  rcases holds.entry v userV with unmapped | ⟨f, fTaken, fEntry⟩
  · rw [holds.physical_of_unmapped userV unmapped] at atV
    cases atV
  rcases holds.entry w userW with unmapped | ⟨g, gTaken, gEntry⟩
  · rw [holds.physical_of_unmapped userW unmapped] at atW
    cases atW
  rw [holds.physical_of_entry userV fTaken fEntry, Option.some.injEq] at atV
  rw [holds.physical_of_entry userW gTaken gEntry, Option.some.injEq] at atW
  have sameFrame : f = g := by
    rw [← pageOf_frame fTaken.page.1 v, ← pageOf_frame gTaken.page.1 w, atV, atW]
  subst sameFrame
  have sameOffset := congrArg BitVec.toNat (atV.trans atW.symm)
  rw [toNat_add, toNat_add, toNat_offset, toNat_offset] at sameOffset
  have samePage := congrArg BitVec.toNat (holds.apart v w f userV userW fTaken fEntry gEntry)
  rw [pageOf, pageOf, toNat_and_not_fff, toNat_and_not_fff] at samePage
  exact eq_of_toNat_eq (by omega)

/-- The bytes of the frames play no part in it. -/
theorem ofRam (holds : UserSpace m) (same : m'.kernel = m.kernel) : UserSpace m' := by
  obtain ⟨shape, sweeping, slots, entry, apart⟩ := holds
  rw [← same] at shape sweeping slots entry apart
  exact ⟨shape, sweeping, slots, entry, apart⟩

end UserSpace

/-- A byte read from a user address. -/
theorem loadByte_user (user : UserAddress v) :
    m.loadByte v = (m.physical v).map m.ram := by
  simp only [ElfMachine.loadByte, if_neg user.not_kernel]
  cases m.physical v <;> rfl

theorem physical_of_kernel (same : m'.kernel = m.kernel) (v : U32) :
    m'.physical v = m.physical v := by
  rw [ElfMachine.physical, ElfMachine.physical, same]

/-- Only user addresses are written. -/
theorem storeByte_user (done : m.storeByte v b = some m') :
    UserAddress v ∧ ∃ a, m.physical v = some a ∧
      m' = { m with ram := Function.update m.ram a b } := by
  rw [ElfMachine.storeByte] at done
  split at done
  · cases done
  · rename_i notKernel
    obtain ⟨a, found, done⟩ := bind_eq_some_iff.mp done
    cases done
    refine ⟨?_, a, found, rfl⟩
    rw [kernelVirt, le_def, toNat_ofNat] at notKernel
    rw [UserAddress]
    omega

/-- Writing memory leaves the directories and the window alone. -/
theorem storeByte_same (done : m.storeByte v b = some m') :
    m'.kernel = m.kernel ∧ m'.window = m.window := by
  obtain ⟨_, a, _, rfl⟩ := storeByte_user done
  exact ⟨rfl, rfl⟩

/-- A store changes one byte. -/
theorem storeByte_spec (holds : UserSpace m) (done : m.storeByte v b = some m') (w : U32)
    (userW : UserAddress w) :
    m'.loadByte w = if w = v then some b else m.loadByte w := by
  obtain ⟨userV, a, atV, rfl⟩ := storeByte_user done
  have sameAt : { m with ram := Function.update m.ram a b }.physical w = m.physical w :=
    physical_of_kernel rfl w
  rw [loadByte_user userW, loadByte_user userW, sameAt]
  by_cases same : w = v
  · subst same
    rw [if_pos rfl, atV, map_some]
    exact congrArg some (update_self _ _ _)
  · rw [if_neg same]
    cases atW : m.physical w with
    | none => rfl
    | some other =>
      have differs : other ≠ a := by
        rintro rfl
        exact same (holds.physical_inj userW userV atW atV)
      exact congrArg some (update_of_ne differs _ _)

/-- An address that can be written. -/
def Writable (m : ElfMachine) (v : U32) : Prop :=
  UserAddress v ∧ ∃ a, m.physical v = some a

theorem writable_of_kernel (same : m'.kernel = m.kernel) (v : U32) :
    Writable m' v ↔ Writable m v := by
  rw [Writable, Writable, physical_of_kernel same]

theorem storeByte_returns_iff (b : BitVec 8) :
    (∃ m', m.storeByte v b = some m') ↔ Writable m v := by
  constructor
  · rintro ⟨m', done⟩
    obtain ⟨user, a, found, _⟩ := storeByte_user done
    exact ⟨user, a, found⟩
  · rintro ⟨user, a, found⟩
    rw [ElfMachine.storeByte, if_neg user.not_kernel, found]
    exact ⟨_, rfl⟩

/-- Every byte of a frame that is not out holds `c`. -/
def FreeHolds (c : BitVec 8) (m : ElfMachine) : Prop :=
  ∀ a, ¬ FrameTaken m.kernel.mm (pageOf a) → m.ram a = c

/-- User memory is in order and the free frames hold `c`: what stores keep. -/
theorem storeByte_free (done : m.storeByte v b = some m') (holds : UserSpace m ∧ FreeHolds c m) :
    UserSpace m' ∧ FreeHolds c m' := by
  obtain ⟨userV, a, atV, rfl⟩ := storeByte_user done
  refine ⟨holds.1.ofRam rfl, fun other free => ?_⟩
  have differs : other ≠ a := by
    rintro rfl
    exact free (holds.1.physical_taken userV atV)
  exact (update_of_ne differs _ _).trans (holds.2 other free)

/-! ### Stores -/

/-- Stores, one after the other: what the loops and the words of the loader come to. -/
def storeAll : List (U32 × BitVec 8) → ElfMachine → Option ElfMachine
  | [], m => some m
  | (v, b) :: stores, m => (m.storeByte v b).bind (storeAll stores)

/-- `count` bytes from `dest` on. -/
def stretch (dest : U32) (count : Nat) (byte : Nat → BitVec 8) : List (U32 × BitVec 8) :=
  (List.range count).map fun i => (dest + BitVec.ofNat 32 i, byte i)

section Stores

variable {byte : Nat → BitVec 8} {stores : List (U32 × BitVec 8)}

theorem storeAll_append (stores more : List (U32 × BitVec 8)) (m : ElfMachine) :
    storeAll (stores ++ more) m = (storeAll stores m).bind (storeAll more) := by
  induction stores generalizing m with
  | nil => rfl
  | cons s stores ih =>
    rw [List.cons_append, storeAll, storeAll, Option.bind_assoc]
    exact Option.bind_congr fun m₁ _ => ih m₁

/-- What every store keeps, a list of them keeps. -/
theorem storeAll_keeps
    (store : ∀ {m m' : ElfMachine} {v : U32} {b : BitVec 8}, m.storeByte v b = some m' →
      P m → P m') (done : storeAll stores m = some m') (start : P m) : P m' := by
  induction stores generalizing m with
  | nil =>
    cases done
    exact start
  | cons s stores ih =>
    obtain ⟨m₁, stored, done⟩ := bind_eq_some_iff.mp done
    exact ih done (store stored start)

theorem storeAll_same (done : storeAll stores m = some m') :
    m'.kernel = m.kernel ∧ m'.window = m.window :=
  storeAll_keeps (P := fun x => x.kernel = m.kernel ∧ x.window = m.window)
    (fun stored same =>
      ⟨(storeByte_same stored).1.trans same.1, (storeByte_same stored).2.trans same.2⟩)
    done ⟨rfl, rfl⟩

/-- They come to their end where every address can be written. -/
theorem storeAll_returns_iff :
    (∃ m', storeAll stores m = some m') ↔ ∀ s ∈ stores, Writable m s.1 := by
  induction stores generalizing m with
  | nil => simp [storeAll]
  | cons s stores ih =>
    rw [forall_mem_cons, ← storeByte_returns_iff s.2]
    constructor
    · rintro ⟨m', done⟩
      obtain ⟨m₁, stored, done⟩ := bind_eq_some_iff.mp done
      refine ⟨⟨m₁, stored⟩, fun other member => ?_⟩
      rw [← writable_of_kernel (storeByte_same stored).1]
      exact ih.mp ⟨m', done⟩ other member
    · rintro ⟨⟨m₁, stored⟩, rest⟩
      obtain ⟨m', done⟩ := ih.mpr fun other member =>
        (writable_of_kernel (storeByte_same stored).1 _).mpr (rest other member)
      exact ⟨m', bind_eq_some_iff.mpr ⟨m₁, stored, done⟩⟩

theorem writable_stretch {count : Nat} :
    (∀ s ∈ stretch dest count byte, Writable m s.1) ↔
      ∀ i < count, Writable m (dest + BitVec.ofNat 32 i) := by
  simp [stretch]

theorem ofNat_succ_add (v : U32) (i : Nat) :
    v + 1#32 + BitVec.ofNat 32 i = v + BitVec.ofNat 32 (i + 1) := by
  apply eq_of_toNat_eq
  simp only [toNat_add, toNat_ofNat]
  omega

theorem stretch_succ (dest : U32) (left : Nat) (byte : Nat → BitVec 8) :
    stretch dest (left + 1) byte =
      (dest, byte 0) :: stretch (dest + 1#32) left fun i => byte (i + 1) := by
  simp [stretch, List.range_succ_eq_map, Function.comp_def, ofNat_succ_add]

theorem memset_eq : m.memset c left dest = storeAll (stretch dest left fun _ => c) m := by
  induction left generalizing dest m with
  | zero => rfl
  | succ left ih =>
    rw [stretch_succ]
    exact Option.bind_congr fun m₁ _ => ih

/-- `memcpy` from the kernel's half stores the bytes of the window, where the source is
mapped. -/
theorem memcpy_iff (isKernel : 0xC0000000 ≤ src.toNat) (fits : src.toNat + left < 2 ^ 32) :
    m.memcpy left dest src = some m' ↔
      (∀ i < left, ∃ a, m.physical (src + BitVec.ofNat 32 i) = some a) ∧
        storeAll (stretch dest left fun i => m.window (src + BitVec.ofNat 32 i)) m = some m' := by
  induction left generalizing dest src m with
  | zero => simp [ElfMachine.memcpy, storeAll, stretch]
  | succ left ih =>
    have here : kernelVirt ≤ src := by
      rw [kernelVirt, le_def, toNat_ofNat]
      omega
    have next : (src + 1#32).toNat = src.toNat + 1 := toNat_add_ofNat (by omega)
    have first : m.memcpy (left + 1) dest src = some m' ↔
        (∃ a, m.physical src = some a) ∧ ∃ m₁, m.storeByte dest (m.window src) = some m₁ ∧
          m₁.memcpy left (dest + 1#32) (src + 1#32) = some m' := by
      simp [ElfMachine.memcpy, ElfMachine.loadByte, here, Option.bind_eq_some_iff]
    rw [first, Nat.forall_lt_succ_left, stretch_succ, storeAll, Option.bind_eq_some_iff]
    have rest : ∀ {m₁}, m.storeByte dest (m.window src) = some m₁ →
        (m₁.memcpy left (dest + 1#32) (src + 1#32) = some m' ↔
          (∀ i < left, ∃ a, m.physical (src + BitVec.ofNat 32 (i + 1)) = some a) ∧
            storeAll (stretch (dest + 1#32) left fun i =>
              m.window (src + BitVec.ofNat 32 (i + 1))) m₁ = some m') := by
      intro m₁ stored
      obtain ⟨kernel, window⟩ := storeByte_same stored
      rw [ih (by omega) (by omega)]
      simp only [physical_of_kernel kernel, window, ofNat_succ_add]
    simp only [BitVec.add_zero]
    constructor
    · rintro ⟨mapped, m₁, stored, done⟩
      obtain ⟨others, done⟩ := (rest stored).mp done
      exact ⟨⟨mapped, others⟩, m₁, stored, done⟩
    · rintro ⟨⟨mapped, others⟩, m₁, stored, done⟩
      exact ⟨mapped, m₁, stored, (rest stored).mpr ⟨others, done⟩⟩

/-- A stretch of stores changes its own bytes. -/
theorem stretch_spec (holds : UserSpace m) (fits : dest.toNat + left < 2 ^ 32)
    (done : storeAll (stretch dest left byte) m = some m') (w : U32) (user : UserAddress w) :
    m'.loadByte w =
      if dest.toNat ≤ w.toNat ∧ w.toNat < dest.toNat + left then
        some (byte (w.toNat - dest.toNat))
      else m.loadByte w := by
  induction left generalizing m' with
  | zero =>
    cases done
    rw [if_neg (by omega)]
  | succ left ih =>
    rw [stretch, List.range_succ, List.map_append, storeAll_append] at done
    obtain ⟨m₁, before, done⟩ := bind_eq_some_iff.mp done
    obtain ⟨_, stored, last⟩ := bind_eq_some_iff.mp done
    cases last
    have address : (dest + BitVec.ofNat 32 left).toNat = dest.toNat + left :=
      toNat_add_ofNat (by omega)
    rw [storeByte_spec (holds.ofRam (storeAll_same before).1) stored w user, ih (by omega) before]
    by_cases isLast : w = dest + BitVec.ofNat 32 left
    · rw [if_pos isLast, isLast, address, if_pos (by omega), Nat.add_sub_cancel_left]
    · have differs : w.toNat ≠ dest.toNat + left := fun same =>
        isLast (eq_of_toNat_eq (same.trans address.symm))
      rw [if_neg isLast]
      exact if_congr (by omega) rfl rfl

end Stores

/-! ### Mapping pages -/

theorem Kernel.pagingMap_same {dir phys flags : U32}
    (done : k.pagingMap dir phys virt flags = some k') :
    k'.currentPageDirectory = k.currentPageDirectory ∧ k'.frames = k.frames := by
  rw [Kernel.pagingMap] at done
  split at done
  · cases done
    exact ⟨rfl, rfl⟩
  · rcases mmAlloc 0x1000#32 k.mm with ⟨pt, mm⟩
    dsimp only at done
    split at done
    · cases done
    · cases done
      exact ⟨rfl, rfl⟩

/-- The record of the frames only grows. -/
theorem mapFresh_frames {dir flags : U32} (done : mapFresh dir flags n virt k = some k')
    (member : f ∈ k.frames) : f ∈ k'.frames := by
  induction n generalizing virt k with
  | zero =>
    cases done
    exact member
  | succ n ih =>
    obtain ⟨⟨phys, k₁⟩, allocated, done⟩ := bind_eq_some_iff.mp done
    obtain ⟨k₂, mapped, done⟩ := bind_eq_some_iff.mp done
    refine ih done ?_
    rw [(Kernel.pagingMap_same mapped).2, (Kernel.pageAlloc_step allocated).frames]
    exact mem_cons_of_mem _ member

/-- Mapping a run of pages through the current directory. -/
theorem mapEach_eq (n : Nat) (virt : U32) (k : Kernel) :
    mapEach ((List.range n).map (pageAbove virt)) k =
      mapFresh k.currentPageDirectory 7#32 n virt k := by
  induction n generalizing virt k with
  | zero => rfl
  | succ n ih =>
    have pages : (List.range (n + 1)).map (pageAbove virt) =
        virt :: (List.range n).map (pageAbove (virt + 0x1000#32)) := by
      rw [List.range_succ_eq_map, List.map_cons, List.map_map, pageAbove_zero]
      refine congrArg _ (List.map_congr_left fun j _ => ?_)
      rw [pageAbove_succ]
      rfl
    rw [pages, mapEach, mapFresh]
    refine Option.bind_congr fun page allocated => ?_
    have current := (Kernel.pageAlloc_step allocated).currentPd
    simp only [kPagingMap, current]
    refine Option.bind_congr fun k₂ mapped => ?_
    rw [ih, (Kernel.pagingMap_same mapped).1, current]

/-- Where the entry and the frames' bytes are the same, so is the byte. -/
theorem loadByte_congr (holds : UserSpace m) (holds' : UserSpace m') (user : UserAddress w)
    (sameRam : m'.ram = m.ram) (taken : ∀ f, FrameTaken m.kernel.mm f → FrameTaken m'.kernel.mm f)
    (same : walkEntry m'.kernel.currentPageDirectory w m'.kernel.mem =
      walkEntry m.kernel.currentPageDirectory w m.kernel.mem) :
    m'.loadByte w = m.loadByte w := by
  rw [loadByte_user user, loadByte_user user, sameRam]
  rcases holds.entry w user with unmapped | ⟨f, isTaken, entry⟩
  · rw [holds.physical_of_unmapped user unmapped,
      holds'.physical_of_unmapped user (same.trans unmapped)]
  · rw [holds.physical_of_entry user isTaken entry,
      holds'.physical_of_entry user (taken f isTaken) (same.trans entry)]

section Fresh

variable {m : ElfMachine} {k : Kernel} {n : Nat} {virt : U32} {fs : List U32}

/-- A frame that an entry shows is out. -/
theorem UserSpace.taken_of_entry (holds : UserSpace m) (user : UserAddress w)
    (aligned : f.toNat % 4096 = 0)
    (entry : walkEntry m.kernel.currentPageDirectory w m.kernel.mem = f ||| 7#32) :
    FrameTaken m.kernel.mm f := by
  rcases holds.entry w user with unmapped | ⟨g, taken, shown⟩
  · exact absurd (entry.symm.trans unmapped) (userEntry_ne_zero f)
  · rwa [← userEntry_inj taken.page.1 aligned (shown.symm.trans entry)]

/-- New pages share no frame, with each other or with a page from before. -/
theorem UserSpace.fresh_apart (holds : UserSpace m)
    (pages : FreshPages m.kernel.currentPageDirectory 7#32 n virt m.kernel k fs)
    (served : errNoMem ∉ k.frames) (userV : UserAddress v) (userW : UserAddress w)
    (taken : FrameTaken k.mm f) (atV : walkEntry m.kernel.currentPageDirectory v k.mem = f ||| 7#32)
    (atW : walkEntry m.kernel.currentPageDirectory w k.mem = f ||| 7#32) : pageOf v = pageOf w := by
  have isNew : ∀ {j g}, fs[j]? = some g → g ||| 7#32 = f ||| 7#32 → g = f :=
    fun found => userEntry_inj (pages.new_frame served found).2.page.1 taken.page.1
  rcases pages.entry_cases userV.low with ⟨i, g, foundV, pageV, entryV⟩ | sameV
  · cases isNew foundV (entryV.symm.trans atV)
    rcases pages.entry_cases userW.low with ⟨j, g, foundW, pageW, entryW⟩ | sameW
    · cases isNew foundW (entryW.symm.trans atW)
      have inside : i < fs.length := (List.getElem?_eq_some_iff.mp foundV).1
      have nodup := (pages.fresh (pages.no_error served)).1
      cases (List.getElem?_inj inside nodup).mp (foundV.trans foundW.symm)
      exact pageV.trans pageW.symm
    · have before := holds.taken_of_entry userW taken.page.1 (sameW.symm.trans atW)
      exact absurd before (pages.new_frame served foundV).1
  · have before := holds.taken_of_entry userV taken.page.1 (sameV.symm.trans atV)
    rcases pages.entry_cases userW.low with ⟨j, g, foundW, pageW, entryW⟩ | sameW
    · cases isNew foundW (entryW.symm.trans atW)
      exact absurd before (pages.new_frame served foundW).1
    · exact holds.apart v w f userV userW before (sameV.symm.trans atV) (sameW.symm.trans atW)

theorem UserSpace.fresh_space (holds : UserSpace m)
    (pages : FreshPages m.kernel.currentPageDirectory 7#32 n virt m.kernel k fs)
    (served : errNoMem ∉ k.frames) : UserSpace { m with kernel := k } := by
  have current := pages.currentPd
  constructor
  case shape =>
    rw [current]
    exact pages.shape
  case sweeping => exact pages.sweeping
  case slots =>
    rw [current]
    exact pages.present (by decide) holds.slots
  case entry =>
    intro v user
    rw [current]
    rcases pages.entry_cases user.low with ⟨j, f, found, _, entry⟩ | same
    · exact Or.inr ⟨f, (pages.new_frame served found).2, entry⟩
    · rw [same]
      exact (holds.entry v user).imp_right fun ⟨f, taken, entry⟩ =>
        ⟨f, pages.stillTaken f taken, entry⟩
  case apart =>
    intro v w f userV userW taken atV atW
    rw [current] at atV atW
    exact holds.fresh_apart pages served userV userW taken atV atW

/-- What mapping `n` fresh pages does to user memory: they are on frames that were
not out before, and every other page keeps its bytes. -/
structure NewPages (n : Nat) (virt : U32) (m : ElfMachine) (k : Kernel) : Prop where
  space : UserSpace { m with kernel := k }
  currentPd : k.currentPageDirectory = m.kernel.currentPageDirectory
  stillTaken : ∀ f, FrameTaken m.kernel.mm f → FrameTaken k.mm f
  fresh : ∀ w, UserAddress w → (∃ j < n, pageOf w = pageOf (pageAbove virt j)) →
    ∃ a, { m with kernel := k }.physical w = some a ∧ ¬ FrameTaken m.kernel.mm (pageOf a)
  kept : ∀ w, UserAddress w → (∀ j < n, pageOf w ≠ pageOf (pageAbove virt j)) →
    { m with kernel := k }.loadByte w = m.loadByte w

theorem UserSpace.mapFresh (holds : UserSpace m) (fits : virt.toNat + n * 0x1000 ≤ 0xFF800000)
    (done : mapFresh m.kernel.currentPageDirectory 7#32 n virt m.kernel = some k)
    (served : errNoMem ∉ k.frames) : NewPages n virt m k := by
  obtain ⟨fs, pages⟩ := mapFresh_spec holds.shape holds.sweeping (by decide) fits done
  have space := holds.fresh_space pages served
  have sameEntry : ∀ w, walkEntry k.currentPageDirectory w k.mem =
      walkEntry m.kernel.currentPageDirectory w k.mem := fun w => by rw [pages.currentPd]
  refine ⟨space, pages.currentPd, pages.stillTaken, fun w user inside => ?_,
    fun w user outside => ?_⟩
  · obtain ⟨j, below, samePage⟩ := inside
    obtain ⟨f, found, entry⟩ := pages.mapped_at user.low below samePage
    obtain ⟨wasFree, taken⟩ := pages.new_frame served found
    refine ⟨_, space.physical_of_entry user taken ((sameEntry w).trans entry), ?_⟩
    rw [pageOf_frame taken.page.1]
    exact wasFree
  · refine loadByte_congr holds space user rfl pages.stillTaken ?_
    exact (sameEntry w).trans (pages.others w user.low outside)

end Fresh

/-- What is mapped stays mapped. -/
theorem NewPages.stillMapped (new : NewPages n virt m k) (user : UserAddress w)
    (mapped : ∃ a, m.physical w = some a) :
    ∃ a, { m with kernel := k }.physical w = some a := by
  by_cases inside : ∃ j < n, pageOf w = pageOf (pageAbove virt j)
  · obtain ⟨a, found, _⟩ := new.fresh w user inside
    exact ⟨a, found⟩
  · obtain ⟨a, found⟩ := mapped
    have same := new.kept w user fun j below samePage => inside ⟨j, below, samePage⟩
    rw [loadByte_user user, loadByte_user user, found, map_some] at same
    obtain ⟨b, foundNow, _⟩ := map_eq_some_iff.mp same
    exact ⟨b, foundNow⟩

/-! ### Segments -/

/-- A segment that lies below the kernel's half, with its bytes in the file's buffer
in the kernel's half. -/
structure UserSegment (data : U32) (ph : Phdr) : Prop where
  below : ph.pVaddr.toNat + ph.pMemsz.toNat < 0xC0000000
  inKernel : 0xC0000000 ≤ (data + ph.pOffset).toNat
  sourceFits : (data + ph.pOffset).toNat + ph.pMemsz.toNat < 2 ^ 32

/-- The byte of the file at byte `j` of a segment. -/
def fileByte (window : U32 → BitVec 8) (data : U32) (ph : Phdr) (j : Nat) : BitVec 8 :=
  window (data + ph.pOffset + BitVec.ofNat 32 j)

/-- An address in a page the segment's loop maps. -/
def Maps (ph : Phdr) (w : U32) : Prop :=
  ∃ j < ph.pMemsz.toNat / 0x1000 + 1, pageOf w = pageOf (pageAbove ph.pVaddr j)

/-- An address of the segment. -/
def InSegment (ph : Phdr) (w : U32) : Prop :=
  ph.pVaddr.toNat ≤ w.toNat ∧ w.toNat < ph.pVaddr.toNat + ph.pMemsz.toNat

theorem UserSegment.inSegment (segment : UserSegment data ph) (inside : j < ph.pMemsz.toNat) :
    UserAddress (ph.pVaddr + BitVec.ofNat 32 j) ∧ InSegment ph (ph.pVaddr + BitVec.ofNat 32 j) := by
  have below := segment.below
  have address : (ph.pVaddr + BitVec.ofNat 32 j).toNat = ph.pVaddr.toNat + j :=
    toNat_add_ofNat (by omega)
  rw [UserAddress, InSegment, address]
  omega

/-- What one round of the loop leaves: `p_memsz` bytes of the file in the segment, in
the rest of the pages it mapped what their frames held, and elsewhere what was there. -/
structure SegmentLoaded (data : U32) (ph : Phdr) (m m' : ElfMachine) : Prop where
  space : UserSpace m'
  window : m'.window = m.window
  loaded : ∀ j < ph.pMemsz.toNat,
    m'.loadByte (ph.pVaddr + BitVec.ofNat 32 j) = some (fileByte m.window data ph j)
  kept : ∀ w, UserAddress w → ¬ InSegment ph w → ¬ Maps ph w → m'.loadByte w = m.loadByte w
  free : ∀ c, FreeHolds c m → FreeHolds c m' ∧
    ∀ w, UserAddress w → ¬ InSegment ph w → Maps ph w → m'.loadByte w = some c

/-- What is stored for a segment: zeros, and `p_memsz` bytes of the file over them. -/
def segmentStores (window : U32 → BitVec 8) (data : U32) (ph : Phdr) : List (U32 × BitVec 8) :=
  stretch ph.pVaddr ph.pMemsz.toNat (fun _ => 0#8) ++
    stretch ph.pVaddr ph.pMemsz.toNat (fileByte window data ph)

/-- A round of the loop: the pages are mapped, the file can be read, and the stores come to
their end. -/
theorem loadSegment_iff (segment : UserSegment data ph) :
    loadSegment data ph m = some m' ↔ ∃ kernel,
      mapFresh m.kernel.currentPageDirectory 7#32 (ph.pMemsz.toNat / 0x1000 + 1) ph.pVaddr
        m.kernel = some kernel ∧
      (∀ i < ph.pMemsz.toNat,
        ∃ a, { m with kernel }.physical (data + ph.pOffset + BitVec.ofNat 32 i) = some a) ∧
      storeAll (segmentStores m.window data ph) { m with kernel } = some m' := by
  have below := segment.below
  rw [loadSegment, segmentPages_eq (by omega), segmentStores, ← mapEach_eq]
  simp only [Option.bind_eq_bind, Option.bind_some, Option.bind_eq_some_iff, memset_eq,
    storeAll_append, memcpy_iff segment.inKernel segment.sourceFits]
  constructor
  · rintro ⟨kernel, mapped, cleared, set, readable, copied⟩
    obtain ⟨sameKernel, sameWindow⟩ := storeAll_same set
    simp only [physical_of_kernel sameKernel, sameWindow] at readable copied
    exact ⟨kernel, mapped, readable, cleared, set, copied⟩
  · rintro ⟨kernel, mapped, readable, cleared, set, copied⟩
    obtain ⟨sameKernel, sameWindow⟩ := storeAll_same set
    refine ⟨kernel, mapped, cleared, set, ?_⟩
    simp only [physical_of_kernel sameKernel, sameWindow]
    exact ⟨readable, copied⟩

theorem loadSegment_spec (holds : UserSpace m) (segment : UserSegment data ph)
    (done : loadSegment data ph m = some m') (served : errNoMem ∉ m'.kernel.frames) :
    SegmentLoaded data ph m m' := by
  have below := segment.below
  obtain ⟨kernel, mapped, _, done⟩ := (loadSegment_iff segment).mp done
  obtain ⟨sameKernel, sameWindow⟩ := storeAll_same done
  rw [sameKernel] at served
  have new := holds.mapFresh (by omega) mapped served
  -- the file's bytes cover the zeros
  have byte : ∀ w, UserAddress w →
      (InSegment ph w → m'.loadByte w =
        some (fileByte m.window data ph (w.toNat - ph.pVaddr.toNat))) ∧
      (¬ InSegment ph w → m'.loadByte w = { m with kernel }.loadByte w) := by
    intro w user
    rw [segmentStores, storeAll_append] at done
    obtain ⟨cleared, set, copied⟩ := bind_eq_some_iff.mp done
    rw [stretch_spec (new.space.ofRam (storeAll_same set).1) (by omega) copied w user,
      stretch_spec new.space (by omega) set w user]
    exact ⟨fun inside => if_pos inside, fun outside => (if_neg outside).trans (if_neg outside)⟩
  refine ⟨new.space.ofRam sameKernel, sameWindow, fun j inside => ?_,
    fun w user outside notMapped => ?_, fun c free => ⟨?_, fun w user outside isMapped => ?_⟩⟩
  · obtain ⟨user, isInside⟩ := segment.inSegment inside
    have address : (ph.pVaddr + BitVec.ofNat 32 j).toNat = ph.pVaddr.toNat + j :=
      toNat_add_ofNat (by omega)
    rw [(byte _ user).1 isInside, address, Nat.add_sub_cancel_left]
  · rw [(byte w user).2 outside]
    exact new.kept w user fun j below samePage => notMapped ⟨j, below, samePage⟩
  · have mappedFree : FreeHolds c { m with kernel } := fun a notTaken =>
      free a fun taken => notTaken (new.stillTaken _ taken)
    exact (storeAll_keeps storeByte_free done ⟨new.space, mappedFree⟩).2
  · obtain ⟨a, found, wasFree⟩ := new.fresh w user isMapped
    rw [(byte w user).2 outside, loadByte_user user, found, map_some]
    exact congrArg some (free a wasFree)

/-- The record of the frames only grows. -/
theorem loadSegment_frames (segment : UserSegment data ph) (done : loadSegment data ph m = some m')
    (member : f ∈ m.kernel.frames) : f ∈ m'.kernel.frames := by
  obtain ⟨kernel, mapped, _, done⟩ := (loadSegment_iff segment).mp done
  rw [(storeAll_same done).1]
  exact mapFresh_frames mapped member

theorem loadSegments_frames (segments : ∀ ph ∈ phdrs, UserSegment data ph)
    (done : loadSegments data phdrs m = some m') (member : f ∈ m.kernel.frames) :
    f ∈ m'.kernel.frames := by
  induction phdrs generalizing m with
  | nil =>
    cases done
    exact member
  | cons ph phdrs ih =>
    obtain ⟨m₁, first, done⟩ := bind_eq_some_iff.mp done
    obtain ⟨segment, others⟩ := forall_mem_cons.mp segments
    exact ih others done (loadSegment_frames segment first member)

theorem loadSegments_append (before after : List Phdr) (m : ElfMachine) :
    loadSegments data (before ++ after) m =
      (loadSegments data before m).bind (loadSegments data after) := by
  induction before generalizing m with
  | nil => rfl
  | cons ph before ih =>
    rw [List.cons_append, loadSegments, loadSegments, Option.bind_eq_bind, Option.bind_assoc]
    exact Option.bind_congr fun m₁ _ => ih m₁

/-- What the whole loop leaves of an address that lies in none of the segments. -/
structure SegmentsLoaded (phdrs : List Phdr) (m m' : ElfMachine) : Prop where
  space : UserSpace m'
  window : m'.window = m.window
  kept : ∀ w, UserAddress w → (∀ ph ∈ phdrs, ¬ InSegment ph w ∧ ¬ Maps ph w) →
    m'.loadByte w = m.loadByte w
  free : ∀ c, FreeHolds c m → FreeHolds c m' ∧ ∀ w, UserAddress w →
    (∀ ph ∈ phdrs, ¬ InSegment ph w) → (∃ ph ∈ phdrs, Maps ph w) → m'.loadByte w = some c

theorem loadSegments_spec (holds : UserSpace m) (segments : ∀ ph ∈ phdrs, UserSegment data ph)
    (done : loadSegments data phdrs m = some m') (served : errNoMem ∉ m'.kernel.frames) :
    SegmentsLoaded phdrs m m' := by
  induction phdrs generalizing m with
  | nil =>
    cases done
    exact ⟨holds, rfl, fun _ _ _ => rfl, fun c free => ⟨free, by simp⟩⟩
  | cons ph phdrs ih =>
    obtain ⟨m₁, loaded, done⟩ := bind_eq_some_iff.mp done
    obtain ⟨segment, others⟩ := forall_mem_cons.mp segments
    have first := loadSegment_spec holds segment loaded
      fun member => served (loadSegments_frames others done member)
    have rest := ih first.space others done
    refine ⟨rest.space, rest.window.trans first.window, fun w user outside => ?_,
      fun c free => ?_⟩
    · obtain ⟨here, later⟩ := forall_mem_cons.mp outside
      rw [rest.kept w user later, first.kept w user here.1 here.2]
    · obtain ⟨free₁, replaced⟩ := first.free c free
      obtain ⟨free', replacedLater⟩ := rest.free c free₁
      refine ⟨free', fun w user outside isMapped => ?_⟩
      obtain ⟨here, later⟩ := forall_mem_cons.mp outside
      by_cases again : ∃ ph ∈ phdrs, Maps ph w
      · exact replacedLater w user later again
      · have notAgain : ∀ ph ∈ phdrs, ¬ InSegment ph w ∧ ¬ Maps ph w :=
          fun ph member => ⟨later ph member, fun maps => again ⟨ph, member, maps⟩⟩
        have maps : Maps ph w := by
          obtain ⟨other, member, maps⟩ := isMapped
          rcases mem_cons.mp member with rfl | inRest
          · exact maps
          · exact absurd ⟨other, inRest, maps⟩ again
        rw [rest.kept w user notAgain, replaced w user here maps]

/-- Whether the loop comes to its end is not up to what the frames hold. -/
theorem loadSegment_anyRam {n : ElfMachine} (segment : UserSegment data ph)
    (done : loadSegment data ph m = some m') (same : n.kernel = m.kernel)
    (sameWindow : n.window = m.window) :
    ∃ n', loadSegment data ph n = some n' ∧ n'.kernel = m'.kernel ∧ n'.window = m'.window := by
  obtain ⟨kernel, mapped, readable, done⟩ := (loadSegment_iff segment).mp done
  have writable := storeAll_returns_iff.mp ⟨m', done⟩
  obtain ⟨n', doneN⟩ :
      ∃ n', storeAll (segmentStores n.window data ph) { n with kernel } = some n' :=
    storeAll_returns_iff.mpr fun s member =>
      (writable_of_kernel rfl _).mpr (writable s (sameWindow ▸ member))
  obtain ⟨sameM, windowM⟩ := storeAll_same done
  obtain ⟨sameN, windowN⟩ := storeAll_same doneN
  refine ⟨n', (loadSegment_iff segment).mpr ⟨kernel, by rw [same, mapped], ?_, doneN⟩,
    sameN.trans sameM.symm, windowN.trans (sameWindow.trans windowM.symm)⟩
  exact fun i inside => readable i inside

theorem loadSegments_anyRam {n : ElfMachine} (segments : ∀ ph ∈ phdrs, UserSegment data ph)
    (done : loadSegments data phdrs m = some m') (same : n.kernel = m.kernel)
    (sameWindow : n.window = m.window) :
    ∃ n', loadSegments data phdrs n = some n' ∧ n'.kernel = m'.kernel := by
  induction phdrs generalizing m n with
  | nil =>
    cases done
    exact ⟨n, rfl, same⟩
  | cons ph phdrs ih =>
    obtain ⟨segment, others⟩ := forall_mem_cons.mp segments
    obtain ⟨m₁, loaded, done⟩ := bind_eq_some_iff.mp done
    obtain ⟨n₁, loadedN, same₁, window₁⟩ := loadSegment_anyRam segment loaded same sameWindow
    obtain ⟨n', doneN, same'⟩ := ih others done same₁ window₁
    exact ⟨n', bind_eq_some_iff.mpr ⟨n₁, loadedN, doneN⟩, same'⟩

/-! ### The image -/

/-- No byte is in both segments. -/
def SegmentsDisjoint (ph other : Phdr) : Prop :=
  ∀ w, ¬ (InSegment ph w ∧ InSegment other w)

/-- No byte of the first segment is in a page the loop maps for the second. -/
def PagesApart (ph later : Phdr) : Prop :=
  ∀ w, InSegment ph w → ¬ Maps later w

/-- A byte of a segment whose page no later segment maps is the file's. -/
theorem loadSegments_byte (holds : UserSpace m)
    (segments : ∀ other ∈ before ++ ph :: after, UserSegment data other)
    (disjoint : ∀ later ∈ after, SegmentsDisjoint ph later)
    (apart : ∀ later ∈ after, PagesApart ph later)
    (done : loadSegments data (before ++ ph :: after) m = some m')
    (served : errNoMem ∉ m'.kernel.frames) (inside : j < ph.pMemsz.toNat) :
    m'.loadByte (ph.pVaddr + BitVec.ofNat 32 j) = some (fileByte m.window data ph j) := by
  obtain ⟨earlier, others⟩ := forall_mem_append.mp segments
  obtain ⟨segment, later⟩ := forall_mem_cons.mp others
  rw [loadSegments_append] at done
  obtain ⟨m₁, doneBefore, done⟩ := bind_eq_some_iff.mp done
  obtain ⟨m₂, loaded, doneAfter⟩ := bind_eq_some_iff.mp done
  have served₂ : errNoMem ∉ m₂.kernel.frames :=
    fun member => served (loadSegments_frames later doneAfter member)
  have served₁ : errNoMem ∉ m₁.kernel.frames :=
    fun member => served₂ (loadSegment_frames segment loaded member)
  have first := loadSegments_spec holds earlier doneBefore served₁
  have own := loadSegment_spec first.space segment loaded served₂
  have rest := loadSegments_spec own.space later doneAfter served
  obtain ⟨user, isInside⟩ := segment.inSegment inside
  rw [rest.kept _ user fun other member =>
      ⟨fun both => disjoint other member _ ⟨isInside, both⟩, apart other member _ isInside⟩,
    own.loaded j inside, first.window]

/-- A byte in a page that a later segment's loop maps is lost. -/
theorem loadSegments_replaced (holds : UserSpace m) (free : FreeHolds c m)
    (segments : ∀ other ∈ before ++ after, UserSegment data other) (user : UserAddress w)
    (outside : ∀ later ∈ after, ¬ InSegment later w) (isMapped : ∃ later ∈ after, Maps later w)
    (done : loadSegments data (before ++ after) m = some m') (served : errNoMem ∉ m'.kernel.frames) :
    m'.loadByte w = some c := by
  obtain ⟨earlier, later⟩ := forall_mem_append.mp segments
  rw [loadSegments_append] at done
  obtain ⟨m₁, doneBefore, doneAfter⟩ := bind_eq_some_iff.mp done
  have first := loadSegments_spec holds earlier doneBefore
    fun member => served (loadSegments_frames later doneAfter member)
  have rest := loadSegments_spec first.space later doneAfter served
  exact (rest.free c (first.free c free).1).2 w user outside isMapped

/-- The byte the file's image has at byte `j` of a segment. -/
def imageByte (window : U32 → BitVec 8) (data : U32) (ph : Phdr) (j : Nat) : BitVec 8 :=
  if j < ph.pFilesz.toNat then fileByte window data ph j else 0#8

/-- Memory holds the image of every segment. -/
def ImageLoaded (window : U32 → BitVec 8) (data : U32) (phdrs : List Phdr) (m : ElfMachine) :
    Prop :=
  ∀ ph ∈ phdrs, ∀ j < ph.pMemsz.toNat,
    m.loadByte (ph.pVaddr + BitVec.ofNat 32 j) = some (imageByte window data ph j)

/-- What the file holds behind the `p_filesz` bytes of a segment, up to `p_memsz`, is
zero. -/
def ZeroBehind (window : U32 → BitVec 8) (data : U32) (ph : Phdr) : Prop :=
  ∀ j, ph.pFilesz.toNat ≤ j → j < ph.pMemsz.toNat → fileByte window data ph j = 0#8

/-- With the page of every byte left alone by the later headers, the loop copies
`p_memsz` bytes of the file, so the image is right where the file has zeros. -/
theorem imageLoaded_iff_zeroBehind (holds : UserSpace m)
    (segments : ∀ ph ∈ phdrs, UserSegment data ph) (disjoint : phdrs.Pairwise SegmentsDisjoint)
    (apart : phdrs.Pairwise PagesApart) (done : loadSegments data phdrs m = some m')
    (served : errNoMem ∉ m'.kernel.frames) :
    ImageLoaded m.window data phdrs m' ↔ ∀ ph ∈ phdrs, ZeroBehind m.window data ph := by
  have byte : ∀ ph ∈ phdrs, ∀ j < ph.pMemsz.toNat,
      m'.loadByte (ph.pVaddr + BitVec.ofNat 32 j) = some (fileByte m.window data ph j) := by
    intro ph member j inside
    obtain ⟨before, after, rfl⟩ := append_of_mem member
    have disjointLater := (pairwise_cons.mp (pairwise_append.mp disjoint).2.1).1
    have apartLater := (pairwise_cons.mp (pairwise_append.mp apart).2.1).1
    exact loadSegments_byte holds segments disjointLater apartLater done served inside
  constructor
  · intro right ph member j behind inside
    have expected := right ph member j inside
    rw [byte ph member j inside, imageByte, if_neg (by omega), Option.some.injEq] at expected
    exact expected
  · intro zero ph member j inside
    rw [byte ph member j inside, imageByte]
    split
    · rfl
    · rename_i behind
      rw [zero ph member j (by omega) inside]

/-- If the image is right whatever the free frames hold, no later header's loop maps
the page of a segment's byte. -/
theorem pagesApart_of_imageLoaded {final : ElfMachine} (holds : UserSpace m)
    (segments : ∀ ph ∈ phdrs, UserSegment data ph) (disjoint : phdrs.Pairwise SegmentsDisjoint)
    (finished : loadSegments data phdrs m = some final) (served : errNoMem ∉ final.kernel.frames)
    (right : ∀ ram m', loadSegments data phdrs { m with ram } = some m' →
      ImageLoaded m.window data phdrs m') : phdrs.Pairwise PagesApart := by
  refine pairwise_iff_forall_sublist.mpr fun {ph later} order => ?_
  obtain ⟨before, after, rfl, inBefore, inAfter⟩ := cons_sublist_iff.mp order
  rw [singleton_sublist] at inAfter
  intro w isInside maps
  have apart := (pairwise_append.mp disjoint).2.2
  have segment := segments ph (mem_append_left _ inBefore)
  -- the byte `w` holds whatever the frames held before
  have replaced : ∀ c : BitVec 8, ∀ m', loadSegments data (before ++ after)
      { m with ram := fun _ => c } = some m' → errNoMem ∉ m'.kernel.frames →
      m'.loadByte w = some c := by
    intro c m' done served'
    have filled : UserSpace { m with ram := fun _ => c } := holds.ofRam rfl
    refine loadSegments_replaced filled (fun _ _ => rfl) segments ?_ ?_
      ⟨later, inAfter, maps⟩ done served'
    · have below := segment.below
      have upper := isInside.2
      rw [UserAddress]
      omega
    · exact fun other member both => apart ph inBefore other member w ⟨isInside, both⟩
  obtain ⟨lower, upper⟩ := isInside
  have address : ph.pVaddr + BitVec.ofNat 32 (w.toNat - ph.pVaddr.toNat) = w := by
    apply eq_of_toNat_eq
    rw [toNat_add, toNat_ofNat]
    omega
  have isByte : ∀ c : BitVec 8,
      c = imageByte m.window data ph (w.toNat - ph.pVaddr.toNat) := by
    intro c
    obtain ⟨m', done, same⟩ := loadSegments_anyRam (n := { m with ram := fun _ => c }) segments
      finished rfl rfl
    have expected := right _ m' done ph (mem_append_left _ inBefore)
      (w.toNat - ph.pVaddr.toNat) (by omega)
    rw [address, replaced c m' done (by rw [same]; exact served), Option.some.injEq] at expected
    exact expected
  exact absurd ((isByte 0#8).trans (isByte 1#8).symm) (by decide)

/-! ### The directory of the new process -/

/-- A kernel that can start a program: `mm_alloc` hands out fresh zeroed pages, and
the page allocator is as `k_mm_init` and `k_page_alloc` leave it. -/
structure KernelReady (k : Kernel) : Prop where
  fresh : FreshHeap k.mm k.mem
  sweeping : Sweeping k.mm

/-- The first 4 MB of the kernel's half can be read. -/
def KernelMapped (m : ElfMachine) : Prop :=
  ∀ v : U32, 0xC0000000 ≤ v.toNat → v.toNat < 0xC0400000 → ∃ a, m.physical v = some a

theorem physical_of_present
    (present : (effective m.kernel.currentPageDirectory v m.kernel.mem).present = true) :
    ∃ a, m.physical v = some a := by
  simp only [ElfMachine.physical, present, if_true]
  exact ⟨_, rfl⟩

/-- Before the segment loop nothing is mapped below the kernel's half, and the
kernel's window is. -/
theorem elfPrepare_spec (ready : KernelReady m₀.kernel) (prepared : elfPrepare m₀ = some m) :
    UserSpace m ∧ KernelMapped m ∧ m.window = m₀.window ∧
      m.kernel.frames = m₀.kernel.frames := by
  obtain ⟨⟨pd, created⟩, create, prepared⟩ := bind_eq_some_iff.mp prepared
  obtain ⟨built, mapKernel, prepared⟩ := bind_eq_some_iff.mp prepared
  cases prepared
  obtain ⟨fs, space⟩ := kCreatePagedir_spec ready.fresh ready.sweeping (by decide) (by decide)
    create
  have window := kMapKernelLoop_spec space.shape (by decide) (by decide) mapKernel
  have noFrames : fs = [] := length_eq_zero_iff.mp space.length
  have slots : SlotsPresent pd built.mem := window.present (space.present (by decide))
  have unmapped : ∀ v, UserAddress v → walkEntry pd v built.mem = 0#32 := by
    intro v user
    rw [window.others v user]
    exact space.unmapped v user.low fun j below => absurd below (Nat.not_lt_zero j)
  have shape : DirShape pd (kSwapPd pd built) :=
    window.shape.mono window.shape.window (Nat.le_refl _) window.shape.zeroed fun _ _ => rfl
  refine ⟨⟨shape, space.sweeping.of_bitmaps window.bitmaps.1, slots,
    fun v user => Or.inl (unmapped v user), fun v w f userV _ _ atV _ => ?_⟩,
    fun v lower upper => ?_, rfl, ?_⟩
  · exact absurd (atV.symm.trans (unmapped v userV)) (userEntry_ne_zero f)
  · have place : (v.toNat - 0xC0000000) / 0x1000 < 0x400 := by omega
    have address : (pageAbove 0#32 ((v.toNat - 0xC0000000) / 0x1000) + kernelVirt).toNat =
        (v.toNat - 0xC0000000) / 0x1000 * 0x1000 + 0xC0000000 := by
      rw [toNat_add, toNat_pageAbove (by rw [toNat_ofNat]; omega), kernelVirt,
        toNat_ofNat, toNat_ofNat]
      omega
    have samePage : pageOf v =
        pageOf (pageAbove 0#32 ((v.toNat - 0xC0000000) / 0x1000) + kernelVirt) := by
      rw [pageOf_eq_iff_index, pageIndex, pageIndex, address]
      omega
    have entry := window.mapped _ place
    rw [← walkEntry_of_page _ samePage] at entry
    refine physical_of_present ?_
    show (effective pd v built.mem).present = true
    rw [window.shape.present_iff slots (lowSlot_of_lt (by omega)), entry, getLsbD_or]
    simp
  · show built.frames = m₀.kernel.frames
    rw [window.frames, space.frames, noFrames]
    rfl

/-- `elf_load` gets to the segment loop with room for a directory and a table. -/
theorem elfPrepare_returns (ready : KernelReady m₀.kernel) (few : n ≤ 1024)
    (plenty : Plenty region n (spare + 2) m₀.kernel) :
    ∃ m, elfPrepare m₀ = some m ∧ Plenty region n spare m.kernel := by
  obtain ⟨pd, created, built, create, mapKernel, left⟩ := address_space_returns 0#32 0#32 7#32
    ready.fresh (by decide) (by decide) few
    (by rwa [toNat_ofNat, Nat.zero_mod, Nat.zero_add])
  refine ⟨{ m₀ with kernel := kSwapPd pd built }, ?_, ?_⟩
  · rw [elfPrepare, create, bind_eq_bind, bind_some]
    dsimp only
    rw [mapKernel]
    rfl
  · exact ⟨left.swept, left.positive, left.inRegion, left.room, left.served⟩

/-! ### With room the loop comes to its end -/

/-- Mapping user pages leaves the kernel's window mapped. -/
theorem KernelMapped.mapFresh (mapped : KernelMapped m) (holds : UserSpace m)
    (fits : virt.toNat + n * 0x1000 ≤ 0xFF800000)
    (user : ∀ j < n, virt.toNat + j * 0x1000 < 0xC0000000)
    (done : mapFresh m.kernel.currentPageDirectory 7#32 n virt m.kernel = some k) :
    KernelMapped { m with kernel := k } := by
  intro v lower upper
  obtain ⟨fs, pages⟩ := mapFresh_spec holds.shape holds.sweeping (by decide) fits done
  have low : LowSlot v := lowSlot_of_lt (by omega)
  obtain ⟨a, found⟩ := mapped v lower upper
  have present : (effective m.kernel.currentPageDirectory v m.kernel.mem).present = true := by
    by_contra absent
    simp only [ElfMachine.physical, if_neg absent] at found
    cases found
  rw [holds.shape.present_iff holds.slots low] at present
  have otherPage : ∀ j < n, pageOf v ≠ pageOf (pageAbove virt j) := by
    intro j below
    have place := user j below
    rw [Ne, pageOf_eq_iff_index, pageIndex, pageIndex, toNat_pageAbove (by omega)]
    omega
  refine physical_of_present ?_
  rw [pages.currentPd, pages.shape.present_iff (pages.present (by decide) holds.slots) low,
    pages.others v low otherPage, present]

/-- The loop maps the page of every byte of a segment that ends in its own pages. -/
theorem maps_of_inSegment (fits : ph.pVaddr.toNat + ph.pMemsz.toNat < 0xC0000000)
    (covered : ph.pVaddr.toNat % 0x1000 + ph.pMemsz.toNat % 0x1000 ≤ 0x1000)
    (inside : InSegment ph w) : Maps ph w := by
  obtain ⟨lower, upper⟩ := inside
  refine ⟨w.toNat / 0x1000 - ph.pVaddr.toNat / 0x1000, by omega, ?_⟩
  rw [pageOf_eq_iff_index, pageIndex_pageAbove (by omega), pageIndex, pageIndex]
  omega

/-- A segment that ends in its own pages, its bytes in the kernel's first 4 MB, is
loaded as long as the allocators have enough left. -/
theorem loadSegment_returns (holds : UserSpace m) (mapped : KernelMapped m)
    (segment : UserSegment data ph)
    (covered : ph.pVaddr.toNat % 0x1000 + ph.pMemsz.toNat % 0x1000 ≤ 0x1000)
    (source : (data + ph.pOffset).toNat + ph.pMemsz.toNat ≤ 0xC0400000)
    (few : n + (ph.pMemsz.toNat / 0x1000 + 1) ≤ 1024)
    (plenty : Plenty region n (ph.pMemsz.toNat / 0x1000 + 1 + spare) m.kernel) :
    ∃ m', loadSegment data ph m = some m' ∧
      Plenty region (n + (ph.pMemsz.toNat / 0x1000 + 1)) spare m'.kernel := by
  have below := segment.below
  have inKernel := segment.inKernel
  obtain ⟨kernel, done, left⟩ := mapFresh_returns 7#32 ph.pVaddr holds.shape.window
    plenty few
  have new := holds.mapFresh (by omega) done left.served
  have window := mapped.mapFresh holds (by omega) (fun j below => by omega) done
  have writable : ∀ i < ph.pMemsz.toNat,
      Writable { m with kernel } (ph.pVaddr + BitVec.ofNat 32 i) := by
    intro i inside
    obtain ⟨user, isInside⟩ := segment.inSegment inside
    obtain ⟨a, found, _⟩ := new.fresh _ user (maps_of_inSegment below covered isInside)
    exact ⟨user, a, found⟩
  obtain ⟨m', stored⟩ := storeAll_returns_iff.mpr (forall_mem_append.mpr
    ⟨writable_stretch.mpr writable, writable_stretch.mpr writable⟩)
  refine ⟨m', (loadSegment_iff segment).mpr ⟨kernel, done, fun i inside => ?_, stored⟩, ?_⟩
  · have address : (data + ph.pOffset + BitVec.ofNat 32 i).toNat = (data + ph.pOffset).toNat + i :=
      toNat_add_ofNat (by omega)
    exact window _ (by omega) (by omega)
  · rw [(storeAll_same stored).1]
    exact left

/-- The kernel right after `k_mm_init`. -/
theorem ready_kernel : ∃ k, KernelReady k ∧ Plenty 1 1 64 k := by
  obtain ⟨mm, init, swept, heap, heapMax⟩ := boot_mm
  have fresh : FreshHeap mm (fun _ => 0#32) :=
    ⟨kMmInit_heapWindow (by decide) (by decide) (by decide) init, fun _ _ => rfl⟩
  have room : HeapRoom mm 64 := by
    rw [HeapRoom, heap, heapMax]
    decide
  let k : Kernel :=
    { mm, mem := fun _ => 0#32, kernelPageDirectory := 0xC0101000#32,
      currentPageDirectory := 0xC0101000#32, frames := [] }
  exact ⟨k, ⟨fresh, 1, by decide, swept.current⟩, swept, by decide, by decide, room,
    not_mem_nil⟩

/-! ### The loaded image is the file's -/

/-- After the segment loop memory holds the image the headers describe, whatever the
free frames held, exactly when no later header's loop maps the page of a byte of an
earlier segment, and the file has zeros between `p_filesz` and `p_memsz`. -/
theorem image_is_file_image_iff {data : U32} {phdrs : List Phdr} {m₀ m final : ElfMachine}
    (ready : KernelReady m₀.kernel) (prepared : elfPrepare m₀ = some m)
    (segments : ∀ ph ∈ phdrs, UserSegment data ph) (disjoint : phdrs.Pairwise SegmentsDisjoint)
    (finished : loadSegments data phdrs m = some final)
    (served : errNoMem ∉ final.kernel.frames) :
    (∀ ram m', loadSegments data phdrs { m with ram } = some m' →
      ImageLoaded m₀.window data phdrs m') ↔
      phdrs.Pairwise PagesApart ∧ ∀ ph ∈ phdrs, ZeroBehind m₀.window data ph := by
  obtain ⟨space, _, window, _⟩ := elfPrepare_spec ready prepared
  rw [← window]
  constructor
  · intro right
    have apart := pagesApart_of_imageLoaded space segments disjoint finished served right
    refine ⟨apart, ?_⟩
    exact (imageLoaded_iff_zeroBehind space segments disjoint apart finished served).mp
      (right m.ram final finished)
  · rintro ⟨apart, zero⟩ ram m' done
    have filled : UserSpace { m with ram } := space.ofRam rfl
    obtain ⟨n', same, sameKernel⟩ := loadSegments_anyRam (n := { m with ram }) segments finished rfl
      rfl
    cases done.symm.trans same
    rw [← sameKernel] at served
    exact (imageLoaded_iff_zeroBehind filled segments disjoint apart done served).mpr zero

/-- A header for the first two bytes of the file. -/
def twoBytes (filesz : U32) : Phdr :=
  { pOffset := 0#32, pVaddr := 0x8048000#32, pFilesz := filesz, pMemsz := 2#32 }

/-- The file with that header. -/
def twoByteFile (filesz : U32) : U32 → BitVec 8 :=
  fileWindow 0xC0200000#32 (elfBytes 0x8048000#32 [twoBytes filesz])

theorem twoBytes_segment (filesz : U32) : UserSegment 0xC0200000#32 (twoBytes filesz) :=
  ⟨by show (0x8048000 : Nat) + 2 < _; decide, by show _ ≤ (0xC0200000#32 + 0#32).toNat; decide,
    by show (0xC0200000#32 + 0#32).toNat + 2 < _; decide⟩

/-- It is loaded. -/
theorem twoByteFile_loads (filesz : U32) : ∃ m₀ m final : ElfMachine,
    KernelReady m₀.kernel ∧ m₀.window = twoByteFile filesz ∧ elfPrepare m₀ = some m ∧
      loadSegments 0xC0200000#32 [twoBytes filesz] m = some final ∧ Plenty 1 2 61 final.kernel := by
  obtain ⟨k, ready, plenty⟩ := ready_kernel
  let m₀ : ElfMachine := { kernel := k, ram := fun _ => 0#8, window := twoByteFile filesz }
  have returns : ∃ m, elfPrepare m₀ = some m ∧ Plenty 1 1 62 m.kernel :=
    elfPrepare_returns ready (by decide) plenty
  obtain ⟨m, prepared, left⟩ := returns
  obtain ⟨space, mapped, _, _⟩ := elfPrepare_spec ready prepared
  have onePage : (twoBytes filesz).pMemsz.toNat / 0x1000 + 1 = 1 := by
    show (2#32 : U32).toNat / 0x1000 + 1 = 1
    decide
  have enough : Plenty 1 1 ((twoBytes filesz).pMemsz.toNat / 0x1000 + 1 + 61) m.kernel := by
    rwa [onePage]
  obtain ⟨final, loaded, rest⟩ := loadSegment_returns space mapped (twoBytes_segment filesz)
    (by show 0x8048000 % 0x1000 + 2 % 0x1000 ≤ 0x1000; decide)
    (by show (0xC0200000#32 + 0#32).toNat + 2 ≤ _; decide) (by rw [onePage]; decide) enough
  rw [onePage] at rest
  refine ⟨m₀, m, final, ready, rfl, prepared, ?_, rest⟩
  exact bind_eq_some_iff.mpr ⟨final, loaded, rfl⟩

theorem twoBytes_segments (filesz : U32) :
    ∀ ph ∈ [twoBytes filesz], UserSegment 0xC0200000#32 ph := by
  rintro ph (_ | ⟨_, ⟨⟩⟩)
  exact twoBytes_segment filesz

/-- With both bytes from the file the image is the file's. -/
theorem two_bytes_loaded : ∃ m₀ m final : ElfMachine,
    elfPhdrs m₀.window 0xC0200000#32 = some [twoBytes 2#32] ∧ elfPrepare m₀ = some m ∧
      loadSegments 0xC0200000#32 [twoBytes 2#32] m = some final ∧
      ImageLoaded m₀.window 0xC0200000#32 [twoBytes 2#32] final := by
  obtain ⟨m₀, m, final, ready, file, prepared, finished, left⟩ := twoByteFile_loads 2#32
  have zero : ∀ ph ∈ [twoBytes 2#32], ZeroBehind m₀.window 0xC0200000#32 ph := by
    rintro ph (_ | ⟨_, ⟨⟩⟩) j behind inside
    exact absurd inside (Nat.not_lt_of_le behind)
  refine ⟨m₀, m, final, by rw [file]; decide +kernel, prepared, finished, ?_⟩
  exact (image_is_file_image_iff ready prepared (twoBytes_segments 2#32)
    (pairwise_singleton _ _) finished left.served).mpr
    ⟨pairwise_singleton _ _, zero⟩ m.ram final finished

/-- With one byte from the file and one to be cleared, the second holds the file's
next byte, the `E` of the magic number. -/
theorem byte_behind_file_not_cleared :
    ¬ ∀ (data : U32) (phdrs : List Phdr) (m₀ m final : ElfMachine), KernelReady m₀.kernel →
      elfPhdrs m₀.window data = some phdrs → elfPrepare m₀ = some m →
      (∀ ph ∈ phdrs, UserSegment data ph) → (∀ ph ∈ phdrs, ph.pFilesz ≤ ph.pMemsz) →
      phdrs.Pairwise SegmentsDisjoint → loadSegments data phdrs m = some final →
      errNoMem ∉ final.kernel.frames → ImageLoaded m₀.window data phdrs final := by
  intro always
  obtain ⟨m₀, m, final, ready, file, prepared, finished, left⟩ := twoByteFile_loads 1#32
  have right := always _ _ m₀ m final ready (by rw [file]; decide +kernel) prepared
    (twoBytes_segments 1#32) (by decide) (pairwise_singleton _ _) finished left.served
  obtain ⟨space, _, window, _⟩ := elfPrepare_spec ready prepared
  rw [← window] at right file
  have zero := (imageLoaded_iff_zeroBehind space (twoBytes_segments 1#32)
    (pairwise_singleton _ _) (pairwise_singleton _ _) finished left.served).mp right
  have clear := zero _ (mem_singleton_self _) 1 (by decide) (by decide)
  rw [file] at clear
  exact absurd clear (by decide +kernel)

end Crunchy
