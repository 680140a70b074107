/-
Module: Crunchy.Proofs.PageCopy
Purpose: What `page_copy` copies. The loop moves to the next page before it uses the
  page, so the first page of the range is left out and the page behind the range is
  copied instead.
Trusted boundary: none
Main exports: CopyRound, copyAll, pageCopy_eq, CopiesRange, page_copy_copies_iff
-/
import Crunchy.Mem.PageCopy
import Mathlib.Data.List.Nodup
import Mathlib.Tactic.NormNum

namespace Crunchy

open Lib BitVec Option List

variable {frames' : FrameBytes} {fuel i k l o off q sz : Nat} {g n s : U32}

/-! ### The rounds of the loop -/

/-- One round: the page that is looked up, and the bytes of it that are copied. -/
structure CopyRound where
  va : U32
  off : Nat
  cp : Nat

/-- `off` in round `k`. -/
def chunkOff (off k : Nat) : Nat := if k = 0 then off else 0

/-- `cp` for `sz` bytes left and the offset `off`. -/
def chunkLen (sz off : Nat) : Nat := if 0x1000 ≤ sz then 0x1000 - off else sz

/-- `sz` before round `k`. -/
def bytesLeft (n off : Nat) : Nat → Nat
  | 0 => n
  | k + 1 => bytesLeft n off k - chunkLen (bytesLeft n off k) (chunkOff off k)

/-- The page of `virt`, `k` pages on. -/
def pageAt (virt : U32) (k : Nat) : U32 := pageOf virt + BitVec.ofNat 32 (0x1000 * k)

/-- Round `k` of `page_copy(dest, src, virt, n)`. -/
def roundAt (virt : U32) (n k : Nat) : CopyRound where
  va := pageAt virt (k + 1)
  off := chunkOff (virt.toNat % 0x1000) k
  cp := chunkLen (bytesLeft n (virt.toNat % 0x1000) k) (chunkOff (virt.toNat % 0x1000) k)

/-- The number of rounds. -/
def roundCount (n : Nat) : Nat := (n + 0xFFF) / 0x1000

variable {dest src : U32 → U32}

/-- Make the rounds in order, until a page is missing. -/
def copyAll (dest src : U32 → U32) : List CopyRound → FrameBytes → Option FrameBytes
  | [], frames => some frames
  | round :: rest, frames =>
    if src round.va = 0#32 then some frames
    else if dest round.va = 0#32 then some frames
    else (copyFrame (dest round.va) (src round.va) round.off round.cp frames).bind
      (copyAll dest src rest)

theorem chunkOff_lt (virt : U32) (k : Nat) : chunkOff (virt.toNat % 0x1000) k < 0x1000 := by
  rw [chunkOff]
  split <;> omega

theorem chunkLen_le : chunkLen sz off ≤ sz := by
  rw [chunkLen]
  split <;> omega

theorem bytesLeft_le (n off k : Nat) : bytesLeft n off k ≤ n := by
  induction k with
  | zero => exact Nat.le_refl n
  | succ k ih => exact Nat.le_trans (Nat.sub_le ..) ih

theorem pageAt_succ (virt : U32) (k : Nat) : pageAt virt k + 0x1000#32 = pageAt virt (k + 1) := by
  rw [pageAt, pageAt, add_assoc, Nat.mul_add, ofNat_add]

/-- `cp` as a word. -/
theorem chunkLen_word (small : sz < 2 ^ 32) (inPage : off < 0x1000) :
    (if 0x1000#32 ≤ BitVec.ofNat 32 sz then 0x1000#32 - BitVec.ofNat 32 off
      else BitVec.ofNat 32 sz) = BitVec.ofNat 32 (chunkLen sz off) := by
  have value : (BitVec.ofNat 32 sz).toNat = sz := by
    rw [toNat_ofNat]
    omega
  rw [chunkLen]
  by_cases full : 0x1000 ≤ sz
  · rw [if_pos full, if_pos (by rw [le_def, value]; exact full)]
    apply eq_of_toNat_eq
    rw [toNat_sub, toNat_ofNat, toNat_ofNat, toNat_ofNat]
    omega
  · rw [if_neg full, if_neg (by rw [le_def, value]; exact full)]

theorem ofNat_sub_ofNat {a b : Nat} (less : b ≤ a) (small : a < 2 ^ 32) :
    BitVec.ofNat 32 a - BitVec.ofNat 32 b = BitVec.ofNat 32 (a - b) := by
  apply eq_of_toNat_eq
  rw [toNat_sub, toNat_ofNat, toNat_ofNat, toNat_ofNat]
  omega

/-- From round `k` on, the loop makes the rounds it has left. -/
theorem pageCopyLoop_eq {virt : U32} (short : n.toNat ≤ 0xFFFFF000)
    (enough : roundCount n.toNat < k + fuel) (started : k ≤ roundCount n.toNat)
    (frames : FrameBytes) :
    pageCopyLoop dest src n fuel (BitVec.ofNat 32 (0x1000 * k)) (pageAt virt k)
        (BitVec.ofNat 32 (chunkOff (virt.toNat % 0x1000) k))
        (BitVec.ofNat 32 (bytesLeft n.toNat (virt.toNat % 0x1000) k)) frames =
      copyAll dest src
        ((List.range' k (roundCount n.toNat - k)).map (roundAt virt n.toNat)) frames := by
  induction fuel generalizing k frames with
  | zero => omega
  | succ fuel ih =>
    have counter : (BitVec.ofNat 32 (0x1000 * k)).toNat = 0x1000 * k := by
      unfold roundCount at started
      rw [toNat_ofNat]
      omega
    rw [pageCopyLoop]
    by_cases goesOn : k < roundCount n.toNat
    · have less : BitVec.ofNat 32 (0x1000 * k) < n := by
        unfold roundCount at goesOn
        rw [lt_def, counter]
        omega
      have bound := n.isLt
      have left := bytesLeft_le n.toNat (virt.toNat % 0x1000) k
      have inPage := chunkOff_lt virt k
      have words : ∀ m, m ≤ n.toNat → (BitVec.ofNat 32 m).toNat = m := by
        intro m below
        rw [toNat_ofNat]
        omega
      have offset : (BitVec.ofNat 32 (chunkOff (virt.toNat % 0x1000) k)).toNat =
          chunkOff (virt.toNat % 0x1000) k := by
        rw [toNat_ofNat]
        omega
      have rounds : roundCount n.toNat - k = (roundCount n.toNat - (k + 1)) + 1 := by omega
      have next : BitVec.ofNat 32 (0x1000 * k) + 0x1000#32 =
          BitVec.ofNat 32 (0x1000 * (k + 1)) := by
        rw [Nat.mul_add, ofNat_add]
      have rest := fun frames => ih (k := k + 1) (by omega) goesOn frames
      rw [if_pos less, rounds, range'_succ, map_cons, copyAll]
      simp only [pageAt_succ, chunkLen_word (Nat.lt_of_le_of_lt left bound) inPage, next,
        ofNat_sub_ofNat chunkLen_le (Nat.lt_of_le_of_lt left bound),
        words _ (Nat.le_trans chunkLen_le left), offset]
      rw [← funext rest]
      rfl
    · have ended : ¬ BitVec.ofNat 32 (0x1000 * k) < n := by
        unfold roundCount at goesOn
        rw [lt_def, counter]
        omega
      have noneLeft : roundCount n.toNat - k = 0 := by omega
      rw [if_neg ended, noneLeft]
      rfl

/-- `page_copy` makes its rounds. -/
theorem pageCopy_eq {virt : U32} (short : n.toNat ≤ 0xFFFFF000) (frames : FrameBytes) :
    pageCopy dest src virt n frames =
      copyAll dest src ((List.range (roundCount n.toNat)).map (roundAt virt n.toNat)) frames := by
  have enough : roundCount n.toNat < 0 + (2 ^ 20 + 1) := by
    unfold roundCount
    omega
  have start : pageAt virt 0 = virt &&& ~~~0xFFF#32 := add_zero _
  have offset : virt - (virt &&& ~~~0xFFF#32) = BitVec.ofNat 32 (virt.toNat % 0x1000) := by
    apply eq_of_toNat_eq
    rw [toNat_sub, toNat_and_not_fff, toNat_ofNat]
    omega
  have all : BitVec.ofNat 32 n.toNat = n := by simp
  rw [range_eq_range', pageCopy]
  refine Eq.trans ?_ (pageCopyLoop_eq short enough (Nat.zero_le _) frames)
  rw [start, bytesLeft, all, offset]
  rfl

/-! ### What the rounds change -/

/-- Round `round` copies byte `o` of its page. -/
def CopyRound.Covers (round : CopyRound) (o : Nat) : Prop :=
  round.off ≤ o ∧ o < round.off + round.cp

/-- What one round that gets through leaves. -/
theorem copyFrame_eq_some {paDest paSrc : U32} {cp : Nat} {frames : FrameBytes}
    (copied : copyFrame paDest paSrc off cp frames = some frames') :
    off + cp ≤ 0x1000 ∧ ∀ g o, frames' g o =
      if g = frameOf paDest ∧ off ≤ o ∧ o < off + cp then frames (frameOf paSrc) o
      else frames g o := by
  rw [copyFrame] at copied
  split at copied
  · rename_i inPage
    cases copied
    refine ⟨inPage, fun g o => ?_⟩
    by_cases isFrame : g = frameOf paDest
    · subst isFrame
      simp
    · simp [isFrame]
  · cases copied

/-- The first round, and the ones behind it. -/
theorem copyAll_cons {round : CopyRound} {rest : List CopyRound} {frames : FrameBytes}
    (done : copyAll dest src (round :: rest) frames = some frames') :
    frames' = frames ∨ src round.va ≠ 0#32 ∧ dest round.va ≠ 0#32 ∧ ∃ mid,
      copyFrame (dest round.va) (src round.va) round.off round.cp frames = some mid ∧
        copyAll dest src rest mid = some frames' := by
  rw [copyAll] at done
  by_cases srcMissing : src round.va = 0#32
  · rw [if_pos srcMissing] at done
    cases done
    exact Or.inl rfl
  · rw [if_neg srcMissing] at done
    by_cases destMissing : dest round.va = 0#32
    · rw [if_pos destMissing] at done
      cases done
      exact Or.inl rfl
    · rw [if_neg destMissing] at done
      exact Or.inr ⟨srcMissing, destMissing, bind_eq_some_iff.mp done⟩

/-- A byte that no round on mapped pages covers stays. -/
theorem copyAll_untouched {rounds : List CopyRound} {frames : FrameBytes}
    (done : copyAll dest src rounds frames = some frames')
    (apart : ∀ round ∈ rounds, src round.va ≠ 0#32 → dest round.va ≠ 0#32 →
      frameOf (dest round.va) = g → ¬ round.Covers o) :
    frames' g o = frames g o := by
  induction rounds generalizing frames with
  | nil =>
    cases done
    rfl
  | cons round rest ih =>
    rcases copyAll_cons done with rfl | ⟨srcMapped, destMapped, mid, copied, done⟩
    · rfl
    · have later := ih done fun later member =>
        apart later (mem_cons_of_mem _ member)
      rw [later, (copyFrame_eq_some copied).2]
      refine if_neg ?_
      rintro ⟨rfl, covered⟩
      exact apart round (mem_cons_self ..) srcMapped destMapped rfl covered

/-- Where all frames but one hold zeros and no round reads that one, they still do. -/
theorem copyAll_zeros {rounds : List CopyRound} {frames : FrameBytes}
    (done : copyAll dest src rounds frames = some frames')
    (notRead : ∀ round ∈ rounds, frameOf (src round.va) ≠ s)
    (zeros : ∀ g o, g ≠ s → frames g o = 0#8) (other : g ≠ s) (o : Nat) :
    frames' g o = 0#8 := by
  induction rounds generalizing frames with
  | nil =>
    cases done
    exact zeros g o other
  | cons round rest ih =>
    rcases copyAll_cons done with rfl | ⟨_, _, mid, copied, done⟩
    · exact zeros g o other
    · refine ih done
        (fun later member => notRead later (mem_cons_of_mem _ member)) ?_
      intro g o other
      rw [(copyFrame_eq_some copied).2]
      split
      · exact zeros _ o (notRead round (mem_cons_self ..))
      · exact zeros g o other

/-- Rounds inside their pages, with frames of their own to write to: each byte they
cover is copied, and every other byte stays. -/
theorem copyAll_distinct (rounds : List CopyRound)
    (mapped : ∀ round ∈ rounds, src round.va ≠ 0#32 ∧ dest round.va ≠ 0#32)
    (inPage : ∀ round ∈ rounds, round.off + round.cp ≤ 0x1000)
    (distinct : (rounds.map fun round => frameOf (dest round.va)).Nodup)
    (apart : ∀ round ∈ rounds, ∀ other ∈ rounds,
      frameOf (src round.va) ≠ frameOf (dest other.va)) (frames : FrameBytes) :
    ∃ frames', copyAll dest src rounds frames = some frames' ∧
      (∀ round ∈ rounds, ∀ o, round.Covers o →
        frames' (frameOf (dest round.va)) o = frames (frameOf (src round.va)) o) ∧
      ∀ g o, (∀ round ∈ rounds, frameOf (dest round.va) = g → ¬ round.Covers o) →
        frames' g o = frames g o := by
  induction rounds generalizing frames with
  | nil => exact ⟨frames, rfl, by simp, fun _ _ _ => rfl⟩
  | cons round rest ih =>
    obtain ⟨srcMapped, destMapped⟩ := mapped round (List.mem_cons_self ..)
    obtain ⟨isNew, restDistinct⟩ := List.nodup_cons.mp distinct
    have fits := inPage round (List.mem_cons_self ..)
    cases copied : copyFrame (dest round.va) (src round.va) round.off round.cp frames with
    | none =>
      rw [copyFrame, if_pos fits] at copied
      cases copied
    | some mid =>
      obtain ⟨_, value⟩ := copyFrame_eq_some copied
      obtain ⟨frames', done, covered, untouched⟩ := ih
        (fun later member => mapped later (List.mem_cons_of_mem _ member))
        (fun later member => inPage later (List.mem_cons_of_mem _ member)) restDistinct
        (fun one oneMember two twoMember => apart one (List.mem_cons_of_mem _ oneMember) two
          (List.mem_cons_of_mem _ twoMember)) mid
      refine ⟨frames', ?_, ?_, ?_⟩
      · rw [copyAll, if_neg srcMapped, if_neg destMapped, copied]
        exact done
      · rintro later (_ | ⟨_, member⟩) o isCovered
        · -- no later round writes to this frame
          rw [untouched _ o fun later member same => absurd
            (List.mem_map.mpr ⟨later, member, same⟩) isNew, value]
          exact if_pos ⟨rfl, isCovered⟩
        · rw [covered later member o isCovered, value]
          refine if_neg fun isFrame => ?_
          exact apart later (List.mem_cons_of_mem _ member) round (List.mem_cons_self ..)
            isFrame.1
      · intro g o notCovered
        rw [untouched g o fun later member => notCovered later (List.mem_cons_of_mem _ member),
          value]
        refine if_neg ?_
        rintro ⟨rfl, isCovered⟩
        exact notCovered round (List.mem_cons_self ..) rfl isCovered

/-! ### The range -/

/-- `a` is one of the `n` addresses from `virt` on. -/
def InRange (virt n a : U32) : Prop := (a - virt).toNat < n.toNat

/-- The frame that a directory gives the address `a`. -/
def seenFrame (lookup : U32 → U32) (a : U32) : U32 := frameOf (lookup (pageOf a))

/-- The pages of the range have frames of their own. -/
def DistinctFrames (lookup : U32 → U32) (virt n : U32) : Prop :=
  ∀ a b, InRange virt n a → InRange virt n b →
    seenFrame lookup a = seenFrame lookup b → pageOf a = pageOf b

/-- Every page of the range is mapped in both directories, to distinct frames. -/
structure RangeMapped (dest src : U32 → U32) (virt n : U32) : Prop where
  src_mapped : ∀ a, InRange virt n a → src (pageOf a) ≠ 0#32
  dest_mapped : ∀ a, InRange virt n a → dest (pageOf a) ≠ 0#32
  src_distinct : DistinctFrames src virt n
  dest_distinct : DistinctFrames dest virt n
  apart : ∀ a b, InRange virt n a → InRange virt n b → seenFrame src a ≠ seenFrame dest b

/-- `page_copy(dest, src, virt, n)` returns, whatever the frames hold; then `dest` sees at
each address of the range the byte that `src` saw there, and every other byte of every
frame is as before. -/
def CopiesRange (dest src : U32 → U32) (virt n : U32) : Prop :=
  ∀ frames, ∃ frames', pageCopy dest src virt n frames = some frames' ∧
    (∀ a, InRange virt n a → frames' (seenFrame dest a) (a.toNat % 0x1000) =
      frames (seenFrame src a) (a.toNat % 0x1000)) ∧
    ∀ g o, o < 0x1000 →
      (∀ a, InRange virt n a → ¬ (seenFrame dest a = g ∧ a.toNat % 0x1000 = o)) →
      frames' g o = frames g o

/-- Byte `o` of the page `k` pages on from the page of `virt` is in the range. -/
def HasByte (virt n : U32) (k o : Nat) : Prop :=
  o < 0x1000 ∧ virt.toNat % 0x1000 ≤ 0x1000 * k + o ∧
    0x1000 * k + o < virt.toNat % 0x1000 + n.toNat

theorem toNat_pageAt (virt : U32) (k : Nat) :
    (pageAt virt k).toNat = (0x1000 * (virt.toNat / 0x1000 + k)) % 2 ^ 32 := by
  rw [pageAt, pageOf, toNat_add, toNat_and_not_fff, toNat_ofNat]
  omega

theorem pageAt_injective {virt : U32} (small : k < 2 ^ 20) (less : l < 2 ^ 20)
    (same : pageAt virt k = pageAt virt l) : k = l := by
  have numbers := congrArg BitVec.toNat same
  rw [toNat_pageAt, toNat_pageAt] at numbers
  omega

/-- An address of the range, by its page and its place in the page. -/
theorem InRange.hasByte {virt a : U32} (inRange : InRange virt n a) :
    ∃ k, HasByte virt n k (a.toNat % 0x1000) ∧ pageOf a = pageAt virt k := by
  refine ⟨(virt.toNat % 0x1000 + (a - virt).toNat) / 0x1000, ⟨?_, ?_, ?_⟩, ?_⟩
  · omega
  · have bound := a.isLt
    have other := virt.isLt
    rw [toNat_sub]
    omega
  · have bound := a.isLt
    have other := virt.isLt
    rw [InRange, toNat_sub] at inRange
    rw [toNat_sub]
    omega
  · apply eq_of_toNat_eq
    rw [toNat_pageAt, pageOf, toNat_and_not_fff, toNat_sub]
    omega

/-- The address of a byte of the range. -/
theorem HasByte.inRange {virt : U32} (byte : HasByte virt n k o) :
    ∃ a, InRange virt n a ∧ pageOf a = pageAt virt k ∧ a.toNat % 0x1000 = o := by
  obtain ⟨inPage, above, below⟩ := byte
  have value : (virt + BitVec.ofNat 32 (0x1000 * k + o - virt.toNat % 0x1000)).toNat =
      (virt.toNat + (0x1000 * k + o - virt.toNat % 0x1000)) % 2 ^ 32 := by
    rw [toNat_add, toNat_ofNat]
    omega
  refine ⟨virt + BitVec.ofNat 32 (0x1000 * k + o - virt.toNat % 0x1000), ?_, ?_, ?_⟩
  · have other := virt.isLt
    rw [InRange, toNat_sub, value]
    omega
  · apply eq_of_toNat_eq
    rw [toNat_pageAt, pageOf, toNat_and_not_fff, value]
    omega
  · rw [value]
    omega

section Mapped

variable {virt n : U32}

theorem RangeMapped.at_byte (mapped : RangeMapped dest src virt n) (byte : HasByte virt n k o) :
    src (pageAt virt k) ≠ 0#32 ∧ dest (pageAt virt k) ≠ 0#32 := by
  obtain ⟨a, inRange, page, _⟩ := byte.inRange
  rw [← page]
  exact ⟨mapped.src_mapped a inRange, mapped.dest_mapped a inRange⟩

theorem RangeMapped.frames_apart (mapped : RangeMapped dest src virt n) (byte : HasByte virt n k o)
    (other : HasByte virt n l q) :
    frameOf (src (pageAt virt k)) ≠ frameOf (dest (pageAt virt l)) := by
  obtain ⟨a, inRange, page, _⟩ := byte.inRange
  obtain ⟨b, otherInRange, otherPage, _⟩ := other.inRange
  rw [← page, ← otherPage]
  exact mapped.apart a b inRange otherInRange

theorem DistinctFrames.same_page {lookup : U32 → U32} (distinct : DistinctFrames lookup virt n)
    (byte : HasByte virt n k o) (other : HasByte virt n l q) (small : k < 2 ^ 20)
    (less : l < 2 ^ 20) (same : frameOf (lookup (pageAt virt k)) = frameOf (lookup (pageAt virt l))) :
    k = l := by
  obtain ⟨a, inRange, page, _⟩ := byte.inRange
  obtain ⟨b, otherInRange, otherPage, _⟩ := other.inRange
  rw [← page, ← otherPage] at same
  have samePage := distinct a b inRange otherInRange same
  rw [page, otherPage] at samePage
  exact pageAt_injective small less samePage

/-! ### Bytes that are missed -/

/-- All bytes 1 in one frame, 0 in all others. -/
def oneFrame (s : U32) : FrameBytes := fun g _ => if g = s then 1#8 else 0#8

theorem oneFrame_other (other : g ≠ s) (o : Nat) : oneFrame s g o = 0#8 := by
  rw [oneFrame, if_neg other]

/-- A byte of the range that `dest` sees as 0 after a copy from a page of ones. -/
theorem not_copiesRange (byte : HasByte virt n k o)
    (missed : ∀ frames', pageCopy dest src virt n (oneFrame (frameOf (src (pageAt virt k)))) =
      some frames' → frames' (frameOf (dest (pageAt virt k))) o = 0#8) :
    ¬ CopiesRange dest src virt n := by
  intro copies
  obtain ⟨a, inRange, page, place⟩ := byte.inRange
  obtain ⟨frames', done, copied, _⟩ := copies (oneFrame (frameOf (src (pageAt virt k))))
  have value := copied a inRange
  rw [place, seenFrame, seenFrame, page, missed frames' done, oneFrame, if_pos rfl] at value
  exact absurd value (by decide)

/-- The page of a byte of the range is read by no round. -/
theorem not_copiesRange_of_unread (mapped : RangeMapped dest src virt n)
    (short : n.toNat ≤ 0xFFFFF000) (byte : HasByte virt n k o) (unread : ∀ i < roundCount n.toNat,
      frameOf (src (pageAt virt (i + 1))) ≠ frameOf (src (pageAt virt k))) :
    ¬ CopiesRange dest src virt n := by
  refine not_copiesRange byte fun frames' done => ?_
  rw [pageCopy_eq short] at done
  refine copyAll_zeros done ?_ (fun g o other => oneFrame_other other o)
    (mapped.frames_apart byte byte).symm o
  intro round member
  obtain ⟨i, visited, rfl⟩ := mem_map.mp member
  exact unread i (mem_range.mp visited)

/-- A byte of the range is written by no round. -/
theorem not_copiesRange_of_unwritten (mapped : RangeMapped dest src virt n)
    (short : n.toNat ≤ 0xFFFFF000) (byte : HasByte virt n k o)
    (unwritten : ∀ i < roundCount n.toNat, src (pageAt virt (i + 1)) ≠ 0#32 →
      dest (pageAt virt (i + 1)) ≠ 0#32 →
      frameOf (dest (pageAt virt (i + 1))) = frameOf (dest (pageAt virt k)) →
      ¬ (roundAt virt n.toNat i).Covers o) :
    ¬ CopiesRange dest src virt n := by
  refine not_copiesRange byte fun frames' done => ?_
  rw [pageCopy_eq short] at done
  rw [copyAll_untouched done, oneFrame_other (mapped.frames_apart byte byte).symm]
  intro round member
  obtain ⟨i, visited, rfl⟩ := mem_map.mp member
  exact unwritten i (mem_range.mp visited)

/-- Where every page is mapped, a counter that never passes `n` keeps the loop going. -/
theorem pageCopyLoop_long (long : 0xFFFFF000 < n.toNat)
    (mapped : ∀ k, src (pageAt virt k) ≠ 0#32 ∧ dest (pageAt virt k) ≠ 0#32) {i off sz : U32}
    (aligned : i.toNat % 0x1000 = 0) {frames : FrameBytes} :
    pageCopyLoop dest src n fuel i (pageAt virt k) off sz frames = none := by
  induction fuel generalizing k i off sz frames with
  | zero => rfl
  | succ fuel ih =>
    have less : i < n := by
      rw [lt_def]
      omega
    have next : (i + 0x1000#32).toNat % 0x1000 = 0 := by
      rw [toNat_add, toNat_ofNat]
      omega
    obtain ⟨srcMapped, destMapped⟩ := mapped (k + 1)
    rw [pageCopyLoop, if_pos less, pageAt_succ]
    simp only [srcMapped, destMapped, if_false]
    exact bind_eq_none_iff.mpr fun frames _ => ih next

theorem not_copiesRange_of_long (mapped : RangeMapped dest src virt n)
    (long : 0xFFFFF000 < n.toNat) : ¬ CopiesRange dest src virt n := by
  intro copies
  obtain ⟨frames', done, _⟩ := copies fun _ _ => 0#8
  have everyPage : ∀ k, src (pageAt virt k) ≠ 0#32 ∧ dest (pageAt virt k) ≠ 0#32 := by
    intro k
    have wrapped : pageAt virt k = pageAt virt (k % 2 ^ 20) := by
      apply eq_of_toNat_eq
      rw [toNat_pageAt, toNat_pageAt]
      omega
    have byte : HasByte virt n (k % 2 ^ 20)
        (if k % 2 ^ 20 = 0 then virt.toNat % 0x1000 else 0) := by
      unfold HasByte
      split <;> omega
    rw [wrapped]
    exact mapped.at_byte byte
  have start : pageAt virt 0 = virt &&& ~~~0xFFF#32 := add_zero _
  rw [pageCopy, ← start, pageCopyLoop_long long everyPage rfl] at done
  cases done

/-! ### When the range is copied -/

/-- The page behind the last round's counterpart in the range has the frames of the first
page, in both directories. -/
def EndsInFirstPage (dest src : U32 → U32) (virt n : U32) : Prop :=
  src (pageAt virt (roundCount n.toNat)) ≠ 0#32 ∧ dest (pageAt virt (roundCount n.toNat)) ≠ 0#32 ∧
    frameOf (src (pageAt virt (roundCount n.toNat))) = seenFrame src virt ∧
    frameOf (dest (pageAt virt (roundCount n.toNat))) = seenFrame dest virt

/-- The range lies in one page, or is made of whole pages. -/
def EvenRange (virt n : U32) : Prop :=
  virt.toNat % 0x1000 + n.toNat ≤ 0x1000 ∨ virt.toNat % 0x1000 = 0 ∧ n.toNat % 0x1000 = 0

theorem seenFrame_virt (lookup : U32 → U32) (virt : U32) :
    seenFrame lookup virt = frameOf (lookup (pageAt virt 0)) := by
  rw [seenFrame, pageAt, BitVec.add_zero]

theorem bytesLeft_aligned (n k : Nat) : bytesLeft n 0 k = n - 0x1000 * k := by
  induction k with
  | zero => rfl
  | succ k ih =>
    rw [bytesLeft, ih, chunkLen, chunkOff, ite_self]
    split <;> omega

/-- Of the pages that are visited, only the last can lie behind the range. -/
theorem hasByte_visited (visited : i + 1 < roundCount n.toNat) :
    HasByte virt n (i + 1) 0 := by
  unfold roundCount at visited
  unfold HasByte
  omega

theorem firstByte (some : n.toNat ≠ 0) : HasByte virt n 0 (virt.toNat % 0x1000) := by
  unfold HasByte
  omega

theorem roundCount_small (short : n.toNat ≤ 0xFFFFF000) : roundCount n.toNat < 2 ^ 20 := by
  unfold roundCount
  omega

/-- Whoever writes to the frame of a page of the range visits this page, or is the last
round. -/
theorem last_of_sameFrame (mapped : RangeMapped dest src virt n) (short : n.toNat ≤ 0xFFFFF000)
    (visited : i < roundCount n.toNat) (byte : HasByte virt n k o) (small : k < 2 ^ 20)
    (same : frameOf (dest (pageAt virt (i + 1))) = frameOf (dest (pageAt virt k))) :
    i + 1 = k ∨ i + 1 = roundCount n.toNat := by
  have few := roundCount_small short
  by_cases last : i + 1 = roundCount n.toNat
  · exact Or.inr last
  · left
    have other : HasByte virt n (i + 1) 0 := hasByte_visited (by omega)
    exact mapped.dest_distinct.same_page other byte (by omega) small same

section Copies

variable (mapped : RangeMapped dest src virt n) (short : n.toNat ≤ 0xFFFFF000)
  (some : n.toNat ≠ 0)

include mapped short some

/-- To copy the first byte, a page behind the range must have the first page's frame in
`src`. -/
theorem CopiesRange.first_read (copies : CopiesRange dest src virt n) :
    frameOf (src (pageAt virt (roundCount n.toNat))) = frameOf (src (pageAt virt 0)) ∧
      virt.toNat % 0x1000 + n.toNat ≤ 0x1000 * roundCount n.toNat := by
  by_contra notLast
  refine not_copiesRange_of_unread mapped short (firstByte some) ?_ copies
  intro i visited same
  -- a page of the range has a frame of its own
  have behind : virt.toNat % 0x1000 + n.toNat ≤ 0x1000 * (i + 1) := by
    by_contra inside
    have byte : HasByte virt n (i + 1) 0 := by
      unfold HasByte
      omega
    have samePage := mapped.src_distinct.same_page byte (firstByte some) (by omega) (by omega) same
    omega
  have last : i + 1 = roundCount n.toNat := by
    unfold roundCount at visited ⊢
    omega
  rw [last] at same behind
  exact notLast ⟨same, behind⟩

/-- To write it, this page must be mapped and have the first page's frame in `dest`. -/
theorem CopiesRange.first_written (copies : CopiesRange dest src virt n) :
    src (pageAt virt (roundCount n.toNat)) ≠ 0#32 ∧
      dest (pageAt virt (roundCount n.toNat)) ≠ 0#32 ∧
      frameOf (dest (pageAt virt (roundCount n.toNat))) = frameOf (dest (pageAt virt 0)) := by
  by_contra notLast
  refine not_copiesRange_of_unwritten mapped short (firstByte some) ?_ copies
  intro i visited srcMapped destMapped same
  rcases last_of_sameFrame mapped short visited (firstByte some) (by omega) same with first | last
  · omega
  · rw [last] at srcMapped destMapped same
    exact absurd ⟨srcMapped, destMapped, same⟩ notLast

/-- The first round starts at the offset of `virt` and the last one copies what is left,
which fits the pages they work on only for an even range. -/
theorem CopiesRange.even (copies : CopiesRange dest src virt n) : EvenRange virt n := by
  obtain ⟨_, behind⟩ := copies.first_read mapped short some
  obtain ⟨_, _, sameFrame⟩ := copies.first_written mapped short some
  by_contra notEven
  unfold EvenRange at notEven
  by_cases offset : virt.toNat % 0x1000 = 0
  · -- byte 0xFFF of the first page: the last round is too short
    have byte : HasByte virt n 0 0xFFF := by
      unfold HasByte
      omega
    refine not_copiesRange_of_unwritten mapped short byte ?_ copies
    intro i visited _ _ same covered
    rcases last_of_sameFrame mapped short visited byte (by omega) same with first | last
    · omega
    · have length : (roundAt virt n.toNat i).cp = n.toNat - 0x1000 * i := by
        have less : ¬ 0x1000 ≤ n.toNat - 0x1000 * i := by
          unfold roundCount at last
          omega
        rw [roundAt, offset, bytesLeft_aligned, chunkLen, if_neg less]
      have start : (roundAt virt n.toNat i).off = 0 := by
        rw [roundAt, offset, chunkOff, ite_self]
      rw [CopyRound.Covers, length, start] at covered
      unfold roundCount at last
      omega
  · -- byte 0 of the second page: the first round starts behind it
    have byte : HasByte virt n 1 0 := by
      unfold HasByte
      omega
    refine not_copiesRange_of_unwritten mapped short byte ?_ copies
    intro i visited _ _ same covered
    rcases last_of_sameFrame mapped short visited byte (by omega) same with first | last
    · have start : (roundAt virt n.toNat i).off = virt.toNat % 0x1000 := by
        have isFirst : i = 0 := by omega
        rw [roundAt, chunkOff, if_pos isFirst]
      have from0 := covered.1
      omega
    · rw [last, sameFrame] at same
      have samePage :=
        mapped.dest_distinct.same_page (firstByte some) byte (by omega) (by omega) same
      omega

end Copies

/-! ### An even range in front of a copy of its first page -/

/-- In an even range every round copies the same part of its page. -/
theorem roundAt_even (even : EvenRange virt n) (visited : i < roundCount n.toNat) :
    (roundAt virt n.toNat i).off = virt.toNat % 0x1000 ∧
      (roundAt virt n.toNat i).cp = min n.toNat 0x1000 ∧
      virt.toNat % 0x1000 + min n.toNat 0x1000 ≤ 0x1000 := by
  unfold roundCount at visited
  rcases even with onePage | ⟨aligned, whole⟩
  · have isFirst : i = 0 := by omega
    subst isFirst
    refine ⟨rfl, ?_, by omega⟩
    show chunkLen n.toNat (virt.toNat % 0x1000) = _
    rw [chunkLen]
    split <;> omega
  · rw [roundAt, aligned, bytesLeft_aligned, chunkLen, chunkOff, ite_self]
    refine ⟨rfl, ?_, by omega⟩
    dsimp only
    split <;> omega

/-- The page of the range whose frames round `i` works on. -/
def rotated (n : U32) (i : Nat) : Nat := if i + 1 = roundCount n.toNat then 0 else i + 1

theorem covers_iff (even : EvenRange virt n) (visited : i < roundCount n.toNat) (o : Nat) :
    (roundAt virt n.toNat i).Covers o ↔ HasByte virt n (rotated n i) o := by
  obtain ⟨start, length, inPage⟩ := roundAt_even even visited
  rw [CopyRound.Covers, start, length, HasByte, rotated]
  unfold EvenRange at even
  unfold roundCount at visited ⊢
  split <;> omega

/-- In front of a copy of its first page, round `i` works on the frames of a page of the
range, and each page of the range has its round. -/
theorem EndsInFirstPage.frames (ends : EndsInFirstPage dest src virt n) (i : Nat) :
    frameOf (src (pageAt virt (i + 1))) = frameOf (src (pageAt virt (rotated n i))) ∧
      frameOf (dest (pageAt virt (i + 1))) = frameOf (dest (pageAt virt (rotated n i))) := by
  obtain ⟨_, _, sameSrc, sameDest⟩ := ends
  rw [rotated]
  split
  · rename_i last
    rw [last, sameSrc, sameDest, seenFrame_virt, seenFrame_virt]
    exact ⟨rfl, rfl⟩
  · exact ⟨rfl, rfl⟩

theorem hasByte_rotated (visited : i < roundCount n.toNat) :
    HasByte virt n (rotated n i) (virt.toNat % 0x1000) := by
  rw [HasByte, rotated]
  unfold roundCount at visited ⊢
  split <;> omega

theorem HasByte.visited (even : EvenRange virt n) (byte : HasByte virt n k o) :
    ∃ i < roundCount n.toNat, rotated n i = k := by
  unfold HasByte at byte
  unfold EvenRange at even
  by_cases first : k = 0
  · refine ⟨roundCount n.toNat - 1, ?_, ?_⟩
    · unfold roundCount
      omega
    · rw [rotated, if_pos]
      · exact first.symm
      · unfold roundCount
        omega
  · refine ⟨k - 1, ?_, ?_⟩
    · unfold roundCount
      omega
    · rw [rotated, if_neg]
      · omega
      · unfold roundCount
        omega

theorem rotated_lt (visited : i < roundCount n.toNat) :
    rotated n i < roundCount n.toNat := by
  rw [rotated]
  split <;> omega

theorem rotated_injective {j : Nat} (same : rotated n i = rotated n j) : i = j := by
  unfold rotated at same
  split at same <;> split at same <;> omega

/-- The rounds write to frames of their own. -/
theorem nodup_rounds (mapped : RangeMapped dest src virt n) (short : n.toNat ≤ 0xFFFFF000)
    (ends : EndsInFirstPage dest src virt n) :
    (((List.range (roundCount n.toNat)).map (roundAt virt n.toNat)).map
      fun round => frameOf (dest round.va)).Nodup := by
  have few := roundCount_small short
  rw [List.map_map]
  refine List.Nodup.map_on ?_ List.nodup_range
  intro i member j otherMember same
  have visited := List.mem_range.mp member
  have otherVisited := List.mem_range.mp otherMember
  have sameFrame : frameOf (dest (pageAt virt (i + 1))) = frameOf (dest (pageAt virt (j + 1))) :=
    same
  rw [(ends.frames i).2, (ends.frames j).2] at sameFrame
  exact rotated_injective (mapped.dest_distinct.same_page (hasByte_rotated visited)
    (hasByte_rotated otherVisited) (Nat.lt_trans (rotated_lt visited) few)
    (Nat.lt_trans (rotated_lt otherVisited) few) sameFrame)

theorem copiesRange_of_even (mapped : RangeMapped dest src virt n) (short : n.toNat ≤ 0xFFFFF000)
    (even : EvenRange virt n) (ends : EndsInFirstPage dest src virt n) :
    CopiesRange dest src virt n := by
  intro frames
  have onPages : ∀ round ∈ (List.range (roundCount n.toNat)).map (roundAt virt n.toNat),
      src round.va ≠ 0#32 ∧ dest round.va ≠ 0#32 := by
    intro round member
    obtain ⟨i, visited, rfl⟩ := mem_map.mp member
    show src (pageAt virt (i + 1)) ≠ 0#32 ∧ dest (pageAt virt (i + 1)) ≠ 0#32
    by_cases last : i + 1 = roundCount n.toNat
    · rw [last]
      exact ⟨ends.1, ends.2.1⟩
    · have visited := mem_range.mp visited
      exact mapped.at_byte (hasByte_visited (by omega))
  have inPages : ∀ round ∈ (List.range (roundCount n.toNat)).map (roundAt virt n.toNat),
      round.off + round.cp ≤ 0x1000 := by
    intro round member
    obtain ⟨i, visited, rfl⟩ := mem_map.mp member
    obtain ⟨start, length, inPage⟩ := roundAt_even even (mem_range.mp visited)
    rw [start, length]
    exact inPage
  have apart : ∀ round ∈ (List.range (roundCount n.toNat)).map (roundAt virt n.toNat),
      ∀ other ∈ (List.range (roundCount n.toNat)).map (roundAt virt n.toNat),
      frameOf (src round.va) ≠ frameOf (dest other.va) := by
    intro round member other otherMember
    obtain ⟨i, visited, rfl⟩ := mem_map.mp member
    obtain ⟨j, otherVisited, rfl⟩ := mem_map.mp otherMember
    show frameOf (src (pageAt virt (i + 1))) ≠ frameOf (dest (pageAt virt (j + 1)))
    rw [(ends.frames i).1, (ends.frames j).2]
    exact mapped.frames_apart (hasByte_rotated (mem_range.mp visited))
      (hasByte_rotated (mem_range.mp otherVisited))
  obtain ⟨frames', done, covered, untouched⟩ :=
    copyAll_distinct _ onPages inPages (nodup_rounds mapped short ends) apart frames
  refine ⟨frames', ?_, ?_, ?_⟩
  · rw [pageCopy_eq short]
    exact done
  · intro a inRange
    obtain ⟨k, byte, page⟩ := inRange.hasByte
    obtain ⟨i, visited, rfl⟩ := byte.visited even
    rw [seenFrame, seenFrame, page, ← (ends.frames i).1, ← (ends.frames i).2]
    exact covered _ (mem_map_of_mem (mem_range.mpr visited)) _
      ((covers_iff even visited _).mpr byte)
  · intro g o _ outside
    refine untouched g o fun round member => ?_
    obtain ⟨i, visited, rfl⟩ := mem_map.mp member
    rintro rfl isCovered
    have byte := (covers_iff even (mem_range.mp visited) o).mp isCovered
    obtain ⟨a, inRange, page, place⟩ := byte.inRange
    refine outside a inRange ⟨?_, place⟩
    rw [seenFrame, page]
    exact (ends.frames i).2.symm

/-- `page_copy` copies the range exactly when there is nothing to copy, or the range lies
in one page or is made of whole pages and is followed by a second mapping of its first
page's frames. -/
theorem page_copy_copies_iff (mapped : RangeMapped dest src virt n) :
    CopiesRange dest src virt n ↔
      n = 0#32 ∨ EvenRange virt n ∧ EndsInFirstPage dest src virt n := by
  constructor
  · intro copies
    by_cases empty : n = 0#32
    · exact Or.inl empty
    · right
      have some : n.toNat ≠ 0 := fun zero => empty (eq_of_toNat_eq zero)
      have short : n.toNat ≤ 0xFFFFF000 := by
        by_contra long
        exact not_copiesRange_of_long mapped (by omega) copies
      obtain ⟨sameSrc, _⟩ := copies.first_read mapped short some
      obtain ⟨srcMapped, destMapped, sameDest⟩ := copies.first_written mapped short some
      refine ⟨copies.even mapped short some, srcMapped, destMapped, ?_, ?_⟩
      · rw [seenFrame_virt]
        exact sameSrc
      · rw [seenFrame_virt]
        exact sameDest
  · rintro (rfl | ⟨even, ends⟩)
    · intro frames
      refine ⟨frames, rfl, ?_, fun _ _ _ _ => rfl⟩
      intro a inRange
      exact absurd inRange (Nat.not_lt_zero _)
    · refine copiesRange_of_even mapped ?_ even ends
      unfold EvenRange at even
      omega

end Mapped

/-- A directory with two pages mapped, at 0x1000 and 0x2000. -/
def twoPages (first second : U32) : U32 → U32 := fun va =>
  if va = 0x1000#32 then first else if va = 0x2000#32 then second else 0#32

/-- The first 16 bytes of the page at 0x1000. -/
theorem twoPages_mapped {destFirst destSecond srcFirst srcSecond : U32}
    (srcMapped : srcFirst ≠ 0#32) (destMapped : destFirst ≠ 0#32)
    (apart : frameOf srcFirst ≠ frameOf destFirst) :
    RangeMapped (twoPages destFirst destSecond) (twoPages srcFirst srcSecond) 0x1000#32 16#32 := by
  have onPage : ∀ a, InRange 0x1000#32 16#32 a → pageOf a = 0x1000#32 := by
    intro a inRange
    obtain ⟨k, ⟨_, _, below⟩, page⟩ := inRange.hasByte
    have first : k = 0 := by
      simp only [toNat_ofNat] at below
      omega
    rw [page, first]
    rfl
  refine ⟨?_, ?_, ?_, ?_, ?_⟩
  · intro a inRange
    rw [onPage a inRange]
    exact srcMapped
  · intro a inRange
    rw [onPage a inRange]
    exact destMapped
  · intro a b inRange otherInRange _
    rw [onPage a inRange, onPage b otherInRange]
  · intro a b inRange otherInRange _
    rw [onPage a inRange, onPage b otherInRange]
  · intro a b inRange otherInRange
    rw [seenFrame, seenFrame, onPage a inRange, onPage b otherInRange]
    exact apart

/-- A page that is mapped twice in a row is copied: the round uses the second mapping. -/
theorem page_mapped_twice_copied :
    CopiesRange (twoPages 0x6003#32 0x6003#32) (twoPages 0x5003#32 0x5003#32)
      0x1000#32 16#32 := by
  have mapped : RangeMapped (twoPages 0x6003#32 0x6003#32) (twoPages 0x5003#32 0x5003#32)
      0x1000#32 16#32 := twoPages_mapped (by decide) (by decide) (by decide)
  refine (page_copy_copies_iff mapped).mpr (Or.inr ⟨Or.inl (by decide), ?_⟩)
  rw [EndsInFirstPage]
  decide

/-- Of two pages with frames of their own, the second is copied for the first. -/
theorem first_page_not_copied :
    ¬ ∀ (dest src : U32 → U32) (virt n : U32), RangeMapped dest src virt n →
      CopiesRange dest src virt n := by
  intro copies
  have mapped : RangeMapped (twoPages 0x6003#32 0x8003#32) (twoPages 0x5003#32 0x7003#32)
      0x1000#32 16#32 := twoPages_mapped (by decide) (by decide) (by decide)
  have byte : HasByte 0x1000#32 16#32 0 0 := by
    rw [HasByte]
    decide
  refine not_copiesRange_of_unread mapped (by decide) byte ?_ (copies _ _ _ _ mapped)
  intro i visited
  have first : i = 0 := by
    have one : roundCount (16#32).toNat = 1 := by decide
    omega
  rw [first]
  decide

end Crunchy
