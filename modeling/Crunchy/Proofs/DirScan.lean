/-
Module: Crunchy.Proofs.DirScan
Purpose: When the loops of `find_inode_in_dir` and `lsroot` over the entries of a directory end
  and stay in the buffer, whatever its blocks hold.
Trusted boundary: none
Main exports: Comes, reachable_entry_iff, scan_ends_iff, ScanSafe,
  directory_scans_iff
-/
import Crunchy.Fs.DirScan
import Crunchy.Proofs.Ext2Lookup

namespace Crunchy

open Lib

variable {Result : Type} {scan : DirScan Result} {buf name : Bytes} {size d sum : Nat}

/-! ### The entries that a loop comes to -/

/-- The record lengths lead from the first entry to the one at `d`, inside the buffer, and the
loop does not return before. -/
inductive Comes (scan : DirScan Result) (buf : Bytes) (size : Nat) : Nat → Prop where
  | first : Comes scan buf size 0
  | next {d : Nat} (before : Comes scan buf size d) (goesOn : scan.visit d = .goOn)
      (inside : d + recLenAt buf d < size) : Comes scan buf size (d + recLenAt buf d)

/-- One round, with `sum` as the offset of the entry. -/
theorem next_entry : scan.next buf size (.entry d sum) =
    match scan.visit d with
    | .found result => some (.done result)
    | .hang => none
    | .goOn =>
      if sum + recLenAt buf d < size then
        some (.entry (d + recLenAt buf d) (sum + recLenAt buf d))
      else some (.done scan.last) := rfl

/-- What a step from an entry leads to. -/
theorem next_eq_entry {d' sum' : Nat} :
    scan.next buf size (.entry d sum) = some (.entry d' sum') ↔
      scan.visit d = .goOn ∧ sum + recLenAt buf d < size ∧ d' = d + recLenAt buf d ∧
        sum' = sum + recLenAt buf d := by
  rw [next_entry]
  cases scan.visit d with
  | found result => simp
  | hang => simp
  | goOn =>
    by_cases more : sum + recLenAt buf d < size
    · rw [if_pos more]
      simp only [Option.some.injEq, ScanAt.entry.injEq, true_and, more]
      exact ⟨fun ⟨one, two⟩ => ⟨one.symm, two.symm⟩, fun ⟨one, two⟩ => ⟨one.symm, two.symm⟩⟩
    · rw [if_neg more]
      simp [more]

theorem next_eq_none : scan.next buf size (.entry d sum) = none ↔ scan.visit d = .hang := by
  rw [next_entry]
  cases scan.visit d with
  | found result => simp
  | hang => simp
  | goOn =>
    dsimp only
    split <;> simp

/-- `sum` is the offset of the entry. -/
theorem reachable_entry_iff :
    (scanning scan buf size).Reachable (.entry d sum) ↔ sum = d ∧ Comes scan buf size d := by
  constructor
  · intro reached
    refine reached.invariant (fun state => ∀ d sum, state = .entry d sum →
      sum = d ∧ Comes scan buf size d) ?_ ?_ d sum rfl
    · rintro _ rfl _ _ ⟨⟩
      exact ⟨rfl, .first⟩
    · rintro before _ after holds taken d' sum' rfl
      cases before with
      | done result => exact nomatch taken
      | entry d sum =>
        obtain ⟨rfl, comes⟩ := holds d sum rfl
        obtain ⟨goesOn, inside, rfl, rfl⟩ := next_eq_entry.mp taken
        exact ⟨rfl, comes.next goesOn inside⟩
  · rintro ⟨rfl, comes⟩
    induction comes with
    | first => exact .start rfl
    | next before goesOn inside ih =>
      have taken : (scanning scan buf size).Step _ () _ :=
        next_eq_entry.mpr ⟨goesOn, inside, rfl, rfl⟩
      exact .step ih taken

/-- How far the loop still is from its end. -/
def ScanAt.left (size : Nat) : ScanAt Result → Nat
  | .entry d _ => size - d + 1
  | .done _ => 0

/-- A loop that ends does not stay at an entry that it comes to. -/
theorem moves_of_ends (reaches : (scanning scan buf size).Eventually ScanAt.Done (.entry 0 0))
    {d : Nat} (comes : Comes scan buf size d) :
    scan.visit d ≠ .hang ∧ (scan.visit d = .goOn → recLenAt buf d ≠ 0 ∨ size ≤ d) := by
  have final : ∀ (state : ScanAt Result) (event : Unit) (after : ScanAt Result), state.Done →
      ¬(scanning scan buf size).Step state event after := by
    rintro _ _ _ ⟨result, rfl⟩ taken
    exact nomatch taken
  have here : (scanning scan buf size).Eventually ScanAt.Done (.entry d d) :=
    .of_reachable final (fun state isStart => isStart ▸ reaches)
      (reachable_entry_iff.mpr ⟨rfl, comes⟩)
  have notDone : ¬(ScanAt.entry d d : ScanAt Result).Done := nofun
  constructor
  · intro hangs
    cases here with
    | now there => exact notDone there
    | later possible _ =>
      obtain ⟨_, after, taken⟩ := possible
      have stuck : scan.next buf size (.entry d d) = none := by rw [next_entry, hangs]
      exact nomatch stuck.symm.trans taken
  · intro goesOn
    by_contra stays
    obtain ⟨zero, inside⟩ := not_or.mp stays
    have loop : (scanning scan buf size).Step (.entry d d) () (.entry d d) :=
      next_eq_entry.mpr ⟨goesOn, by omega, by omega, by omega⟩
    exact System.Eventually.not_loop loop notDone here

/-- Every round but the last brings the loop nearer to the end of the buffer. -/
theorem ends_of_moves (moves : ∀ d, Comes scan buf size d → scan.visit d ≠ .hang ∧
      (scan.visit d = .goOn → recLenAt buf d ≠ 0 ∨ size ≤ d)) :
    (scanning scan buf size).Eventually ScanAt.Done (.entry 0 0) := by
  refine System.Eventually.of_measure
    (fun state => state.Done ∨ ∃ d, state = .entry d d ∧ Comes scan buf size d)
    (ScanAt.left size) ?_ ?_ (.inr ⟨0, rfl, .first⟩)
  · rintro state (isDone | ⟨d, rfl, comes⟩) notDone
    · exact absurd isDone notDone
    · cases taken : scan.next buf size (.entry d d) with
      | some after => exact ⟨(), after, taken⟩
      | none => exact absurd (next_eq_none.mp taken) (moves d comes).1
  · rintro state _ after (isDone | ⟨d, rfl, comes⟩) notDone taken
    · exact absurd isDone notDone
    · cases after with
      | done result => exact ⟨.inl ⟨result, rfl⟩, Nat.succ_pos _⟩
      | entry d' sum' =>
        obtain ⟨goesOn, inside, rfl, rfl⟩ := next_eq_entry.mp taken
        have long := ((moves d comes).2 goesOn).resolve_right (by omega)
        refine ⟨.inr ⟨_, rfl, comes.next goesOn inside⟩, ?_⟩
        rw [ScanAt.left, ScanAt.left]
        omega

/-- The loop ends exactly when the body ends at every entry that it comes to and each of them
but the one at which it returns has a length. -/
theorem scan_ends_iff :
    (scanning scan buf size).Eventually ScanAt.Done (.entry 0 0) ↔
      ∀ d, Comes scan buf size d → scan.visit d ≠ .hang ∧
        (scan.visit d = .goOn → recLenAt buf d ≠ 0 ∨ size ≤ d) :=
  ⟨fun reaches _ comes => moves_of_ends reaches comes, ends_of_moves⟩

/-! ### The functions of the model -/

theorem findScan_visit (buf name : Bytes) (d : Nat) : (findScan buf name).visit d =
    if Agrees name (entryAt buf d) then .found (get32 buf d) else .goOn :=
  if_congr (strncmp_entry buf name d) rfl rfl

theorem listScan_visit (buf : Bytes) (d : Nat) : (listScan buf).visit d =
    if (strlen buf (d + 8)).isSome then .goOn else .hang := rfl

/-! ### Loops that stay in the buffer -/

/-- The loop ends and reads no byte outside the buffer. -/
def ScanSafe (scan : DirScan Result) (buf : Bytes) (size : Nat) : Prop :=
  (scanning scan buf size).Eventually ScanAt.Done (.entry 0 0) ∧
    ∀ d sum, (scanning scan buf size).Reachable (.entry d sum) → ∀ o ∈ scan.reads d, o < size

/-- What both conditions ask of each entry that the loop comes to. -/
theorem scanSafe_iff : ScanSafe scan buf size ↔ ∀ d, Comes scan buf size d →
    scan.visit d ≠ .hang ∧ (scan.visit d = .goOn → recLenAt buf d ≠ 0 ∨ size ≤ d) ∧
      ∀ o ∈ scan.reads d, o < size := by
  rw [ScanSafe, scan_ends_iff]
  constructor
  · rintro ⟨ends, reads⟩ d comes
    exact ⟨(ends d comes).1, (ends d comes).2,
      reads d d (reachable_entry_iff.mpr ⟨rfl, comes⟩)⟩
  · intro all
    refine ⟨fun d comes => ⟨(all d comes).1, (all d comes).2.1⟩, fun d sum reached => ?_⟩
    obtain ⟨_, comes⟩ := reachable_entry_iff.mp reached
    exact (all d comes).2.2

/-- What `find_inode_in_dir` needs of an entry: `inode`, `rec_len` and `name_len` are in the
buffer, and so is the name up to the first character that is another than in `name`; if there
is none this is the last entry, otherwise it has a length. -/
structure FindEntry (buf name : Bytes) (size d : Nat) : Prop where
  header : d + 7 ≤ size
  compared : ∀ j < nameLenAt buf d, (∀ i < j, buf (d + 8 + i) = name i) → d + 8 + j < size
  moves : Agrees name (entryAt buf d) ∨ recLenAt buf d ≠ 0

/-- What `lsroot` needs of an entry: the name ends with a `NUL` that is still in the buffer. -/
structure ListEntry (buf : Bytes) (size d : Nat) : Prop where
  header : d + 7 ≤ size
  name : ∃ j, d + 8 + j < size ∧ buf (d + 8 + j) = 0#8
  moves : recLenAt buf d ≠ 0

/-- The condition for one entry, in `find_inode_in_dir`. -/
theorem findEntry_iff : ((findScan buf name).visit d ≠ .hang ∧
      ((findScan buf name).visit d = .goOn → recLenAt buf d ≠ 0 ∨ size ≤ d) ∧
      ∀ o ∈ (findScan buf name).reads d, o < size) ↔ FindEntry buf name size d := by
  have visit := findScan_visit buf name d
  constructor
  · rintro ⟨_, moves, reads⟩
    have header : d + 6 < size := reads (d + 6) (.inl rfl)
    refine ⟨header, fun j below same => ?_, ?_⟩
    · exact reads (d + 8 + j) (.inr (.inr (.inr (.inl ⟨j, below, same, rfl⟩))))
    · by_cases agrees : Agrees name (entryAt buf d)
      · exact .inl agrees
      · rw [if_neg agrees] at visit
        exact .inr ((moves visit).resolve_right (by omega))
  · rintro ⟨header, compared, moves⟩
    refine ⟨?_, fun goesOn => ?_, ?_⟩
    · rw [visit]
      split <;> exact nofun
    · refine .inl (moves.resolve_left fun agrees => ?_)
      rw [visit, if_pos agrees] at goesOn
      exact nomatch goesOn
    · rintro o (rfl | rfl | rfl | ⟨j, below, same, rfl⟩ | ⟨_, j, below, rfl⟩)
      · exact header
      · simp only [Dirent.recLen]
        omega
      · simp only [Dirent.recLen]
        omega
      · exact compared j below same
      · simp only [Dirent.inode]
        omega

/-- The condition for one entry, in `lsroot`. -/
theorem listEntry_iff (small : size ≤ 2 ^ 32) : ((listScan buf).visit d ≠ .hang ∧
      ((listScan buf).visit d = .goOn → recLenAt buf d ≠ 0 ∨ size ≤ d) ∧
      ∀ o ∈ (listScan buf).reads d, o < size) ↔ ListEntry buf size d := by
  have visit := listScan_visit buf d
  constructor
  · rintro ⟨ends, moves, reads⟩
    have header : d + 6 < size := reads (d + 6) (.inl rfl)
    cases length : strlen buf (d + 8) with
    | none =>
      rw [length] at visit
      exact absurd visit ends
    | some len =>
      rw [length] at visit
      obtain ⟨_, before, nul⟩ := strlen_eq_some_iff.mp length
      refine ⟨header, ⟨len, ?_, nul⟩, (moves visit).resolve_right (by omega)⟩
      exact reads (d + 8 + len) (.inr (.inr (.inr (.inr ⟨len, before, rfl⟩))))
  · rintro ⟨header, ⟨j, inside, nul⟩, moves⟩
    obtain ⟨len, _, length⟩ := strlen_of_nul (show j < 2 ^ 32 by omega) nul
    rw [length] at visit
    refine ⟨?_, fun _ => .inl moves, ?_⟩
    · rw [visit]
      exact nofun
    · rintro o (rfl | rfl | rfl | ⟨i, below, rfl⟩ | ⟨i, before, rfl⟩)
      · exact header
      · simp only [Dirent.recLen]
        omega
      · simp only [Dirent.recLen]
        omega
      · simp only [Dirent.inode]
        omega
      · have notBehind : ¬ j < i := fun earlier => before j earlier nul
        simp only [Dirent.name]
        omega

/-- For every contents of the buffer that holds the directory's blocks and every name: each of
the two loops ends and stays in the buffer exactly when all the entries that it comes to are as
it needs them. -/
theorem directory_scans_iff (buf name : Bytes) (size : U32) :
    (ScanSafe (findScan buf name) buf size.toNat ↔
      ∀ d, Comes (findScan buf name) buf size.toNat d → FindEntry buf name size.toNat d) ∧
    (ScanSafe (listScan buf) buf size.toNat ↔
      ∀ d, Comes (listScan buf) buf size.toNat d → ListEntry buf size.toNat d) := by
  constructor
  · rw [scanSafe_iff]
    exact forall_congr' fun d => imp_congr Iff.rfl findEntry_iff
  · rw [scanSafe_iff]
    exact forall_congr' fun d => imp_congr Iff.rfl (listEntry_iff (by omega))

/-- A block with one entry that has no length; its name is `b`. -/
def loopingBlock : Bytes := put8 (put8 (fun _ => 0#8) 6 1#8) 8 98#8

/-- Neither of the loops gets past it. -/
theorem entry_without_length :
    ¬ ∀ (buf name : Bytes) (size : U32),
      ScanSafe (findScan buf name) buf size.toNat ∧ ScanSafe (listScan buf) buf size.toNat := by
  intro all
  obtain ⟨ends, _⟩ := (all loopingBlock (fun i => [97#8].getD i 0#8) 1024#32).1
  have visit : (findScan loopingBlock fun i => [97#8].getD i 0#8).visit 0 = .goOn := by
    rw [findScan_visit, if_neg (by decide +kernel)]
  have noLength : recLenAt loopingBlock 0 = 0 := by decide +kernel
  have loop : (scanning (findScan loopingBlock fun i => [97#8].getD i 0#8) loopingBlock
      (1024#32).toNat).Step (.entry 0 0) () (.entry 0 0) :=
    next_eq_entry.mpr ⟨visit, by rw [noLength]; decide, by rw [noLength], by rw [noLength]⟩
  exact System.Eventually.not_loop loop nofun ends

end Crunchy
