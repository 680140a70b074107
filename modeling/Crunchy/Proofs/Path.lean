/-
Module: Crunchy.Proofs.Path
Purpose: Which inode `pathize` comes to. `strtok` cuts a path into its non-empty
  components, and an empty one more behind a slash at the end; a component that is
  missing gives `-1`, which is the directory of the next lookup.
Trusted boundary: none
Main exports: components, EndsInName, tokens, pathize_eq, DirTree, DirTree.follow,
  path_resolved_iff
-/
import Crunchy.Fs.Path
import Crunchy.Proofs.Ext2Lookup
import Crunchy.Proofs.TokenRuns

namespace Crunchy

open Lib List

variable {path token rest : List (BitVec 8)}

/-! ### Cutting a path -/

/-- The non-empty components of a path. -/
def components (path : List (BitVec 8)) : List (List (BitVec 8)) :=
  (path.splitOn 0x2F#8).filter (· ≠ [])

/-- The path does not end in a slash, and is not empty. -/
def EndsInName (path : List (BitVec 8)) : Prop :=
  path ≠ [] ∧ path.getLast? ≠ some 0x2F#8

instance (path : List (BitVec 8)) : Decidable (EndsInName path) :=
  inferInstanceAs (Decidable (_ ∧ _))

/-- What `strtok` cuts a path into. -/
def tokens (path : List (BitVec 8)) : List (List (BitVec 8)) :=
  components path ++ if EndsInName path then [] else [[]]

theorem components_eq_substrings (path : List (BitVec 8)) :
    components path = substrings slash path := by
  have same : (fun c => decide (c ∈ slash)) = fun c => c == 0x2F#8 := by
    funext c
    simp [slash, Bool.beq_eq_decide_eq]
  rw [components, substrings, List.splitOn, same]

theorem endsInName_iff (path : List (BitVec 8)) : EndsInName path ↔ EndsInToken slash path := by
  cases last : path.getLast? with
  | none => simp [EndsInName, EndsInToken, getLast?_eq_none_iff.mp last]
  | some c =>
    have nonempty : path ≠ [] := ne_nil_of_mem (mem_of_getLast? last)
    simp [EndsInName, EndsInToken, last, nonempty, slash]

/-- A path is cut as any string is. -/
theorem tokens_eq_returned (path : List (BitVec 8)) : tokens path = returned slash path := by
  rw [tokens, returned, components_eq_substrings]
  by_cases ends : EndsInName path
  · rw [if_pos ends, if_neg fun all => all_getLast?_iff.mp all ((endsInName_iff path).mp ends)]
  · have slashed : ¬ EndsInToken slash path := mt (endsInName_iff path).mpr ends
    rw [if_neg ends, if_pos (all_getLast?_iff.mpr slashed)]

/-! ### The loop over the tokens -/

/-- Look up one name after the other. -/
def visit (find : FindInode) (names : List (List (BitVec 8))) (parent : U32)
    (reads : List U32) : U32 × List U32 :=
  names.foldl (fun state name =>
    ((find name state.1).1, state.2 ++ (find name state.1).2)) (parent, reads)

theorem visit_append (find : FindInode) (names : List (List (BitVec 8))) (name : List (BitVec 8))
    (parent : U32) (reads : List U32) :
    visit find (names ++ [name]) parent reads =
      visit find [name] (visit find names parent reads).1 (visit find names parent reads).2 :=
  foldl_append

theorem visit_cons (find : FindInode) (name : List (BitVec 8)) (names : List (List (BitVec 8)))
    (parent : U32) (reads : List U32) :
    visit find (name :: names) parent reads =
      visit find names (find name parent).1 (reads ++ (find name parent).2) := rfl

/-- Behind the last token `strtok` returns `NULL`. -/
theorem pathizeLoop_last (find : FindInode) (fuel : Nat) (pch : List (BitVec 8)) (parent : U32)
    (reads : List U32) :
    pathizeLoop find (fuel + 1) (some pch) none parent reads =
      some (visit find [pch] parent reads) := by
  rw [pathizeLoop]
  cases fuel <;> rfl

/-- The loop looks up the tokens in order. -/
theorem pathizeLoop_eq (find : FindInode) (path : List (BitVec 8)) (fuel : Nat) (parent : U32)
    (reads : List U32) (fuelled : path.length < fuel) :
    pathizeLoop find fuel (strtok none slash (some path)).1 (strtok none slash (some path)).2
      parent reads = some (visit find (returned slash path) parent reads) := by
  obtain ⟨fuel, rfl⟩ := Nat.exists_eq_succ_of_ne_zero (Nat.ne_zero_of_lt fuelled)
  induction path using cut_induction slash generalizing fuel parent reads with
  | nil => exact pathizeLoop_last find fuel [] parent reads
  | skip c path present ih =>
    rw [strtok_skip present, returned_skip present]
    exact ih parent reads fuel (Nat.lt_of_succ_lt fuelled)
  | last c path absent =>
    rw [strtok_last (by decide) absent, returned_last absent]
    exact pathizeLoop_last find fuel (c :: path) parent reads
  | next c token d rest absent present ih =>
    rw [strtok_next absent present, returned_next absent present, visit_cons]
    rw [length_append, length_cons, length_cons] at fuelled
    obtain ⟨fuel, rfl⟩ := Nat.exists_eq_succ_of_ne_zero (show fuel ≠ 0 by omega)
    exact ih _ _ fuel (by omega)

theorem pathize_eq (find : FindInode) (ptr : Option (List (BitVec 8))) (path : List (BitVec 8)) :
    pathize find ptr path = some (visit find (tokens path) 2#32 []) := by
  rw [tokens_eq_returned]
  exact pathizeLoop_eq find path (path.length + 2) 2#32 [] (by omega)

/-! ### Directory trees -/

/-- The directories of a volume: the entries of each directory, by its inode. Names are
not empty, and no inode has the number `-1`. -/
structure DirTree where
  entries : U32 → List DirEntry
  named : ∀ dir, ∀ entry ∈ entries dir, entry.2 ≠ []
  numbered : ∀ dir, ∀ entry ∈ entries dir, entry.1 ≠ noInode

namespace DirTree

variable {tree : DirTree} {dir : U32} {name : List (BitVec 8)}
  {names more : List (List (BitVec 8))} {reads : List U32}

/-- `find_inode_in_dir` as the exact lookup. Inode 0 is not read; any other is. -/
def find (tree : DirTree) : FindInode := fun name dir =>
  if dir = 0#32 then (noInode, []) else (exactLookup (tree.entries dir) name, [dir])

/-- The inode that a sequence of names leads to, `-1` if one of them is missing, and
the inodes on the way. -/
def follow (tree : DirTree) : U32 → List (List (BitVec 8)) → U32 × List U32
  | dir, [] => (dir, [dir])
  | dir, name :: names =>
    let next := exactLookup (tree.entries dir) name
    if next = noInode then (noInode, [dir])
    else ((tree.follow next names).1, dir :: (tree.follow next names).2)

theorem follow_missing (missing : exactLookup (tree.entries dir) name = noInode) :
    tree.follow dir (name :: names) = (noInode, [dir]) := by
  rw [follow]
  exact if_pos missing

theorem follow_found (found : exactLookup (tree.entries dir) name ≠ noInode) :
    tree.follow dir (name :: names) =
      ((tree.follow (exactLookup (tree.entries dir) name) names).1,
        dir :: (tree.follow (exactLookup (tree.entries dir) name) names).2) := by
  rw [follow]
  exact if_neg found

/-- Induction along names that are all found. -/
@[elab_as_elim] theorem found_induction
    {motive : (dir : U32) → (names : List (List (BitVec 8))) →
      (tree.follow dir names).1 ≠ noInode → Prop}
    (nil : ∀ dir found, motive dir [] found)
    (cons : ∀ dir name names, exactLookup (tree.entries dir) name ≠ noInode → ∀ rest found,
      motive (exactLookup (tree.entries dir) name) names rest → motive dir (name :: names) found)
    (dir : U32) (names : List (List (BitVec 8))) (found : (tree.follow dir names).1 ≠ noInode) :
    motive dir names found := by
  induction names generalizing dir with
  | nil => exact nil dir found
  | cons name names ih =>
    by_cases here : exactLookup (tree.entries dir) name = noInode
    · rw [follow_missing here] at found
      exact absurd rfl found
    · have rest := found
      rw [follow_found here] at rest
      exact cons dir name names here rest found (ih _ rest)

/-- No entry in use has inode 0. -/
theorem exactLookup_ne_zero (entries : List DirEntry) (name : List (BitVec 8)) :
    exactLookup entries name ≠ 0#32 := by
  rw [exactLookup]
  cases found : entries.find? fun entry => entry.1 ≠ 0#32 ∧ entry.2 = name with
  | none => decide
  | some entry =>
    have inUse := find?_some found
    simp only [decide_eq_true_eq] at inUse
    exact inUse.1

/-- No entry has the empty name. -/
theorem exactLookup_nil (tree : DirTree) (dir : U32) :
    exactLookup (tree.entries dir) [] = noInode := by
  rw [exactLookup]
  cases found : (tree.entries dir).find? fun entry => entry.1 ≠ 0#32 ∧ entry.2 = [] with
  | none => rfl
  | some entry =>
    have unnamed := find?_some found
    simp only [decide_eq_true_eq] at unnamed
    exact absurd unnamed.2 (tree.named dir entry (mem_of_find?_eq_some found))

theorem find_eq (notZero : dir ≠ 0#32) :
    tree.find name dir = (exactLookup (tree.entries dir) name, [dir]) :=
  if_neg notZero

theorem visit_reads (find : FindInode) (names : List (List (BitVec 8))) (parent : U32)
    {x : U32} (isRead : x ∈ reads) : x ∈ (visit find names parent reads).2 := by
  induction names generalizing parent reads with
  | nil => exact isRead
  | cons name names ih =>
    rw [visit_cons]
    exact ih _ (mem_append_left _ isRead)

/-- A name behind a missing one is looked up in inode `-1`. -/
theorem visit_missing (notZero : dir ≠ 0#32) (notError : dir ≠ noInode)
    (missing : (tree.follow dir names).1 = noInode) (goesOn : more ≠ []) :
    noInode ∈ (visit tree.find (names ++ more) dir reads).2 := by
  induction names generalizing dir reads with
  | nil => exact absurd missing notError
  | cons name names ih =>
    rw [cons_append, visit_cons, find_eq notZero]
    by_cases here : exactLookup (tree.entries dir) name = noInode
    · have errorRead : noInode ≠ 0#32 := by decide
      obtain ⟨next, rest, isNext⟩ := exists_cons_of_ne_nil
        (append_ne_nil_of_right_ne_nil names goesOn)
      rw [here, isNext, visit_cons, find_eq errorRead]
      exact visit_reads _ _ _ (mem_append_right _ mem_cons_self)
    · rw [follow_found here] at missing
      exact ih (exactLookup_ne_zero _ _) here missing

/-- Where every name is found the lookups come to the inode, and read what is on the
way. -/
theorem visit_found (notZero : dir ≠ 0#32) (found : (tree.follow dir names).1 ≠ noInode)
    (reads : List U32) :
    (visit tree.find names dir reads).1 = (tree.follow dir names).1 ∧
      (tree.follow dir names).1 ≠ 0#32 ∧
      ∀ x ∈ (visit tree.find names dir reads).2, x ∈ reads ∨ x ∈ (tree.follow dir names).2 := by
  induction dir, names, found using found_induction generalizing reads with
  | nil dir => exact ⟨rfl, notZero, fun x isRead => Or.inl isRead⟩
  | cons dir name names here _ _ ih =>
    rw [visit_cons, find_eq notZero, follow_found here]
    obtain ⟨reached, notZero', onWay⟩ :=
      ih (exactLookup_ne_zero _ _) (reads ++ [dir])
    refine ⟨reached, notZero', fun x isRead => ?_⟩
    rcases onWay x isRead with before | later
    · rcases mem_append.mp before with old | isDir
      · exact Or.inl old
      · exact Or.inr (mem_singleton.mp isDir ▸ mem_cons_self)
    · exact Or.inr (mem_cons_of_mem dir later)

/-- The inode that is reached is on the way itself. -/
theorem follow_mem (found : (tree.follow dir names).1 ≠ noInode) :
    (tree.follow dir names).1 ∈ (tree.follow dir names).2 := by
  induction dir, names, found using found_induction with
  | nil dir => exact mem_cons_self
  | cons dir name names here _ _ ih =>
    rw [follow_found here]
    exact mem_cons_of_mem dir ih

/-- One more name. -/
theorem follow_append (found : (tree.follow dir names).1 ≠ noInode) (name : List (BitVec 8)) :
    (tree.follow dir (names ++ [name])).1 =
        exactLookup (tree.entries (tree.follow dir names).1) name ∧
      ∀ x ∈ (tree.follow dir names).2, x ∈ (tree.follow dir (names ++ [name])).2 := by
  induction dir, names, found using found_induction with
  | nil dir =>
    rw [nil_append]
    by_cases here : exactLookup (tree.entries dir) name = noInode
    · rw [follow_missing here]
      exact ⟨here.symm, fun x onWay => onWay⟩
    · rw [follow_found here]
      exact ⟨rfl, fun x onWay => mem_singleton.mp onWay ▸ mem_cons_self⟩
  | cons dir first names here _ _ ih =>
    obtain ⟨reached, onWay⟩ := ih
    rw [cons_append, follow_found here, follow_found here]
    refine ⟨reached, fun x isOn => ?_⟩
    rcases mem_cons.mp isOn with rfl | later
    · exact mem_cons_self
    · exact mem_cons_of_mem _ (onWay x later)

/-- `-1` is on no way. -/
theorem noInode_not_on_way (notError : dir ≠ noInode) :
    noInode ∉ (tree.follow dir names).2 := by
  induction names generalizing dir with
  | nil => exact fun onWay => notError (mem_singleton.mp onWay).symm
  | cons name names ih =>
    by_cases here : exactLookup (tree.entries dir) name = noInode
    · rw [follow_missing here]
      exact fun onWay => notError (mem_singleton.mp onWay).symm
    · rw [follow_found here]
      intro onWay
      rcases mem_cons.mp onWay with isDir | later
      · exact notError isDir.symm
      · exact ih here later

/-- The last name is looked up as well, whether it is there or not. -/
theorem visit_last (notZero : dir ≠ 0#32) (found : (tree.follow dir names).1 ≠ noInode)
    (name : List (BitVec 8)) :
    (visit tree.find (names ++ [name]) dir []).1 = (tree.follow dir (names ++ [name])).1 ∧
      ∀ x ∈ (visit tree.find (names ++ [name]) dir []).2,
        x ∈ (tree.follow dir (names ++ [name])).2 := by
  obtain ⟨isThere, notZero', onWay⟩ := visit_found notZero found []
  obtain ⟨reached, wayOn⟩ := follow_append found name
  rw [visit_append, visit_cons, isThere, find_eq notZero']
  refine ⟨reached.symm, fun x isRead => wayOn x ?_⟩
  rcases mem_append.mp isRead with before | isDir
  · exact (onWay x before).resolve_left not_mem_nil
  · rw [mem_singleton.mp isDir]
    exact follow_mem found

end DirTree

/-! ### Resolution -/

/-- The call returns the inode that the path's components lead to from inode 2, and
reads no inode but those on the way. -/
def Resolves (tree : DirTree) (ptr : Option (List (BitVec 8))) (path : List (BitVec 8)) : Prop :=
  ∃ inode reads, pathize tree.find ptr path = some (inode, reads) ∧
    inode = (tree.follow 2#32 (components path)).1 ∧
    ∀ x ∈ reads, x ∈ (tree.follow 2#32 (components path)).2

theorem resolves_iff (tree : DirTree) (ptr : Option (List (BitVec 8))) (path : List (BitVec 8)) :
    Resolves tree ptr path ↔
      (visit tree.find (tokens path) 2#32 []).1 = (tree.follow 2#32 (components path)).1 ∧
      ∀ x ∈ (visit tree.find (tokens path) 2#32 []).2,
        x ∈ (tree.follow 2#32 (components path)).2 := by
  rw [Resolves, pathize_eq]
  constructor
  · rintro ⟨inode, reads, ran, isInode, onWay⟩
    rw [Option.some.inj ran]
    exact ⟨isInode, onWay⟩
  · rintro ⟨isInode, onWay⟩
    exact ⟨_, _, rfl, isInode, onWay⟩

theorem tokens_of_endsInName (ends : EndsInName path) : tokens path = components path := by
  rw [tokens, if_pos ends, append_nil]

theorem tokens_of_not_endsInName (slashed : ¬ EndsInName path) :
    tokens path = components path ++ [[]] := by
  rw [tokens, if_neg slashed]

theorem EndsInName.components_ne_nil (ends : EndsInName path) : components path ≠ [] :=
  tokens_of_endsInName ends ▸ tokens_eq_returned path ▸ returned_ne_nil slash path

/-- A path that ends in a slash, or is empty, is not resolved. -/
theorem not_resolves_of_slash (tree : DirTree) (ptr : Option (List (BitVec 8)))
    (ends : ¬ EndsInName path) : ¬ Resolves tree ptr path := by
  rw [resolves_iff, tokens_of_not_endsInName ends]
  rintro ⟨reached, onWay⟩
  by_cases found : (tree.follow 2#32 (components path)).1 = noInode
  · exact DirTree.noInode_not_on_way (by decide)
      (onWay _ (DirTree.visit_missing (by decide) (by decide) found (cons_ne_nil _ _)))
  · -- the empty name is looked up in the inode that was reached
    obtain ⟨isThere, notZero, _⟩ := DirTree.visit_found (by decide) found []
    rw [visit_append, isThere, visit_cons, DirTree.find_eq notZero, tree.exactLookup_nil] at reached
    exact found reached.symm

/-- A path with a component missing before its last one is not resolved. -/
theorem not_resolves_of_missing (tree : DirTree) (ptr : Option (List (BitVec 8)))
    (ends : EndsInName path)
    (missing : (tree.follow 2#32 (components path).dropLast).1 = noInode) :
    ¬ Resolves tree ptr path := by
  rw [resolves_iff, tokens_of_endsInName ends]
  rintro ⟨_, onWay⟩
  have parts := dropLast_append_getLast ends.components_ne_nil
  have isRead : noInode ∈ (visit tree.find (components path) 2#32 []).2 :=
    parts ▸ DirTree.visit_missing (by decide) (by decide) missing (cons_ne_nil _ _)
  exact DirTree.noInode_not_on_way (by decide) (onWay _ isRead)

/-- `pathize` resolves a path exactly when the path ends in a name, not in a slash, and
none of its components but the last is missing. -/
theorem path_resolved_iff (tree : DirTree) (ptr : Option (List (BitVec 8)))
    (path : List (BitVec 8)) :
    Resolves tree ptr path ↔
      EndsInName path ∧ (tree.follow 2#32 (components path).dropLast).1 ≠ noInode := by
  constructor
  · intro resolves
    by_cases ends : EndsInName path
    · exact ⟨ends, fun missing => not_resolves_of_missing tree ptr ends missing resolves⟩
    · exact absurd resolves (not_resolves_of_slash tree ptr ends)
  · rintro ⟨ends, found⟩
    have resolved :=
      DirTree.visit_last (by decide) found ((components path).getLast ends.components_ne_nil)
    rw [dropLast_append_getLast] at resolved
    rw [resolves_iff, tokens_of_endsInName ends]
    exact resolved

/-- The root holds a directory `a`, inode 11, and that a file `b`, inode 12. -/
def nestedEntries (dir : U32) : List DirEntry :=
  if dir = 2#32 then [(11#32, [0x61#8])] else if dir = 11#32 then [(12#32, [0x62#8])] else []

theorem nestedEntries_valid {dir : U32} {entry : DirEntry} (isEntry : entry ∈ nestedEntries dir) :
    entry.2 ≠ [] ∧ entry.1 ≠ noInode := by
  rw [nestedEntries] at isEntry
  split at isEntry
  · rw [mem_singleton.mp isEntry]
    decide
  · split at isEntry
    · rw [mem_singleton.mp isEntry]
      decide
    · exact absurd isEntry not_mem_nil

def nestedTree : DirTree where
  entries := nestedEntries
  named _ _ isEntry := (nestedEntries_valid isEntry).1
  numbered _ _ isEntry := (nestedEntries_valid isEntry).2

/-- `//a//b` is inode 12. -/
theorem nested_path_resolved :
    nestedTree.follow 2#32 (components [0x2F#8, 0x2F#8, 0x61#8, 0x2F#8, 0x2F#8, 0x62#8]) =
        (12#32, [2#32, 11#32, 12#32]) ∧
      Resolves nestedTree none [0x2F#8, 0x2F#8, 0x61#8, 0x2F#8, 0x2F#8, 0x62#8] :=
  ⟨by decide, (path_resolved_iff _ _ _).mpr ⟨by decide, by decide⟩⟩

/-- `a/` is inode 11, but the empty name behind the slash is looked up as well and `-1`
is returned. For `b/a`, where `b` is missing, inode `-1` is read. -/
theorem slash_and_missing_not_resolved :
    (pathize nestedTree.find none [0x61#8, 0x2F#8] = some (noInode, [2#32, 11#32]) ∧
      nestedTree.follow 2#32 (components [0x61#8, 0x2F#8]) = (11#32, [2#32, 11#32]) ∧
      ¬ Resolves nestedTree none [0x61#8, 0x2F#8]) ∧
    (pathize nestedTree.find none [0x62#8, 0x2F#8, 0x61#8] = some (noInode, [2#32, noInode]) ∧
      nestedTree.follow 2#32 (components [0x62#8, 0x2F#8, 0x61#8]) = (noInode, [2#32]) ∧
      ¬ Resolves nestedTree none [0x62#8, 0x2F#8, 0x61#8]) := by
  refine ⟨⟨by decide, by decide, ?_⟩, by decide, by decide, ?_⟩
  · exact not_resolves_of_slash nestedTree none (by decide)
  · exact not_resolves_of_missing nestedTree none (by decide) (by decide)

end Crunchy
