/-
Module: Crunchy.Proofs.TokenRuns
Purpose: What a whole run of `strtok` calls over one string returns: its maximal substrings
  without a delimiter, and an empty one more where the string does not end in one of them.
Trusted boundary: none
Main exports: substrings, EndsInToken, returned, strtokRun, strtokRun_eq, strtok_run_iff
-/
import Crunchy.Proofs.Tokens
import Mathlib.Data.List.Basic

namespace Crunchy

open Option List

variable {s delim token rest : List (BitVec 8)} {c d : BitVec 8}

/-! ### The specification -/

/-- The maximal non-empty substrings without a delimiter, in order. -/
def substrings (delim s : List (BitVec 8)) : List (List (BitVec 8)) :=
  (s.splitOnP fun c => c ∈ delim).filter (· ≠ [])

/-- The string is not empty and does not end in a delimiter. -/
def EndsInToken (delim s : List (BitVec 8)) : Prop := ∃ c, s.getLast? = some c ∧ c ∉ delim

/-- The substrings, and an empty one behind a delimiter at the end. -/
def returned (delim s : List (BitVec 8)) : List (List (BitVec 8)) :=
  substrings delim s ++
    if s.getLast?.all fun c => c ∈ delim then [[]] else []

/-- `strtok(s, delim)` and then `strtok(NULL, delim)` again and again: what call `j` returns
and the pointer that it keeps. `ptr` is the pointer from before. -/
def strtokRun (delim s : List (BitVec 8)) (ptr : Option (List (BitVec 8))) :
    (j : Nat) → Option (List (BitVec 8)) × Option (List (BitVec 8))
  | 0 => strtok (some s) delim ptr
  | j + 1 => strtok none delim (strtokRun delim s ptr j).2

/-! ### One token -/

theorem returned_nil (delim : List (BitVec 8)) : returned delim [] = [[]] := rfl

theorem substrings_next (absent : ∀ x ∈ token, x ∉ delim) (present : d ∈ delim) :
    substrings delim (token ++ d :: rest) =
      [token].filter (· ≠ []) ++ substrings delim rest := by
  have split := splitOnP_append_cons_of_forall_mem (p := fun c => decide (c ∈ delim))
    (fun x inside => decide_eq_false (absent x inside)) d (decide_eq_true present) rest
  rw [substrings, split, ← singleton_append, filter_append]
  rfl

theorem all_getLast?_append :
    ((token ++ d :: rest).getLast?.all fun c => c ∈ delim) =
      ((d :: rest).getLast?.all fun c => c ∈ delim) := by
  rw [getLast?_append_cons]

theorem all_getLast?_cons (present : d ∈ delim) :
    ((d :: rest).getLast?.all fun c => c ∈ delim) = rest.getLast?.all fun c => c ∈ delim := by
  cases rest <;> simp [present]

theorem returned_skip (present : c ∈ delim) : returned delim (c :: s) = returned delim s := by
  have same : substrings delim ([] ++ c :: s) = [[]].filter (· ≠ []) ++ substrings delim s :=
    substrings_next (fun x => nofun) present
  rw [nil_append, filter_cons_of_neg (by simp), filter_nil, nil_append] at same
  rw [returned, same, all_getLast?_cons present, returned]

theorem returned_last (absent : ∀ x ∈ c :: s, x ∉ delim) : returned delim (c :: s) = [c :: s] := by
  have one : substrings delim (c :: s) = [c :: s] := by
    rw [substrings, splitOnP_eq_singleton fun x inside => decide_eq_false (absent x inside),
      filter_cons_of_pos (by simp), filter_nil]
  have ends : ¬ ((c :: s).getLast?.all fun c => c ∈ delim) = true := by
    have last := getLast_mem (cons_ne_nil c s)
    rw [getLast?_eq_some_getLast (cons_ne_nil c s), all_some, decide_eq_true_iff]
    exact absent _ last
  rw [returned, one, if_neg ends, append_nil]

theorem returned_next (absent : ∀ x ∈ c :: token, x ∉ delim) (present : d ∈ delim) :
    returned delim (c :: token ++ d :: rest) = (c :: token) :: returned delim rest := by
  rw [returned, substrings_next absent present, all_getLast?_append, all_getLast?_cons present,
    filter_cons_of_pos (by simp), filter_nil, append_assoc, singleton_append, returned]

theorem returned_ne_nil (delim s : List (BitVec 8)) : returned delim s ≠ [] := by
  induction s using cut_induction delim with
  | nil => exact cons_ne_nil _ _
  | skip c s present ih =>
    rw [returned_skip present]
    exact ih
  | last c s absent =>
    rw [returned_last absent]
    exact cons_ne_nil _ _
  | next c token d rest absent present =>
    rw [returned_next absent present]
    exact cons_ne_nil _ _

/-! ### The run -/

/-- The first call and the pointer it keeps. -/
theorem strtok_some (s delim : List (BitVec 8)) (ptr : Option (List (BitVec 8))) :
    strtok (some s) delim ptr = strtok none delim (some s) := rfl

/-- A run is its first call, and the run over what that one keeps. -/
theorem strtokRun_succ (delim s : List (BitVec 8)) (ptr : Option (List (BitVec 8)))
    {rest : List (BitVec 8)} (kept : (strtok none delim (some s)).2 = some rest) (j : Nat) :
    strtokRun delim s ptr (j + 1) = strtokRun delim rest none j := by
  induction j with
  | zero =>
    show strtok none delim (strtok none delim (some s)).2 = strtok none delim (some rest)
    rw [kept]
  | succ j ih => rw [strtokRun, ih, strtokRun]

/-- Once `NULL` is kept, `NULL` is returned for ever. -/
theorem strtokRun_null (delim s : List (BitVec 8)) (ptr : Option (List (BitVec 8)))
    (kept : (strtok none delim (some s)).2 = none) (j : Nat) :
    strtokRun delim s ptr (j + 1) = (none, none) := by
  induction j with
  | zero =>
    show strtok none delim (strtok none delim (some s)).2 = (none, none)
    rw [kept]
    rfl
  | succ j ih =>
    rw [strtokRun, ih]
    rfl

/-- The results of a run whose first call is the last one that finds something. -/
theorem strtokRun_single {ptr : Option (List (BitVec 8))}
    (cut : strtok none delim (some s) = (some token, none)) (j : Nat) :
    (strtokRun delim s ptr j).1 = [token][j]? := by
  cases j with
  | zero =>
    rw [strtokRun, strtok_some, cut]
    rfl
  | succ j =>
    rw [strtokRun_null delim s ptr (congrArg Prod.snd cut) j]
    rfl

/-- Skipping a delimiter is part of the first call. -/
theorem strtokRun_skip (present : c ∈ delim) (ptr : Option (List (BitVec 8))) (j : Nat) :
    strtokRun delim (c :: s) ptr j = strtokRun delim s ptr j := by
  induction j with
  | zero => rw [strtokRun, strtokRun, strtok_some, strtok_some, strtok_skip present]
  | succ j ih => rw [strtokRun, ih, strtokRun]

/-- What the calls return, for every string. -/
theorem strtokRun_eq (noNul : 0#8 ∉ delim) (s : List (BitVec 8))
    (ptr : Option (List (BitVec 8))) (j : Nat) :
    (strtokRun delim s ptr j).1 = (returned delim s)[j]? := by
  induction s using cut_induction delim generalizing ptr j with
  | nil =>
    rw [returned_nil]
    exact strtokRun_single rfl j
  | skip c s present ih =>
    rw [strtokRun_skip present, returned_skip present]
    exact ih ptr j
  | last c s absent =>
    rw [returned_last absent]
    exact strtokRun_single (strtok_last noNul absent) j
  | next c token d rest absent present ih =>
    have cut : strtok none delim (some (c :: token ++ d :: rest)) =
        (some (c :: token), some rest) := strtok_next absent present
    rw [returned_next absent present]
    cases j with
    | zero =>
      rw [strtokRun, strtok_some, cut]
      rfl
    | succ j =>
      rw [strtokRun_succ delim _ ptr (congrArg Prod.snd cut), getElem?_cons_succ]
      exact ih none j

/-! ### Which strings are cut right -/

theorem all_getLast?_iff : (s.getLast?.all fun c => c ∈ delim) = true ↔ ¬ EndsInToken delim s := by
  cases last : s.getLast? <;> simp [EndsInToken, last]

theorem returned_eq_substrings_iff :
    returned delim s = substrings delim s ↔ EndsInToken delim s := by
  rw [returned]
  by_cases ends : EndsInToken delim s
  · rw [if_neg (by rw [all_getLast?_iff]; exact not_not.mpr ends), append_nil]
    exact iff_of_true rfl ends
  · rw [if_pos (all_getLast?_iff.mpr ends)]
    refine iff_of_false (fun same => ?_) ends
    simpa using congrArg List.length same

/-- The calls return the substrings in order and then `NULL` for ever exactly for the strings
that end in one of the substrings. -/
theorem strtok_run_iff (delim s : List (BitVec 8)) (ptr : Option (List (BitVec 8)))
    (noNul : 0#8 ∉ delim) :
    (∀ j, (strtokRun delim s ptr j).1 = (substrings delim s)[j]?) ↔ EndsInToken delim s := by
  rw [← returned_eq_substrings_iff, List.ext_getElem?_iff]
  simp only [strtokRun_eq noNul]

/-- `"a,,b"`. -/
theorem strtok_run_ab :
    (∀ j, (strtokRun [44#8] [97#8, 44#8, 44#8, 98#8] none j).1 =
      (substrings [44#8] [97#8, 44#8, 44#8, 98#8])[j]?) ∧
    substrings [44#8] [97#8, 44#8, 44#8, 98#8] = [[97#8], [98#8]] :=
  ⟨(strtok_run_iff [44#8] [97#8, 44#8, 44#8, 98#8] none (by decide)).mpr
    ⟨98#8, by decide, by decide⟩, by decide⟩

/-- `"a,"`: the second call returns an empty string and not `NULL`. -/
theorem strtok_trailing_delimiter :
    ¬ ∀ (delim s : List (BitVec 8)) (ptr : Option (List (BitVec 8))), delim ≠ [] → 0#8 ∉ delim →
      0#8 ∉ s → ∀ j, (strtokRun delim s ptr j).1 = (substrings delim s)[j]? := by
  intro all
  have second := all [44#8] [97#8, 44#8] none (by decide) (by decide) (by decide) 1
  exact absurd second (by decide)

end Crunchy
