/-
Module: Crunchy.Proofs.Tokens
Purpose: What `strtok` cuts a string into. A string starts with a delimiter, or with a token,
  which the string ends in or which a delimiter ends.
Trusted boundary: none
Main exports: strtok_skip, strtok_last, strtok_next, cut_induction, Libc.strcmp_eq_zero_iff
-/
import Crunchy.Strings

namespace Crunchy

open List

variable {s delim token rest : List (BitVec 8)} {c d : BitVec 8}

/-! ### Characters in a string -/

theorem strchr_eq_none (absent : c ∉ s) : strchr s c = none := by
  induction s with
  | nil => rfl
  | cons x s ih =>
    rw [mem_cons, not_or] at absent
    rw [strchr, if_neg (Ne.symm absent.1), ih absent.2]

/-- The pointer to a character. -/
theorem strchr_of_mem (present : c ∈ s) :
    ∃ rest, strchr s c = some rest ∧ s = (s.takeWhile fun x => x ≠ c) ++ rest := by
  induction s with
  | nil => exact absurd present not_mem_nil
  | cons x s ih =>
    by_cases here : x = c
    · exact ⟨x :: s, by rw [strchr, if_pos here], by simp [here]⟩
    · have later : c ∈ s := (mem_cons.mp present).resolve_left (Ne.symm here)
      obtain ⟨rest, found, split⟩ := ih later
      refine ⟨rest, by rw [strchr, if_neg here, found], ?_⟩
      rw [takeWhile_cons_of_pos (by simpa using here), cons_append, ← split]

/-- What is in front of a pointer. -/
theorem take_front {front : List (BitVec 8)} (split : s = front ++ rest) :
    s.take (s.length - rest.length) = front := by
  rw [split, length_append, Nat.add_sub_cancel, take_left]

theorem strspn_of_mem (present : c ∈ delim) : strspn (c :: s) delim = strspn s delim + 1 := by
  obtain ⟨rest, found, _⟩ := strchr_of_mem present
  rw [strspn, found, if_neg nofun]

theorem strspn_of_notMem (absent : c ∉ delim) : strspn (c :: s) delim = 0 := by
  rw [strspn, strchr_eq_none absent, if_pos rfl]

theorem strpbrk_skip (absent : d ∉ delim) :
    strpbrk (c :: d :: s) delim = strpbrk (d :: s) delim := by
  rw [strpbrk, if_neg]
  rw [headD_cons, any_eq_true]
  rintro ⟨x, inside, same⟩
  exact absent (of_decide_eq_true same ▸ inside)

theorem strpbrk_none (c : BitVec 8) (noNul : 0#8 ∉ delim) (absent : ∀ x ∈ s, x ∉ delim) :
    strpbrk (c :: s) delim = none := by
  induction s generalizing c with
  | nil =>
    rw [strpbrk, if_neg]
    · rfl
    · rw [headD_nil, any_eq_true]
      rintro ⟨x, inside, same⟩
      exact noNul (of_decide_eq_true same ▸ inside)
  | cons x s ih =>
    rw [strpbrk_skip (absent x mem_cons_self),
      ih x fun y inside => absent y (mem_cons_of_mem x inside)]

theorem strpbrk_append (c : BitVec 8) (absent : ∀ x ∈ token, x ∉ delim) (present : d ∈ delim) :
    strpbrk (c :: (token ++ d :: rest)) delim = some (d :: rest) := by
  induction token generalizing c with
  | nil =>
    rw [nil_append, strpbrk, if_pos]
    rw [headD_cons, any_eq_true]
    exact ⟨d, present, decide_eq_true rfl⟩
  | cons x token ih =>
    rw [cons_append, strpbrk_skip (absent x mem_cons_self),
      ih x fun y inside => absent y (mem_cons_of_mem x inside)]

/-! ### Tokens -/

theorem strtok_skip (present : c ∈ delim) :
    strtok none delim (some (c :: s)) = strtok none delim (some s) := by
  simp only [strtok, strspn_of_mem present, drop_succ_cons]

theorem strtok_last (noNul : 0#8 ∉ delim) (absent : ∀ x ∈ c :: s, x ∉ delim) :
    strtok none delim (some (c :: s)) = (some (c :: s), none) := by
  rw [forall_mem_cons] at absent
  simp only [strtok, strspn_of_notMem absent.1, drop_zero, strpbrk_none c noNul absent.2]

theorem strtok_next (absent : ∀ x ∈ c :: token, x ∉ delim) (present : d ∈ delim) :
    strtok none delim (some (c :: token ++ d :: rest)) = (some (c :: token), some rest) := by
  rw [forall_mem_cons] at absent
  have cutOff : (c :: (token ++ d :: rest)).length - (d :: rest).length = (c :: token).length := by
    simp only [length_cons, length_append]
    omega
  rw [cons_append]
  simp only [strtok, strspn_of_notMem absent.1, drop_zero,
    strpbrk_append c absent.2 present, cutOff, tail_cons]
  rw [← cons_append, take_left]

theorem strpbrk_shorter (s delim : List (BitVec 8)) :
    ∀ t, strpbrk s delim = some t → t.length < s.length := by
  induction s with
  | nil => exact fun t found => nomatch found
  | cons c s ih =>
    intro t found
    rw [strpbrk] at found
    split_ifs at found
    · exact Option.some.inj found ▸ Nat.lt_succ_self s.length
    · exact Nat.lt_succ_of_lt (ih t found)

/-- Each call leaves less for the next one. -/
theorem strtok_shorter {text : Option (List (BitVec 8))}
    (cut : strtok none delim (some s) = (text, some rest)) : rest.length < s.length := by
  simp only [strtok] at cut
  split at cut
  · rename_i t found
    have shorter := strpbrk_shorter _ _ t found
    have same : t.tail = rest := Option.some.inj (Prod.mk.inj cut).2
    rw [← same, length_tail]
    rw [length_drop] at shorter
    omega
  · exact nomatch (Prod.mk.inj cut).2

/-- A string is empty, or starts with a delimiter, or with a token, which the string ends in or
which a delimiter ends. -/
theorem cut_induction (delim : List (BitVec 8)) {motive : List (BitVec 8) → Prop}
    (nil : motive [])
    (skip : ∀ c s, c ∈ delim → motive s → motive (c :: s))
    (last : ∀ c s, (∀ x ∈ c :: s, x ∉ delim) → motive (c :: s))
    (next : ∀ c token d rest, (∀ x ∈ c :: token, x ∉ delim) → d ∈ delim → motive rest →
      motive (c :: token ++ d :: rest))
    (s : List (BitVec 8)) : motive s := by
  -- by the length: a token and its delimiter are cut off at once
  induction length : s.length using Nat.strong_induction_on generalizing s with
  | _ n ih =>
    subst length
    match s with
    | [] => exact nil
    | c :: s =>
      by_cases isDelim : c ∈ delim
      · exact skip c s isDelim (ih _ (Nat.lt_succ_self _) s rfl)
      · match found : s.find? fun x => x ∈ delim with
        | some d =>
          obtain ⟨isDelim', token, rest, rfl, before⟩ :=
            find?_eq_some_iff_append.mp found
          have absent : ∀ x ∈ c :: token, x ∉ delim := by
            refine forall_mem_cons.mpr ⟨isDelim, fun x inside => ?_⟩
            simpa using before x inside
          exact next c token d rest absent (of_decide_eq_true isDelim')
            (ih _ (by simp; omega) rest rfl)
        | none =>
          refine last c s (forall_mem_cons.mpr ⟨isDelim, fun x inside => ?_⟩)
          simpa using find?_eq_none.mp found x inside

/-! ### The comparison of the user library -/

/-- Only the characters of the first string are compared. -/
theorem Libc.strcmp_eq_zero_iff {s t : List (BitVec 8)} (noNul : 0#8 ∉ s) :
    Libc.strcmp s t = 0 ↔ s <+: t := by
  rw [Libc.strcmp]
  induction s generalizing t with
  | nil => simp [Libc.strncmp]
  | cons c s ih =>
    rw [mem_cons, not_or] at noNul
    rw [length_cons, Libc.strncmp, headD_cons, tail_cons]
    cases t with
    | nil =>
      rw [headD_nil, if_pos (Ne.symm noNul.1), prefix_nil]
      split_ifs <;> simp
    | cons d t =>
      rw [headD_cons, tail_cons, cons_prefix_cons]
      by_cases same : c = d
      · rw [if_neg (not_not.mpr same), if_neg (Ne.symm noNul.1), ih noNul.2]
        simp [same]
      · rw [if_pos same]
        split_ifs <;> simp [same]

end Crunchy
