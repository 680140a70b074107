/-
Module: Crunchy.Strings
Purpose: The functions of `kernel/lib/string.c` that the modelled code calls, and the
  comparison of `libc/usr/string`.
Trusted boundary: human-reviewed spec
Main exports: strncmp, memcmp, memcpy, memset, strlen, strncpy, strcpy, strrev, strpbrk, strstr,
  strtok, CString
-/
import Crunchy.Lib.Bytes

namespace Crunchy

open Lib BitVec List

variable {c : BitVec 16} {b memory s1 s2 : Bytes} {dest i k n s src t : Nat}

/-- The loop of `strncmp`, `left` rounds before `i` reaches `n`. It does not stop at a
`NUL`. -/
def strncmpLoop (s1 s2 : Bytes) : (left i : Nat) → Int
  | 0, _ => 0
  | left + 1, i =>
    if s1 i ≠ s2 i then (s1 i).toNat - (s2 i).toNat else strncmpLoop s1 s2 left (i + 1)

/-- `strncmp(s1, s2, n)`. -/
def strncmp (s1 s2 : Bytes) (n : Nat) : Int := strncmpLoop s1 s2 n 0

/-- `strcmp(s1, s2)` of a string and the memory from a pointer on. Only the characters of `s1`
are compared. -/
def strcmp (s1 : List (BitVec 8)) (s2 : Bytes) : Int :=
  strncmp (fun i => s1.getD i 0#8) s2 s1.length

/-- The bytes from a pointer on that are the string `s`. -/
structure CString (memory : Bytes) (s : List (BitVec 8)) : Prop where
  chars : ∀ j, (inside : j < s.length) → memory j = s[j]
  terminated : memory s.length = 0#8
  noNul : 0#8 ∉ s

/-- Only the characters and the `NUL` count. -/
theorem CString.congr {memory' : Bytes} {s : List (BitVec 8)}
    (same : ∀ i ≤ s.length, memory i = memory' i) : CString memory s ↔ CString memory' s := by
  constructor
  · intro string
    exact ⟨fun j inside => (same j (by omega)).symm.trans (string.chars j inside),
      (same _ (Nat.le_refl _)).symm.trans string.terminated, string.noNul⟩
  · intro string
    exact ⟨fun j inside => (same j (by omega)).trans (string.chars j inside),
      (same _ (Nat.le_refl _)).trans string.terminated, string.noNul⟩

/-- A string is its first `m` characters and the string behind them. -/
theorem CString.split_iff {s : List (BitVec 8)} {m : Nat} (noNul : 0#8 ∉ s) (ends : m ≤ s.length) :
    CString memory s ↔
      (∀ j, (inside : j < m) → memory j = s[j]) ∧
        CString (fun i => memory (m + i)) (s.drop m) := by
  constructor
  · intro string
    refine ⟨fun j inside => string.chars j (by omega), fun j inside => ?_, ?_,
      fun member => noNul (mem_of_mem_drop member)⟩
    · rw [length_drop] at inside
      rw [getElem_drop]
      exact string.chars (m + j) (by omega)
    · rw [length_drop, Nat.add_sub_cancel' ends]
      exact string.terminated
  · rintro ⟨front, rest⟩
    refine ⟨fun j inside => ?_, ?_, noNul⟩
    · by_cases early : j < m
      · exact front j early
      · have char := rest.chars (j - m) (by rw [length_drop]; omega)
        simp only [getElem_drop, Nat.add_sub_cancel' (Nat.le_of_not_lt early)] at char
        exact char
    · have zero := rest.terminated
      rw [length_drop, Nat.add_sub_cancel' ends] at zero
      exact zero

/-- The loop of `memcmp`, `n` rounds before the count is 0. The bytes are compared before they
are counted. -/
def memcmpLoop (s1 s2 : Bytes) : (n i : Nat) → Int
  | 0, i => (s1 i).toNat - (s2 i).toNat
  | n + 1, i =>
    if s1 i = s2 i then memcmpLoop s1 s2 n (i + 1) else (s1 i).toNat - (s2 i).toNat

/-- `memcmp(s1, s2, n)`. -/
def memcmp (s1 s2 : Bytes) (n : Nat) : Int := memcmpLoop s1 s2 n 0

/-- The loop of `memchr`, `n` rounds before the count is 0. The pointer has moved on when it is
returned. -/
def memchrLoop (b : Bytes) (c : BitVec 8) : (n i : Nat) → Option Nat
  | 0, _ => none
  | n + 1, i => if b i = c then some (i + 1) else memchrLoop b c n (i + 1)

/-- `memchr(s, c, n)`: a pointer as an offset from `s`, `none` for `NULL`. -/
def memchr (b : Bytes) (c : BitVec 8) (n : Nat) : Option Nat := memchrLoop b c n 0

/-! ### Copying and filling -/

/-- The loop of `memcpy`, `left` rounds before `i` reaches `n`. Source and destination
may overlap. -/
def memcpyLoop (dest src : Nat) : (left i : Nat) → Bytes → Bytes
  | 0, _, b => b
  | left + 1, i, b => memcpyLoop dest src left (i + 1) (put8 b (dest + i) (b (src + i)))

/-- `memcpy(dest, src, n)`. -/
def memcpy (b : Bytes) (dest src n : Nat) : Bytes := memcpyLoop dest src n 0 b

/-- `memset(dest, c, n)`. -/
def memset (b : Bytes) (dest : Nat) (c : BitVec 8) : (n : Nat) → Bytes
  | 0 => b
  | n + 1 => memset (put8 b dest c) (dest + 1) c n

/-- `memsetw(dest, c, n)`: `n` words of 16 bits. -/
def memsetw (b : Bytes) (dest : Nat) (c : BitVec 16) : (n : Nat) → Bytes
  | 0 => b
  | n + 1 => memsetw (put16 b dest c) (dest + 2) c n

/-- The loop of `strlen`; `none` for one that finds no `NUL`. -/
def strlenLoop (b : Bytes) (s : Nat) : (fuel i : Nat) → Option Nat
  | 0, _ => none
  | fuel + 1, i => if b (s + i) = 0#8 then some i else strlenLoop b s fuel (i + 1)

/-- `strlen(s)`. There are `2 ^ 32` bytes in all. -/
def strlen (b : Bytes) (s : Nat) : Option Nat := strlenLoop b s (2 ^ 32) 0

/-- The first loop of `strncpy`, `left` rounds before `i` reaches `n`. At a `NUL` the
second one fills up with zeros. -/
def strncpyLoop (dest src : Nat) : (left i : Nat) → Bytes → Bytes
  | 0, _, b => b
  | left + 1, i, b =>
    if b (src + i) ≠ 0#8 then
      strncpyLoop dest src left (i + 1) (put8 b (dest + i) (b (src + i)))
    else memset b (dest + i) 0#8 (left + 1)

/-- `strncpy(dest, src, n)`. It takes an `uint16_t`, and writes no `NUL` behind the `n`
bytes. -/
def strncpy (b : Bytes) (dest src : Nat) (n : BitVec 16) : Bytes :=
  strncpyLoop dest src n.toNat 0 b

/-- `strcpy(dest, src)`. -/
def strcpy (b : Bytes) (dest src : Nat) : Option Bytes :=
  (strlen b src).map fun n => strncpy b dest src (BitVec.ofNat 16 n)

/-- The loop of `strrev` on a string of `len` characters, `left` rounds before the end: swap
`s[i]` and `s[length - i]`, where `length` is `len - 1`. -/
def strrevLoop (s len : Nat) : (left i : Nat) → Bytes → Bytes
  | 0, _, b => b
  | left + 1, i, b =>
    let temp := b (s + i)
    let b := put8 b (s + i) (b (s + len - 1 - i))
    strrevLoop s len left (i + 1) (put8 b (s + len - 1 - i) temp)

/-- The rounds of this loop. `length` is an `int`: for the empty string it is -1 and `length / 2`
is 0, so that there is one round, which swaps `s[0]` and the byte before it, and for a string of
more than `2 ^ 31` characters it is less, so that there is none. -/
def strrevRounds (len : Nat) : Nat := ((BitVec.ofNat 32 len - 1#32).toInt.tdiv 2 + 1).toNat

/-- `strrev(s)`. -/
def strrev (b : Bytes) (s : Nat) : Option Bytes :=
  (strlen b s).map fun len => strrevLoop s len (strrevRounds len) 0 b

/-! ### Cutting a string

A `char*` into a string is the characters from there to the `NUL`. -/

/-- `strchr(s, c)`. -/
def strchr : (s : List (BitVec 8)) → (c : BitVec 8) → Option (List (BitVec 8))
  | [], _ => none
  | x :: s, c => if x = c then some (x :: s) else strchr s c

/-- `strspn(s1, s2)`. -/
def strspn : (s1 s2 : List (BitVec 8)) → Nat
  | [], _ => 0
  | x :: s1, s2 => if strchr s2 x = none then 0 else strspn s1 s2 + 1

/-- `strpbrk(s, delim)`. The pointer moves on before the first character is compared. -/
def strpbrk : (s delim : List (BitVec 8)) → Option (List (BitVec 8))
  | [], _ => none
  | _ :: s, delim =>
    if delim.any fun c => s.headD 0#8 = c then some s else strpbrk s delim

/-- `strstr(s1, s2)`. The pointer moves on before the first comparison, as in `strpbrk`. -/
def strstr : (s1 s2 : List (BitVec 8)) → Option (List (BitVec 8))
  | [], _ => none
  | _ :: s1, s2 =>
    if strncmp (fun i => s1.getD i 0#8) (fun i => s2.getD i 0#8) s2.length = 0 then some s1
    else strstr s1 s2

/-- `strtok(s, delim)`, with the pointer it keeps between calls; `none` for `NULL`. The
`NUL` it writes ends the token it returns. -/
def strtok (s : Option (List (BitVec 8))) (delim : List (BitVec 8))
    (ptr : Option (List (BitVec 8))) : Option (List (BitVec 8)) × Option (List (BitVec 8)) :=
  let ptr := match s with
    | some s => some s
    | none => ptr
  match ptr with
  | none => (none, none)
  | some ptr =>
    let ptr := ptr.drop (strspn ptr delim)
    match strpbrk ptr delim with
    | some t => (some (ptr.take (ptr.length - t.length)), some t.tail)
    | none => (some ptr, none)

/-! ### The comparison of the user library

`libc/usr/string` has the same `memcmp`, `memchr`, `strchr`, `strspn`, `strpbrk` and `strtok`,
and a `strncmp` that stops at a `NUL`. -/

/-- `strncmp(s1, s2, n)` of `libc`. -/
def Libc.strncmp : (s1 s2 : List (BitVec 8)) → (n : Nat) → Int
  | _, _, 0 => 0
  | s1, s2, n + 1 =>
    if s1.headD 0#8 ≠ s2.headD 0#8 then if s1.headD 0#8 < s2.headD 0#8 then -1 else 1
    else if s1.headD 0#8 = 0#8 then 0
    else Libc.strncmp s1.tail s2.tail n

/-- `strcmp(s1, s2)` of `libc`. Only the characters of `s1` are compared. -/
def Libc.strcmp (s1 s2 : List (BitVec 8)) : Int := Libc.strncmp s1 s2 s1.length

/-! ### What the comparison tells -/

theorem strncmpLoop_eq_zero_iff {left : Nat} :
    strncmpLoop s1 s2 left i = 0 ↔ ∀ j, i ≤ j → j < i + left → s1 j = s2 j := by
  induction left generalizing i with
  | zero => exact ⟨fun _ j start stop => by omega, fun _ => rfl⟩
  | succ left ih =>
    rw [strncmpLoop]
    by_cases differs : s1 i ≠ s2 i
    · rw [if_pos differs]
      constructor
      · intro zero
        have same : (s1 i).toNat = (s2 i).toNat := by omega
        exact absurd (eq_of_toNat_eq same) differs
      · intro agree
        exact absurd (agree i (Nat.le_refl i) (by omega)) differs
    · rw [if_neg differs, ih]
      constructor
      · intro agree j start stop
        rcases Nat.eq_or_lt_of_le start with rfl | later
        · exact not_not.mp differs
        · exact agree j later (by omega)
      · intro agree j start stop
        exact agree j (by omega) (by omega)

/-- Two strings compare equal when their first `n` bytes are the same, whatever ends
they have. -/
theorem strncmp_eq_zero_iff :
    strncmp s1 s2 n = 0 ↔ ∀ j < n, s1 j = s2 j := by
  rw [strncmp, strncmpLoop_eq_zero_iff]
  simp

/-! ### What copying and filling leave -/

theorem memcpyLoop_down (down : dest ≤ src) (left i : Nat) (b : Bytes) :
    memcpyLoop dest src left i b = patch b (dest + i) left fun j => b (src + i + j) := by
  induction left generalizing i b with
  | zero =>
    funext k
    exact (patch_outside (by omega)).symm
  | succ left ih =>
    -- the bytes that are still to be read are behind the one that is written
    have ahead : ∀ j, put8 b (dest + i) (b (src + i)) (src + (i + 1) + j) =
        b (src + (i + 1) + j) := fun j => patch_outside (by omega)
    rw [memcpyLoop, ih]
    funext k
    by_cases later : dest + (i + 1) ≤ k ∧ k < dest + (i + 1) + left
    · rw [patch_inside later.1 later.2, ahead, patch_inside (by omega) (by omega)]
      congr 1
      omega
    · rw [patch_outside (by omega)]
      by_cases here : k = dest + i
      · rw [here, put8, patch_inside (by omega) (by omega), patch_inside (by omega) (by omega),
          Nat.sub_self, Nat.add_zero]
      · rw [put8, patch_outside (by omega), patch_outside (by omega)]

/-- Copying to a lower address gives the bytes that were there before, also where the
two areas overlap. -/
theorem memcpy_down (down : dest ≤ src) (n : Nat) (b : Bytes) :
    memcpy b dest src n = patch b dest n fun j => b (src + j) :=
  memcpyLoop_down down n 0 b

/-- Copying changes nothing outside of the destination. -/
theorem memcpyLoop_outside {left : Nat} (outside : k < dest + i ∨ dest + i + left ≤ k) :
    memcpyLoop dest src left i b k = b k := by
  induction left generalizing i b with
  | zero => rfl
  | succ left ih =>
    rw [memcpyLoop, ih (by omega)]
    exact patch_outside (by omega)

theorem memcpy_outside (outside : k < dest ∨ dest + n ≤ k) :
    memcpy b dest src n k = b k :=
  memcpyLoop_outside outside

/-- A byte of the destination is the byte of the source, as the loop finds it. -/
theorem memcpyLoop_read (up : src < dest) {left : Nat} (later : i ≤ t) (inside : t < i + left) :
    memcpyLoop dest src left i b (dest + t) =
      if dest + i ≤ src + t then memcpyLoop dest src left i b (src + t) else b (src + t) := by
  induction left generalizing i b with
  | zero => omega
  | succ left ih =>
    rw [memcpyLoop]
    rcases Nat.eq_or_lt_of_le later with rfl | later
    · rw [if_neg (by omega), memcpyLoop_outside (by omega)]
      exact (patch_inside (by omega) (by omega)).trans rfl
    · rw [ih later (by omega)]
      by_cases written : dest + (i + 1) ≤ src + t
      · rw [if_pos written, if_pos (by omega)]
      · rw [if_neg written]
        by_cases here : dest + i ≤ src + t
        · rw [if_pos here, memcpyLoop_outside (by omega)]
        · rw [if_neg here]
          exact patch_outside (by omega)

/-- The number of bytes that are copied before the loop reads what it has written. -/
def copyLag (dest src n : Nat) : Nat := if src < dest then dest - src else n

/-- What `memcpy` leaves in the destination: where it runs into its own bytes, the first
`copyLag` bytes of the source over and over. -/
theorem memcpy_at (inside : t < n) :
    memcpy b dest src n (dest + t) = b (src + t % copyLag dest src n) := by
  rw [copyLag]
  split
  · rename_i up
    induction t using Nat.strong_induction_on with
    | _ t ih =>
      rw [memcpy, memcpyLoop_read up (Nat.zero_le t) (by omega), ← memcpy, Nat.add_zero]
      by_cases again : dest ≤ src + t
      · rw [if_pos again, show src + t = dest + (t - (dest - src)) by omega,
          ih _ (by omega) (by omega), ← Nat.mod_eq_sub_mod (by omega)]
      · rw [if_neg again, Nat.mod_eq_of_lt (by omega)]
  · rename_i down
    rw [memcpy_down (by omega), patch_inside (by omega) (by omega), Nat.add_sub_cancel_left,
      Nat.mod_eq_of_lt inside]

theorem le_copyLag (apart : dest + n ≤ src ∨ src + n ≤ dest) :
    n ≤ copyLag dest src n := by
  rw [copyLag]
  split <;> omega

/-- Between areas that do not overlap the bytes arrive as they were. -/
theorem memcpy_inside (apart : dest + n ≤ src ∨ src + n ≤ dest) (inside : t < n) :
    memcpy b dest src n (dest + t) = b (src + t) := by
  rw [memcpy_at inside, Nat.mod_eq_of_lt (Nat.lt_of_lt_of_le inside (le_copyLag apart))]

theorem memsetw_outside (outside : k < dest ∨ dest + 2 * n ≤ k) : memsetw b dest c n k = b k := by
  induction n generalizing b dest with
  | zero => rfl
  | succ n ih =>
    rw [memsetw, ih (by omega)]
    exact patch_outside (by omega)

/-- The lower byte of every word. -/
theorem memsetw_low {j : Nat} (inside : j < n) :
    memsetw b dest c n (dest + 2 * j) = c.setWidth 8 := by
  induction n generalizing b dest j with
  | zero => exact absurd inside (Nat.not_lt_zero j)
  | succ n ih =>
    rw [memsetw]
    cases j with
    | zero =>
      rw [memsetw_outside (by omega)]
      exact put16_low b dest c
    | succ j =>
      rw [show dest + 2 * (j + 1) = dest + 2 + 2 * j by omega]
      exact ih (by omega)

theorem memset_outside {c : BitVec 8} (outside : k < dest ∨ dest + n ≤ k) :
    memset b dest c n k = b k := by
  induction n generalizing b dest with
  | zero => rfl
  | succ n ih =>
    rw [memset, ih (by omega)]
    exact patch_outside (by omega)

/-! ### What the string functions tell and leave -/

theorem strlenLoop_eq_some_iff {fuel : Nat} :
    strlenLoop b s fuel i = some n ↔
      i ≤ n ∧ n < i + fuel ∧ (∀ j, i ≤ j → j < n → b (s + j) ≠ 0#8) ∧ b (s + n) = 0#8 := by
  induction fuel generalizing i with
  | zero =>
    rw [strlenLoop]
    constructor
    · exact fun found => nomatch found
    · rintro ⟨start, stop, _⟩
      omega
  | succ fuel ih =>
    rw [strlenLoop]
    by_cases ends : b (s + i) = 0#8
    · rw [if_pos ends, Option.some.injEq]
      constructor
      · rintro rfl
        exact ⟨Nat.le_refl i, by omega, fun j start stop => by omega, ends⟩
      · rintro ⟨start, _, nonzero, _⟩
        rcases Nat.eq_or_lt_of_le start with same | later
        · exact same
        · exact absurd ends (nonzero i (Nat.le_refl i) later)
    · rw [if_neg ends, ih]
      constructor
      · rintro ⟨start, stop, nonzero, zero⟩
        refine ⟨by omega, by omega, fun j low high => ?_, zero⟩
        rcases Nat.eq_or_lt_of_le low with rfl | later
        · exact ends
        · exact nonzero j later high
      · rintro ⟨start, stop, nonzero, zero⟩
        rcases Nat.eq_or_lt_of_le start with rfl | later
        · exact absurd zero ends
        · exact ⟨later, by omega, fun j low high => nonzero j (by omega) high, zero⟩

/-- The length of a string is where its first `NUL` is. -/
theorem strlen_eq_some_iff :
    strlen b s = some n ↔ n < 2 ^ 32 ∧ (∀ j < n, b (s + j) ≠ 0#8) ∧ b (s + n) = 0#8 := by
  rw [strlen, strlenLoop_eq_some_iff]
  simp

theorem CString.strlen_eq {t : List (BitVec 8)} (source : CString (fun i => b (s + i)) t)
    (short : t.length < 2 ^ 32) : strlen b s = some t.length := by
  refine strlen_eq_some_iff.mpr ⟨short, fun j inside zero => ?_, source.terminated⟩
  have char := source.chars j inside
  exact source.noNul (by rw [← zero, char]; exact getElem_mem inside)

/-- A string ends at the first of the `NUL`s behind its start. -/
theorem strlen_of_nul (bound : n < 2 ^ 32) (nul : b (s + n) = 0#8) :
    ∃ length ≤ n, strlen b s = some length := by
  induction n using Nat.strong_induction_on with
  | _ n ih =>
    by_cases earlier : ∃ j < n, b (s + j) = 0#8
    · obtain ⟨j, before, zero⟩ := earlier
      obtain ⟨length, short, found⟩ := ih j before (by omega) zero
      exact ⟨length, by omega, found⟩
    · refine ⟨n, Nat.le_refl n, strlen_eq_some_iff.mpr ⟨bound, fun j before zero => ?_, nul⟩⟩
      exact earlier ⟨j, before, zero⟩

/-- Where no `NUL` stops it `strncpy` is `memcpy`: what it reads is a byte of the source,
also where it is one that it has copied. -/
theorem strncpyLoop_eq_memcpyLoop {left : Nat}
    (nonzero : ∀ j, i ≤ j → j < i + left → b (src + j) ≠ 0#8) :
    strncpyLoop dest src left i b = memcpyLoop dest src left i b := by
  induction left generalizing i b with
  | zero => rfl
  | succ left ih =>
    have here := nonzero i (Nat.le_refl i) (by omega)
    rw [strncpyLoop, if_pos here, memcpyLoop, ih]
    intro j low high
    by_cases written : src + j = dest + i
    · rw [written, put8, patch_inside (by omega) (by omega)]
      exact here
    · rw [put8, patch_outside (by omega)]
      exact nonzero j (by omega) (by omega)

theorem strncpy_eq_memcpy {n : BitVec 16} (nonzero : ∀ j < n.toNat, b (src + j) ≠ 0#8) :
    strncpy b dest src n = memcpy b dest src n.toNat :=
  strncpyLoop_eq_memcpyLoop fun j _ high => nonzero j (by omega)

end Crunchy
