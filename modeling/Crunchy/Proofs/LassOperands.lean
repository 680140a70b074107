/-
Module: Crunchy.Proofs.LassOperands
Purpose: The words of a line, the names of registers and decimal numbers, as the assembler
  reads them.
Trusted boundary: none
Main exports: Word, lineTokens_two, regName_spec, literals_read, atoi32_digitText
-/
import Crunchy.Proofs.LassLayout
import Crunchy.Proofs.Tokens

namespace Crunchy.Lass

open BitVec Option List

/-! ### Tokens -/

theorem cutsLoop_none (delim : Text) (fuel : Nat) : cutsLoop delim fuel none = [] := by
  cases fuel <;> rfl

/-- The loop ends before the bound of `cuts` does. -/
theorem cutsLoop_congr (delim : Text) {fuel fuel' : Nat} {p : Text} (enough : p.length < fuel)
    (enough' : p.length < fuel') :
    cutsLoop delim fuel (some p) = cutsLoop delim fuel' (some p) := by
  induction fuel generalizing fuel' p with
  | zero => exact absurd enough (Nat.not_lt_zero _)
  | succ fuel ih =>
    obtain ⟨fuel', rfl⟩ := Nat.exists_eq_succ_of_ne_zero (show fuel' ≠ 0 by omega)
    rw [cutsLoop, cutsLoop]
    cases cut : strtok none delim (some p) with
    | mk text rest =>
      cases text with
      | none => rfl
      | some text =>
        cases rest with
        | none =>
          dsimp only
          rw [cutsLoop_none, cutsLoop_none]
        | some rest =>
          have shorter := strtok_shorter cut
          dsimp only
          rw [ih (by omega) (show rest.length < fuel' by omega)]

theorem cuts_none (delim : Text) : cuts delim none = [] := cutsLoop_none delim _

/-- One token, and those behind it. -/
theorem cuts_cut {delim p text : Text} {rest : Option Text}
    (cut : strtok none delim (some p) = (some text, rest)) :
    cuts delim (some p) = Token.ofCut text rest :: cuts delim rest := by
  rw [cuts, getD_some, cutsLoop, cut]
  dsimp only
  cases rest with
  | none => rw [cutsLoop_none, cuts_none]
  | some rest =>
    have shorter := strtok_shorter cut
    rw [cuts, getD_some, cutsLoop_congr delim shorter (Nat.lt_succ_self _)]

/-- Behind a delimiter at the end there is an empty token. -/
theorem cuts_nil (delim : Text) : cuts delim (some []) = [⟨[], 0⟩] := by
  rfl

/-! ### Words -/

/-- A mnemonic or an operand: not empty, and without blanks. -/
structure Word (w : Text) : Prop where
  nonempty : w ≠ []
  noBlank : ∀ c ∈ w, c ∉ blanks

theorem Word.next {w : Text} (word : Word w) {d : BitVec 8} (blank : d ∈ blanks) (rest : Text) :
    strtok none blanks (some (w ++ d :: rest)) = (some w, some rest) := by
  obtain ⟨c, w, rfl⟩ := exists_cons_of_ne_nil word.nonempty
  exact strtok_next word.noBlank blank

theorem Word.last {w : Text} (word : Word w) :
    strtok none blanks (some w) = (some w, none) := by
  obtain ⟨c, w, rfl⟩ := exists_cons_of_ne_nil word.nonempty
  exact strtok_last (by decide) word.noBlank

variable {mn first second : Text}

/-- A mnemonic with two operands. -/
theorem lineTokens_two (isWord : Word mn) (isFirst : Word first) (isSecond : Word second) :
    mnemonic (mn ++ 32#8 :: (first ++ 44#8 :: 32#8 :: second)) = mn ∧
      lineTokens (mn ++ 32#8 :: (first ++ 44#8 :: 32#8 :: second)) =
        [⟨mn, mn.length + ((first ++ 44#8 :: 32#8 :: second).length + 1)⟩,
          ⟨first, first.length + (second.length + 2)⟩, ⟨second, second.length⟩] := by
  have cut : strtok (some (mn ++ 32#8 :: (first ++ 44#8 :: 32#8 :: second))) blanks none =
      (some mn, some (first ++ 44#8 :: 32#8 :: second)) := isWord.next (by decide) _
  have name : mnemonic (mn ++ 32#8 :: (first ++ 44#8 :: 32#8 :: second)) = mn := by
    rw [mnemonic, cut, getD_some]
  have blank : strtok none blanks (some (32#8 :: second)) = (some second, none) := by
    rw [strtok_skip (by decide), isSecond.last]
  refine ⟨name, ?_⟩
  rw [lineTokens, name, behind, cut, cuts_cut (isFirst.next (by decide) (32#8 :: second)),
    cuts_cut blank, cuts_none]
  rfl

/-- The characters that end a name or a number somewhere. -/
def marks : Text := str " ,\t[+-]*;"

theorem mem_marks_of_blank {c : BitVec 8} (blank : c ∈ blanks) : c ∈ marks :=
  mem_append_left (str "[+-]*;") blank

/-! ### Registers -/

/-- The name of a register of 32 bits. -/
def regName (r : BitVec 3) : Text := (registers.getD r.toNat ⟨[], 0#32⟩).name

theorem regName_spec : ∀ r : BitVec 3,
    regName r ≠ [] ∧ (∀ c ∈ regName r, c ∉ marks ∧ ¬isdigit c) ∧
      classify (regName r) = r.setWidth 32 ||| r32 := by
  decide +kernel

theorem notMem_regName {c : BitVec 8} (mark : c ∈ marks) (r : BitVec 3) : c ∉ regName r :=
  fun inside => ((regName_spec r).2.1 c inside).1 mark

theorem regName_word (r : BitVec 3) : Word (regName r) :=
  ⟨(regName_spec r).1, fun _ inside blank => notMem_regName (mem_marks_of_blank blank) r inside⟩

/-! ### Numbers -/

/-- The characters of the hexadecimal digits. -/
def hexDigits : Text := str "0123456789abcdefABCDEF"

/-- The number that a digit stands for. -/
def hexValue (c : BitVec 8) : Nat :=
  if c ≤ 57#8 then c.toNat - 48 else if c ≤ 70#8 then c.toNat - 55 else c.toNat - 87

/-- The number that digits stand for. -/
def literalValue (base : Nat) (s : Text) : Nat := s.foldl (fun n c => n * base + hexValue c) 0

theorem decDigit_spec : ∀ c : BitVec 8, isdigit c →
    c ∈ hexDigits ∧ BitVec.ofInt 64 (c.toInt - 48) = BitVec.ofNat 64 (hexValue c) := by
  decide +kernel

theorem hexDigit_spec : ∀ c ∈ hexDigits, c ≠ 45#8 ∧ c ∉ str "x" ∧ ishex c ∧
    (¬isdigit c → BitVec.ofInt 64 (tolower c - 97) + 10#64 = BitVec.ofNat 64 (hexValue c)) := by
  decide +kernel

theorem atoiStep_digit {c : BitVec 8} (isDigit : c ∈ hexDigits) (base n : Nat) :
    atoiStep (BitVec.ofNat 64 base) (BitVec.ofNat 64 n) c =
      BitVec.ofNat 64 (n * base + hexValue c) := by
  rw [atoiStep, ofNat_add, ofNat_mul]
  split
  · rename_i decimal
    rw [(decDigit_spec c decimal).2]
  · rename_i letter
    obtain ⟨_, _, isHex, value⟩ := hexDigit_spec c isDigit
    rw [if_pos isHex, BitVec.add_assoc, value letter]

theorem foldl_atoiStep {s : Text} (digits : ∀ c ∈ s, c ∈ hexDigits) (base n : Nat) :
    s.foldl (atoiStep (BitVec.ofNat 64 base)) (BitVec.ofNat 64 n) =
      BitVec.ofNat 64 (s.foldl (fun n c => n * base + hexValue c) n) := by
  induction s generalizing n with
  | nil => rfl
  | cons c s ih =>
    rw [foldl_cons, foldl_cons, atoiStep_digit (digits c mem_cons_self),
      ih fun d inside => digits d (mem_cons_of_mem _ inside)]

theorem headD_digit {s : Text} (digits : ∀ c ∈ s, c ∈ hexDigits) : s.headD 0#8 ≠ 45#8 := by
  cases s with
  | nil => decide
  | cons c s => exact (hexDigit_spec c (digits c mem_cons_self)).1

theorem lassAtoi_decimal {s : Text} (decimal : ∀ c ∈ s, isdigit c) :
    lassAtoi s = BitVec.ofNat 64 (literalValue 10 s) := by
  have digits : ∀ c ∈ s, c ∈ hexDigits := fun c inside => (decDigit_spec c (decimal c inside)).1
  have noHex : strpbrk s (str "x") = none := by
    cases s with
    | nil => rfl
    | cons c s =>
      exact strpbrk_none _ (by decide) fun d inside =>
        (hexDigit_spec d (digits d (mem_cons_of_mem _ inside))).2.1
  rw [lassAtoi, noHex]
  dsimp only
  rw [if_neg (headD_digit digits), BitVec.one_mul]
  exact foldl_atoiStep digits 10 0

theorem lassAtoi_hex {s : Text} (digits : ∀ c ∈ s, c ∈ hexDigits) :
    lassAtoi (str "0x" ++ s) = BitVec.ofNat 64 (literalValue 16 s) := by
  have isHex : strpbrk (str "0x" ++ s) (str "x") = some (str "x" ++ s) := rfl
  rw [lassAtoi, isHex]
  show (if s.headD 0#8 = 45#8 then -1#64 else 1#64) * s.foldl (atoiStep 16#64) 0#64 = _
  rw [if_neg (headD_digit digits), BitVec.one_mul]
  exact foldl_atoiStep digits 16 0

theorem toInt_ofNat_of_small {n : Nat} (small : n < 2 ^ 63) : (BitVec.ofNat 64 n).toInt = n := by
  have value : (BitVec.ofNat 64 n).toNat = n := by
    rw [toNat_ofNat, Nat.mod_eq_of_lt (by omega)]
  rw [toInt_eq_toNat_of_lt (by omega), value]

/-- **The literals of the assembler.** A number of decimal digits, and one of hexadecimal digits
behind `0x`, is read as what it stands for. -/
theorem literals_read (s : Text) :
    (s ≠ [] → (∀ c ∈ s, isdigit c) → literalValue 10 s < 2 ^ 63 →
      (lassAtoi s).toInt = literalValue 10 s) ∧
    ((∀ c ∈ s, c ∈ hexDigits) → literalValue 16 s < 2 ^ 63 →
      (lassAtoi (str "0x" ++ s)).toInt = literalValue 16 s) := by
  constructor
  · intro _ decimal small
    rw [lassAtoi_decimal decimal, toInt_ofNat_of_small small]
  · intro digits small
    rw [lassAtoi_hex digits, toInt_ofNat_of_small small]

theorem literal_read_ff : (lassAtoi (str "0xfF")).toInt = 255 :=
  (literals_read (str "fF")).2 (by decide) (by decide)

/-! ### Decimal numbers -/

/-- The digits as characters. -/
def digitText (digits : List (Fin 10)) : Text :=
  digits.map fun d => BitVec.ofNat 8 (48 + d.val)

/-- The number they stand for. -/
def digitValue (digits : List (Fin 10)) : Nat := digits.foldl (fun n d => n * 10 + d.val) 0

theorem digitChar_spec : ∀ d : Fin 10,
    isdigit (BitVec.ofNat 8 (48 + d.val)) ∧ BitVec.ofNat 8 (48 + d.val) ∉ marks ++ str "x" ∧
      hexValue (BitVec.ofNat 8 (48 + d.val)) = d.val := by
  decide +kernel

theorem notMem_digitText {c : BitVec 8} (mark : c ∈ marks ++ str "x") (digits : List (Fin 10)) :
    c ∉ digitText digits := by
  intro inside
  obtain ⟨d, _, rfl⟩ := mem_map.mp inside
  exact (digitChar_spec d).2.1 mark

theorem lassAtoi_digitText (digits : List (Fin 10)) :
    lassAtoi (digitText digits) = BitVec.ofNat 64 (digitValue digits) := by
  have value : literalValue 10 (digitText digits) = digitValue digits := by
    simp only [literalValue, digitText, digitValue, foldl_map, (digitChar_spec _).2.2]
  rw [← value]
  apply lassAtoi_decimal
  intro c inside
  obtain ⟨d, _, rfl⟩ := mem_map.mp inside
  exact (digitChar_spec d).1

theorem atoi32_digitText (digits : List (Fin 10)) :
    atoi32 (digitText digits) = BitVec.ofNat 32 (digitValue digits) := by
  rw [atoi32, lassAtoi_digitText]
  apply eq_of_toNat_eq
  rw [toNat_setWidth, toNat_ofNat, toNat_ofNat]
  omega

end Crunchy.Lass
