/-
Module: Crunchy.Proofs.PrintfEnds
Purpose: On which formats and arguments the kernel's `vsnprintf` ends. It never reads behind the
  end of its format.
Trusted boundary: none
Main exports: rest, eventually_ends_iff, DirectivesEnd, NulBehind, complete_iff,
  printf_ends_iff
-/
import Crunchy.PrintfCursor
import Crunchy.Proofs.PrintfLimit

namespace Crunchy

open Lib List

variable {v : Version} {text : Bytes} {size : U32} {s : List (BitVec 8)} {c c' : Cursor}

variable {inWidth : Bool} {b : Bytes} {u : List (BitVec 8)} {more : List Arg} {i : Nat}
  {p : Printer} {w : U32}

/-! ### Steps and the loop -/

/-- None of the conversions has the character of another one. -/
theorem char_notMem_conversions : ∀ char : BitVec 8, char ∉ conversions →
    Char.ofNat char.toNat ∉ ['%', 'x', 'X', 'd', 'i', 'u', 'l', 'o', 'b', 's', 'c', 'w'] := by
  decide +kernel

/-- A character that the `switch` has no `case` for. -/
theorem convert_unknown {char : BitVec 8} (unknown : char ∉ conversions) (p : Printer) :
    p.convert v size (Char.ofNat char.toNat) = none := by
  have other := char_notMem_conversions char unknown
  generalize Char.ofNat char.toNat = letter at other
  rw [Printer.convert.eq_def]
  split <;> first | rfl | simp at other

/-- What the loop makes of the rest of the format, from a place on. -/
def rest (v : Version) (size : U32) (s : List (BitVec 8)) (c : Cursor) : Option Printer :=
  c.printer.loop v size (s.drop c.format) c.mode

/-- A character of the format, and what follows it. -/
theorem CString.drop_eq (isFormat : CString text s) (inside : i < s.length) :
    s.drop i = text i :: s.drop (i + 1) := by
  rw [drop_eq_getElem_cons inside, isFormat.chars i inside]

theorem CString.eq_zero_iff (isFormat : CString text s) (inside : i ≤ s.length) :
    text i = 0#8 ↔ i = s.length := by
  constructor
  · intro zero
    by_contra before
    have below : i < s.length := by omega
    rw [isFormat.chars i below] at zero
    exact isFormat.noNul (zero ▸ getElem_mem below)
  · rintro rfl
    exact isFormat.terminated

/-- Where the outer loop ends, the result is there. -/
theorem rest_of_ends (isFormat : CString text s) (inside : c.format ≤ s.length)
    (ends : c.Ends text size) : rest v size s c = some c.printer := by
  obtain ⟨i, mode, p⟩ := c
  cases mode with
  | directive inWidth => exact ends.elim
  | text =>
    rw [rest]
    dsimp only at inside ⊢
    by_cases before : i < s.length
    · have full : ¬ p.n < size :=
        ends.resolve_left fun zero => by
          have last := (isFormat.eq_zero_iff inside).mp zero
          omega
      rw [isFormat.drop_eq before, Printer.loop, if_neg full]
    · rw [drop_of_length_le (by omega), Printer.loop]

/-- The characters that a directive is made of. -/
def InDirective (char : BitVec 8) : Prop :=
  char = 35#8 ∨ char = 43#8 ∨ isdigit char ∨ char ∈ conversions

/-- They stand before the end of the format. -/
theorem InDirective.before (known : InDirective (text i)) (isFormat : CString text s)
    (inside : i ≤ s.length) : i < s.length := by
  have notNul : ¬ InDirective 0#8 := by
    rw [InDirective]
    decide
  by_contra last
  have zero := (isFormat.eq_zero_iff inside).mpr (by omega)
  exact notNul (zero ▸ known)

/-- At any other one the `default` goes round. -/
theorem next_stuck (other : ¬ InDirective (text i)) :
    Cursor.next v text size ⟨i, .directive inWidth, p⟩ =
      some ⟨i, .directive false, { p with pad := 0#32 }⟩ := by
  simp only [InDirective, not_or] at other
  obtain ⟨notAlternate, notSign, notDigit, unknown⟩ := other
  rw [Cursor.next]
  dsimp only
  rw [if_neg notAlternate, if_neg notSign, if_neg notDigit, if_neg unknown]

/-- The loop over the format has no result there. -/
theorem rest_stuck (isFormat : CString text s) (inside : i ≤ s.length)
    (other : ¬ InDirective (text i)) :
    rest v size s ⟨i, .directive inWidth, p⟩ = none := by
  simp only [InDirective, not_or] at other
  obtain ⟨notAlternate, notSign, notDigit, unknown⟩ := other
  rw [rest]
  dsimp only
  by_cases before : i < s.length
  · rw [isFormat.drop_eq before, Printer.loop, if_neg notAlternate, if_neg notSign, if_neg notDigit,
      convert_unknown unknown]
    rfl
  · rw [drop_of_length_le (by omega), Printer.loop]

/-- In the text, a step is taken before the end of the format. -/
theorem text_before (isFormat : CString text s) (inside : i ≤ s.length)
    (goesOn : ¬ Cursor.Ends text size ⟨i, .text, p⟩) : i < s.length ∧ p.n < size := by
  obtain ⟨more, room⟩ := not_or.mp goesOn
  have other := (isFormat.eq_zero_iff inside).not.mp more
  exact ⟨by omega, not_not.mp room⟩

/-- A step goes on with the rest of the format. -/
theorem rest_eq_next (isFormat : CString text s) (inside : c.format ≤ s.length)
    (goesOn : ¬ c.Ends text size) :
    rest v size s c = (c.next v text size).bind (rest v size s) := by
  obtain ⟨i, mode, p⟩ := c
  cases mode with
  | text =>
    obtain ⟨before, room⟩ := text_before isFormat inside goesOn
    rw [rest, Cursor.next]
    dsimp only
    rw [isFormat.drop_eq before, Printer.loop, if_pos room]
    split <;> rfl
  | directive inWidth =>
    by_cases known : InDirective (text i)
    · rw [rest, Cursor.next]
      dsimp only
      rw [isFormat.drop_eq (known.before isFormat inside), Printer.loop]
      split
      · rfl
      · split
        · rfl
        · split
          · rfl
          · rename_i notAlternate notSign notDigit
            have conversion : text i ∈ conversions :=
              ((known.resolve_left notAlternate).resolve_left notSign).resolve_left notDigit
            rw [if_pos conversion, Option.bind_eq_bind, ← Option.bind_assoc, Option.bind_map]
            rfl
    · rw [next_stuck known, rest_stuck isFormat inside known, Option.bind_some,
        rest_stuck isFormat inside known]

/-- A step takes one character, or the function is where it never gets on. -/
theorem next_format (isFormat : CString text s) (inside : c.format ≤ s.length)
    (goesOn : ¬ c.Ends text size) (taken : c.next v text size = some c') :
    c.format < s.length ∧ c'.format = c.format + 1 ∨
      c'.format = c.format ∧ rest v size s c = none := by
  obtain ⟨i, mode, p⟩ := c
  cases mode with
  | text =>
    refine .inl ⟨(text_before isFormat inside goesOn).1, ?_⟩
    rw [Cursor.next] at taken
    dsimp only at taken
    split at taken <;> cases taken <;> rfl
  | directive inWidth =>
    by_cases known : InDirective (text i)
    · refine .inl ⟨known.before isFormat inside, ?_⟩
      rw [Cursor.next] at taken
      dsimp only at taken
      split at taken
      · cases taken
        rfl
      · split at taken
        · cases taken
          rfl
        · split at taken
          · cases taken
            rfl
          · rename_i notAlternate notSign notDigit
            have conversion : text i ∈ conversions :=
              ((known.resolve_left notAlternate).resolve_left notSign).resolve_left notDigit
            rw [if_pos conversion] at taken
            obtain ⟨_, _, rfl⟩ := Option.map_eq_some_iff.mp taken
            rfl
    · rw [next_stuck known] at taken
      cases taken
      exact .inr ⟨rfl, rest_stuck isFormat inside known⟩

theorem next_inside (isFormat : CString text s) (inside : c.format ≤ s.length)
    (goesOn : ¬ c.Ends text size) (taken : c.next v text size = some c') :
    c'.format ≤ s.length := by
  rcases next_format isFormat inside goesOn taken with ⟨below, next⟩ | ⟨same, _⟩ <;> omega

/-! ### Whole calls -/

section Calls

variable {str buf : Bytes} {ap : List Arg}

/-- The pointer stays in the format, its `NUL` included. -/
theorem format_le (isFormat : CString text s)
    (reached : (printing v text str buf size ap).Reachable c) : c.format ≤ s.length := by
  refine reached.invariant (fun c => c.format ≤ s.length) ?_ ?_
  · rintro c rfl
    exact Nat.zero_le _
  · rintro before _ after inside ⟨goesOn, taken⟩
    exact next_inside isFormat inside goesOn taken

/-- The function gets to its end exactly when the loop over the format has a result. -/
theorem eventually_ends_iff (isFormat : CString text s) (inside : c.format ≤ s.length) :
    (printing v text str buf size ap).Eventually (Cursor.Ends text size) c ↔
      (rest v size s c).isSome = true := by
  constructor
  · intro reaches
    induction reaches with
    | now ends => rw [rest_of_ends isFormat inside ends, Option.isSome_some]
    | @later c possible all ih =>
      obtain ⟨_, after, goesOn, taken⟩ := possible
      rw [rest_eq_next isFormat inside goesOn, taken, Option.bind_some]
      exact ih () after ⟨goesOn, taken⟩
        (next_inside isFormat inside goesOn taken)
  · intro result
    -- every step that does not go round brings the function nearer to the end of the format
    refine System.Eventually.of_measure
      (fun c => c.format ≤ s.length ∧ (rest v size s c).isSome = true)
      (fun c => s.length - c.format) ?_ ?_ ⟨inside, result⟩
    · rintro c ⟨inside, result⟩ goesOn
      cases taken : c.next v text size with
      | none =>
        rw [rest_eq_next isFormat inside goesOn, taken] at result
        exact nomatch result
      | some after => exact ⟨(), after, goesOn, taken⟩
    · rintro c _ after ⟨inside, result⟩ _ ⟨goesOn, taken⟩
      rcases next_format isFormat inside goesOn taken with ⟨below, next⟩ | ⟨_, stuck⟩
      · rw [rest_eq_next isFormat inside goesOn, taken, Option.bind_some] at result
        exact ⟨⟨by omega, result⟩, by omega⟩
      · rw [stuck] at result
        exact nomatch result

theorem start_ends_iff (isFormat : CString text s) :
    (printing v text str buf size ap).Eventually (Cursor.Ends text size) (.start str buf size ap) ↔
      (vsnprintfWith v str buf size s ap).isSome = true := by
  rw [eventually_ends_iff isFormat (Nat.zero_le _), vsnprintfWith, Option.isSome_map]
  rfl

end Calls

/-! ### Directives that end -/

/-- The memory from the scratch buffer on has a `NUL` that no conversion gets to: `strcpy`
gets a length of 16 bits. -/
def FarNul (b : Bytes) : Prop := ∃ k, 2 ^ 16 ≤ k ∧ k < 2 ^ 32 ∧ b (bufAt + k) = 0#8

/-- Such a `NUL` is in the memory at the call, or in the part of it that is cleared. -/
def NulBehind (size : U32) (buf : Bytes) : Prop :=
  ∃ k, 2 ^ 16 ≤ k ∧ k < 2 ^ 32 ∧ (k < size.toNat ∨ buf (bufAt + k) = 0#8)

/-- Clearing memory leaves the zeros that are there. -/
theorem memset_zero {dest n k : Nat} (zero : dest ≤ k ∧ k < dest + n ∨ b k = 0#8) :
    memset b dest 0#8 n k = 0#8 := by
  by_cases inside : dest ≤ k ∧ k < dest + n
  · exact memset_inside inside.1 inside.2
  · rw [memset_outside (by omega)]
    exact zero.resolve_left inside

theorem NulBehind.start {buf : Bytes} (behind : NulBehind size buf) :
    FarNul (memset buf bufAt 0#8 size.toNat) := by
  obtain ⟨k, far, bound, nul⟩ := behind
  refine ⟨k, far, bound, memset_zero ?_⟩
  rcases nul with inside | nul
  · exact .inl (by omega)
  · exact .inr nul

/-- It stays when a string is cleared. -/
theorem FarNul.clear (far : FarNul b) (len : Nat) :
    FarNul (memset b bufAt 0#8 len) := by
  obtain ⟨k, low, high, nul⟩ := far
  exact ⟨k, low, high, memset_zero (.inr nul)⟩

theorem FarNul.strlen (far : FarNul b) : ∃ len, strlen b bufAt = some len := by
  obtain ⟨k, _, high, nul⟩ := far
  obtain ⟨len, _, ends⟩ := strlen_of_nul high nul
  exact ⟨len, ends⟩

/-- What a conversion leaves in the scratch memory, far from its start. -/
def Near (b b' : Bytes) : Prop := ∀ k, bufAt + 2 ^ 16 ≤ k → b' k = b k

theorem FarNul.near {b' : Bytes} (far : FarNul b) (near : Near b b') : FarNul b' := by
  obtain ⟨k, low, high, nul⟩ := far
  exact ⟨k, low, high, (near (bufAt + k) (Nat.add_le_add_left low _)).trans nul⟩

theorem near_turned (short : u.length ≤ 64) :
    Near b (turned b bufAt u) := fun _ far => turned_behind (by omega)

theorem near_put8 (b : Bytes) (one two : BitVec 8) :
    Near b (put8 (put8 b bufAt one) (bufAt + 1) two) := by
  intro k far
  rw [put8, patch_outside (by omega), put8, patch_outside (by omega)]

theorem near_strcpyArg (b : Bytes) (tmp : List (BitVec 8)) : Near b (strcpyArg b bufAt tmp) := by
  intro k far
  have short : tmp.length % 2 ^ 16 < 2 ^ 16 := Nat.mod_lt _ (by decide)
  rw [strcpyArg, patch_outside (by omega)]

/-- `itoa` has eight places for an octal number. -/
theorem numeral_isSome_iff (conversion : WordConversion) (w : U32) :
    (conversion.numeral w).isSome = true ↔ (conversion = .o → w.toNat < 2 ^ 24) := by
  have bound := w.isLt
  cases conversion with
  | x => simpa [WordConversion.numeral, itoaText_isSome_iff] using bound
  | o => simp [WordConversion.numeral, itoaText_isSome_iff]
  | b => simpa [WordConversion.numeral, itoaText_isSome_iff] using bound
  | _ => simp [WordConversion.numeral, itoaText_isSome_iff]

theorem length_numeral {conversion : WordConversion} (numeral : conversion.numeral w = some u) :
    u.length ≤ 64 := by
  have signed : (sitoaText false w 10).length ≤ 9 := length_sitoaText
  cases conversion with
  | x => exact length_itoaText (by decide) (by decide) numeral
  | X =>
    cases numeral
    have short := length_digitList_le 16 8 (w.setWidth 8).toNat
    rw [toaText, length_reverse]
    omega
  | d =>
    cases numeral
    omega
  | i =>
    cases numeral
    omega
  | u => exact length_itoaText (by decide) (by decide) numeral
  | o => exact length_itoaText (by decide) (by decide) numeral
  | b => exact length_itoaText (by decide) (by decide) numeral
  | c =>
    cases numeral
    exact Nat.zero_le 64

/-- A conversion has the result `result` when it ends, which it does if and only if `Ends`: it
takes its arguments and leaves what is far from the start of the scratch buffer. -/
structure Converts (Ends : Prop) (p : Printer) (more : List Arg) (result : Option Printer) :
    Prop where
  ends : Ends → ∃ q, result = some q ∧ q.args = more ∧ Near p.buf q.buf
  endless : ¬ Ends → result = none

theorem Converts.of_some {Ends : Prop} {q : Printer} (holds : Ends) (args : q.args = more)
    (near : Near p.buf q.buf) : Converts Ends p more (some q) :=
  ⟨fun _ => ⟨q, rfl, args, near⟩, fun no => absurd holds no⟩

theorem converts_word (conversion : WordConversion) (next : p.args = .word w :: more) :
    Converts (conversion = .o → w.toNat < 2 ^ 24) p more
      (p.convert kernelVersion size conversion.char) := by
  rw [convert_word _ _ conversion next]
  by_cases isChar : conversion = .c
  · subst isChar
    exact .of_some nofun rfl (near_put8 _ _ _)
  · rw [fill_eq_map p.buf w isChar, ← numeral_isSome_iff]
    cases numeral : conversion.numeral w with
    | none => exact ⟨nofun, fun _ => rfl⟩
    | some u => exact .of_some rfl rfl (near_turned (length_numeral numeral))

theorem converts_long {low high : U32} (next : p.args = .word low :: .word high :: more) :
    Converts True p more (p.convert kernelVersion size 'l') := by
  have unfolded : p.convert kernelVersion size 'l' =
      (ltoa p.buf (high ++ low) bufAt 16).map fun buf =>
        { p with buf := buf, args := more, flags.long := true } := by
    rw [Printer.convert.eq_def, next, Option.map_eq_bind]
    rfl
  have numeral : ltoa p.buf (high ++ low) bufAt 16 =
      some (turned p.buf bufAt (toaText (high ++ low) 16)) :=
    toaWith_eq (fun _ => Nat.le_refl 1) (by decide) (by decide) (by decide)
  have short : (toaText (high ++ low) 16).length ≤ 64 := by
    rw [toaText, length_reverse]
    exact length_digitList_le 16 64 _
  rw [unfolded, numeral]
  exact .of_some trivial rfl (near_turned short)

variable {strings : U32 → List (BitVec 8)} {stack : Nat → U32}

/-- Every conversion with its arguments from the stack. -/
theorem converts_known (size : U32) {char : BitVec 8} (known : char ∈ conversions)
    (next : p.args = (takeArgs strings stack char).1 ++ more) :
    Converts (char = 111#8 → (stack 0).toNat < 2 ^ 24) p more
      (p.convert kernelVersion size (Char.ofNat char.toNat)) := by
  -- all but the octal numbers end
  have always : ∀ {Ends : Prop} {result : Option Printer}, char ≠ 111#8 → Ends →
      Converts Ends p more result →
      Converts (char = 111#8 → (stack 0).toNat < 2 ^ 24) p more result :=
    fun other holds converts =>
      ⟨fun _ => converts.ends holds, fun no => absurd (fun same => absurd same other) no⟩
  simp only [conversions, mem_cons, not_mem_nil, or_false] at known
  rcases known with rfl | rfl | rfl | rfl | rfl | rfl | rfl | rfl | rfl | rfl | rfl | rfl
  · exact .of_some nofun next (near_put8 _ _ _)
  · exact always (by decide) nofun (converts_word .x next)
  · exact always (by decide) nofun (converts_word .X next)
  · exact always (by decide) nofun (converts_word .d next)
  · exact always (by decide) nofun (converts_word .i next)
  · exact always (by decide) nofun (converts_word .u next)
  · exact always (by decide) trivial (converts_long next)
  · have octal : Converts _ p more (p.convert kernelVersion size 'o') := converts_word .o next
    exact ⟨fun ends => octal.ends fun _ => ends rfl,
      fun no => octal.endless fun ends => no fun _ => ends rfl⟩
  · exact always (by decide) nofun (converts_word .b next)
  · rw [show Char.ofNat (115#8).toNat = 's' from rfl, convert_string _ _ next]
    exact .of_some nofun rfl (near_strcpyArg _ _)
  · exact always (by decide) nofun (converts_word .c next)
  · refine .of_some nofun next fun k far => ?_
    dsimp only
    rw [put8, patch_outside (by omega)]

/-- Every directive has an end: its conversion is known, and an octal number has no more than
eight digits. -/
def DirectivesEnd (strings : U32 → List (BitVec 8)) :
    List (BitVec 8) → PrintMode → (Nat → U32) → Prop
  | [], .text, _ => True
  | [], .directive _, _ => False
  | char :: format, .text, stack =>
    DirectivesEnd strings format (if char = 37#8 then .directive false else .text) stack
  | char :: format, .directive _, stack =>
    if char = 35#8 ∨ char = 43#8 then DirectivesEnd strings format (.directive false) stack
    else if isdigit char then DirectivesEnd strings format (.directive true) stack
    else char ∈ conversions ∧ (char = 111#8 → (stack 0).toNat < 2 ^ 24) ∧
      DirectivesEnd strings format .text fun i => stack (i + (takeArgs strings stack char).2)

/-- A directive of a known conversion. -/
theorem directive_cases {char : BitVec 8} {d : Desk} (far : FarNul d.buf)
    (known : char ∈ conversions) (next : d.args = (takeArgs strings stack char).1 ++ more) :
    ((char = 111#8 → (stack 0).toNat < 2 ^ 24) ∧
        ∃ texts d', d.directive kernelVersion (Char.ofNat char.toNat) = some (texts, d') ∧
          d'.args = more ∧ FarNul d'.buf) ∨
      (¬ (char = 111#8 → (stack 0).toNat < 2 ^ 24) ∧
        d.directive kernelVersion (Char.ofNat char.toNat) = none) := by
  have converts := converts_known 0#32 (p := d.printer) known next
  rw [Desk.directive]
  by_cases ends : char = 111#8 → (stack 0).toNat < 2 ^ 24
  · obtain ⟨q, converted, args, near⟩ := converts.ends ends
    obtain ⟨len, length⟩ := (far.near near).strlen
    refine .inl ⟨ends, d.mark (Char.ofNat char.toNat) ++ q.desk.content len,
      { q.desk with buf := memset q.buf bufAt 0#8 len }, ?_, args, (far.near near).clear len⟩
    rw [converted, Option.bind_eq_bind, Option.bind_some, length]
    rfl
  · exact .inr ⟨ends, by rw [converts.endless ends]; rfl⟩

/-- A format is complete when all its directives have an end. -/
theorem complete_iff (format : List (BitVec 8)) (mode : PrintMode) (stack : Nat → U32) (d : Desk)
    (args : d.args = vaArgs strings format mode stack) (far : FarNul d.buf) :
    (expand kernelVersion format mode d).complete = true ↔
      DirectivesEnd strings format mode stack := by
  induction format generalizing mode stack d with
  | nil => cases mode <;> simp [expand, DirectivesEnd]
  | cons char format ih =>
    cases mode with
    | text =>
      rw [vaArgs] at args
      rw [expand, DirectivesEnd]
      split
      case isTrue percent =>
          rw [if_pos percent] at args
          exact ih _ stack d args far
      case isFalse plain =>
          rw [if_neg plain] at args
          exact ih _ stack _ args far
    | directive inWidth =>
      rw [vaArgs] at args
      rw [expand, DirectivesEnd]
      by_cases mark : char = 35#8 ∨ char = 43#8
      · rw [if_pos mark] at args ⊢
        split
        · exact ih _ stack _ args far
        · rw [if_pos (mark.resolve_left ‹_›)]
          exact ih _ stack _ args far
      · obtain ⟨notAlternate, notSign⟩ := not_or.mp mark
        rw [if_neg mark] at args ⊢
        rw [if_neg notAlternate, if_neg notSign]
        by_cases digit : isdigit char
        · rw [if_pos digit] at args ⊢
          rw [if_pos digit]
          exact ih _ stack _ args far
        · rw [if_neg digit] at args ⊢
          rw [if_neg digit]
          by_cases known : char ∈ conversions
          · rw [if_pos known] at args
            rcases directive_cases far known args with
              ⟨ends, texts, d', printed, more, far'⟩ | ⟨endless, printed⟩
            · rw [printed]
              have iff := ih .text _ d' more far'
              exact iff.trans ⟨fun rest => ⟨known, ends, rest⟩, fun all => all.2.2⟩
            · rw [printed]
              exact iff_of_false Bool.false_ne_true fun all => endless all.2.1
          · rw [Desk.directive, convert_unknown known]
            exact iff_of_false Bool.false_ne_true fun all => known all.1

/-! ### Formats on which the function ends -/

variable {str buf : Bytes}

/-- For every format and every stack: the function gets to its end without reading behind
the `NUL` of the format exactly when all directives have an end, or the texts before the first
that has none fill the buffer. -/
theorem printf_ends_iff (isFormat : CString text s) (fit : ArraysFit size)
    (behind : NulBehind size buf) :
    ((∀ c, (printing kernelVersion text str buf size (vaArgs strings s .text stack)).Reachable c →
        c.format ≤ s.length) ∧
      (printing kernelVersion text str buf size (vaArgs strings s .text stack)).Eventually
        (Cursor.Ends text size) (.start str buf size (vaArgs strings s .text stack))) ↔
      DirectivesEnd strings s .text stack ∨
        size.toNat ≤ filled buf size s (vaArgs strings s .text stack) := by
  have complete : (expansion buf size s (vaArgs strings s .text stack)).complete = true ↔
      DirectivesEnd strings s .text stack :=
    complete_iff s .text stack _ rfl behind.start
  have ends : (vsnprintfWith kernelVersion str buf size s (vaArgs strings s .text stack)).isSome =
      true ↔ _ := vsnprintf_isSome_iff fit
  rw [start_ends_iff isFormat, ends, complete]
  exact and_iff_right fun c reached => format_le isFormat reached

/-- `"%d"` and a word. -/
theorem printf_ends_decimal :
    (printing kernelVersion (fun i => [37#8, 100#8].getD i 0#8) (fun _ => 0#8) (fun _ => 0#8) 8#32
      (vaArgs (fun _ => []) [37#8, 100#8] .text fun _ => 5#32)).Eventually
        (Cursor.Ends (fun i => [37#8, 100#8].getD i 0#8) 8#32)
        (.start (fun _ => 0#8) (fun _ => 0#8) 8#32
          (vaArgs (fun _ => []) [37#8, 100#8] .text fun _ => 5#32)) := by
  have isFormat : CString (fun i => [37#8, 100#8].getD i 0#8) [37#8, 100#8] :=
    ⟨by decide, rfl, by decide⟩
  refine ((printf_ends_iff isFormat ⟨0, 8, by decide, by decide, by decide⟩
    ⟨2 ^ 16, Nat.le_refl _, by decide, .inr rfl⟩).mpr (.inl ?_)).2
  simp [DirectivesEnd, conversions, isdigit]

/-- `"%q"`. -/
theorem printf_endless :
    ¬ ∀ (text str buf : Bytes) (size : U32) (s : List (BitVec 8))
        (strings : U32 → List (BitVec 8)) (stack : Nat → U32),
      CString text s → ArraysFit size → NulBehind size buf →
      (∀ c, (printing kernelVersion text str buf size (vaArgs strings s .text stack)).Reachable c →
          c.format ≤ s.length) ∧
        (printing kernelVersion text str buf size (vaArgs strings s .text stack)).Eventually
          (Cursor.Ends text size) (.start str buf size (vaArgs strings s .text stack)) := by
  intro all
  have isFormat : CString (fun i => [37#8, 113#8].getD i 0#8) [37#8, 113#8] :=
    ⟨by decide, rfl, by decide⟩
  have ends := (all _ (fun _ => 0#8) (fun _ => 0#8) 8#32 [37#8, 113#8] (fun _ => []) (fun _ => 0#32)
    isFormat ⟨0, 8, by decide, by decide, by decide⟩
    ⟨2 ^ 16, Nat.le_refl _, by decide, .inr rfl⟩).2
  rw [start_ends_iff isFormat] at ends
  revert ends
  decide +kernel

end Crunchy
