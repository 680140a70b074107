/-
Module: Crunchy.Proofs.Keyboard
Purpose: Which line the keyboard hands over at a newline. The characters before `idx`
  are those of the edited line, but neither the buffer nor what is copied from it ends
  there.
Trusted boundary: none
Main exports: edit, Typing, typing, Edited, Edited.reached, Delivers, LineFits,
  line_delivered_iff
-/
import Crunchy.Drivers.Keyboard
import Crunchy.Lib.Transition
import Crunchy.Proofs.Vga

namespace Crunchy

open Lib BitVec Option List

/-! ### Typing -/

/-- The keys that a line is typed with. -/
def EditingKey (key : BitVec 8) : Prop := Printable key ∨ key = 0x08#8 ∨ key = 0x0A#8

instance (key : BitVec 8) : Decidable (EditingKey key) := inferInstanceAs (Decidable (_ ∨ _))

/-- What a key makes of the line typed so far: a backspace removes the last character,
a newline starts the next line. -/
def edit (line : List (BitVec 8)) (key : BitVec 8) : List (BitVec 8) :=
  if key = 0x0A#8 then [] else if key = 0x08#8 then line.dropLast else line ++ [key]

/-- The keyboard, and the line that has been typed since the last newline. -/
structure Typing where
  keyboard : Keyboard
  line : List (BitVec 8)

/-- A key is pressed or released, or a line is taken. -/
inductive TypingEvent where
  | interrupt (scancode : BitVec 8)
  | gets

/-- The next state, where the key is one a line is typed with and the line has room in
the buffer. -/
def Typing.next (t : Typing) : TypingEvent → Option Typing
  | .interrupt scancode =>
    if scancode &&& 0x80#8 ≠ 0#8 then
      (keyboardHandler scancode t.keyboard).map fun k => { t with keyboard := k }
    else (t.keyboard.keyOf scancode).bind fun key =>
      if EditingKey key ∧ (edit t.line key).length < 0x400 then
        (keyboardHandler scancode t.keyboard).map fun k =>
          { keyboard := k, line := edit t.line key }
      else none
  | .gets => (gets t.keyboard).map fun taken => { t with keyboard := taken.2 }

/-- The two areas that `malloc` has returned are apart. -/
def Keyboard.AreasApart (k : Keyboard) : Prop :=
  k.buffer + 0x400 ≤ k.linebuffer ∨ k.linebuffer + 0x100 ≤ k.buffer

/-- All runs from `keyboard_install` on, whatever is in the memory. -/
def typing : System Typing TypingEvent where
  Start t := t.line = [] ∧ t.keyboard.AreasApart ∧ ∃ memory buffer linebuffer console,
    t.keyboard = keyboardInstall memory buffer linebuffer console
  Step t event t' := t.next event = some t'

/-! ### What is in the buffer -/

/-- The bytes before `idx` are the line. -/
structure Edited (k : Keyboard) (chars : List (BitVec 8)) : Prop where
  length : k.idx.toNat = chars.length
  short : chars.length < 0x400
  stored : ∀ i, (inside : i < chars.length) → k.memory (k.buffer + i) = chars[i]
  noNul : 0#8 ∉ chars
  apart : k.AreasApart

variable {k k' : Keyboard} {line : List (BitVec 8)} {key scancode : BitVec 8}

/-- A newline copies as many bytes as `strlen` counts. -/
theorem keyPressed_newline (k : Keyboard) :
    keyPressed 0x0A#8 k = (strlen k.memory k.buffer).map fun n =>
      { k with
        memory := strncpy k.memory k.linebuffer k.buffer (BitVec.ofNat 16 n)
        idx := 0#32
        console := vgaPutc k.console 0x0A#8 } := by
  rw [keyPressed, if_pos rfl, strcpy, Option.map_map]
  rfl

namespace Edited

/-- The handler does not find the buffer full. -/
theorem not_full (edited : Edited k line) : ¬ 0x400#32 ≤ k.idx := by
  have length := edited.length
  have short := edited.short
  intro full
  have full : 0x400 ≤ k.idx.toNat := le_def.mp full
  omega

theorem handler_press (edited : Edited k line) (pressed : scancode &&& 0x80#8 = 0#8) :
    keyboardHandler scancode k = (k.keyOf scancode).bind fun key => keyPressed key k := by
  rw [keyboardHandler, if_neg edited.not_full, if_neg (not_not.mpr pressed)]

/-- A key that is released leaves the line alone. -/
theorem released (edited : Edited k line) (up : scancode &&& 0x80#8 ≠ 0#8)
    (ran : keyboardHandler scancode k = some k') : Edited k' line := by
  rw [keyboardHandler, if_neg edited.not_full, if_pos up] at ran
  split at ran
  · cases ran
    exact ⟨edited.length, edited.short, edited.stored, edited.noNul, edited.apart⟩
  · cases ran
    exact edited

/-- A newline starts over, whatever has been copied. -/
theorem newline (edited : Edited k line) (ran : keyPressed 0x0A#8 k = some k') :
    Edited k' [] := by
  rw [keyPressed_newline, map_eq_some_iff] at ran
  obtain ⟨n, _, rfl⟩ := ran
  exact ⟨rfl, by decide, fun i inside => absurd inside (Nat.not_lt_zero i), not_mem_nil,
    edited.apart⟩

/-- A backspace takes back the index, and clears the byte behind the last character. -/
theorem backspace (edited : Edited k line) (ran : keyPressed 0x08#8 k = some k') :
    Edited k' line.dropLast := by
  have length := edited.length
  have shorter : line.dropLast.length = line.length - 1 := length_dropLast
  have noNul : 0#8 ∉ line.dropLast := fun member => edited.noNul (mem_of_mem_dropLast member)
  rw [keyPressed] at ran
  by_cases start : k.idx = 0#32
  · rw [if_neg (not_not.mpr start)] at ran
    cases ran
    have empty : line.length = 0 := by
      rw [← length, start]
      rfl
    refine ⟨?_, by omega, fun i inside => absurd inside (by omega), noNul, edited.apart⟩
    dsimp only
    omega
  · rw [if_pos start] at ran
    cases ran
    have positive : 1#32 ≤ k.idx := by bv_omega
    have short := edited.short
    refine ⟨?_, by omega, fun i inside => ?_, noNul, edited.apart⟩
    · dsimp only
      rw [toNat_sub_of_le positive, shorter, length]
      rfl
    · dsimp only
      rw [getElem_dropLast, put8, patch_outside (by omega)]
      exact edited.stored i (by omega)

/-- A character is put behind the line. -/
theorem typed (edited : Edited k line) (printable : Printable key)
    (notNewline : key ≠ 0x0A#8) (notBackspace : key ≠ 0x08#8)
    (room : (line ++ [key]).length < 0x400) (ran : keyPressed key k = some k') :
    Edited k' (line ++ [key]) := by
  have length := edited.length
  have short := edited.short
  rw [keyPressed] at ran
  rw [if_neg notNewline, if_neg notBackspace] at ran
  cases ran
  refine ⟨?_, room, fun i inside => ?_, ?_, edited.apart⟩
  · dsimp only
    rw [length_append, length_singleton]
    bv_omega
  · dsimp only
    rw [length_append, length_singleton] at inside
    rw [put8]
    by_cases isLast : i = line.length
    · subst isLast
      rw [patch_inside (by omega) (by omega)]
      exact (getElem_concat_length rfl _).symm
    · rw [patch_outside (by omega), getElem_append_left (by omega)]
      exact edited.stored i (by omega)
  · intro member
    rcases mem_append.mp member with inLine | isKey
    · exact edited.noNul inLine
    · rw [← mem_singleton.mp isKey] at printable
      exact absurd printable (by decide)

/-- Taking a line clears `linebuffer`, which is apart. -/
theorem taken (edited : Edited k line) {bytes : List (BitVec 8)}
    (ran : gets k = some (bytes, k')) : Edited k' line := by
  rw [gets] at ran
  split at ran
  · exact nomatch ran
  · rw [map_eq_some_iff] at ran
    obtain ⟨n, _, same⟩ := ran
    cases same
    have apart := edited.apart
    have short := edited.short
    refine ⟨edited.length, edited.short, fun i inside => ?_, edited.noNul, edited.apart⟩
    rw [Keyboard.AreasApart] at apart
    dsimp only
    rw [memset_outside (by omega)]
    exact edited.stored i inside

/-- Whatever key a line is typed with, the line is edited. -/
theorem pressed (edited : Edited k line) (isKey : EditingKey key)
    (room : (edit line key).length < 0x400) (ran : keyPressed key k = some k') :
    Edited k' (edit line key) := by
  rw [edit] at room ⊢
  by_cases isNewline : key = 0x0A#8
  · rw [if_pos isNewline]
    rw [isNewline] at ran
    exact edited.newline ran
  · rw [if_neg isNewline] at room ⊢
    by_cases isBackspace : key = 0x08#8
    · rw [if_pos isBackspace]
      rw [isBackspace] at ran
      exact edited.backspace ran
    · rw [if_neg isBackspace] at room ⊢
      have printable : Printable key := isKey.resolve_right (not_or.mpr ⟨isBackspace, isNewline⟩)
      exact edited.typed printable isNewline isBackspace room ran

theorem step {t t' : Typing} {event : TypingEvent} (edited : Edited t.keyboard t.line)
    (ran : t.next event = some t') : Edited t'.keyboard t'.line := by
  cases event with
  | gets =>
    obtain ⟨⟨bytes, k⟩, took, rfl⟩ := map_eq_some_iff.mp ran
    exact edited.taken took
  | interrupt scancode =>
    rw [Typing.next] at ran
    by_cases up : scancode &&& 0x80#8 ≠ 0#8
    · rw [if_pos up, map_eq_some_iff] at ran
      obtain ⟨k, handled, rfl⟩ := ran
      exact edited.released up handled
    · rw [if_neg up, bind_eq_some_iff] at ran
      obtain ⟨key, isKey, ran⟩ := ran
      split at ran
      next allowed =>
        obtain ⟨k, handled, rfl⟩ := map_eq_some_iff.mp ran
        rw [edited.handler_press (not_not.mp up), isKey, bind_some] at handled
        exact edited.pressed allowed.1 allowed.2 handled
      next => exact nomatch ran

/-- In every run the bytes before `idx` are the edited line. -/
theorem reached {t : Typing} (reached : typing.Reachable t) : Edited t.keyboard t.line := by
  apply reached.invariant fun t => Edited t.keyboard t.line
  · rintro t ⟨empty, apart, memory, buffer, linebuffer, console, installed⟩
    rw [installed] at apart ⊢
    rw [empty]
    exact ⟨rfl, by decide, fun i inside => absurd inside (Nat.not_lt_zero i), not_mem_nil,
      apart⟩
  · intro t event t' edited ran
    exact edited.step ran

end Edited

/-! ### What a newline hands over -/

/-- The interrupt leaves the line in `linebuffer`. -/
def Delivers (k : Keyboard) (scancode : BitVec 8) (line : List (BitVec 8)) : Prop :=
  ∃ k', keyboardHandler scancode k = some k' ∧
    CString (fun i => k'.memory (k'.linebuffer + i)) line

/-- No more than the line is copied, and what stands behind that in `linebuffer` already
is the rest of the line. The number of bytes is taken modulo `2 ^ 16`. -/
def LineFits (k : Keyboard) (line : List (BitVec 8)) : Prop :=
  ∃ n, strlen k.memory k.buffer = some n ∧ n % 65536 ≤ line.length ∧
    CString (fun i => k.memory (k.linebuffer + (n % 65536 + i))) (line.drop (n % 65536))

variable {n : Nat}

/-- The bytes of `linebuffer` after the copy, as far as the line could reach. -/
theorem Edited.copied_front (edited : Edited k line)
    (isLength : strlen k.memory k.buffer = some n) {i : Nat} (inside : i < 0x100) :
    strncpy k.memory k.linebuffer k.buffer (BitVec.ofNat 16 n) (k.linebuffer + i) =
      if i < n % 65536 then k.memory (k.buffer + i) else k.memory (k.linebuffer + i) := by
  have apart := edited.apart
  rw [Keyboard.AreasApart] at apart
  have nonzero := (strlen_eq_some_iff.mp isLength).2.1
  have count : (BitVec.ofNat 16 n).toNat = n % 65536 := toNat_ofNat n 16
  rw [strncpy_eq_memcpy fun j inside => nonzero j (by omega), count]
  split
  · rename_i copied
    have early : i < copyLag k.linebuffer k.buffer (n % 65536) := by
      rw [copyLag]
      split <;> omega
    rw [memcpy_at copied, Nat.mod_eq_of_lt early]
  · exact memcpy_outside (by omega)

/-- What is copied makes up the line exactly where the line fits. -/
theorem Edited.copied_iff (edited : Edited k line) (short : line.length < 0x100)
    (isLength : strlen k.memory k.buffer = some n) :
    CString (fun i => strncpy k.memory k.linebuffer k.buffer (BitVec.ofNat 16 n)
        (k.linebuffer + i)) line ↔
      n % 65536 ≤ line.length ∧
        CString (fun i => k.memory (k.linebuffer + (n % 65536 + i))) (line.drop (n % 65536)) := by
  have nonzero := (strlen_eq_some_iff.mp isLength).2.1
  have below : n % 65536 ≤ n := Nat.mod_le _ _
  have front := fun i (inside : i < 0x100) => edited.copied_front isLength inside
  generalize n % 65536 = m at below front ⊢
  by_cases ends : m ≤ line.length
  · have copied : ∀ j, (inside : j < m) →
        strncpy k.memory k.linebuffer k.buffer (BitVec.ofNat 16 n) (k.linebuffer + j) =
          (line)[j] := by
      intro j inside
      rw [front j (by omega), if_pos inside]
      exact edited.stored j (by omega)
    have behind : ∀ i, i ≤ (line.drop m).length →
        strncpy k.memory k.linebuffer k.buffer (BitVec.ofNat 16 n) (k.linebuffer + (m + i)) =
          k.memory (k.linebuffer + (m + i)) := by
      intro i inside
      rw [length_drop] at inside
      rw [front (m + i) (by omega), if_neg (by omega)]
    rw [CString.split_iff edited.noNul ends, and_iff_right copied, and_iff_right ends]
    exact CString.congr behind
  · refine iff_of_false (fun string => ?_) fun fits => ends fits.1
    -- the `NUL` of the line would be a byte that was copied
    have zero := string.terminated
    rw [front line.length (by omega), if_pos (by omega)] at zero
    exact nonzero line.length (by omega) zero

/-- Where the buffer ends within `2 ^ 16` bytes the line fits if it is followed by a
`NUL`, in the buffer and in `linebuffer`. -/
theorem Edited.lineFits_iff (edited : Edited k line)
    (isLength : strlen k.memory k.buffer = some n) (near : n < 65536) :
    LineFits k line ↔
      k.memory (k.buffer + line.length) = 0#8 ∧ k.memory (k.linebuffer + line.length) = 0#8 := by
  obtain ⟨_, nonzero, zero⟩ := strlen_eq_some_iff.mp isLength
  have mod : n % 65536 = n := Nat.mod_eq_of_lt near
  have least : line.length ≤ n := by
    by_contra inside
    rw [edited.stored n (by omega)] at zero
    exact edited.noNul (zero ▸ getElem_mem _)
  constructor
  · rintro ⟨n', isLength', ends, rest⟩
    obtain rfl : n' = n := Option.some.inj (isLength'.symm.trans isLength)
    rw [mod] at ends rest
    obtain rfl : n' = line.length := Nat.le_antisymm ends least
    have behind := rest.terminated
    rw [drop_length] at behind
    exact ⟨zero, behind⟩
  · rintro ⟨ends, behind⟩
    have same : n = line.length := by
      by_contra other
      exact nonzero line.length (by omega) ends
    refine ⟨n, isLength, by omega, ?_⟩
    rw [mod, same, drop_length]
    exact ⟨fun j inside => absurd inside (Nat.not_lt_zero j), behind, not_mem_nil⟩

/-- At a newline the edited line is handed over exactly when the copy ends with the
line. -/
theorem line_delivered_iff {t : Typing} (reached : typing.Reachable t)
    (pressed : scancode &&& 0x80#8 = 0#8) (newline : t.keyboard.keyOf scancode = some 0x0A#8)
    (short : t.line.length < 0x100) :
    Delivers t.keyboard scancode t.line ↔ LineFits t.keyboard t.line := by
  have edited := Edited.reached reached
  rw [Delivers, edited.handler_press pressed, newline, bind_some, keyPressed_newline, LineFits]
  constructor
  · rintro ⟨k', ran, string⟩
    obtain ⟨n, isLength, rfl⟩ := map_eq_some_iff.mp ran
    exact ⟨n, isLength, (edited.copied_iff short isLength).mp string⟩
  · rintro ⟨n, isLength, fits⟩
    rw [isLength]
    exact ⟨_, rfl, (edited.copied_iff short isLength).mpr fits⟩

/-! ### Lines from memory that is zero -/

def bootTyping : Typing where
  keyboard := keyboardInstall (fun _ => 0#8) 0x1000 0x2000 bootConsole
  line := []

/-- What has been typed with these scancodes. -/
def typedFrom (scancodes : List (BitVec 8)) : Typing :=
  System.play Typing.next bootTyping (scancodes.map .interrupt)

theorem typedFrom_reached (scancodes : List (BitVec 8)) :
    typing.Reachable (typedFrom scancodes) := by
  have booted : typing.Reachable bootTyping :=
    .start ⟨rfl, Or.inl (by decide), _, _, _, _, rfl⟩
  exact booted.play (fun _ _ _ ran => ran) _

/-- `a`, `s`, newline. -/
theorem first_line_delivered :
    (typedFrom [0x1E#8, 0x1F#8]).line = [0x61#8, 0x73#8] ∧
      Delivers (typedFrom [0x1E#8, 0x1F#8]).keyboard 0x1C#8 [0x61#8, 0x73#8] := by
  have isLine : (typedFrom [0x1E#8, 0x1F#8]).line = [0x61#8, 0x73#8] := by decide +kernel
  have isLength : strlen (typedFrom [0x1E#8, 0x1F#8]).keyboard.memory
      (typedFrom [0x1E#8, 0x1F#8]).keyboard.buffer = some 2 := by decide +kernel
  have reached := typedFrom_reached [0x1E#8, 0x1F#8]
  have delivered : Delivers _ 0x1C#8 _ ↔ _ :=
    line_delivered_iff reached (by decide) (by decide +kernel) (by decide +kernel)
  have fits := ((Edited.reached reached).lineFits_iff isLength (by decide)).mpr
    ⟨by decide +kernel, by decide +kernel⟩
  exact ⟨isLine, delivered.mpr fits⟩

/-- The first bytes of `linebuffer` after an interrupt. -/
def linebufferAfter (k : Keyboard) (scancode : BitVec 8) (count : Nat) :
    Option (List (BitVec 8)) :=
  (keyboardHandler scancode k).map fun k =>
    (List.range count).map fun i => k.memory (k.linebuffer + i)

/-- A line is not handed over where another character follows it. -/
theorem not_delivers_of_linebufferAfter {c : BitVec 8} {rest : List (BitVec 8)} {count : Nat}
    (after : linebufferAfter k scancode count = some (line ++ c :: rest)) (notNul : c ≠ 0#8) :
    ¬ Delivers k scancode line := by
  rintro ⟨k', ran, string⟩
  rw [linebufferAfter, ran, Option.map_some, Option.some.injEq] at after
  have behind : (line ++ c :: rest)[line.length]? = some c := by
    rw [List.getElem?_append_right (Nat.le_refl _), Nat.sub_self]
    rfl
  rw [← after, List.getElem?_map, Option.map_eq_some_iff] at behind
  obtain ⟨i, isIndex, isByte⟩ := behind
  obtain ⟨_, rfl⟩ := List.getElem?_eq_some_iff.mp isIndex
  rw [List.getElem_range] at isByte
  exact notNul (isByte.symm.trans string.terminated)

/-- `a`, `s`, backspace, newline: `as` is handed over. `a`, `s`, newline, `d`, newline:
the second line is `ds`. -/
theorem erased_and_earlier_delivered :
    (typing.Reachable (typedFrom [0x1E#8, 0x1F#8, 0x0E#8]) ∧
      (typedFrom [0x1E#8, 0x1F#8, 0x0E#8]).line = [0x61#8] ∧
      linebufferAfter (typedFrom [0x1E#8, 0x1F#8, 0x0E#8]).keyboard 0x1C#8 3 =
        some [0x61#8, 0x73#8, 0#8] ∧
      ¬ Delivers (typedFrom [0x1E#8, 0x1F#8, 0x0E#8]).keyboard 0x1C#8 [0x61#8]) ∧
    (typing.Reachable (typedFrom [0x1E#8, 0x1F#8, 0x1C#8, 0x20#8]) ∧
      (typedFrom [0x1E#8, 0x1F#8, 0x1C#8, 0x20#8]).line = [0x64#8] ∧
      linebufferAfter (typedFrom [0x1E#8, 0x1F#8, 0x1C#8, 0x20#8]).keyboard 0x1C#8 3 =
        some [0x64#8, 0x73#8, 0#8] ∧
      ¬ Delivers (typedFrom [0x1E#8, 0x1F#8, 0x1C#8, 0x20#8]).keyboard 0x1C#8 [0x64#8]) := by
  have erased : linebufferAfter (typedFrom [0x1E#8, 0x1F#8, 0x0E#8]).keyboard 0x1C#8 3 =
      some [0x61#8, 0x73#8, 0#8] := by decide +kernel
  have earlier : linebufferAfter (typedFrom [0x1E#8, 0x1F#8, 0x1C#8, 0x20#8]).keyboard 0x1C#8 3 =
      some [0x64#8, 0x73#8, 0#8] := by decide +kernel
  exact ⟨⟨typedFrom_reached _, by decide +kernel, erased,
      not_delivers_of_linebufferAfter erased (by decide)⟩,
    typedFrom_reached _, by decide +kernel, earlier,
      not_delivers_of_linebufferAfter earlier (by decide)⟩

end Crunchy
