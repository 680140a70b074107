/-
Module: Crunchy.Proofs.PrintfLimit
Purpose: What `vsnprintf` writes for any format, any arguments and any size: the texts that the
  format comes to, each cut off by the test that guards it.
Trusted boundary: none
Main exports: Expansion, expand, loop_eq, vsnprintf_eq, printf_in_bounds, printf_terminated_iff
-/
import Crunchy.Proofs.PrintfOutput

namespace Crunchy

open Lib List

/-! ### Texts and where they are cut off -/

/-- A text that is written under one test. -/
inductive Stretch where
  /-- A character of the format, written if there is room for it. -/
  | literal (c : BitVec 8)
  /-- A prefix or sign, written whole or not at all. -/
  | mark (room : Nat) (text : List (BitVec 8)) (fits : text.length ≤ room)
  /-- A padding or body, written by a loop. -/
  | run (text : List (BitVec 8))

/-- What is written of it from position `n` on. -/
def Stretch.cut (size n : Nat) : Stretch → List (BitVec 8)
  | .literal c => if n < size then [c] else []
  | .mark room text _ => if n + room < size then text else []
  | .run text => text.take ((size - n + 1) / 2)

/-- The position behind it. -/
def Stretch.reach (size n : Nat) : Stretch → Nat
  | .literal _ => if n < size then n + 1 else n
  | .mark room text _ => if n + room < size then n + text.length else n
  | .run text => n + min text.length ((size - n + 1) / 2)

/-- What is written of some texts from position `n` on. -/
def cutAll (size : Nat) : Nat → List Stretch → List (BitVec 8)
  | _, [] => []
  | n, stretch :: rest => stretch.cut size n ++ cutAll size (stretch.reach size n) rest

/-- The position behind them. -/
def reach (size : Nat) : Nat → List Stretch → Nat
  | n, [] => n
  | n, stretch :: rest => reach size (stretch.reach size n) rest

variable {size n : Nat} {stretch : Stretch} {stretches more : List Stretch}

theorem Stretch.length_cut : n + (stretch.cut size n).length = stretch.reach size n := by
  cases stretch with
  | literal c =>
    rw [cut, reach]
    split <;> rfl
  | mark room text fits =>
    rw [cut, reach]
    split <;> rfl
  | run text => rw [cut, reach, length_take, Nat.min_comm]

theorem length_cutAll : n + (cutAll size n stretches).length = reach size n stretches := by
  induction stretches generalizing n with
  | nil => rfl
  | cons stretch stretches ih =>
    rw [cutAll, reach, length_append, ← ih, ← stretch.length_cut, Nat.add_assoc]

theorem Stretch.reach_le (inside : n ≤ size) : stretch.reach size n ≤ size := by
  cases stretch with
  | literal c =>
    rw [reach]
    split <;> omega
  | mark room text fits =>
    rw [reach]
    split <;> omega
  | run text =>
    rw [reach]
    omega

theorem reach_le (inside : n ≤ size) : reach size n stretches ≤ size := by
  induction stretches generalizing n with
  | nil => exact inside
  | cons stretch stretches ih =>
    exact ih (stretch.reach_le inside)

theorem reach_append :
    reach size n (stretches ++ more) = reach size (reach size n stretches) more := by
  induction stretches generalizing n with
  | nil => rfl
  | cons stretch stretches ih => exact ih

theorem cutAll_append : cutAll size n (stretches ++ more) =
    cutAll size n stretches ++ cutAll size (reach size n stretches) more := by
  induction stretches generalizing n with
  | nil => rfl
  | cons stretch stretches ih =>
    rw [cons_append, cutAll, ih, cutAll, reach, append_assoc]

/-- In a full buffer nothing moves. -/
theorem Stretch.reach_full : stretch.reach size size = size := by
  have low : size + (stretch.cut size size).length = stretch.reach size size := stretch.length_cut
  have high := stretch.reach_le (Nat.le_refl size)
  omega

theorem reach_full : reach size size stretches = size := by
  induction stretches with
  | nil => rfl
  | cons stretch stretches ih =>
    rw [reach, Stretch.reach_full, ih]

theorem cutAll_full : cutAll size size stretches = [] := by
  have length : size + (cutAll size size stretches).length = reach size size stretches :=
    length_cutAll
  rw [reach_full] at length
  exact eq_nil_of_length_eq_zero (by omega)

/-! ### Texts written by the loops -/

/-- A loop writes as much as there is room for when every character takes two places. -/
theorem emitLoop_eq_take {p : Printer} {size : U32} {source : Nat → BitVec 8} {left : Nat} {i : U32}
    (small : size.toNat ≤ 2 ^ 31) (sum : i.toNat + p.n.toNat ≤ size.toNat + 1) :
    p.emitLoop size source left i =
      p.put (((List.range left).map fun j => source (i.toNat + j)).take
        ((size.toNat - (i.toNat + p.n.toNat) + 1) / 2)) := by
  induction left generalizing p i with
  | zero =>
    rw [range_zero, map_nil, take_nil]
    exact (put_nil p).symm
  | succ left ih =>
    by_cases inside : i.toNat + p.n.toNat < size.toNat
    · have one : p.n.toNat + 1 < 2 ^ 32 := by omega
      have next : (i + 1#32).toNat = i.toNat + 1 := toNat_add_ofNat (by omega)
      have behind : (p.put [source i.toNat]).n.toNat = p.n.toNat + 1 := toNat_put_singleton one
      have room : (size.toNat - (i.toNat + p.n.toNat) + 1) / 2 =
          (size.toNat - (i.toNat + 1 + (p.n.toNat + 1)) + 1) / 2 + 1 := by omega
      rw [emitLoop_succ inside, ih (by omega), put_cons one, next, behind, room,
        map_range_succ, take_succ_cons]
    · have full : ¬ i + p.n < size := by
        rw [BitVec.lt_def, BitVec.toNat_add]
        omega
      rw [Printer.emitLoop, if_neg full,
        show (size.toNat - (i.toNat + p.n.toNat) + 1) / 2 = 0 by omega, take_zero, put_nil]

/-- The loop from the start of a text. -/
theorem emitLoop_eq_cut {p : Printer} {size : U32} {source : Nat → BitVec 8} {left : Nat}
    (small : size.toNat ≤ 2 ^ 31) (inside : p.n.toNat ≤ size.toNat) :
    p.emitLoop size source left 0#32 =
      p.put ((Stretch.run ((List.range left).map source)).cut size.toNat p.n.toNat) := by
  rw [emitLoop_eq_take small (by simp only [BitVec.toNat_ofNat]; omega)]
  simp [Stretch.cut]

/-! ### Texts of a directive -/

/-- What a directive works with, besides the output. -/
structure Desk where
  buf : Bytes
  pad : U32
  flags : PrintFlags
  args : List Arg

def Printer.desk (p : Printer) : Desk := ⟨p.buf, p.pad, p.flags, p.args⟩

/-- A printer that has written nothing yet. -/
def Desk.printer (d : Desk) : Printer := ⟨fun _ => 0#8, d.buf, 0#32, d.pad, d.flags, d.args⟩

/-- What a conversion puts in front: the room it asks for, whether it does, and the text. -/
def Desk.front (d : Desk) (c : Char) : U32 × Bool × List (BitVec 8) :=
  match c, d.args with
  | 'x', _ => (2#32, d.flags.alternate, [48#8, 120#8])
  | 'X', _ => (2#32, d.flags.alternate, [48#8, 120#8])
  | 'd', .word w :: _ => (1#32, d.flags.alwaysSign, [if 0 < w.toInt then 43#8 else 45#8])
  | 'i', .word w :: _ => (1#32, w.toInt < 0, [45#8])
  | 'o', _ => (2#32, d.flags.alternate, [48#8])
  | _, _ => (0#32, false, [])

theorem Desk.front_fits (d : Desk) (c : Char) :
    (d.front c).2.2.length ≤ (d.front c).1.toNat ∧ (d.front c).1.toNat ≤ 2 ∧
      0#8 ∉ (d.front c).2.2 := by
  rw [front.eq_def]
  split
  case h_3 => split <;> simp
  all_goals simp

/-- The same as a list of texts. -/
def Desk.mark (d : Desk) (c : Char) : List Stretch :=
  if (d.front c).2.1 then [.mark (d.front c).1.toNat (d.front c).2.2 (d.front_fits c).1] else []

/-- Apart from the text in front, a conversion does not depend on the output. -/
theorem convert_eq_front (v : Version) (size : U32) (c : Char) (p : Printer) :
    p.convert v size c = (p.desk.printer.convert v 0#32 c).map fun q =>
      { p.emitIf size (p.desk.front c).1 (p.desk.front c).2.1 (p.desk.front c).2.2 with
        buf := q.buf, args := q.args, flags := q.flags, pad := q.pad } := by
  obtain ⟨str, buf, n, pad, flags, args⟩ := p
  rw [Printer.convert.eq_def, Printer.convert.eq_def v 0#32]
  simp only [Printer.desk, Desk.printer, Desk.front]
  -- one case for each conversion, in the order of the source, and the ones that do not end
  split
  · simp [Printer.emitIf]
  · cases itoa buf _ bufAt 16 <;> simp [Printer.emitIf]
    split <;> simp [Printer.emit]
  · split
    · cases ctoa buf _ bufAt 16 <;> simp [Printer.emitIf]
      split <;> simp [Printer.emit]
    · rfl
  · simp only [Printer.emitIf]
    split <;> simp [Printer.emit]
  · simp only [Printer.emitIf]
    split <;> simp [Printer.emit]
  · cases itoa buf _ bufAt 10 <;> simp [Printer.emitIf]
  · cases ltoa buf _ bufAt 16 <;> simp [Printer.emitIf]
  · cases itoa buf _ bufAt 8 <;> simp [Printer.emitIf]
    split <;> simp [Printer.emit]
  · cases itoa buf _ bufAt 2 <;> simp [Printer.emitIf]
  · simp [Printer.emitIf]
  · simp [Printer.emitIf]
  · simp [Printer.emitIf]
  · rfl

/-- The text in front, under its test. -/
theorem emitIf_eq_cut {p : Printer} {size : U32} {c : Char} (small : size.toNat ≤ 2 ^ 31)
    (inside : p.n.toNat ≤ size.toNat) :
    p.emitIf size (p.desk.front c).1 (p.desk.front c).2.1 (p.desk.front c).2.2 =
      p.put (cutAll size.toNat p.n.toNat (p.desk.mark c)) := by
  obtain ⟨short, room, _⟩ := p.desk.front_fits c
  have test : p.n + (p.desk.front c).1 < size ↔
      p.n.toNat + (p.desk.front c).1.toNat < size.toNat := by
    rw [BitVec.lt_def, BitVec.toNat_add, Nat.mod_eq_of_lt (by omega)]
  rw [Printer.emitIf, Desk.mark]
  by_cases asked : (p.desk.front c).2.1 = true
  · rw [if_pos asked, cutAll, cutAll, append_nil, Stretch.cut]
    by_cases enough : p.n.toNat + (p.desk.front c).1.toNat < size.toNat
    · rw [if_pos ⟨asked, test.mpr enough⟩, if_pos enough, foldl_emit_eq_put (by omega)]
    · rw [if_neg fun both => enough (test.mp both.2), if_neg enough, put_nil]
  · rw [if_neg fun both => asked both.1, if_neg asked, cutAll, put_nil]

/-- The string in the scratch buffer. -/
def bodyOf (buf : Bytes) (len : Nat) : List (BitVec 8) :=
  (List.range len).map fun i => buf (bufAt + i)

/-- The padding and the body. -/
def Desk.content (d : Desk) (len : Nat) : List Stretch :=
  [.run (padding d.flags d.pad len), .run (bodyOf d.buf len)]

theorem finish_eq_cut {p : Printer} {size : U32} (small : size.toNat ≤ 2 ^ 31)
    (inside : p.n.toNat ≤ size.toNat) :
    p.finish size = (strlen p.buf bufAt).map fun len =>
      { p.put (cutAll size.toNat p.n.toNat (p.desk.content len)) with
        buf := memset p.buf bufAt 0#8 len } := by
  rw [Printer.finish, Option.map_eq_bind]
  refine congrArg (Option.bind _) (funext fun len => ?_)
  set paddingCut := (Stretch.run (padding p.flags p.pad len)).cut size.toNat p.n.toNat
    with isPadding
  have padded : (if p.flags.pad ∧ len < p.pad.toNat then
      p.emitLoop size (fun _ => if p.flags.notnum then 32#8 else 48#8) (p.pad.toNat - len) 0#32
      else p) = p.put paddingCut := by
    by_cases pads : p.flags.pad ∧ len < p.pad.toNat
    · rw [if_pos pads, emitLoop_eq_cut small inside, isPadding, padding, if_pos pads,
        map_const', length_range]
    · rw [if_neg pads, isPadding, padding, if_neg pads, Stretch.cut, take_nil, put_nil]
  have behind : p.n.toNat + paddingCut.length =
      (Stretch.run (padding p.flags p.pad len)).reach size.toNat p.n.toNat := Stretch.length_cut
  have bound : p.n.toNat + paddingCut.length ≤ size.toNat := behind ▸ Stretch.reach_le inside
  have n : (p.put paddingCut).n.toNat = p.n.toNat + paddingCut.length := toNat_put (by omega)
  have sameBuf : (p.put paddingCut).buf = p.buf := rfl
  simp only [padded, Function.comp_apply]
  rw [emitLoop_eq_cut small (by omega), put_put (by omega), n, behind, sameBuf, Desk.content,
    cutAll, cutAll, cutAll, append_nil]
  rfl

/-- The texts of a directive and what it leaves for the next one; `none` if it has no end: if
its conversion is unknown or its number has more octal digits than `itoa` can write. -/
def Desk.directive (v : Version) (c : Char) (d : Desk) : Option (List Stretch × Desk) := do
  let q ← d.printer.convert v 0#32 c
  let len ← strlen q.buf bufAt
  some (d.mark c ++ q.desk.content len, { q.desk with buf := memset q.buf bufAt 0#8 len })

/-- The printer after a text, with what a directive has left. -/
def Printer.advance (p : Printer) (text : List (BitVec 8)) (d : Desk) : Printer :=
  { p.put text with buf := d.buf, pad := d.pad, flags := d.flags, args := d.args }

variable {v : Version} {size : U32} {p q : Printer} {d : Desk}

@[simp] theorem desk_advance (text : List (BitVec 8)) : (p.advance text d).desk = d := rfl

theorem n_advance {texts : List Stretch} (small : size.toNat ≤ 2 ^ 31)
    (inside : p.n.toNat ≤ size.toNat) :
    (p.advance (cutAll size.toNat p.n.toNat texts) d).n.toNat =
      reach size.toNat p.n.toNat texts := by
  have length : p.n.toNat + (cutAll size.toNat p.n.toNat texts).length =
      reach size.toNat p.n.toNat texts := length_cutAll
  have bound : reach size.toNat p.n.toNat texts ≤ size.toNat := reach_le inside
  rw [← length]
  exact toNat_put (by omega)

theorem advance_inside {texts : List Stretch} (small : size.toNat ≤ 2 ^ 31)
    (inside : p.n.toNat ≤ size.toNat) :
    (p.advance (cutAll size.toNat p.n.toNat texts) d).n.toNat ≤ size.toNat := by
  rw [n_advance small inside]
  exact reach_le inside

/-- One text behind the other. -/
theorem advance_advance {texts more : List Stretch} {d' : Desk} (small : size.toNat ≤ 2 ^ 31)
    (inside : p.n.toNat ≤ size.toNat) :
    (p.advance (cutAll size.toNat p.n.toNat texts) d).advance
        (cutAll size.toNat (reach size.toNat p.n.toNat texts) more) d' =
      p.advance (cutAll size.toNat p.n.toNat (texts ++ more)) d' := by
  have length : p.n.toNat + (cutAll size.toNat p.n.toNat texts).length =
      reach size.toNat p.n.toNat texts := length_cutAll
  have bound : reach size.toNat p.n.toNat texts ≤ size.toNat := reach_le inside
  rw [cutAll_append, Printer.advance, Printer.advance, Printer.advance, ← put_put (by omega)]
  rfl

/-- A directive, from its conversion on. -/
theorem directive_eq {c : Char} (small : size.toNat ≤ 2 ^ 31) (inside : p.n.toNat ≤ size.toNat) :
    (p.convert v size c).bind (Printer.finish size) =
      (p.desk.directive v c).map fun result =>
        p.advance (cutAll size.toNat p.n.toNat result.1) result.2 := by
  rw [convert_eq_front, emitIf_eq_cut small inside, Desk.directive]
  cases p.desk.printer.convert v 0#32 c with
  | none => rfl
  | some q =>
    have marked : (p.advance (cutAll size.toNat p.n.toNat (p.desk.mark c)) q.desk).n.toNat =
        reach size.toNat p.n.toNat (p.desk.mark c) := n_advance small inside
    have bound : reach size.toNat p.n.toNat (p.desk.mark c) ≤ size.toNat := reach_le inside
    show (p.advance (cutAll size.toNat p.n.toNat (p.desk.mark c)) q.desk).finish size = _
    have sameBuf : (p.advance (cutAll size.toNat p.n.toNat (p.desk.mark c)) q.desk).buf =
        q.buf := rfl
    rw [finish_eq_cut small (by omega), marked, desk_advance, sameBuf]
    simp only [Option.bind_eq_bind, Option.bind_some]
    cases strlen q.buf bufAt with
    | none => rfl
    | some len =>
      rw [Option.bind_some, Option.map_some, Option.map_some, ← advance_advance small inside]
      rfl

/-! ### Texts of a format -/

/-- The texts of a format, and whether it is complete: whether the function gets to its end,
if it does not stop before for want of room. -/
structure Expansion where
  stretches : List Stretch
  complete : Bool

/-- More texts in front. -/
def Expansion.behind (front : List Stretch) (rest : Expansion) : Expansion :=
  ⟨front ++ rest.stretches, rest.complete⟩

/-- The texts of a format from a place on, up to the first directive that has no end. -/
def expand (v : Version) : List (BitVec 8) → PrintMode → Desk → Expansion
  | [], .text, _ => ⟨[], true⟩
  | [], .directive _, _ => ⟨[], false⟩
  | c :: format, .text, d =>
    if c = 37#8 then expand v format (.directive false) d
    else (expand v format .text { d with flags := .none }).behind [.literal c]
  | c :: format, .directive inWidth, d =>
    if c = 35#8 then expand v format (.directive false) { d with flags.alternate := true }
    else if c = 43#8 then
      expand v format (.directive false) { d with flags.alwaysSign := true }
    else if isdigit c then
      expand v format (.directive true) { d with
        flags.pad := true
        pad := (if inWidth then d.pad else 0#32) * 10#32 + (c - 48#8).setWidth 32 }
    else
      match d.directive v (Char.ofNat c.toNat) with
      | none => ⟨[], false⟩
      | some (texts, d) => (expand v format .text d).behind texts

/-- What the loop has written when it ends, and whether it ends. -/
def outcome (size : U32) (p : Printer) (e : Expansion) : Option (Bytes × U32) :=
  if e.complete = true ∨ size.toNat ≤ reach size.toNat p.n.toNat e.stretches then
    some ((p.put (cutAll size.toNat p.n.toNat e.stretches)).str,
      (p.put (cutAll size.toNat p.n.toNat e.stretches)).n)
  else none

/-- The outcome is that of the rest once the text in front has been written. -/
theorem outcome_behind {texts : List Stretch} {rest : Expansion} (small : size.toNat ≤ 2 ^ 31)
    (inside : p.n.toNat ≤ size.toNat) :
    outcome size p (rest.behind texts) =
      outcome size (p.advance (cutAll size.toNat p.n.toNat texts) d) rest := by
  have n : (p.advance (cutAll size.toNat p.n.toNat texts) d).n.toNat = _ := n_advance small inside
  have whole : (p.advance (cutAll size.toNat p.n.toNat texts) d).advance
      (cutAll size.toNat (reach size.toNat p.n.toNat texts) rest.stretches) d =
        p.advance (cutAll size.toNat p.n.toNat (texts ++ rest.stretches)) d :=
    advance_advance small inside
  rw [outcome, outcome, Expansion.behind, reach_append, n]
  refine if_congr Iff.rfl (congrArg some (Prod.ext ?_ ?_)) rfl
  · exact (congrArg Printer.str whole).symm
  · exact (congrArg Printer.n whole).symm

/-- In a full buffer the function stops. -/
theorem outcome_full (e : Expansion) (full : p.n.toNat = size.toNat) :
    outcome size p e = some (p.str, p.n) := by
  rw [outcome, full, reach_full, if_pos (Or.inr (Nat.le_refl _)), cutAll_full, put_nil]

theorem outcome_endless (inside : p.n.toNat < size.toNat) : outcome size p ⟨[], false⟩ = none := by
  rw [outcome, reach, if_neg]
  rintro (never | full)
  · exact Bool.false_ne_true never
  · omega

/-- What the loop writes, and whether it ends, by induction on the format. At a directive there
is room for at least one character. -/
theorem loop_eq (small : size.toNat ≤ 2 ^ 31) (format : List (BitVec 8)) (mode : PrintMode)
    (p : Printer) (inside : p.n.toNat ≤ size.toNat)
    (room : mode ≠ .text → p.n.toNat < size.toNat) :
    (p.loop v size format mode).map (fun q => (q.str, q.n)) =
      outcome size p (expand v format mode p.desk) := by
  induction format generalizing mode p with
  | nil =>
    cases mode with
    | text =>
      rw [Printer.loop, expand, outcome, if_pos (Or.inl rfl), cutAll, put_nil, Option.map_some]
    | directive inWidth =>
      rw [Printer.loop, expand, outcome_endless (room (by simp)), Option.map_none]
  | cons c format ih =>
    cases mode with
    | text =>
      rw [Printer.loop]
      by_cases more : p.n < size
      · rw [if_pos more, expand]
        split
        · exact ih _ p inside fun _ => more
        · have one : (Stretch.literal c).cut size.toNat p.n.toNat = [c] := if_pos more
          have wrote : { p.emit c with flags := PrintFlags.none } =
              p.advance (cutAll size.toNat p.n.toNat [.literal c])
                { p.desk with flags := .none } := by
            rw [cutAll, one, cutAll, emit_eq_put]
            rfl
          rw [wrote, ih _ _ (advance_inside small inside)
            (fun no => absurd rfl no), desk_advance]
          exact (outcome_behind small inside).symm
      · have full : p.n.toNat = size.toNat := by
          rw [BitVec.lt_def] at more
          omega
        rw [if_neg more, outcome_full _ full, Option.map_some]
    | directive inWidth =>
      have room := room (by simp)
      rw [Printer.loop, expand]
      split
      · exact ih _ _ inside fun _ => room
      · split
        · exact ih _ _ inside fun _ => room
        · split
          · exact ih _ _ inside fun _ => room
          · have printed := directive_eq (v := v) (c := Char.ofNat c.toNat) small inside
            rw [Option.bind_eq_bind, ← Option.bind_assoc, printed]
            cases p.desk.directive v (Char.ofNat c.toNat) with
            | none => exact (outcome_endless room).symm
            | some result =>
              obtain ⟨texts, d⟩ := result
              rw [Option.map_some, Option.bind_some, ih _ _
                (advance_inside small inside) (fun no => absurd rfl no), desk_advance]
              exact (outcome_behind small inside).symm

/-! ### The whole function -/

/-- What the function starts with. -/
def startPrinter (str buf : Bytes) (size : U32) (ap : List Arg) : Printer :=
  ⟨memset str 0 0#8 size.toNat, memset buf bufAt 0#8 size.toNat, 0#32, 0#32, .none, ap⟩

/-- The texts of a call of the kernel's `vsnprintf`. -/
def expansion (buf : Bytes) (size : U32) (format : List (BitVec 8)) (ap : List Arg) : Expansion :=
  expand kernelVersion format .text ⟨memset buf bufAt 0#8 size.toNat, 0#32, .none, ap⟩

/-- How far the texts of a call go in `str`. -/
def filled (buf : Bytes) (size : U32) (format : List (BitVec 8)) (ap : List Arg) : Nat :=
  reach size.toNat 0 (expansion buf size format ap).stretches

/-- `str` and the scratch buffer are two separate arrays of `size` bytes in memory. -/
def ArraysFit (size : U32) : Prop :=
  ∃ str buf : Nat, str + size.toNat ≤ 2 ^ 32 ∧ buf + size.toNat ≤ 2 ^ 32 ∧
    (str + size.toNat ≤ buf ∨ buf + size.toNat ≤ str)

theorem ArraysFit.small (fit : ArraysFit size) : size.toNat ≤ 2 ^ 31 := by
  obtain ⟨str, buf, strEnd, bufEnd, apart⟩ := fit
  omega

variable {str buf out : Bytes} {n : U32} {format : List (BitVec 8)} {ap : List Arg}

theorem filled_le : filled buf size format ap ≤ size.toNat := reach_le (Nat.zero_le _)

theorem vsnprintf_eq (fit : ArraysFit size) (str buf : Bytes) (format : List (BitVec 8))
    (ap : List Arg) :
    vsnprintf str buf size format ap =
      if (expansion buf size format ap).complete = true ∨
          size.toNat ≤ filled buf size format ap then
        some (((startPrinter str buf size ap).put
            (cutAll size.toNat 0 (expansion buf size format ap).stretches)).str,
          ((startPrinter str buf size ap).put
            (cutAll size.toNat 0 (expansion buf size format ap).stretches)).n)
      else none :=
  loop_eq fit.small format .text (startPrinter str buf size ap) (Nat.zero_le _)
    (fun no => absurd rfl no)

/-- The function ends when its format is complete or the buffer is full before. -/
theorem vsnprintf_isSome_iff (fit : ArraysFit size) :
    (vsnprintf str buf size format ap).isSome = true ↔
      (expansion buf size format ap).complete = true ∨
        size.toNat ≤ filled buf size format ap := by
  rw [vsnprintf_eq fit]
  by_cases ends : (expansion buf size format ap).complete = true ∨
      size.toNat ≤ filled buf size format ap
  · rw [if_pos ends]
    exact iff_of_true rfl ends
  · rw [if_neg ends]
    exact iff_of_false Bool.false_ne_true ends

/-- What it has written then. -/
theorem vsnprintf_eq_some (fit : ArraysFit size)
    (ends : vsnprintf str buf size format ap = some (out, n)) :
    out = writeText (memset str 0 0#8 size.toNat) 0
        (cutAll size.toNat 0 (expansion buf size format ap).stretches) ∧
      n.toNat = filled buf size format ap := by
  have length : 0 + (cutAll size.toNat 0 (expansion buf size format ap).stretches).length =
      filled buf size format ap := length_cutAll
  have bound : filled buf size format ap ≤ size.toNat := filled_le
  have start : (startPrinter str buf size ap).n.toNat = 0 := rfl
  rw [vsnprintf_eq fit] at ends
  split at ends
  · obtain ⟨rfl, rfl⟩ := Prod.mk.inj (Option.some.inj ends)
    refine ⟨rfl, ?_⟩
    rw [toNat_put (by omega), start, length]
  · exact nomatch ends

/-- For every size for which there are two separate arrays, whatever the format and the
arguments: the bytes of `str` from `size` on stay as they are, and the result is at most
`size`. -/
theorem printf_in_bounds (fit : ArraysFit size)
    (ends : vsnprintf str buf size format ap = some (out, n)) :
    (∀ i, size.toNat ≤ i → out i = str i) ∧ n ≤ size := by
  obtain ⟨isOut, count⟩ := vsnprintf_eq_some fit ends
  have length : 0 + (cutAll size.toNat 0 (expansion buf size format ap).stretches).length =
      filled buf size format ap := length_cutAll
  have bound : filled buf size format ap ≤ size.toNat := filled_le
  refine ⟨fun i behind => ?_, ?_⟩
  · rw [isOut, writeText_outside (by omega), memset_outside (by omega)]
  · rw [BitVec.le_def]
    omega

/-- A format that is longer than the buffer. -/
theorem printf_in_bounds_abc :
    ∃ out n, vsnprintf (fun _ => 7#8) (fun _ => 0#8) 2#32 [97#8, 98#8, 99#8] [] = some (out, n) ∧
      (∀ i, 2 ≤ i → out i = 7#8) ∧ n ≤ 2#32 := by
  have ends : (vsnprintf (fun _ => 7#8) (fun _ => 0#8) 2#32 [97#8, 98#8, 99#8] []).isSome =
      true := by
    decide +kernel
  obtain ⟨⟨out, n⟩, result⟩ := Option.isSome_iff_exists.mp ends
  exact ⟨out, n, result, printf_in_bounds ⟨0, 2, by decide, by decide, by decide⟩ result⟩

/-! ### The end of the string -/

/-- The whole text. -/
def Stretch.text : Stretch → List (BitVec 8)
  | .literal c => [c]
  | .mark _ text _ => text
  | .run text => text

theorem Stretch.mem_cut {size n : Nat} {c : BitVec 8} {stretch : Stretch}
    (member : c ∈ stretch.cut size n) : c ∈ stretch.text := by
  cases stretch with
  | literal c =>
    rw [cut] at member
    split at member
    · exact member
    · exact nomatch member
  | mark room text fits =>
    rw [cut] at member
    split at member
    · exact member
    · exact nomatch member
  | run text => exact mem_of_mem_take member

/-- No text has a `NUL` in it. -/
def NoNuls (stretches : List Stretch) : Prop := ∀ stretch ∈ stretches, 0#8 ∉ stretch.text

theorem NoNuls.cutAll {size n : Nat} {stretches : List Stretch} (noNuls : NoNuls stretches) :
    0#8 ∉ cutAll size n stretches := by
  induction stretches generalizing n with
  | nil => exact not_mem_nil
  | cons stretch stretches ih =>
    obtain ⟨first, rest⟩ := forall_mem_cons.mp noNuls
    rw [Crunchy.cutAll, mem_append, not_or]
    exact ⟨fun member => first (stretch.mem_cut member), ih rest⟩

theorem NoNuls.append {one two : List Stretch} (first : NoNuls one) (second : NoNuls two) :
    NoNuls (one ++ two) := by
  intro stretch member
  rcases mem_append.mp member with inside | inside
  · exact first stretch inside
  · exact second stretch inside

theorem noNul_padding (flags : PrintFlags) (pad : U32) (len : Nat) :
    0#8 ∉ padding flags pad len := by
  rw [padding]
  split
  · intro member
    have zero := eq_of_mem_replicate member
    split at zero <;> exact absurd zero (by decide)
  · exact not_mem_nil

/-- The body is a string. -/
theorem noNul_bodyOf {b : Bytes} {len : Nat} (length : strlen b bufAt = some len) :
    0#8 ∉ bodyOf b len := by
  intro member
  obtain ⟨i, inside, zero⟩ := mem_map.mp member
  exact (strlen_eq_some_iff.mp length).2.1 i (mem_range.mp inside) zero

theorem noNuls_directive {c : Char} {d d' : Desk} {texts : List Stretch}
    (printed : d.directive v c = some (texts, d')) : NoNuls texts := by
  obtain ⟨q, converted, rest⟩ := Option.bind_eq_some_iff.mp printed
  obtain ⟨len, length, same⟩ := Option.bind_eq_some_iff.mp rest
  cases same
  refine NoNuls.append ?_ ?_
  · intro stretch member
    rw [Desk.mark] at member
    split at member
    · rw [mem_singleton.mp member]
      exact (d.front_fits c).2.2
    · exact nomatch member
  · intro stretch member
    rcases mem_cons.mp member with rfl | member
    · exact noNul_padding _ _ _
    · rw [mem_singleton.mp member]
      exact noNul_bodyOf length

/-- All that is written of a format, by induction on it. -/
theorem noNuls_expand (noNul : 0#8 ∉ format) (mode : PrintMode) (d : Desk) :
    NoNuls (expand v format mode d).stretches := by
  induction format generalizing mode d with
  | nil => cases mode <;> exact fun stretch member => nomatch member
  | cons c format ih =>
    rw [mem_cons, not_or] at noNul
    cases mode with
    | text =>
      rw [expand]
      split
      · exact ih noNul.2 _ _
      · refine NoNuls.append (fun stretch member => ?_) (ih noNul.2 _ _)
        rw [mem_singleton.mp member]
        exact fun zero => noNul.1 (mem_singleton.mp zero)
    | directive inWidth =>
      rw [expand]
      split
      · exact ih noNul.2 _ _
      · split
        · exact ih noNul.2 _ _
        · split
          · exact ih noNul.2 _ _
          · cases printed : d.directive v (Char.ofNat c.toNat) with
            | none => exact fun stretch member => nomatch member
            | some result =>
              exact (noNuls_directive printed).append (ih noNul.2 _ _)

/-- There is a `NUL` in the first `size` bytes exactly when the texts of the format, each cut
off where its test cuts it off, do not fill the buffer. -/
theorem printf_terminated_iff (fit : ArraysFit size) (noNul : 0#8 ∉ format)
    (ends : vsnprintf str buf size format ap = some (out, n)) :
    (∃ i < size.toNat, out i = 0#8) ↔ filled buf size format ap < size.toNat := by
  obtain ⟨rfl, _⟩ := vsnprintf_eq_some fit ends
  have length : 0 + (cutAll size.toNat 0 (expansion buf size format ap).stretches).length =
      filled buf size format ap := length_cutAll
  have text : 0#8 ∉ cutAll size.toNat 0 (expansion buf size format ap).stretches :=
    (noNuls_expand noNul _ _).cutAll
  constructor
  · rintro ⟨i, inside, zero⟩
    by_contra full
    have char := writeText_inside (b := memset str 0 0#8 size.toNat) (o := 0)
      (show i < (cutAll size.toNat 0 (expansion buf size format ap).stretches).length by omega)
    rw [Nat.zero_add, zero, getD_eq_getElem _ _ (by omega)] at char
    exact text (char ▸ getElem_mem _)
  · intro room
    refine ⟨_, room, ?_⟩
    rw [writeText_outside (by omega), memset_inside (Nat.zero_le _) (by omega)]

/-- `"a"` in a buffer of two bytes. -/
theorem printf_terminated_two :
    ∃ out n, vsnprintf (fun _ => 7#8) (fun _ => 0#8) 2#32 [97#8] [] = some (out, n) ∧
      ∃ i < 2, out i = 0#8 := by
  have ends : (vsnprintf (fun _ => 7#8) (fun _ => 0#8) 2#32 [97#8] []).isSome = true := by
    decide +kernel
  obtain ⟨⟨out, n⟩, result⟩ := Option.isSome_iff_exists.mp ends
  exact ⟨out, n, result, (printf_terminated_iff ⟨0, 2, by decide, by decide, by decide⟩
    (by decide) result).mpr (by decide +kernel)⟩

/-- `"a"` in a buffer of one byte. -/
theorem printf_not_terminated :
    ¬ ∀ (str buf out : Bytes) (size n : U32) (format : List (BitVec 8)) (ap : List Arg),
      ArraysFit size → 1#32 ≤ size → 0#8 ∉ format →
      vsnprintf str buf size format ap = some (out, n) → ∃ i < size.toNat, out i = 0#8 := by
  intro all
  have run : (vsnprintf (fun _ => 7#8) (fun _ => 0#8) 1#32 [97#8] []).map (fun r => r.1 0) =
      some 97#8 := by decide +kernel
  obtain ⟨⟨out, n⟩, result, char⟩ := Option.map_eq_some_iff.mp run
  obtain ⟨i, inside, zero⟩ := all _ _ out 1#32 n [97#8] []
    ⟨0, 1, by decide, by decide, by decide⟩ (by decide) (by decide) result
  obtain rfl : i = 0 := Nat.lt_one_iff.mp inside
  exact absurd (char.symm.trans zero) (by decide)

end Crunchy
