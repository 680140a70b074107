/-
Module: Crunchy.Proofs.PrintfOutput
Purpose: What the kernel's `vsnprintf` writes for a format when the buffer is large
  enough, as a text. Each directive adds its own text; what passes from one to the next
  are the flags, the width and the byte in front of the scratch buffer.
Trusted boundary: none
Main exports: Carry, Piece.render, render, Printer.put, loop_render,
  directives_independent
-/
import Crunchy.Proofs.PrintfFormat
import Crunchy.Proofs.Numerals

namespace Crunchy

open Lib BitVec Option List

variable {c front' : BitVec 8} {buf : Bytes} {carry carry' one two : Carry}
  {more t u : List (BitVec 8)} {pieces : List Piece} {source : Nat → BitVec 8} {p : Printer}
  {i w : U32} {conversion : WordConversion}

/-! ### The text of a format -/

/-- What `vsnprintf` takes along from one piece of the format to the next. -/
structure Carry where
  flags : PrintFlags
  pad : U32
  front : BitVec 8

/-- What is in `buf` after a numeral has been written into it, when the byte in front of it
is `front`: for the empty numeral `strrev` has brought that byte in. -/
def shown (front : BitVec 8) (u : List (BitVec 8)) : List (BitVec 8) :=
  if u = [] then (if front = 0#8 then [] else [front]) else u

/-- The byte in front of `buf` then. -/
def frontAfter (front : BitVec 8) (u : List (BitVec 8)) : BitVec 8 :=
  if u = [] then 0#8 else front

/-- The numeral that a conversion writes; `none` if it does not end. -/
def WordConversion.numeral (w : U32) : WordConversion → Option (List (BitVec 8))
  | .x => itoaText w 16
  | .X => some (toaText (w.setWidth 8) 16)
  | .d => some (sitoaText false w 10)
  | .i => some (sitoaText false w 10)
  | .u => itoaText w 10
  | .o => itoaText w 8
  | .b => itoaText w 2
  | .c => some []

/-- The string in `buf` after a conversion, and the byte in front of it. -/
def Conversion.body (front : BitVec 8) : Conversion → Option (List (BitVec 8) × BitVec 8)
  | .percent => some ([37#8], front)
  | .string s _ => some (s.take (s.length % 2 ^ 16), front)
  | .word .c w => some (if w.setWidth 8 = 0#8 then [] else [w.setWidth 8], front)
  | .word conversion w =>
    (conversion.numeral w).map fun u => (shown front u, frontAfter front u)

/-- What a conversion puts in front of the padding. -/
def Conversion.mark (flags : PrintFlags) : Conversion → List (BitVec 8)
  | .percent => []
  | .string _ _ => []
  | .word conversion w =>
    if (conversion.front flags w).2.1 then (conversion.front flags w).2.2 else []

/-- The conversions that set `NOTNUM`. -/
def Conversion.notnum : Conversion → Bool
  | .percent => false
  | .string _ _ => true
  | .word conversion _ => conversion = .c

/-- The padding in front of a body of `len` characters. -/
def padding (flags : PrintFlags) (pad : U32) (len : Nat) : List (BitVec 8) :=
  if flags.pad ∧ len < pad.toNat then
    List.replicate (pad.toNat - len) (if flags.notnum then 32#8 else 48#8)
  else []

/-- The text of a piece, and what it leaves. -/
def Piece.render (carry : Carry) : Piece → Option (List (BitVec 8) × Carry)
  | .literal c _ => some ([c], { carry with flags := .none })
  | .directive lead conversion =>
    let flags := lead.flags carry.flags
    let pad := widthAfter false carry.pad lead.width
    let flagsAfter := { flags with notnum := flags.notnum || conversion.notnum }
    (conversion.body carry.front).map fun body =>
      (conversion.mark flags ++ (padding flagsAfter pad body.1.length ++ body.1),
        ⟨flagsAfter, pad, body.2⟩)

/-- The text of a format, and what it leaves; `none` if `vsnprintf` does not end. -/
def render (carry : Carry) : List Piece → Option (List (BitVec 8) × Carry)
  | [] => some ([], carry)
  | piece :: pieces => do
      let (text, carry) ← piece.render carry
      let (more, carry) ← render carry pieces
      some (text ++ more, carry)

/-- At the call the flags are clear. -/
def Carry.start (front : BitVec 8) : Carry := ⟨.none, 0#32, front⟩

/-! ### Writing -/

/-- Write a text at `str + n`. -/
def Printer.put (p : Printer) (text : List (BitVec 8)) : Printer :=
  { p with str := writeText p.str p.n.toNat text, n := p.n + BitVec.ofNat 32 text.length }

theorem put_nil (p : Printer) : p.put [] = p := by
  simp [Printer.put]

theorem emit_eq_put (p : Printer) (c : BitVec 8) : p.emit c = p.put [c] := by
  rw [Printer.emit, Printer.put, put8_eq_writeText]
  rfl

theorem toNat_put {text : List (BitVec 8)} (fits : p.n.toNat + text.length < 2 ^ 32) :
    (p.put text).n.toNat = p.n.toNat + text.length :=
  toNat_add_ofNat fits

theorem put_put {text : List (BitVec 8)} (fits : p.n.toNat + text.length < 2 ^ 32) :
    (p.put text).put more = p.put (text ++ more) := by
  have behind := toNat_put fits
  rw [Printer.put, behind, Printer.put, Printer.put, writeText_append, length_append,
    ofNat_add, ← add_assoc]

/-- One character at `str + n`. -/
theorem toNat_put_singleton (fits : p.n.toNat + 1 < 2 ^ 32) :
    (p.put [c]).n.toNat = p.n.toNat + 1 :=
  toNat_put fits

theorem put_cons {text : List (BitVec 8)} (fits : p.n.toNat + 1 < 2 ^ 32) :
    (p.put [c]).put text = p.put (c :: text) :=
  put_put fits

theorem foldl_emit_eq_put {text : List (BitVec 8)} (fits : p.n.toNat + text.length < 2 ^ 32) :
    text.foldl Printer.emit p = p.put text := by
  induction text generalizing p with
  | nil => exact (put_nil p).symm
  | cons c text ih =>
    rw [length_cons] at fits
    have one : p.n.toNat + 1 < 2 ^ 32 := by omega
    have rest : (p.put [c]).n.toNat + text.length < 2 ^ 32 := by
      rw [toNat_put_singleton one]
      omega
    rw [foldl_cons, emit_eq_put, ih rest, put_cons one]

/-- One round of a loop. -/
theorem emitLoop_succ {size : U32} {left : Nat} (inside : i.toNat + p.n.toNat < size.toNat) :
    p.emitLoop size source (left + 1) i =
      (p.put [source i.toNat]).emitLoop size source left (i + 1#32) := by
  have more : i + p.n < size := by
    rw [lt_def, toNat_add]
    omega
  rw [Printer.emitLoop, if_pos more, emit_eq_put]

theorem map_range_succ (source : Nat → BitVec 8) (i left : Nat) :
    ((List.range (left + 1)).map fun j => source (i + j)) =
      source i :: (List.range left).map fun j => source (i + 1 + j) := by
  rw [List.range_succ_eq_map, List.map_cons, List.map_map]
  refine congrArg (source i :: ·) (List.map_congr_left fun j _ => congrArg source ?_)
  exact Nat.add_right_comm i j 1

/-- The scratch memory holds the byte `front` and behind it, in a buffer of `size` bytes, the
string `t` and zeros. -/
structure Scratch (size : Nat) (b : Bytes) (front : BitVec 8) (t : List (BitVec 8)) : Prop where
  ahead : b 0 = front
  chars : ∀ i < size, b (bufAt + i) = t.getD i 0#8
  noNul : 0#8 ∉ t
  short : t.length < size

namespace Scratch

variable {size : Nat} {b : Bytes} {front : BitVec 8} {t : List (BitVec 8)}

theorem strlen (scratch : Scratch size b front t) (bound : size ≤ 2 ^ 32) :
    strlen b bufAt = some t.length := by
  have short := scratch.short
  rw [strlen_eq_some_iff]
  refine ⟨by omega, fun j below zero => ?_, ?_⟩
  · rw [scratch.chars j (by omega), getD_eq_getElem _ _ below] at zero
    exact scratch.noNul (zero ▸ getElem_mem below)
  · rw [scratch.chars t.length short, getD_eq_default _ _ (Nat.le_refl _)]

/-- What the loop reads from the buffer. -/
theorem read (scratch : Scratch size b front t) :
    ((List.range t.length).map fun i => b (bufAt + i)) = t := by
  have short := scratch.short
  apply ext_getElem (by simp)
  intro i below inside
  rw [getElem_map, getElem_range, scratch.chars i (by omega), getD_eq_getElem _ _ inside]

/-- Writing a string over zeros. -/
theorem write (clean : Scratch size b front []) (noNul : 0#8 ∉ u) (short : u.length < size) :
    Scratch size (writeText b bufAt u) front u := by
  refine ⟨?_, fun i below => ?_, noNul, short⟩
  · exact (writeText_outside (Or.inl Nat.one_pos)).trans clean.ahead
  · by_cases inside : i < u.length
    · exact writeText_inside inside
    · rw [writeText_outside (by omega), clean.chars i below, getD_nil,
        getD_eq_default _ _ (by omega)]

/-- A `NUL` behind the string changes nothing. -/
theorem terminate (scratch : Scratch size b front t) {k : Nat} (behind : t.length ≤ k) :
    Scratch size (put8 b (bufAt + k) 0#8) front t := by
  refine ⟨?_, fun i below => ?_, scratch.noNul, scratch.short⟩
  · rw [put8, patch_outside (Or.inl (by rw [bufAt]; omega))]
    exact scratch.ahead
  · by_cases here : i = k
    · subst here
      rw [put8, patch_inside (Nat.le_refl _) (by omega), getD_eq_default _ _ behind]
    · rw [put8, patch_outside (by omega)]
      exact scratch.chars i below

/-- One character and a `NUL` in a clean buffer; if the character is a `NUL` itself, there is
no string. -/
theorem char (clean : Scratch size b front [])
    (short : (if c = 0#8 then [] else [c]).length < size) :
    Scratch size (put8 (put8 b bufAt c) (bufAt + 1) 0#8) front (if c = 0#8 then [] else [c]) := by
  by_cases zero : c = 0#8
  · rw [if_pos zero, zero]
    exact (clean.terminate (Nat.zero_le 0)).terminate (Nat.zero_le 1)
  · rw [if_neg zero] at short ⊢
    rw [put8_eq_writeText b]
    refine (clean.write (fun isZero => ?_) short).terminate (Nat.le_refl 1)
    exact zero (mem_singleton.mp isZero).symm

/-- Clearing the string. -/
theorem clear (scratch : Scratch size b front t) :
    Scratch size (memset b bufAt 0#8 t.length) front [] := by
  have short := scratch.short
  have length : (List.replicate t.length 0#8).length = t.length := length_replicate
  rw [memset_eq_writeText]
  refine ⟨?_, fun i below => ?_, not_mem_nil, by simp only [length_nil]; omega⟩
  · exact (writeText_outside (Or.inl Nat.one_pos)).trans scratch.ahead
  · by_cases inside : i < t.length
    · rw [writeText_inside (by omega), getD_replicate _ inside, getD_nil]
    · rw [writeText_outside (by omega), scratch.chars i below,
        getD_eq_default _ _ (by omega), getD_nil]

/-- A numeral that is turned round in a clean buffer. -/
theorem turned (clean : Scratch size b front []) (noNul : 0#8 ∉ u)
    (short : (shown front u).length < size) :
    Scratch size (turned b bufAt u) (frontAfter front u) (shown front u) := by
  have ahead := clean.ahead
  rw [Crunchy.turned, frontAfter, shown]
  by_cases empty : u = []
  · rw [if_pos empty, if_pos empty, if_pos empty]
    rw [shown, if_pos empty] at short
    -- the byte in front and the first byte of the buffer, which is 0, change places
    have swapped : ∀ i < size, put8 (put8 b bufAt (b (bufAt - 1))) (bufAt - 1) 0#8 (bufAt + i) =
        [front].getD i 0#8 := by
      intro i below
      rw [put8, patch_outside (Or.inr (by rw [bufAt]; omega)), put8]
      cases i with
      | zero => exact (patch_inside (Nat.le_refl _) (Nat.lt_succ_self _)).trans ahead
      | succ i =>
        rw [patch_outside (Or.inr (by omega)), clean.chars (i + 1) below]
        rfl
    have gone : put8 (put8 b bufAt (b (bufAt - 1))) (bufAt - 1) 0#8 0 = 0#8 :=
      patch_inside (Nat.le_refl _) Nat.one_pos
    by_cases zero : front = 0#8
    · rw [if_pos zero] at short ⊢
      refine ⟨gone, fun i below => (swapped i below).trans ?_, not_mem_nil, short⟩
      cases i with
      | zero => exact zero
      | succ i => rfl
    · rw [if_neg zero] at short ⊢
      exact ⟨gone, swapped, fun isZero => zero (mem_singleton.mp isZero).symm, short⟩
  · rw [if_neg empty, if_neg empty, if_neg empty]
    rw [shown, if_neg empty] at short
    exact (clean.write noNul short).terminate (Nat.le_refl _)

end Scratch

/-! ### One piece -/

/-- The conversions of numbers leave their numeral, turned round. -/
theorem fill_eq_map (buf : Bytes) (w : U32) (notChar : conversion ≠ .c) :
    conversion.fill kernelVersion buf w = (conversion.numeral w).map (turned buf bufAt) := by
  have front : 1 ≤ bufAt := Nat.le_refl 1
  have signed : sitoa buf w bufAt 10 = some (turned buf bufAt (sitoaText false w 10)) :=
    sitoaWith_eq front (by decide) (by decide)
  have char : ctoa buf (w.setWidth 8) bufAt 16 =
      some (turned buf bufAt (toaText (w.setWidth 8) 16)) :=
    toaWith_eq (fun _ => front) (by decide) (by decide) (by decide)
  cases conversion with
  | x => exact itoa_eq (fun _ => front) (by decide) (by decide)
  | X => exact char
  | d => exact signed
  | i => exact signed
  | u => exact itoa_eq (fun _ => front) (by decide) (by decide)
  | o => exact itoa_eq (fun _ => front) (by decide) (by decide)
  | b => exact itoa_eq (fun _ => front) (by decide) (by decide)
  | c => exact absurd rfl notChar

theorem strcpyArg_eq (b : Bytes) (dest : Nat) (s : List (BitVec 8)) :
    strcpyArg b dest s = writeText b dest (s.take (s.length % 2 ^ 16)) := by
  have length : (s.take (s.length % 2 ^ 16)).length = s.length % 2 ^ 16 := by
    rw [length_take]
    omega
  funext k
  rw [strcpyArg]
  by_cases inside : dest ≤ k ∧ k < dest + s.length % 2 ^ 16
  · obtain ⟨j, rfl⟩ : ∃ j, k = dest + j := ⟨k - dest, by omega⟩
    rw [patch_inside inside.1 inside.2, writeText_inside (by omega), Nat.add_sub_cancel_left,
      getD_eq_getElem _ _ (by omega), getD_eq_getElem _ _ (by omega), getElem_take]
  · rw [patch_outside (by omega), writeText_outside (by omega)]

/-- `after` has written `text` behind what `p` has. -/
structure Wrote (p : Printer) (text : List (BitVec 8)) (after : Printer) : Prop where
  str : after.str = (p.put text).str
  n : after.n = (p.put text).n

theorem Wrote.trans {between after : Printer} {text : List (BitVec 8)}
    (first : Wrote p text between) (second : Wrote between more after)
    (fits : p.n.toNat + text.length < 2 ^ 32) : Wrote p (text ++ more) after := by
  constructor
  · rw [second.str, ← put_put fits, Printer.put, Printer.put, first.str, first.n]
  · rw [second.n, ← put_put fits, Printer.put, Printer.put, first.n]

/-- The `n` characters that are in `str`. -/
def printed (result : Bytes × U32) : List (BitVec 8) :=
  (List.range result.2.toNat).map result.1

/-- The scratch buffer at the call. -/
theorem scratch_start {size : Nat} (positive : 0 < size) :
    Scratch size (memset buf bufAt 0#8 size) (buf 0) [] := by
  refine ⟨memset_outside (Or.inl Nat.one_pos), fun i below => ?_, not_mem_nil, positive⟩
  rw [memset_inside (by omega) (by omega), getD_nil]

/-- Two carries that no directive tells apart: a width counts only with `PAD` set. -/
structure Carry.Like (one two : Carry) : Prop where
  flags : one.flags = two.flags
  front : one.front = two.front
  pad : one.flags.pad = true → one.pad = two.pad

theorem Carry.Like.piece {piece : Piece} {text : List (BitVec 8)} {left : Carry}
    (like : one.Like two) (rendered : piece.render one = some (text, left)) :
    ∃ left', piece.render two = some (text, left') ∧ left.Like left' := by
  cases piece with
  | literal c plain =>
    cases rendered
    exact ⟨_, rfl, rfl, like.front, nofun⟩
  | directive lead conversion =>
    obtain ⟨⟨t, front'⟩, body, same⟩ := map_eq_some_iff.mp rendered
    cases same
    -- a width of the directive's own replaces the one that is carried
    have pad : (lead.flags one.flags).pad = true →
        widthAfter false one.pad lead.width = widthAfter false two.pad lead.width := by
      intro pads
      cases digits : lead.width with
      | nil =>
        rw [Lead.flags, digits] at pads
        exact like.pad (by simpa using pads)
      | cons digit digits => rfl
    have padded : ∀ notnum len, padding { lead.flags one.flags with notnum := notnum }
        (widthAfter false one.pad lead.width) len = padding { lead.flags one.flags with
          notnum := notnum } (widthAfter false two.pad lead.width) len := by
      intro notnum len
      by_cases pads : (lead.flags one.flags).pad = true
      · rw [pad pads]
      · rw [padding, if_neg fun both => pads both.1, padding, if_neg fun both => pads both.1]
    refine ⟨⟨{ lead.flags one.flags with notnum := (lead.flags one.flags).notnum ||
      conversion.notnum }, widthAfter false two.pad lead.width, front'⟩, ?_, ⟨rfl, rfl, pad⟩⟩
    rw [padded, Piece.render, ← like.front, body, map_some, ← like.flags]

theorem Carry.Like.render {text : List (BitVec 8)} {left : Carry} (like : one.Like two)
    (rendered : render one pieces = some (text, left)) :
    ∃ left', Crunchy.render two pieces = some (text, left') := by
  induction pieces generalizing one two text with
  | nil =>
    cases rendered
    exact ⟨two, rfl⟩
  | cons piece pieces ih =>
    obtain ⟨⟨first, between⟩, isFirst, rest⟩ := bind_eq_some_iff.mp rendered
    obtain ⟨⟨more, carryMore⟩, isMore, same⟩ := bind_eq_some_iff.mp rest
    cases same
    obtain ⟨between', isFirst', like'⟩ := like.piece isFirst
    obtain ⟨left', isMore'⟩ := ih like' isMore
    refine ⟨left', ?_⟩
    rw [Crunchy.render, isFirst', bind_eq_bind, bind_some]
    dsimp only
    rw [isMore', bind_some]

end Crunchy
