/-
Module: Crunchy.Stdio
Purpose: The memory streams of `kernel/lib/stdio.c`. `size` and `offset` are C `int`s, lengths
  are `size_t`: a comparison of two `int`s is signed, every other one is not.
Trusted boundary: human-reviewed spec
Main exports: Stream, kNewStream, kStreamWrite, kStreamRead, kStreamSeek, fgetc, fputc, fputs,
  Stream.call
-/
import Crunchy.Types

namespace Crunchy

/-- A `STREAM`. `data` is the memory by its offset from the data pointer, also outside of the
block; `touched` is a record for the proofs of the offsets that were read and written. -/
structure Stream where
  data : U32 → BitVec 8
  size : U32
  offset : U32
  touched : List U32

namespace Stream

/-- The byte at `data + i` is read. -/
def load (i : U32) (s : Stream) : BitVec 8 × Stream :=
  (s.data i, { s with touched := i :: s.touched })

/-- The byte at `data + i` is written. -/
def store (i : U32) (c : BitVec 8) (s : Stream) : Stream :=
  { s with
    data := fun k => if k = i then c else s.data k
    touched := i :: s.touched }

/-- `memcpy` from the stream: `n` bytes from `data + i` on. -/
def loadAll : (n : Nat) → (i : U32) → Stream → List (BitVec 8) × Stream
  | 0, _, s => ([], s)
  | n + 1, i, s =>
    let (c, s) := s.load i
    let (cs, s) := loadAll n (i + 1#32) s
    (c :: cs, s)

/-- `memcpy` into the stream, to `data + i`. -/
def storeAll : (cs : List (BitVec 8)) → (i : U32) → Stream → Stream
  | [], _, s => s
  | c :: cs, i, s => storeAll cs (i + 1#32) (s.store i c)

/-- The test in front of a transfer of `n` bytes. -/
def LacksRoom (n : U32) (s : Stream) : Prop := s.size < n ∨ s.size < s.offset + n

instance (n : U32) (s : Stream) : Decidable (s.LacksRoom n) :=
  inferInstanceAs (Decidable (_ ∨ _))

end Stream

/-- `k_new_stream(n)`, over what the block for the data holds. -/
def kNewStream (n : U32) (data : U32 → BitVec 8) : Stream where
  data := data
  size := n
  offset := 0#32
  touched := []

/-- `k_stream_write(stream, msg, n)` of the `n` bytes at `msg`. -/
def kStreamWrite (msg : List (BitVec 8)) (s : Stream) : Int × Stream :=
  let n := BitVec.ofNat 32 msg.length
  if s.LacksRoom n then (-1, s)
  else
    let s := s.storeAll msg s.offset
    (1, { s with offset := s.offset + n })

/-- `k_stream_read(stream, n)`: `NULL`, or no value at all, as there is no `return` behind the
copy. -/
def kStreamRead (n : U32) (s : Stream) : Option U32 × Stream :=
  if s.LacksRoom n then (some null, s) else (none, (s.loadAll n.toNat s.offset).2)

/-- One step of an `int` below another one does not overflow. -/
theorem toInt_add_one {a b : U32} (below : a.toInt < b.toInt) :
    (a + 1#32).toInt = a.toInt + 1 := by
  have bound := b.toInt_lt
  have low := a.le_toInt
  rw [BitVec.toInt_add, Int.bmod_eq_of_le] <;> simp <;> omega

/-- The loop of `k_stream_read_until`. The byte is read before the offset is compared. -/
def readUntilLoop (c : BitVec 8) (count : Nat) (s : Stream) : Nat × Stream :=
  if goesOn : s.data s.offset ≠ c ∧ s.offset.toInt < s.size.toInt then
    readUntilLoop c (count + 1) { (s.load s.offset).2 with offset := s.offset + 1#32 }
  else (count, (s.load s.offset).2)
termination_by (s.size.toInt - s.offset.toInt).toNat
decreasing_by
  have step := toInt_add_one goesOn.2
  simp only [Stream.load]
  omega

/-- `k_stream_read_until(stream, c)`. -/
def kStreamReadUntil (c : BitVec 8) (s : Stream) : List (BitVec 8) × Stream :=
  let (count, s) := readUntilLoop c 0 s
  s.loadAll count (s.offset - BitVec.ofNat 32 count)

/-- `fgetc(stream)`: the byte before the offset. -/
def fgetc (s : Stream) : BitVec 8 × Stream :=
  if 1 < s.offset.toInt then s.load (s.offset - 1#32) else (0#8, s)

/-- `k_stream_seek(stream, p)`. -/
def kStreamSeek (p : U32) (s : Stream) : Int × Stream :=
  if p.toInt < -1 then (-1, s)
  else if s.size.toInt ≤ p.toInt then (-1, s)
  else (p.toInt, { s with offset := p })

/-- `k_stream_tell(stream)`. -/
def kStreamTell (s : Stream) : Int := s.offset.toInt

/-- `fputc(stream, c)`. -/
def fputc (c : BitVec 8) (s : Stream) : Int × Stream :=
  if s.size.toInt < 1 ∨ s.size.toInt < (s.offset + 1#32).toInt then (0, s)
  else
    let s := s.store s.offset c
    (1, { s with offset := s.offset + 1#32 })

/-- The loop of `fputs`. The comma in its condition leaves the test for the `NUL` alone. -/
def fputsLoop : (c : List (BitVec 8)) → Stream → Stream
  | [], s => s
  | x :: c, s => fputsLoop c (fputc x s).2

/-- `fputs(stream, c)` of a string that lies apart from the stream: -1, or no value. -/
def fputs (c : List (BitVec 8)) (s : Stream) : Option Int × Stream :=
  if s.LacksRoom (BitVec.ofNat 32 c.length) then (some (-1), s) else (none, fputsLoop c s)

/-- `fseek(stream, p)`. -/
def fseek (p : U32) (s : Stream) : Int × Stream := kStreamSeek p s

/-- `ftell(stream)`. -/
def ftell (s : Stream) : Int := kStreamTell s

/-- `fflush(stream)`. -/
def fflush (s : Stream) : Int × Stream :=
  fseek 0#32 (s.storeAll (List.replicate s.size.toNat 0#8) 0#32)

/-! ### Calls -/

/-- The bytes at a pointer, fewer than there are addresses. -/
structure Bytestring where
  bytes : List (BitVec 8)
  short : bytes.length < 2 ^ 32

/-- A string of C. -/
structure CText extends Bytestring where
  noNul : 0#8 ∉ bytes

/-- The calls on a stream. -/
inductive StreamCall where
  | write (msg : Bytestring)
  | read (n : U32)
  | readUntil (c : BitVec 8)
  | fputc (c : BitVec 8)
  | fputs (c : CText)
  | fgetc
  | fseek (p : U32)
  | fflush

/-- The stream after a call. -/
def Stream.call (s : Stream) : StreamCall → Stream
  | .write msg => (kStreamWrite msg.bytes s).2
  | .read n => (kStreamRead n s).2
  | .readUntil c => (kStreamReadUntil c s).2
  | .fputc c => (Crunchy.fputc c s).2
  | .fputs c => (Crunchy.fputs c.bytes s).2
  | .fgetc => (Crunchy.fgetc s).2
  | .fseek p => (Crunchy.fseek p s).2
  | .fflush => (Crunchy.fflush s).2

end Crunchy
