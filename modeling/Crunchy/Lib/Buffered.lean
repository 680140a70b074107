/-
Module: Crunchy.Lib.Buffered
Purpose: A disk with buffers over it, as its users see it, and programs that read
  blocks, store into buffers and write buffers back.
Trusted boundary: none
Main exports: Buffered, Access, Access.run, Access.run_bind
-/
import Mathlib.Logic.Function.Basic
import Mathlib.Tactic.TypeStar

namespace Crunchy.Lib

/-- A disk with buffers over it: for each address what its readers see, and what
is on the disk. -/
structure Buffered (Addr Data : Type) where
  view : Addr → Data
  disk : Addr → Data

namespace Buffered

variable {Addr Data : Type} [DecidableEq Addr]

/-- Store into the buffer of an address. -/
def store (v : Buffered Addr Data) (a : Addr) (data : Data) : Buffered Addr Data :=
  { v with view := Function.update v.view a data }

/-- Put data on the disk. -/
def write (v : Buffered Addr Data) (a : Addr) (data : Data) : Buffered Addr Data :=
  { v with disk := Function.update v.disk a data }

/-- Store into the buffer and write it back. -/
def put (v : Buffered Addr Data) (a : Addr) (data : Data) : Buffered Addr Data :=
  (v.store a data).write a data

variable {v : Buffered Addr Data} {a x : Addr} {data : Data}

@[simp] theorem store_view_self : (v.store a data).view a = data :=
  Function.update_self ..

theorem store_view_other (apart : x ≠ a) : (v.store a data).view x = v.view x :=
  Function.update_of_ne apart ..

@[simp] theorem store_disk : (v.store a data).disk = v.disk := rfl

@[simp] theorem write_disk_self : (v.write a data).disk a = data :=
  Function.update_self ..

theorem write_disk_other (apart : x ≠ a) : (v.write a data).disk x = v.disk x :=
  Function.update_of_ne apart ..

@[simp] theorem write_view : (v.write a data).view = v.view := rfl

@[simp] theorem put_view_self : (v.put a data).view a = data := store_view_self

theorem put_view_other (apart : x ≠ a) : (v.put a data).view x = v.view x :=
  store_view_other apart

@[simp] theorem put_disk_self : (v.put a data).disk a = data := write_disk_self

theorem put_disk_other (apart : x ≠ a) : (v.put a data).disk x = v.disk x :=
  write_disk_other apart

/-- Only the last store counts. -/
@[simp] theorem store_store (other : Data) : (v.store a other).store a data = v.store a data := by
  simp [store]

end Buffered

/-- A program over such a disk. It is `stuck` where its meaning is not defined. -/
inductive Access (Addr Data : Type) (Result : Type) where
  | pure (result : Result)
  | read (a : Addr) (next : Data → Access Addr Data Result)
  | store (a : Addr) (data : Data) (next : Access Addr Data Result)
  | write (a : Addr) (next : Access Addr Data Result)
  | stuck

namespace Access

variable {Addr Data Result Result' : Type}

/-- One program after the other. -/
def bind : Access Addr Data Result → (Result → Access Addr Data Result') →
    Access Addr Data Result'
  | .pure result, f => f result
  | .read a next, f => .read a fun data => (next data).bind f
  | .store a data next, f => .store a data (next.bind f)
  | .write a next, f => .write a (next.bind f)
  | .stuck, _ => .stuck

instance : Monad (Access Addr Data) where
  pure := Access.pure
  bind := Access.bind

variable [DecidableEq Addr]

/-- What a program does: its result and the disk it leaves, unless it gets stuck. -/
def run : Access Addr Data Result → Buffered Addr Data →
    Option (Result × Buffered Addr Data)
  | .pure result, v => some (result, v)
  | .read a next, v => (next (v.view a)).run v
  | .store a data next, v => next.run (v.store a data)
  | .write a next, v => next.run (v.write a (v.view a))
  | .stuck, _ => none

variable {v v' : Buffered Addr Data} {result : Result}

@[simp] theorem run_pure : run (Pure.pure result : Access Addr Data Result) v =
    some (result, v) := rfl

@[simp] theorem run_stuck : run (Access.stuck : Access Addr Data Result) v = none := rfl

@[simp] theorem run_bind (p : Access Addr Data Result)
    (f : Result → Access Addr Data Result') (v : Buffered Addr Data) :
    run (p >>= f) v = (run p v).bind fun done => run (f done.1) done.2 := by
  induction p generalizing v with
  | pure result => rfl
  | read a next ih => exact ih (v.view a) v
  | store a data next ih => exact ih (v.store a data)
  | write a next ih => exact ih (v.write a (v.view a))
  | stuck => rfl

/-- A program that goes on from where another one ends. -/
theorem run_bind_of_run {p : Access Addr Data Result} {f : Result → Access Addr Data Result'}
    (first : run p v = some (result, v')) : run (p >>= f) v = run (f result) v' := by
  rw [run_bind, first]
  rfl

end Access

end Crunchy.Lib
