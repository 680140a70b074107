/-
Module: Crunchy.Fs.DirScan
Purpose: The loops of `find_inode_in_dir` and `lsroot` over the entries of a directory, one
  entry at a time, with the bytes of the copied blocks that each entry makes them read.
Trusted boundary: human-reviewed spec
Main exports: Visit, DirScan, ScanAt, scanning, findScan, listScan
-/
import Crunchy.Fs.Ext2
import Crunchy.Lib.Transition

namespace Crunchy

open Lib

/-- What the body of such a loop does at an entry: return, go on to the next one, or stay in a
function that it calls. -/
inductive Visit (Result : Type) where
  | found (result : Result)
  | goOn
  | hang

/-- A loop over the entries: what it does at the entry at `d`, which bytes of the buffer it
reads there, and what it returns behind the last one. -/
structure DirScan (Result : Type) where
  visit : Nat → Visit Result
  reads : Nat → Set Nat
  last : Result

/-- At the entry at `d`, or behind the loop. -/
inductive ScanAt (Result : Type) where
  | entry (d sum : Nat)
  | done (result : Result)

variable {Result : Type}

/-- One round of the loop: `sum += d->rec_len`, the body, `d = (char*) d + d->rec_len` and
the test. -/
def DirScan.next (scan : DirScan Result) (buf : Bytes) (size : Nat) :
    ScanAt Result → Option (ScanAt Result)
  | .entry d sum =>
    let recLen := (get16 buf (d + Dirent.recLen)).toNat
    let sum := sum + recLen
    match scan.visit d with
    | .found result => some (.done result)
    | .hang => none
    | .goOn => if sum < size then some (.entry (d + recLen) sum) else some (.done scan.last)
  | .done _ => none

/-- The loop over a buffer of `size` bytes. -/
def scanning (scan : DirScan Result) (buf : Bytes) (size : Nat) : System (ScanAt Result) Unit where
  Start state := state = .entry 0 0
  Step before _ after := scan.next buf size before = some after

/-- The loop is behind its last round. -/
def ScanAt.Done (state : ScanAt Result) : Prop := ∃ result, state = .done result

/-- The bytes of `name_len` and `rec_len`, and those of `name` up to the first that `strncmp`
finds to be another; where it finds none, also those of `inode`. -/
def findReads (buf name : Bytes) (d : Nat) : Set Nat :=
  let nameLen := (buf (d + Dirent.nameLen)).toNat
  let entryName : Bytes := fun j => buf (d + Dirent.name + j)
  {o | o = d + Dirent.nameLen ∨ o = d + Dirent.recLen ∨ o = d + Dirent.recLen + 1 ∨
    (∃ j < nameLen, (∀ i < j, entryName i = name i) ∧ o = d + Dirent.name + j) ∨
    strncmp entryName name nameLen = 0 ∧ ∃ j < 4, o = d + Dirent.inode + j}

/-- The loop of `find_inode_in_dir`. -/
def findScan (buf name : Bytes) : DirScan U32 where
  visit d :=
    if strncmp (fun j => buf (d + Dirent.name + j)) name (buf (d + Dirent.nameLen)).toNat = 0 then
      .found (get32 buf (d + Dirent.inode))
    else .goOn
  reads := findReads buf name
  last := noInode

/-- The bytes of `name_len`, `rec_len` and `inode`, and those of `name` up to a `NUL`. -/
def listReads (buf : Bytes) (d : Nat) : Set Nat :=
  {o | o = d + Dirent.nameLen ∨ o = d + Dirent.recLen ∨ o = d + Dirent.recLen + 1 ∨
    (∃ j < 4, o = d + Dirent.inode + j) ∨
    ∃ j, (∀ i < j, buf (d + Dirent.name + i) ≠ 0#8) ∧ o = d + Dirent.name + j}

/-- The loop of `lsroot`, where `printf` gets `d->name`. -/
def listScan (buf : Bytes) : DirScan Unit where
  visit d := if (strlen buf (d + Dirent.name)).isSome then .goOn else .hang
  reads := listReads buf
  last := ()

end Crunchy
