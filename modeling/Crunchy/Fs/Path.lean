/-
Module: Crunchy.Fs.Path
Purpose: `pathize` of `kernel/kernel.c`: a path is cut at its slashes, and each piece
  is looked up in the directory that the piece before it led to.
Trusted boundary: human-reviewed spec
Main exports: FindInode, pathize
-/
import Crunchy.Strings
import Crunchy.Types

namespace Crunchy

/-- A model of `find_inode_in_dir(name, dir_inode)`: what it returns, and the inodes it
has read for it. -/
abbrev FindInode := List (BitVec 8) → U32 → U32 × List U32

/-- The delimiters `"/"`. -/
def slash : List (BitVec 8) := [0x2F#8]

/-- The loop of `pathize`, with the inodes read so far; `none` for one that goes on for
ever. -/
def pathizeLoop (find : FindInode) : (fuel : Nat) → (pch ptr : Option (List (BitVec 8))) →
    (parent : U32) → (reads : List U32) → Option (U32 × List U32)
  | _, none, _, parent, reads => some (parent, reads)
  | 0, some _, _, _, _ => none
  | fuel + 1, some pch, ptr, parent, reads =>
    let (parent, more) := find pch parent
    let (pch, ptr) := strtok none slash ptr
    pathizeLoop find fuel pch ptr parent (reads ++ more)

/-- `pathize(path)`, where `ptr` is what `strtok` has kept from before. -/
def pathize (find : FindInode) (ptr : Option (List (BitVec 8))) (path : List (BitVec 8)) :
    Option (U32 × List U32) :=
  let (pch, ptr) := strtok (some path) slash ptr
  pathizeLoop find (path.length + 2) pch ptr 2#32 []

end Crunchy
