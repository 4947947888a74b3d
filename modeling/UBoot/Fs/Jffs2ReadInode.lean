import Mathlib.Data.List.Induction
import UBoot.Fs.Jffs2

namespace UBoot.Fs.Jffs2ReadInode

open Jffs2 Lib.PageWrite Lib.KeyOrder

variable (flash : Flash) (z : Decompressors)

/-- `totalSize` and `latestVersion` after a node. -/
def sizeStep (inode : UInt32) (size : UInt32 × UInt32) (j : RawInode) : UInt32 × UInt32 :=
  if inode = j.ino then
    if size.2 ≤ j.version then (j.isize, j.version) else size
  else size

/-- The first loop of `jffs2_1pass_read_inode`. -/
def totalSize (inode : UInt32) (nodes : List RawInode) : UInt32 × UInt32 :=
  nodes.foldl (sizeStep inode) (0, 0)

variable {flash z}

end UBoot.Fs.Jffs2ReadInode
