import Mathlib.Data.Char
import Mathlib.Data.List.DropRight
import Mathlib.Data.List.Forall2

/-!
# Character classes of the two backends

What Python and Rust mean by a space, and `str.strip`.
-/

namespace Khora

/-! ## Spaces -/

/-- `str.isspace`: the whitespace of `str.split`. -/
def pythonSpace (c : Char) : Bool :=
  (9 ≤ c.toNat && c.toNat ≤ 13) || (28 ≤ c.toNat && c.toNat ≤ 32) || c.toNat == 0x85 ||
    c.toNat == 0xA0 || c.toNat == 0x1680 || (0x2000 ≤ c.toNat && c.toNat ≤ 0x200A) ||
    c.toNat == 0x2028 || c.toNat == 0x2029 || c.toNat == 0x202F || c.toNat == 0x205F ||
    c.toNat == 0x3000

/-- `char::is_whitespace`: the whitespace of `split_whitespace`, without the four
separators U+001C to U+001F. -/
def rustSpace (c : Char) : Bool :=
  (9 ≤ c.toNat && c.toNat ≤ 13) || c.toNat == 32 || c.toNat == 0x85 ||
    c.toNat == 0xA0 || c.toNat == 0x1680 || (0x2000 ≤ c.toNat && c.toNat ≤ 0x200A) ||
    c.toNat == 0x2028 || c.toNat == 0x2029 || c.toNat == 0x202F || c.toNat == 0x205F ||
    c.toNat == 0x3000

/-- `str.strip` -/
def strip (s : List Char) : List Char := (s.dropWhile pythonSpace).rdropWhile pythonSpace

end Khora
