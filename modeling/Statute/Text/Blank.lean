import Statute.Text.Range

/-!
# Blanks

The characters of the Unicode property *White_Space*. They are cut off both ends of an expression
text and of the two parts of an assignment target.
-/

namespace Statute.Text.Blank

/-- The code points of the class, in ascending ranges. -/
def ranges : List (Nat × Nat) := [
  (0x9, 0xd), (0x20, 0x20), (0x85, 0x85), (0xa0, 0xa0), (0x1680, 0x1680), (0x2000, 0x200a),
  (0x2028, 0x2029), (0x202f, 0x202f), (0x205f, 0x205f), (0x3000, 0x3000)]

end Statute.Text.Blank

namespace Statute.Text

def isBlank (c : Char) : Bool :=
  covers Blank.ranges c.toNat

end Statute.Text
