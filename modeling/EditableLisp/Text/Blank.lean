/-!
# Blank characters

The characters that separate tokens: the Unicode property `White_Space`, all 25 code points of it.
-/

namespace EditableLisp.Text

/-- The code points with the property `White_Space` that are not given by the two ranges in
`isBlank`. -/
def scatteredBlanks : List Nat :=
  [0x20, 0x85, 0xA0, 0x1680, 0x2028, 0x2029, 0x202F, 0x205F, 0x3000]

/-- A character has the property `White_Space`. -/
def isBlank (c : Char) : Bool :=
  let n := c.toNat
  (0x09 ≤ n && n ≤ 0x0D) || (0x2000 ≤ n && n ≤ 0x200A) || scatteredBlanks.contains n

end EditableLisp.Text
