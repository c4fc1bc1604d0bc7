/-! Blank characters, and cutting text at its ends. -/

namespace PassThrough.Text

/-- The characters with the White_Space property. -/
def isBlank (c : Char) : Bool :=
  let n := c.toNat
  (9 ≤ n && n ≤ 13) || n == 0x20 || n == 0x85 || n == 0xA0 || n == 0x1680 ||
    (0x2000 ≤ n && n ≤ 0x200A) || n == 0x2028 || n == 0x2029 || n == 0x202F || n == 0x205F ||
    n == 0x3000

/-- Drops the longest end of `cs` that satisfies `p`. -/
def dropEndWhile (p : Char → Bool) (cs : List Char) : List Char :=
  (cs.reverse.dropWhile p).reverse

/-- Keeps the longest end of `cs` that satisfies `p`. -/
def takeEndWhile (p : Char → Bool) (cs : List Char) : List Char :=
  (cs.reverse.takeWhile p).reverse

def trimWhile (p : Char → Bool) (cs : List Char) : List Char :=
  dropEndWhile p (cs.dropWhile p)

/-- Text without blanks at either end. -/
def trim (s : String) : String :=
  String.ofList (trimWhile isBlank s.toList)

/-- What follows the last dot, or the whole text if there is none. -/
def lastSegment (cs : List Char) : List Char :=
  takeEndWhile (· != '.') cs

/-- Equality up to the case of the letters A to Z. -/
def equalIgnoringCase (a b : String) : Bool :=
  a.toList.map Char.toLower == b.toList.map Char.toLower

end PassThrough.Text
