/-!
# CssBuild.Text.Blank

The white space of texts.

1. White space are the characters with that Unicode property: tab to carriage
   return, the space, next line, the no-break space, and the spaces and
   separators above them.
2. Trimming takes white space off an end of a text.
-/

namespace CssBuild.Text

/-- Whether a character is white space. -/
def isBlank (c : Char) : Bool :=
  let n := c.toNat
  (0x09 ≤ n && n ≤ 0x0D) || n == 0x20 || n == 0x85 || n == 0xA0 || n == 0x1680 ||
    (0x2000 ≤ n && n ≤ 0x200A) || n == 0x2028 || n == 0x2029 || n == 0x202F || n == 0x205F ||
    n == 0x3000

/-- A text without the white space at its start. -/
def trimStart (s : List Char) : List Char := s.dropWhile isBlank

/-- A text without the white space at its end. -/
def trimEnd (s : List Char) : List Char := (s.reverse.dropWhile isBlank).reverse

/-- A text without the white space at its ends. -/
def trim (s : List Char) : List Char := trimEnd (trimStart s)

end CssBuild.Text
