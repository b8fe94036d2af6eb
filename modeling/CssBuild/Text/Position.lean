/-!
# CssBuild.Text.Position

Lines and columns of places in a text.

1. A place is given by the characters before it, by their number of UTF-8
   bytes, or by what is still unread after it.
2. Lines count from one and end at `'\n'`.
3. A column counts from one, in characters (`Position.ofChars`) or in UTF-8
   bytes (`Position.ofBytes`), from the last newline before the place.
-/

namespace CssBuild

/-- A one-based line and column. -/
structure Position where
  /-- Line, counted from one. -/
  line : Nat
  /-- Column, counted from one. -/
  column : Nat
deriving DecidableEq, Repr

namespace Position

/-- The characters of `text` that come before `rest`, for a suffix `rest` of `text`. -/
def before (text rest : List Char) : List Char := text.take (text.length - rest.length)

theorem before_append (read rest : List Char) : before (read ++ rest) rest = read := by
  simp [before]

/-- The characters after the last newline of `read`. -/
def lastLine (read : List Char) : List Char := (read.reverse.takeWhile (· != '\n')).reverse

/-- The line on which a place stands: one more than the newlines before it. -/
def lineAfter (read : List Char) : Nat := read.count '\n' + 1

/-- The number of UTF-8 bytes of some characters. -/
def byteWidth (cs : List Char) : Nat := cs.foldr (fun c width => c.utf8Size + width) 0

/-- The place after `read`, its column in characters. -/
def ofChars (read : List Char) : Position := ⟨lineAfter read, (lastLine read).length + 1⟩

/-- The place after `read`, its column in UTF-8 bytes. -/
def ofBytes (read : List Char) : Position := ⟨lineAfter read, byteWidth (lastLine read) + 1⟩

/-- The characters at the start of a text that have no more than some number of UTF-8 bytes. -/
def firstBytes : (text : List Char) → (size : Nat) → List Char
  | [], _ => []
  | c :: rest, size =>
    if c.utf8Size ≤ size then c :: firstBytes rest (size - c.utf8Size) else []

/-- The place `offset` UTF-8 bytes into `text`, its column in characters. -/
def atOffset (text : List Char) (offset : Nat) : Position := ofChars (firstBytes text offset)

theorem lastLine_append_newline (read : List Char) : lastLine (read ++ ['\n']) = [] := by
  simp [lastLine]

theorem lastLine_append_of_ne (read : List Char) {c : Char} (h : c ≠ '\n') :
    lastLine (read ++ [c]) = lastLine read ++ [c] := by
  simp [lastLine, h]

end Position

end CssBuild
