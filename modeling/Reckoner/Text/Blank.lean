/-!
# Blank characters

Blank characters are those with the Unicode property `White_Space`.  They separate the pieces of an
expression and are trimmed from names and lines.
-/

namespace Reckoner
namespace Text

/-- Whether a character is blank. -/
def isBlank (c : Char) : Bool :=
  let code := c.toNat
  (9 ≤ code && code ≤ 13) || code == 0x20 || code == 0x85 || code == 0xA0 || code == 0x1680 ||
    (0x2000 ≤ code && code ≤ 0x200A) || code == 0x2028 || code == 0x2029 || code == 0x202F ||
    code == 0x205F || code == 0x3000

/-- A text without its leading blank characters. -/
def trimStart (text : List Char) : List Char := text.dropWhile isBlank

/-- A text without its trailing blank characters. -/
def trimEnd (text : List Char) : List Char := (text.reverse.dropWhile isBlank).reverse

/-- A text without blank characters at either end. -/
def trim (text : List Char) : List Char := trimEnd (trimStart text)

end Text
end Reckoner
