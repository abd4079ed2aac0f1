/-!
# White space

Three sets of blanks meet in this library, and each is named for the standard
that defines it: the Unicode property `White_Space`, the five blanks that
separate things in markup, and the blanks and line ends of host source.
-/

namespace Inlay

/-- The characters with the Unicode property `White_Space`. -/
def isBlank (c : Char) : Bool :=
  let n := c.toNat
  (0x09 ≤ n && n ≤ 0x0D) || n == 0x20 || n == 0x85 || n == 0xA0 || n == 0x1680 ||
    (0x2000 ≤ n && n ≤ 0x200A) || n == 0x2028 || n == 0x2029 || n == 0x202F ||
    n == 0x205F || n == 0x3000

/-- Space, line feed, tab, form feed and carriage return: the blanks of markup
and of stylesheets. -/
def isMarkupBlank (c : Char) : Bool :=
  c == ' ' || c == '\n' || c == '\t' || c == '\x0c' || c == '\r'

/-- A character that ends a line of host source. -/
def isHostLineEnd (c : Char) : Bool :=
  c == '\n' || c == '\r' || c == '\u2028' || c == '\u2029'

/-- Blanks of host source: the Unicode spaces, the line ends, and the byte order
mark, but not U+0085. -/
def isHostBlank (c : Char) : Bool :=
  (isBlank c && c != '\x85') || c == '\uFEFF'

def trimStart (cs : List Char) : List Char := cs.dropWhile isBlank

def trim (text : String) : String :=
  String.ofList (trimStart (trimStart text.toList).reverse).reverse

end Inlay
