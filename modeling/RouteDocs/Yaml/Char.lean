import RouteDocs.Text.Blank

/-!
# Character classes of YAML

## Main definitions

* `Yaml.isAllowed`: the characters a text may hold.
* `Yaml.isPrintable`: the characters that are written as they are.
* `Yaml.isBreak`, `Yaml.atBlank`, `Yaml.atBlankOrEnd`: line breaks and what ends a word.
* `Yaml.isWord`, `Yaml.isUri`: the characters of names and of tags.
-/

namespace RouteDocs.Yaml

open Text (isBlank)

/-- The byte order mark. -/
def byteOrderMark : Char := '\uFEFF'

/-- A character that a text may hold. -/
def isAllowed (c : Char) : Bool :=
  let n := c.toNat
  n == 0x09 || n == 0x0A || n == 0x0D || (0x20 ≤ n && n ≤ 0x7E) || n == 0x85 ||
    (0xA0 ≤ n && n ≤ 0xD7FF) || (0xE000 ≤ n && n ≤ 0xFFFD) || 0x10000 ≤ n

/-- A character that is written as it is. -/
def isPrintable (c : Char) : Bool :=
  let n := c.toNat
  n == 0x0A || (0x20 ≤ n && n ≤ 0x7E) || (0xA0 ≤ n && n ≤ 0xD7FF) ||
    (0xE000 ≤ n && n ≤ 0xFFFD && n != 0xFEFF) || 0x10000 ≤ n

/-- The characters that break a line. -/
def isBreak (c : Char) : Bool :=
  c == '\r' || c == '\n' || c == '\u0085' || c == '\u2028' || c == '\u2029'

/-- A break as it is read: all but the separators of lines and paragraphs become a line feed. -/
def breakValue (c : Char) : Char := if c == '\u2028' || c == '\u2029' then c else '\n'

/-- The text starts with a space, a tab or a break. -/
def atBlank : List Char → Bool
  | [] => false
  | c :: _ => isBlank c || isBreak c

/-- The text starts with a space, a tab or a break, or it is at its end. -/
def atBlankOrEnd : List Char → Bool
  | [] => true
  | c :: _ => isBlank c || isBreak c

/-- The text starts with a break, or it is at its end. -/
def atBreakOrEnd : List Char → Bool
  | [] => true
  | c :: _ => isBreak c

/-- The letters and digits of ASCII, the underscore and the hyphen. -/
def isWord (c : Char) : Bool :=
  ('0' ≤ c && c ≤ '9') || ('A' ≤ c && c ≤ 'Z') || ('a' ≤ c && c ≤ 'z') || c == '_' || c == '-'

/-- The brackets, braces and the comma, which mean something inside flow collections. -/
def isFlowIndicator (c : Char) : Bool := c == ',' || c == '[' || c == ']' || c == '{' || c == '}'

/-- The characters of a tag, without the percent sign. -/
def isUri (c : Char) : Bool := isWord c || ";/?:@&=+$.!~*'()".toList.contains c

/-- The characters of a tag in angle brackets. -/
def isVerbatimUri (c : Char) : Bool := isUri c || c == ',' || c == '[' || c == ']'

end RouteDocs.Yaml
