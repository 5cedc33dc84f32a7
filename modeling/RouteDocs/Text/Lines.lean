import RouteDocs.Text.Blank

/-!
# Lines and their common indentation

## Main definitions

* `Text.lines`: the lines of a text; a line ends with a line feed, which takes one carriage return
  before it with it.
* `Text.indentation`: how many spaces and tabs stand in front of a line.
* `Text.dedent`: the text without the indentation that all its non-blank lines share.
-/

namespace RouteDocs.Text

/-- A line without the carriage return that its line feed follows. -/
def dropReturn : List Char → List Char
  | [] => []
  | ['\r'] => []
  | c :: s => c :: dropReturn s

/-- The lines of `current ++ text`, where `current` is the part of the line that is already read,
last character first. A text that ends with a line feed has no empty line after it. -/
def linesFrom (current : List Char) : List Char → List (List Char)
  | [] => if current.isEmpty then [] else [current.reverse]
  | c :: text =>
    if c = '\n' then dropReturn current.reverse :: linesFrom [] text
    else linesFrom (c :: current) text

/-- The lines of a text. A carriage return at the very end of the text stays. -/
def lines (text : List Char) : List (List Char) := linesFrom [] text

/-- The number of bytes a text takes in UTF-8. -/
def byteLength : List Char → Nat
  | [] => 0
  | c :: s => c.utf8Size + byteLength s

/-- The text without its first `n` bytes, if a character starts or the text ends there. -/
def dropBytes? : Nat → List Char → Option (List Char)
  | 0, s => some s
  | _ + 1, [] => none
  | n + 1, c :: s => if c.utf8Size ≤ n + 1 then dropBytes? (n + 1 - c.utf8Size) s else none
termination_by _ s => s.length

/-- The number of spaces and tabs in front of a line. -/
def indentation (line : List Char) : Nat := (line.takeWhile isBlank).length

/-- A line of white space only. -/
def blankLine (line : List Char) : Bool := line.all isSpace

/-- The smallest indentation of a non-blank line; zero if there is none. -/
def commonIndentation (ls : List (List Char)) : Nat :=
  ((ls.filter fun l => !blankLine l).map indentation).min?.getD 0

/-- A line without its first `n` bytes. A line that cannot be cut there is blank, and keeps only
what follows its white space. -/
def outdent (n : Nat) (line : List Char) : List Char := (dropBytes? n line).getD (trimStart line)

/-- The text without the indentation that all its non-blank lines share, its lines joined by line
feeds. -/
def dedent (text : List Char) : List Char :=
  let ls := lines text
  List.intercalate ['\n'] (ls.map (outdent (commonIndentation ls)))

end RouteDocs.Text
