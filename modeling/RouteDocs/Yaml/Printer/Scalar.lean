import RouteDocs.Yaml.Char
import RouteDocs.Yaml.Value.Plain

/-!
# Writing YAML scalars

A string is written plain if that reads back as the same string. Otherwise it is quoted, or it is a
literal block if it has line feeds.

## Main definitions

* `Yaml.Written`: the ways a string is written.
* `Written.ofString`: the way for a string.
* `Written.text`: the text.
-/

namespace RouteDocs.Yaml

open Text (isBlank)

/-- The ways a string is written. -/
inductive Written where
  | plain
  | singleQuoted
  | doubleQuoted
  | literal
deriving DecidableEq

/-! ## What a string holds -/

/-- There is a line break. -/
def hasBreak (s : List Char) : Bool := s.any isBreak

/-- There is a character that has to be escaped. -/
def hasSpecial (s : List Char) : Bool := s.any (!isPrintable ·)

/-- There is a space and a break next to each other, in this order. -/
def hasSpaceBreak : List Char → Bool
  | c :: d :: s => (c == ' ' && isBreak d) || hasSpaceBreak (d :: s)
  | _ => false

/-- There is a break and a space next to each other, in this order. -/
def hasBreakSpace : List Char → Bool
  | c :: d :: s => (isBreak c && d == ' ') || hasBreakSpace (d :: s)
  | _ => false

/-- The characters that mean something else at the start of a plain scalar. -/
def isLeadingIndicator (c : Char) : Bool := "#,[]\x7b\x7d&*!|>'\"%@`".toList.contains c

/-- After `before` there is a colon that would end a key, or a number sign that would start a
comment. -/
def hasIndicator (before : Char) : List Char → Bool
  | [] => false
  | c :: s =>
    (c == ':' && atBlankOrEnd s) || (c == '#' && (isBlank before || isBreak before)) ||
      hasIndicator c s

/-- The string would not be read as one plain scalar. -/
def misread : List Char → Bool
  | '-' :: '-' :: '-' :: _ => true
  | '.' :: '.' :: '.' :: _ => true
  | [] => true
  | c :: s =>
    isLeadingIndicator c || ((c == '?' || c == ':' || c == '-') && atBlankOrEnd s) ||
      hasIndicator c s

/-- The string can be written plain. -/
def plainAllowed (s : List Char) : Bool :=
  !misread s && !hasBreak s && !hasSpecial s && s.head? != some ' ' && s.getLast? != some ' '

/-- The string can be written between single quotes. -/
def singleAllowed (s : List Char) : Bool :=
  !hasBreakSpace s && !hasSpaceBreak s && !hasSpecial s

/-- The string can be written as a literal block. -/
def literalAllowed (s : List Char) : Bool :=
  !hasSpaceBreak s && !hasSpecial s && s.getLast? != some ' '

/-- A plain scalar with this text would be read as something other than a string. -/
def ambiguous (s : List Char) : Bool :=
  Plain.hasLeadingZero s ||
    match Plain.value? s with
    | some (.string _) => false
    | _ => true

/-! ## Writing -/

/-- How a string is written. -/
def Written.ofString (s : List Char) : Written :=
  if s.contains '\n' then if literalAllowed s then .literal else .doubleQuoted
  else if !ambiguous s && plainAllowed s then .plain
  else if singleAllowed s then .singleQuoted
  else .doubleQuoted

/-- A number in `n` digits of base 16, in upper case. -/
def hexDigits : (n code : Nat) → List Char
  | 0, _ => []
  | n + 1, code =>
    let d := code % 16
    hexDigits n (code / 16) ++ [Char.ofNat (if d < 10 then 48 + d else 55 + d)]

/-- A character between double quotes. All that are not written as they are have a code of at most
16 bits. -/
def escapeDouble (c : Char) : List Char :=
  if isPrintable c && !isBreak c && c != '"' && c != '\\' then [c]
  else
    '\\' ::
      match c with
      | '\x00' => ['0']
      | '\x07' => ['a']
      | '\x08' => ['b']
      | '\t' => ['t']
      | '\n' => ['n']
      | '\x0b' => ['v']
      | '\x0c' => ['f']
      | '\r' => ['r']
      | '\x1b' => ['e']
      | '"' => ['"']
      | '\\' => ['\\']
      | '\u0085' => ['N']
      | '\u2028' => ['L']
      | '\u2029' => ['P']
      | c =>
        if c.toNat ≤ 0xFF then 'x' :: hexDigits 2 c.toNat else 'u' :: hexDigits 4 c.toNat

/-- The indentation of a line. -/
def spaces (n : Nat) : List Char := List.replicate n ' '

/-- The text between single quotes. A quote is written twice, and what follows a break is
indented. -/
def singleBody (indent : Nat) (fresh : Bool) : List Char → List Char
  | [] => if fresh then spaces indent else []
  | c :: s =>
    if isBreak c then c :: singleBody indent true s
    else
      (if fresh then spaces indent else []) ++ (if c == '\'' then ['\'', '\''] else [c]) ++
        singleBody indent false s

/-- The lines of a literal block, indented unless they are empty. The last line is ended if it is
not. -/
def literalBody (indent : Nat) (fresh : Bool) : List Char → List Char
  | [] => if fresh then [] else ['\n']
  | c :: s =>
    if isBreak c then c :: literalBody indent true s
    else (if fresh then spaces indent else []) ++ c :: literalBody indent false s

/-- The indentation indicator of a literal block, needed if its first line starts with a space or is
empty. -/
def indentationHint (s : List Char) : List Char :=
  if s.head?.any (fun c => c == ' ' || isBreak c) then ['2'] else []

/-- The chomping indicator of a literal block: its end is no break, or more than one. -/
def chompingHint (s : List Char) : List Char :=
  match s.reverse with
  | [] => ['-']
  | [c] => if isBreak c then ['+'] else ['-']
  | c :: d :: _ => if !isBreak c then ['-'] else if isBreak d then ['+'] else []

/-- A string, up to the end of its line. What is on further lines is indented. -/
def stringLine (indent : Nat) (s : List Char) : List Char :=
  match Written.ofString s with
  | .plain => s ++ ['\n']
  | .singleQuoted => '\'' :: (singleBody indent false s ++ ['\'', '\n'])
  | .doubleQuoted => '"' :: (s.flatMap escapeDouble ++ ['"', '\n'])
  | .literal =>
    '|' :: (indentationHint s ++ chompingHint s ++ '\n' :: literalBody indent true s)

/-- A string as a key on one line. -/
def keyText (s : List Char) : List Char :=
  match Written.ofString s with
  | .plain => s
  | .singleQuoted => '\'' :: (singleBody 0 false s ++ ['\''])
  | _ => '"' :: (s.flatMap escapeDouble ++ ['"'])

end RouteDocs.Yaml
