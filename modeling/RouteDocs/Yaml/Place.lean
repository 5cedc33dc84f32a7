import RouteDocs.Yaml.Char

/-!
# Places in a YAML text

## Main definitions

* `Yaml.Place`: the text that is left, and where it starts.
* `Place.skip`, `Place.skipWhile`, `Place.nextLine`: moving on.
* `Place.skipToToken`: over blanks, breaks and comments.
* `Place.gap`: the white space inside a scalar, and `Gap.folded`, what it stands for.
-/

namespace RouteDocs.Yaml

open Text (isBlank)

/-- The text that is left, its line and column, and the number of characters in front of it. -/
structure Place where
  rest : List Char
  line : Nat
  column : Nat
  index : Nat

namespace Place

/-- The start of a text. -/
def start (text : List Char) : Place := ⟨text, 0, 0, 0⟩

/-- Moves over `n` characters of a line. -/
def skip (p : Place) (n : Nat) : Place := ⟨p.rest.drop n, p.line, p.column + n, p.index + n⟩

/-- Moves over characters of a class that has no breaks. -/
def skipWhile (p : Place) (q : Char → Bool) : Place := p.skip (p.rest.takeWhile q).length

/-- Moves over a break; a carriage return takes a line feed after it along. -/
def nextLine (p : Place) : Place :=
  match p.rest with
  | '\r' :: '\n' :: s => ⟨s, p.line + 1, 0, p.index + 2⟩
  | s => ⟨s.drop 1, p.line + 1, 0, p.index + 1⟩

/-- The text starts with a break. -/
def atBreak (p : Place) : Bool := p.rest.head?.any isBreak

/-- The three characters of a document mark stand at the start of a line, and blank after them. -/
def atDocumentMark (p : Place) : Bool :=
  p.column == 0 &&
    match p.rest with
    | a :: b :: c :: s => a == b && b == c && (a == '-' || a == '.') && atBlankOrEnd s
    | _ => false

/-- Moves over a comment, if there is one. -/
def skipComment (p : Place) : Place :=
  if p.rest.head? = some '#' then p.skipWhile (!isBreak ·) else p

/-- Moves over a byte order mark at the start of a line. -/
def skipByteOrderMark (p : Place) : Place :=
  if p.column = 0 && p.rest.head? = some byteOrderMark then p.skip 1 else p

/-- Moves to the next token. Inside flow collections and where no key may start, tabs are blanks as
well. The second result tells whether a key may start there; outside flow collections it may after a
break. -/
def skipToToken (inFlow keyAllowed : Bool) (p : Place) : Place × Bool :=
  let blank (c : Char) := c == ' ' || ((inFlow || !keyAllowed) && c == '\t')
  let q := (p.skipByteOrderMark.skipWhile blank).skipComment
  if q.atBreak ∧ q.nextLine.rest.length < p.rest.length then
    skipToToken inFlow (keyAllowed || !inFlow) q.nextLine
  else (q, keyAllowed)
termination_by p.rest.length
decreasing_by rename_i h; exact h.2

end Place

/-! ## White space inside scalars -/

/-- White space between two words of a scalar: the blanks, or the breaks if there are any. -/
structure Gap where
  blanks : List Char := []
  breaks : List Char := []

/-- What white space inside a scalar stands for. A line feed alone is a space, one before other
breaks is nothing. -/
def Gap.folded (g : Gap) : List Char :=
  match g.breaks with
  | [] => g.blanks
  | ['\n'] => [' ']
  | '\n' :: bs => bs
  | bs => bs

/-- The break in front of the text, as it is read, and the place after it. -/
def Place.takeBreak? (p : Place) : Option (Char × Place) :=
  match p.rest with
  | [] => none
  | c :: _ => if isBreak c then some (breakValue c, p.nextLine) else none

/-- Reads the breaks and blanks after a first break. A tab to the left of column `indent` fails. -/
def Place.breaksAfter? (indent : Nat) (p : Place) : Option (List Char × Place) :=
  match p.rest with
  | [] => some ([], p)
  | c :: _ =>
    if isBlank c then
      if c == '\t' && p.column < indent then none
      else if (p.skip 1).rest.length < p.rest.length then breaksAfter? indent (p.skip 1) else none
    else if isBreak c then
      if p.nextLine.rest.length < p.rest.length then
        (breaksAfter? indent p.nextLine).map fun (bs, q) => (breakValue c :: bs, q)
      else none
    else some ([], p)
termination_by p.rest.length

/-- Reads the white space in front of the text. -/
def Place.gap? (indent : Nat) (p : Place) : Option (Gap × Place) :=
  let q := p.skipWhile isBlank
  if q.atBreak then (q.breaksAfter? indent).map fun (bs, r) => ({ breaks := bs }, r)
  else some ({ blanks := p.rest.takeWhile isBlank }, q)

end RouteDocs.Yaml
