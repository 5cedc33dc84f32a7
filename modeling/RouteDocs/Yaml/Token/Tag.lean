import RouteDocs.Decimal.Digits
import RouteDocs.Yaml.Place
import RouteDocs.Yaml.Token

/-!
# Tags, anchors and directives

## Main definitions

* `Yaml.anchorName?`: the name of an anchor or an alias.
* `Yaml.tag?`: a tag, as a handle and a suffix.
* `Yaml.directive?`: a directive, with the rest of its line.
-/

namespace RouteDocs.Yaml

open Text (isBlank)
open Decimal (ofDigits? isDigit)

/-- What may follow a name directly. -/
def endsName (s : List Char) : Bool :=
  atBlankOrEnd s || s.head?.any ("?:,]\x7d%@`".toList.contains ·)

/-- The name after the indicator of an anchor or an alias. -/
def anchorName? (p : Place) : Option (String × Place) :=
  let name := p.rest.takeWhile isWord
  let q := p.skip name.length
  if !name.isEmpty && endsName q.rest then some (String.ofList name, q) else none

/-! ## Tags -/

/-- The octets of the escapes in front of a text that make up one character. The first says how many
there are. -/
def uriOctets? : (count : Nat) → List Char → Option (List Nat × List Char)
  | 0, s => some ([], s)
  | count + 1, '%' :: a :: b :: s => do
    let octet ← ofDigits? 16 [a, b]
    guard (octet / 64 = 2)
    let (octets, s) ← uriOctets? count s
    return (octet :: octets, s)
  | _, _ => none

/-- The character that octets stand for: the bits of the first, then six bits of each other. -/
def ofOctets? (first : Nat) (others : List Nat) : Option Char :=
  let code := others.foldl (fun n octet => n * 64 + octet % 64) first
  if h : code.isValidChar then some (Char.ofNatAux code h) else none

/-- The character that the escapes in front of a text stand for, after the first percent sign. -/
def uriEscape? : List Char → Option (Char × List Char)
  | a :: b :: s => do
    let octet ← ofDigits? 16 [a, b]
    let (bits, count) ←
      if octet < 0x80 then some (octet, 0)
      else if octet / 32 = 6 then some (octet % 32, 1)
      else if octet / 16 = 14 then some (octet % 16, 2)
      else if octet / 8 = 30 then some (octet % 8, 3)
      else none
    let (octets, s) ← uriOctets? count s
    let c ← ofOctets? bits octets
    return (c, s)
  | _ => none

/-- The characters of a tag in front of a text, with its escapes resolved, and the text after it. -/
def uri? (verbatim : Bool) : List Char → Option (List Char × List Char)
  | [] => some ([], [])
  | c :: r =>
    if c == '%' then
      match uriEscape? r with
      | none => none
      | some (d, t) =>
        if t.length ≤ r.length then (uri? verbatim t).map fun (u, t) => (d :: u, t) else none
    else if (if verbatim then isVerbatimUri c else isUri c) then
      (uri? verbatim r).map fun (u, t) => (c :: u, t)
    else some ([], c :: r)
termination_by s => s.length

/-- The place where `rest` is what is left of the line. -/
def Place.skipTo (p : Place) (rest : List Char) : Place := p.skip (p.rest.length - rest.length)

/-- A tag: a handle and a suffix. A tag in angle brackets has no handle, and neither has the tag
that is nothing but its indicator. -/
def tagParts? : List Char → Option ((List Char × List Char) × List Char)
  | '!' :: '<' :: s => do
    let (u, s) ← uri? true s
    guard !u.isEmpty
    match s with
    | '>' :: s => return (([], u), s)
    | _ => none
  | '!' :: s => do
    let word := s.takeWhile isWord
    match s.dropWhile isWord with
    | '!' :: s =>
      let (u, s) ← uri? false s
      guard !u.isEmpty
      return (('!' :: (word ++ ['!']), u), s)
    | s =>
      let (u, s) ← uri? false s
      if (word ++ u).isEmpty then return (([], ['!']), s) else return ((['!'], word ++ u), s)
  | _ => none

/-- The tag in front of a text. White space follows it, or a comma inside flow collections. -/
def tag? (inFlow : Bool) (p : Place) : Option (Token × Place) := do
  let ((handle, suffix), s) ← tagParts? p.rest
  guard (atBlankOrEnd s || (inFlow && s.head? == some ','))
  return (.tag (String.ofList handle) (String.ofList suffix), p.skipTo s)

/-! ## Directives -/

/-- A number of a version: at most nine digits. -/
def versionNumber? (s : List Char) : Option (Nat × List Char) := do
  let ds := s.takeWhile isDigit
  guard (!ds.isEmpty && ds.length ≤ 9)
  let n ← ofDigits? 10 ds
  return (n, s.dropWhile isDigit)

/-- What follows the name of a version directive. -/
def versionDirective? (s : List Char) : Option (Token × List Char) := do
  let (major, s) ← versionNumber? (s.dropWhile isBlank)
  match s with
  | '.' :: s =>
    let (minor, s) ← versionNumber? s
    return (.versionDirective major minor, s)
  | _ => none

/-- The handle that a tag directive declares. -/
def tagHandle? : List Char → Option (List Char × List Char)
  | '!' :: s =>
    let word := s.takeWhile isWord
    match s.dropWhile isWord with
    | '!' :: s => some ('!' :: (word ++ ['!']), s)
    | s => if word.isEmpty then some (['!'], s) else none
  | _ => none

/-- What follows the name of a tag directive. -/
def tagDirective? (s : List Char) : Option (Token × List Char) := do
  let (handle, s) ← tagHandle? (s.dropWhile isBlank)
  guard (s.head?.any isBlank)
  let (u, s) ← uri? true (s.dropWhile isBlank)
  guard (!u.isEmpty && atBlankOrEnd s)
  return (.tagDirective (String.ofList handle) (String.ofList u), s)

/-- The directive after its indicator, and the place on the next line. -/
def directive? (p : Place) : Option (Token × Place) := do
  let name := p.rest.takeWhile isWord
  let s := p.rest.drop name.length
  guard (!name.isEmpty && atBlankOrEnd s)
  let (token, s) ←
    if name = "YAML".toList then versionDirective? s
    else if name = "TAG".toList then tagDirective? s
    else none
  let q := ((p.skipTo s).skipWhile isBlank).skipComment
  guard (atBreakOrEnd q.rest)
  return (token, if q.rest.isEmpty then q else q.nextLine)

end RouteDocs.Yaml
