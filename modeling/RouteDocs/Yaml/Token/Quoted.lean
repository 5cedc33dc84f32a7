import RouteDocs.Decimal.Digits
import RouteDocs.Yaml.Place

/-!
# Quoted scalars

Between single quotes a quote is written twice. Between double quotes a backslash starts an escape,
and one in front of a break takes the break out. White space in front of a word is folded in both.

## Main definitions

* `Yaml.escape?`: the character that an escape stands for.
* `Yaml.singleWord?`, `Yaml.doubleWord?`: the word in front of a text.
* `Yaml.quotedScalar?`: the scalar whose opening quote was read.
-/

namespace RouteDocs.Yaml

open Text (isBlank)
open Decimal (ofDigits?)

/-- The character with a code of `n` digits of base 16 in front of a text. Surrogates are no
characters. -/
def hexEscape? (n : Nat) (s : List Char) : Option Char := do
  let ds := s.take n
  guard (ds.length = n)
  let code ← ofDigits? 16 ds
  if code < 0xD800 || (0xDFFF < code && code ≤ 0x10FFFF) then some (Char.ofNat code) else none

/-- The character that the escape after a backslash stands for, and how long the escape is. -/
def escape? : List Char → Option (Char × Nat)
  | [] => none
  | c :: s =>
    match c with
    | '0' => some ('\x00', 1)
    | 'a' => some ('\x07', 1)
    | 'b' => some ('\x08', 1)
    | 't' | '\t' => some ('\t', 1)
    | 'n' => some ('\n', 1)
    | 'v' => some ('\x0b', 1)
    | 'f' => some ('\x0c', 1)
    | 'r' => some ('\r', 1)
    | 'e' => some ('\x1b', 1)
    | ' ' | '"' | '/' | '\\' => some (c, 1)
    | 'N' => some ('\u0085', 1)
    | '_' => some ('\u00a0', 1)
    | 'L' => some ('\u2028', 1)
    | 'P' => some ('\u2029', 1)
    | 'x' => (hexEscape? 2 s).map (·, 3)
    | 'u' => (hexEscape? 4 s).map (·, 5)
    | 'U' => (hexEscape? 8 s).map (·, 9)
    | _ => none

/-- The word in front of a text between single quotes, and its length in the text. -/
def singleWord? : List Char → Option (List Char × Nat)
  | [] => some ([], 0)
  | '\'' :: '\'' :: s => (singleWord? s).map fun (w, n) => ('\'' :: w, n + 2)
  | c :: s =>
    if isBlank c || isBreak c || c == '\'' then some ([], 0)
    else (singleWord? s).map fun (w, n) => (c :: w, n + 1)

/-- The word in front of a text between double quotes, and its length in the text. It ends before a
backslash that takes out a break. -/
def doubleWord? : List Char → Option (List Char × Nat)
  | [] => some ([], 0)
  | c :: s =>
    if isBlank c || isBreak c || c == '"' then some ([], 0)
    else if c == '\\' then
      if s.head?.any isBreak then some ([], 0)
      else do
        let (d, k) ← escape? s
        let (w, n) ← doubleWord? (s.drop k)
        return (d :: w, n + k + 1)
    else (doubleWord? s).map fun (w, n) => (c :: w, n + 1)
termination_by s => s.length

/-- The quote around a scalar. -/
def quoteOf (single : Bool) : Char := if single then '\'' else '"'

/-- The rest of a quoted scalar, and the place after its closing quote. A document mark must not
stand in it. -/
def quotedScalar? (single : Bool) (p : Place) : Option (List Char × Place) :=
  if p.atDocumentMark then none
  else do
    let (word, n) ← if single then singleWord? p.rest else doubleWord? p.rest
    let q := p.skip n
    let (text, r) ←
      match q.rest with
      | [] => none
      | c :: _ =>
        if c == quoteOf single then return (word, q.skip 1)
        else if c == '\\' then
          ((q.skip 1).nextLine.breaksAfter? 0).map fun (bs, r) => (word ++ bs, r)
        else (q.gap? 0).map fun (g, r) => (word ++ g.folded, r)
    if r.rest.length < p.rest.length then
      let (rest, s) ← quotedScalar? single r
      return (text ++ rest, s)
    else none
termination_by p.rest.length

end RouteDocs.Yaml
