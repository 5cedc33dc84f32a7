import RouteDocs.Yaml.Place

/-!
# Plain scalars

A plain scalar is a sequence of words. White space between two words is folded; at the end of the
scalar it is dropped.

## Main definitions

* `Yaml.plainWord?`: the word in front of a text.
* `Yaml.plainScalar?`: the scalar in front of a text.
-/

namespace RouteDocs.Yaml

open Text (isBlank)

/-- The word in front of a text. It ends before white space and before a colon that ends a key;
inside flow collections also before their indicators, where a colon must not stand directly in front
of one. -/
def plainWord? (inFlow : Bool) : List Char → Option (List Char)
  | [] => some []
  | c :: s =>
    if isBlank c || isBreak c then some []
    else if c == ':' then
      if inFlow && s.head?.any (fun d => isFlowIndicator d || d == '?') then none
      else if atBlankOrEnd s then some []
      else (plainWord? inFlow s).map (c :: ·)
    else if inFlow && isFlowIndicator c then some []
    else (plainWord? inFlow s).map (c :: ·)

/-- The rest of a plain scalar after white space, the place after the scalar, and whether that is on
a new line. Outside flow collections the scalar ends where a line starts left of `indent`. -/
def plainRest? (inFlow : Bool) (indent : Nat) (gap : Gap) (p : Place) :
    Option (List Char × Place × Bool) :=
  if p.atDocumentMark || p.rest.head? == some '#' then some ([], p, !gap.breaks.isEmpty)
  else do
    let word ← plainWord? inFlow p.rest
    if word.isEmpty then return ([], p, !gap.breaks.isEmpty)
    let text := gap.folded ++ word
    let q := p.skip word.length
    if !atBlank q.rest then return (text, q, false)
    let (next, r) ← q.gap? indent
    if !inFlow && r.column < indent then return (text, r, !next.breaks.isEmpty)
    if r.rest.length < p.rest.length then
      let (rest, s) ← plainRest? inFlow indent next r
      return (text ++ rest, s)
    else none
termination_by p.rest.length

/-- The plain scalar in front of a text, the place after it, and whether that is on a new line. -/
def plainScalar? (inFlow : Bool) (indent : Nat) (p : Place) : Option (List Char × Place × Bool) :=
  plainRest? inFlow indent {} p

end RouteDocs.Yaml
