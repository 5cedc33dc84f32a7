import RouteDocs.Yaml.Place

/-!
# Block scalars

A block scalar is indented text below a header. In a literal one the breaks stay. In a folded one a
break between two lines that start with a word is a space.

## Main definitions

* `Yaml.Chomp`, `Yaml.BlockHeader`: what happens to the breaks at the end, and the indentation.
* `Yaml.blockScalar?`: the scalar whose indicator was read.
-/

namespace RouteDocs.Yaml

open Text (isBlank)

/-- What happens to the breaks at the end of a block scalar: none stays, one stays, or all do. -/
inductive Chomp where
  | strip
  | clip
  | keep
deriving DecidableEq

/-- The header of a block scalar: an indentation of zero is found out from the text. -/
structure BlockHeader where
  chomp : Chomp := .clip
  indentation : Nat := 0

/-- The chomping indicator in front of a text. -/
def chomp? : List Char → Option Chomp
  | '+' :: _ => some .keep
  | '-' :: _ => some .strip
  | _ => none

/-- The indentation indicator in front of a text, zero if there is none. A zero in the text fails.
-/
def indentationIndicator? : List Char → Option Nat
  | [] => some 0
  | c :: _ =>
    if c == '0' then none
    else if '1' ≤ c && c ≤ '9' then some (c.toNat - 48)
    else some 0

/-- The header of a block scalar, with its indicators in either order, and the rest of its line. -/
def blockHeader? (p : Place) : Option (BlockHeader × Place) := do
  let (header, q) ←
    match chomp? p.rest with
    | some chomp => do
      let q := p.skip 1
      let n ← indentationIndicator? q.rest
      pure (BlockHeader.mk chomp n, if n = 0 then q else q.skip 1)
    | none => do
      let n ← indentationIndicator? p.rest
      if n = 0 then pure (BlockHeader.mk .clip 0, p)
      else
        let q := p.skip 1
        match chomp? q.rest with
        | some chomp => pure (BlockHeader.mk chomp n, q.skip 1)
        | none => pure (BlockHeader.mk .clip n, q)
  let r := (q.skipWhile isBlank).skipComment
  match r.rest with
  | [] => return (header, r)
  | c :: _ => if isBreak c then return (header, r.nextLine) else none

/-- The breaks in front of the next line of a block scalar, the largest column reached, and the
place after the line's indentation. A tab must not stand in the indentation. -/
def blockBreaks? (indent widest : Nat) (p : Place) : Option (List Char × Nat × Place) :=
  let room := if indent = 0 then p.rest.length else indent - p.column
  let q := p.skip ((p.rest.take room).takeWhile (· == ' ')).length
  let widest := max widest q.column
  if (indent = 0 || q.column < indent) && q.rest.head? == some '\t' then none
  else
    match q.takeBreak? with
    | none => some ([], widest, q)
    | some (b, r) =>
      if r.rest.length < p.rest.length then
        (blockBreaks? indent widest r).map fun (bs, w, s) => (b :: bs, w, s)
      else none
termination_by p.rest.length

/-- What the breaks between two lines stand for: `lead` is the break at the end of the line above,
`breaks` are those of empty lines. -/
def joinLines (folded : Bool) (lead breaks : List Char) (above below : Bool) : List Char :=
  if folded && lead == ['\n'] && !above && !below then
    if breaks.isEmpty then [' '] else breaks
  else lead ++ breaks

/-- The lines of a block scalar. `lead` and `breaks` are the breaks since the line above, and
`above` tells whether that starts with a blank. -/
def blockLines? (folded : Bool) (chomp : Chomp) (indent : Nat) (lead breaks : List Char)
    (above : Bool) (p : Place) : Option (List Char × Place) :=
  if p.column = indent && !p.rest.isEmpty then do
    let below := p.rest.head?.any isBlank
    let line := p.rest.takeWhile (!isBreak ·)
    let q := p.skip line.length
    let (next, q) :=
      match q.takeBreak? with
      | none => ([], q)
      | some (b, r) => ([b], r)
    let (nextBreaks, _, r) ← blockBreaks? indent 0 q
    if r.rest.length < p.rest.length then
      let (text, s) ← blockLines? folded chomp indent next nextBreaks below r
      return (joinLines folded lead breaks above below ++ line ++ text, s)
    else none
  else
    match chomp with
    | .strip => some ([], p)
    | .clip => some (lead, p)
    | .keep => some (lead ++ breaks, p)
termination_by p.rest.length

/-- The block scalar after its indicator. `parent` is the column that it has to be right of. -/
def blockScalar? (folded : Bool) (parent : Int) (p : Place) : Option (List Char × Place) := do
  let (header, q) ← blockHeader? p
  let given :=
    if header.indentation = 0 then 0 else (max parent 0).toNat + header.indentation
  let (breaks, widest, r) ← blockBreaks? given 0 q
  let indent := if given = 0 then max widest (max (parent + 1).toNat 1) else given
  blockLines? folded header.chomp indent [] breaks false r

end RouteDocs.Yaml
