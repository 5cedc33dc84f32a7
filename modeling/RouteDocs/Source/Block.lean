import RouteDocs.Source.Pattern

/-!
# Route blocks

A route block is a declaration line followed directly by a long comment, in brackets of any level.
The scan goes through a source text once. After a block it goes on behind the closing bracket, so a
declaration inside a comment is no block. A comment that is never closed is skipped, and the scan
goes on behind its opening bracket.

## Main definitions

* `closingBracket`: the bracket that closes a long comment of a given level.
* `Block`: a declaration and the text of its comment.
* `Cursor`, `Cursor.next`: a place in a source text, and the first block after it.
* `blocks`: all blocks of a source text.
-/

namespace RouteDocs.Source

open Text

/-- The bracket that closes a long comment whose opening bracket has `level` equals signs. -/
def closingBracket (level : Nat) : List Char := ']' :: (List.replicate level '=' ++ [']'])

/-- A declaration line and the comment below it, without the comment's delimiters. -/
structure Block where
  declaration : String
  comment : String
deriving DecidableEq

/-- The text of a comment. White space in front of the closing bracket is dropped, and then the line
comment mark that hides the bracket. -/
def commentText (body : List Char) : List Char :=
  let t := trimEnd body
  (stripEnd? ['-', '-'] t).getD t

/-- A place in a source text: what has been scanned and what has not. -/
structure Cursor where
  past : List Char
  rest : List Char

namespace Cursor

/-- The start of a source text. -/
def start (source : List Char) : Cursor := ⟨[], source⟩

/-- The number of bytes in front of the place. -/
def offset (c : Cursor) : Nat := byteLength c.past

/-- The place after `text`, with `rest` to come. -/
def moveTo (c : Cursor) (text rest : List Char) : Cursor := ⟨c.past ++ text, rest⟩

end Cursor

/-- The next opening of a comment below a declaration. -/
structure Opening where
  declaration : List Char
  level : Nat
  /-- Where the text of the comment starts. -/
  body : Cursor

/-- The first opening at or after a place. -/
def Cursor.opening? (c : Cursor) : Option Opening :=
  (Pattern.opening.search? c.past.getLast? c.rest).map fun (skipped, m) =>
    { declaration := m.group 0
      level := (m.group 1).length
      body := c.moveTo (skipped ++ m.text) m.rest }

/-- The block of an opening whose comment is closed, and the place after it. -/
def Opening.block? (o : Opening) : Option (Block × Cursor) :=
  (splitAtFirst? (closingBracket o.level) o.body.rest).map fun (body, rest) =>
    ({ declaration := String.ofList o.declaration, comment := String.ofList (commentText body) },
      o.body.moveTo (body ++ closingBracket o.level) rest)

theorem Opening.length_lt_of_block? {o : Opening} {b : Block} {d : Cursor}
    (h : o.block? = some (b, d)) : d.rest.length < o.body.rest.length := by
  obtain ⟨⟨x, y⟩, hs, h⟩ := Option.map_eq_some_iff.1 h
  cases h
  rw [append_of_splitAtFirst? hs]
  simp [Cursor.moveTo, closingBracket]
  omega

theorem Cursor.length_lt_of_opening? {c : Cursor} {o : Opening} (h : c.opening? = some o) :
    o.body.rest.length < c.rest.length := by
  obtain ⟨⟨x, m⟩, hs, h⟩ := Option.map_eq_some_iff.1 h
  cases h
  have := List.length_pos_iff.2 (Pattern.ne_nil_of_search? hs rfl)
  rw [Pattern.append_of_search? hs]
  simp [Cursor.moveTo]
  omega

/-- The first block whose declaration starts at or after a place, and the place after it. -/
def Cursor.next (c : Cursor) : Option Block × Cursor :=
  match _h : c.opening? with
  | none => (none, c)
  | some o =>
    match o.block? with
    | some (b, d) => (some b, d)
    | none => next o.body
termination_by c.rest.length
decreasing_by exact Cursor.length_lt_of_opening? _h

theorem Cursor.length_lt_of_next {c d : Cursor} {b : Block} (h : c.next = (some b, d)) :
    d.rest.length < c.rest.length := by
  fun_induction Cursor.next c with
  | case1 => simp at h
  | case2 c o ho b' d' hb =>
    cases h
    exact Nat.lt_trans (Opening.length_lt_of_block? hb) (Cursor.length_lt_of_opening? ho)
  | case3 c o ho hb ih => exact Nat.lt_trans (ih h) (Cursor.length_lt_of_opening? ho)

/-- All blocks whose declaration starts at or after a place. -/
def Cursor.blocks (c : Cursor) : List Block :=
  match _h : c.next with
  | (none, _) => []
  | (some b, d) => b :: blocks d
termination_by c.rest.length
decreasing_by exact Cursor.length_lt_of_next _h

/-- All blocks of a source text, in their order. -/
def blocks (source : String) : List Block := (Cursor.start source.toList).blocks

end RouteDocs.Source
