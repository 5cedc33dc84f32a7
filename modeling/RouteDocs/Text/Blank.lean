/-!
# White space

The character class behind every trimming in the library, and trimming itself on lists of
characters.

## Main definitions

* `Text.isSpace`: the Unicode property `White_Space`.
* `Text.isBlank`: a space or a tab, the only characters that indent a line.
* `Text.trimStart`, `Text.trimEnd`, `Text.trim`.
-/

namespace RouteDocs.Text

/-- A space or a tab. -/
def isBlank (c : Char) : Bool := c == ' ' || c == '\t'

/-- The Unicode property `White_Space`. -/
def isSpace (c : Char) : Bool :=
  let n := c.toNat
  (9 ≤ n && n ≤ 13) || n == 0x20 || n == 0x85 || n == 0xA0 || n == 0x1680 ||
    (0x2000 ≤ n && n ≤ 0x200A) || n == 0x2028 || n == 0x2029 || n == 0x202F || n == 0x205F ||
    n == 0x3000

theorem isSpace_of_isBlank {c : Char} (h : isBlank c = true) : isSpace c = true := by
  simp only [isBlank, Bool.or_eq_true, beq_iff_eq] at h
  rcases h with rfl | rfl <;> decide

/-- Drops the white space in front. -/
def trimStart (s : List Char) : List Char := s.dropWhile isSpace

/-- Drops the white space at the end. -/
def trimEnd : List Char → List Char
  | [] => []
  | c :: s =>
    match trimEnd s with
    | [] => if isSpace c then [] else [c]
    | t => c :: t

/-- Drops the white space at both ends. -/
def trim (s : List Char) : List Char := trimEnd (trimStart s)

end RouteDocs.Text
