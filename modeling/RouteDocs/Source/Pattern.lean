import RouteDocs.Text.Lines
import RouteDocs.Text.Search

/-!
# The shapes of the annotation dialect

A source text is searched for six shapes: the start of an annotated route, the three parts of a
route declaration, a typed placeholder in a URL, and the components region. Each is a `Pattern`, a
sequence of pieces that take as much text as they can. No piece of these patterns can take the
first character of the piece after it, so a piece never has to give text back.

## Main definitions

* `Piece`, `Part`, `Pattern`: a pattern is a list of parts, some of which are captured.
* `Pattern.matchAt?`: the match that starts at one place.
* `Pattern.search?`: the leftmost match of a text.
* `Pattern.allMatches`: all matches, each search starting where the last match ends.
* `Pattern.opening`, `Pattern.verb`, `Pattern.url`, `Pattern.handler`, `Pattern.placeholder`,
  `Pattern.componentsRegion`: the dialect.
-/

namespace RouteDocs.Source

open Text

/-- A step of a pattern. -/
inductive Piece where
  /-- Nothing, at the start of a line. -/
  | lineStart
  /-- Nothing, at the start of the text. -/
  | textStart
  /-- A fixed text. -/
  | text (s : List Char)
  /-- One character of a class. -/
  | one (p : Char → Bool)
  /-- All characters of a class that stand there. -/
  | run (p : Char → Bool)
  /-- A character, if it stands there. -/
  | optional (c : Char)
  /-- Everything before the first occurrence of a text. -/
  | upTo (s : List Char)

/-- What a piece takes from the front of a text, and what it leaves. The character in front of the
text, if there is one, is `before`. -/
def Piece.take? (before : Option Char) (s : List Char) : Piece → Option (List Char × List Char)
  | .lineStart => if before.all (· == '\n') then some ([], s) else none
  | .textStart => if before.isNone then some ([], s) else none
  | .text t => (strip? t s).map (t, ·)
  | .one p =>
    match s with
    | [] => none
    | c :: r => if p c then some ([c], r) else none
  | .run p => some (s.takeWhile p, s.dropWhile p)
  | .optional c =>
    match s with
    | [] => some ([], [])
    | x :: r => if x = c then some ([x], r) else some ([], x :: r)
  | .upTo t => (splitAtFirst? t s).map fun (a, b) => (a, t ++ b)

/-- What a list of pieces takes from the front of a text, and what it leaves. -/
def takeAll? (before : Option Char) : List Piece → List Char → Option (List Char × List Char)
  | [], s => some ([], s)
  | piece :: pieces, s => do
    let (a, s) ← piece.take? before s
    let (b, s) ← takeAll? before pieces s
    return (a ++ b, s)

/-- A stretch of a pattern; a captured one is a group of the match. -/
structure Part where
  captured : Bool
  pieces : List Piece

/-- A part that is no group. -/
def Part.plain (pieces : List Piece) : Part := ⟨false, pieces⟩

/-- A part that is a group. -/
def Part.group (pieces : List Piece) : Part := ⟨true, pieces⟩

/-- A sequence of parts. -/
abbrev Pattern := List Part

/-- A match: what each part took, and the text that follows. -/
structure Match where
  parts : List (Bool × List Char)
  rest : List Char

namespace Match

/-- The whole text of the match. -/
def text (m : Match) : List Char := (m.parts.map Prod.snd).flatten

/-- The texts of the captured parts. -/
def groups (m : Match) : List (List Char) := (m.parts.filter Prod.fst).map Prod.snd

/-- The text of the captured part with this index. -/
def group (m : Match) (i : Nat) : List Char := m.groups.getD i []

end Match

namespace Pattern

/-- The match that starts where `s` starts. -/
def matchAt? (before : Option Char) : Pattern → List Char → Option Match
  | [], s => some ⟨[], s⟩
  | part :: parts, s => do
    let (a, s) ← takeAll? before part.pieces s
    let m ← matchAt? before parts s
    return { m with parts := (part.captured, a) :: m.parts }

/-- The leftmost match, and the text in front of it. -/
def search? (p : Pattern) (before : Option Char) : List Char → Option (List Char × Match)
  | [] => (p.matchAt? before []).map ([], ·)
  | c :: s =>
    match p.matchAt? before (c :: s) with
    | some m => some ([], m)
    | none => (search? p (some c) s).map fun (skipped, m) => (c :: skipped, m)

/-- All matches, each with the text between it and the match before. Each search starts where the
last match ended; a match that takes nothing ends them. -/
def allMatches (p : Pattern) (before : Option Char) (s : List Char) : List (List Char × Match) :=
  match p.search? before s with
  | none => []
  | some (skipped, m) =>
    if m.rest.length < s.length then
      (skipped, m) :: allMatches p ((skipped ++ m.text).getLast?.or before) m.rest
    else []
termination_by s.length

/-! ## The dialect -/

/-- A lower-case letter of ASCII. -/
def isLower (c : Char) : Bool := 'a' ≤ c && c ≤ 'z'

/-- A letter of ASCII or an underscore. -/
def isIdentifierStart (c : Char) : Bool := isLower c || ('A' ≤ c && c ≤ 'Z') || c == '_'

/-- A character of an identifier. -/
def isIdentifierRest (c : Char) : Bool := isIdentifierStart c || ('0' ≤ c && c ≤ '9')

/-- A declaration line, and at the start of the next line the opening of a long comment. The groups
are the declaration and the equals signs of the bracket. -/
def opening : Pattern :=
  [.plain [.lineStart, .run isBlank],
    .group [.text ['r', 'o', 'u', 't', 'e', 's', ':'], .run fun c => c != '\r' && c != '\n'],
    .plain [.optional '\r', .text ['\n'], .run isBlank, .text ['-', '-', '[']],
    .group [.run (· == '=')],
    .plain [.text ['[']]]

/-- The start of a declaration, up to the bracket after the verb. The group is the verb. -/
def verb : Pattern :=
  [.plain [.textStart, .run isSpace, .text ['r', 'o', 'u', 't', 'e', 's', ':']],
    .group [.one isIdentifierStart, .run isIdentifierRest],
    .plain [.text ['(']]]

/-- A quoted URL after an at sign. The group is the URL. -/
def url : Pattern :=
  [.plain [.text ['"', '@']], .group [.text ['/'], .run (· != '"')], .plain [.text ['"']]]

/-- The argument list of a handler. The group is what stands between the brackets. -/
def handler : Pattern :=
  [.plain [.text ['f', 'u', 'n', 'c', 't', 'i', 'o', 'n'], .run isSpace, .text ['(']],
    .group [.run (· != ')')],
    .plain [.text [')']]]

/-- A typed placeholder of a URL. The group is the type. -/
def placeholder : Pattern :=
  [.plain [.text [':']], .group [.one isLower, .run isLower]]

/-- A long comment that starts with the components key, up to the first closing line mark. The group
is the text between the delimiters. -/
def componentsRegion : Pattern :=
  [.plain [.text ['-', '-', '[', '[']],
    .group [.run fun c => isBlank c || c == '\r' || c == '\n',
      .text ['c', 'o', 'm', 'p', 'o', 'n', 'e', 'n', 't', 's', ':'], .upTo ['-', '-', ']', ']']],
    .plain [.text ['-', '-', ']', ']']]]

end Pattern

/-! ## What a match leaves -/

theorem Piece.append_of_take? {before : Option Char} {piece : Piece} {s a b : List Char}
    (h : piece.take? before s = some (a, b)) : s = a ++ b := by
  cases piece with
  | lineStart | textStart | run => grind [Piece.take?, List.takeWhile_append_dropWhile]
  | text t =>
    obtain ⟨x, hs, h⟩ := Option.map_eq_some_iff.1 h
    cases h
    exact strip?_eq_some_iff.1 hs
  | one | optional => cases s <;> grind [Piece.take?]
  | upTo t =>
    obtain ⟨⟨x, y⟩, hs, h⟩ := Option.map_eq_some_iff.1 h
    cases h
    simpa using append_of_splitAtFirst? hs

/-- The pieces that never take nothing. -/
def Piece.isSolid : Piece → Bool
  | .text s => !s.isEmpty
  | .one _ => true
  | _ => false

theorem Piece.ne_nil_of_take? {before : Option Char} {piece : Piece} {s a b : List Char}
    (h : piece.take? before s = some (a, b)) (hp : piece.isSolid = true) : a ≠ [] := by
  cases piece with
  | lineStart | textStart | run | optional | upTo => simp [Piece.isSolid] at hp
  | text t =>
    obtain ⟨x, _, h⟩ := Option.map_eq_some_iff.1 h
    cases h
    simpa [Piece.isSolid] using hp
  | one => cases s <;> grind [Piece.take?]

theorem append_of_takeAll? {before : Option Char} {pieces : List Piece} {s a b : List Char}
    (h : takeAll? before pieces s = some (a, b)) : s = a ++ b := by
  induction pieces generalizing s a b with
  | nil => simp_all [takeAll?]
  | cons piece pieces ih =>
    simp only [takeAll?, bind, Option.bind_eq_some_iff, Prod.exists] at h
    obtain ⟨x, t, hx, y, u, hy, h⟩ := h
    cases h
    rw [Piece.append_of_take? hx, ih hy, List.append_assoc]

theorem ne_nil_of_takeAll? {before : Option Char} {pieces : List Piece} {s a b : List Char}
    (h : takeAll? before pieces s = some (a, b)) (hp : pieces.any Piece.isSolid = true) :
    a ≠ [] := by
  induction pieces generalizing s a b with
  | nil => simp at hp
  | cons piece pieces ih =>
    simp only [takeAll?, bind, Option.bind_eq_some_iff, Prod.exists] at h
    obtain ⟨x, t, hx, y, u, hy, h⟩ := h
    cases h
    simp only [List.any_cons, Bool.or_eq_true] at hp
    rcases hp with hp | hp
    · simp [Piece.ne_nil_of_take? hx hp]
    · simp [ih hy hp]

/-- A match and what follows it make up the text. -/
theorem Pattern.append_of_matchAt? {before : Option Char} {p : Pattern} {s : List Char} {m : Match}
    (h : p.matchAt? before s = some m) : s = m.text ++ m.rest := by
  induction p generalizing s m with
  | nil => cases h; rfl
  | cons part parts ih =>
    simp only [Pattern.matchAt?, bind, Option.bind_eq_some_iff, Prod.exists] at h
    obtain ⟨a, t, ha, n, hn, h⟩ := h
    cases h
    rw [append_of_takeAll? ha, ih hn]
    simp [Match.text]

theorem Pattern.ne_nil_of_matchAt? {before : Option Char} {p : Pattern} {s : List Char} {m : Match}
    (h : p.matchAt? before s = some m) (hp : p.any (·.pieces.any Piece.isSolid) = true) :
    m.text ≠ [] := by
  induction p generalizing s m with
  | nil => simp at hp
  | cons part parts ih =>
    simp only [Pattern.matchAt?, bind, Option.bind_eq_some_iff, Prod.exists] at h
    obtain ⟨a, t, ha, n, hn, h⟩ := h
    cases h
    simp only [List.any_cons, Bool.or_eq_true] at hp
    rcases hp with hp | hp
    · simp [Match.text, ne_nil_of_takeAll? ha hp]
    · have := ih hn hp
      simp_all [Match.text]

/-- The text in front of the leftmost match, the match and what follows it make up the text. -/
theorem Pattern.append_of_search? {p : Pattern} {before : Option Char} {s skipped : List Char}
    {m : Match} (h : p.search? before s = some (skipped, m)) :
    s = skipped ++ m.text ++ m.rest := by
  induction s generalizing before skipped with
  | nil =>
    obtain ⟨n, hn, h⟩ := Option.map_eq_some_iff.1 h
    cases h
    simpa using Pattern.append_of_matchAt? hn
  | cons c s ih =>
    rw [Pattern.search?] at h
    split at h
    · rename_i hm
      cases h
      simpa using Pattern.append_of_matchAt? hm
    · obtain ⟨⟨x, n⟩, hn, h⟩ := Option.map_eq_some_iff.1 h
      cases h
      simp [ih hn]

theorem Pattern.ne_nil_of_search? {p : Pattern} {before : Option Char} {s skipped : List Char}
    {m : Match} (h : p.search? before s = some (skipped, m))
    (hp : p.any (·.pieces.any Piece.isSolid) = true) : m.text ≠ [] := by
  induction s generalizing before skipped with
  | nil =>
    obtain ⟨n, hn, h⟩ := Option.map_eq_some_iff.1 h
    cases h
    exact Pattern.ne_nil_of_matchAt? hn hp
  | cons c s ih =>
    rw [Pattern.search?] at h
    split at h
    · rename_i hm
      cases h
      exact Pattern.ne_nil_of_matchAt? hm hp
    · obtain ⟨⟨x, n⟩, hn, h⟩ := Option.map_eq_some_iff.1 h
      cases h
      exact ih hn

end RouteDocs.Source
