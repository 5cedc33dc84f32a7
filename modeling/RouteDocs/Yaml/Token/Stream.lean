import RouteDocs.Yaml.Token.Block
import RouteDocs.Yaml.Token.Plain
import RouteDocs.Yaml.Token.Quoted
import RouteDocs.Yaml.Token.Tag

/-!
# The tokens of a text

The scan goes through a text once. It keeps the columns of the open block collections; a token
further left closes them. A key of a mapping shows only when its colon is met. So the scan remembers
where a key may have started, on every level of flow collections, and puts the key token there
later.

## Main definitions

* `Yaml.Candidate`: a place where a key may have started.
* `Yaml.Scan`: the state of the scan.
* `Scan.token?`: reads the next token.
* `Yaml.tokens?`: the tokens of a text.
-/

namespace RouteDocs.Yaml

/-- A place where a key may have started. -/
structure Candidate where
  /-- The number of tokens in front of it. -/
  tokensBefore : Nat
  line : Nat
  column : Nat
  index : Nat
  /-- It stands at the column of its mapping, so nothing but a key is allowed there. -/
  required : Bool

/-- The state of a scan. -/
structure Scan where
  place : Place
  /-- The tokens so far, last one first, and their number. -/
  tokens : List Token := []
  count : Nat := 0
  /-- The column of the innermost block collection, `-1` outside of all. -/
  indent : Int := -1
  /-- The columns of the collections around it, innermost first. -/
  outerIndents : List Int := []
  /-- The candidate on this level of flow collections. -/
  candidate : Option Candidate := none
  /-- The candidates on the levels around it, innermost first. -/
  outerCandidates : List (Option Candidate) := []
  /-- Whether a key may start here. -/
  keyAllowed : Bool := true

namespace Scan

/-- The scan is inside a flow collection. -/
def inFlow (s : Scan) : Bool := !s.outerCandidates.isEmpty

/-- Appends a token. -/
def emit (s : Scan) (t : Token) : Scan := { s with tokens := t :: s.tokens, count := s.count + 1 }

/-- Puts a token in front of all but the first `before` tokens. -/
def insert (s : Scan) (before : Nat) (t : Token) : Scan :=
  let later := s.count - before
  { s with tokens := s.tokens.take later ++ t :: s.tokens.drop later, count := s.count + 1 }

/-- Moves to a place. -/
def moveTo (s : Scan) (p : Place) : Scan := { s with place := p }

/-! ## Indentation -/

/-- How many of the block collections at columns `indent` and `outer` are to the right of a column,
and the columns of the others. -/
def close (column indent : Int) : (outer : List Int) → Nat × Int × List Int
  | [] => if indent ≤ column then (0, indent, []) else (1, -1, [])
  | i :: is =>
    if indent ≤ column then (0, indent, i :: is)
    else
      let (n, rest) := close column i is
      (n + 1, rest)

/-- Closes the block collections to the right of a column. Flow collections have no indentation. -/
def unroll (s : Scan) (column : Int) : Scan :=
  if s.inFlow then s
  else
    let (n, indent, outer) := close column s.indent s.outerIndents
    { s with
      tokens := List.replicate n .blockEnd ++ s.tokens, count := s.count + n
      indent := indent, outerIndents := outer }

/-- Opens a block collection at a column, unless one is open there. Its token goes in front of all
but the first `before` tokens. -/
def roll (s : Scan) (column : Nat) (before : Nat) (t : Token) : Scan :=
  if !s.inFlow && s.indent < column then
    { s.insert before t with indent := column, outerIndents := s.indent :: s.outerIndents }
  else s

/-! ## Candidates for keys -/

/-- A candidate is of no use on a later line or more than 1024 characters later. -/
def stale (s : Scan) (c : Candidate) : Bool :=
  c.line < s.place.line || c.index + 1024 < s.place.index

/-- Drops a candidate that is of no use. A required one fails. -/
def refresh? (s : Scan) : Option Candidate → Option (Option Candidate)
  | none => some none
  | some c => if s.stale c then (if c.required then none else some none) else some (some c)

/-- Drops the candidates that are of no use, on all levels. -/
def refreshAll? (s : Scan) : Option Scan := do
  let candidate ← s.refresh? s.candidate
  let outer ← s.outerCandidates.mapM s.refresh?
  return { s with candidate := candidate, outerCandidates := outer }

/-- Drops the candidate on this level. A required one fails. -/
def dropCandidate? (s : Scan) : Option Scan :=
  if s.candidate.any (·.required) then none else some { s with candidate := none }

/-- Makes this place a candidate, if a key may start here. -/
def saveCandidate? (s : Scan) : Option Scan :=
  if s.keyAllowed then do
    let s ← s.dropCandidate?
    let p := s.place
    return { s with
      candidate := some ⟨s.count, p.line, p.column, p.index, !s.inFlow && s.indent = p.column⟩ }
  else some s

/-! ## Tokens -/

/-- A token that ends the block collections in front of it. -/
def mark? (s : Scan) (t : Token) (p : Place) : Option Scan := do
  let s ← (s.unroll (-1)).dropCandidate?
  return { s.emit t with keyAllowed := false, place := p }

/-- An opening bracket of a flow collection. -/
def openFlow? (s : Scan) (t : Token) : Option Scan := do
  let s ← s.saveCandidate?
  return { (s.emit t).moveTo (s.place.skip 1) with
    candidate := none, outerCandidates := s.candidate :: s.outerCandidates, keyAllowed := true }

/-- A closing bracket of a flow collection. -/
def closeFlow? (s : Scan) (t : Token) : Option Scan := do
  let s ← s.dropCandidate?
  let s :=
    match s.outerCandidates with
    | [] => s
    | c :: cs => { s with candidate := c, outerCandidates := cs }
  return { (s.emit t).moveTo (s.place.skip 1) with keyAllowed := false }

/-- The comma of a flow collection. -/
def comma? (s : Scan) : Option Scan := do
  let s ← s.dropCandidate?
  return { (s.emit .flowEntry).moveTo (s.place.skip 1) with keyAllowed := true }

/-- The hyphen of an item. -/
def hyphen? (s : Scan) : Option Scan := do
  guard (s.inFlow || s.keyAllowed)
  let s ← (s.roll s.place.column s.count .blockSequenceStart).dropCandidate?
  return { (s.emit .blockEntry).moveTo (s.place.skip 1) with keyAllowed := true }

/-- The question mark of a key. -/
def question? (s : Scan) : Option Scan := do
  guard (s.inFlow || s.keyAllowed)
  let s ← (s.roll s.place.column s.count .blockMappingStart).dropCandidate?
  return { (s.emit .key).moveTo (s.place.skip 1) with keyAllowed := !s.inFlow }

/-- The colon of a value. With a candidate, that was the key. -/
def colon? (s : Scan) : Option Scan := do
  let s ←
    match s.candidate with
    | some c =>
      let s := (s.insert c.tokensBefore .key).roll c.column c.tokensBefore .blockMappingStart
      pure { s with candidate := none, keyAllowed := false }
    | none => do
      guard (s.inFlow || s.keyAllowed)
      let s := s.roll s.place.column s.count .blockMappingStart
      pure { s with keyAllowed := !s.inFlow }
  return (s.emit .value).moveTo (s.place.skip 1)

/-- A token that may start a key: its text is read by `read`. -/
def keyStart? (s : Scan) (read : Place → Option (Token × Place)) : Option Scan := do
  let s ← s.saveCandidate?
  let (t, p) ← read s.place
  return { s.emit t with keyAllowed := false, place := p }

/-- A quoted scalar. -/
def quoted? (s : Scan) (single : Bool) : Option Scan :=
  s.keyStart? fun p => (quotedScalar? single (p.skip 1)).map fun (text, q) =>
    (.scalar (if single then .singleQuoted else .doubleQuoted) (String.ofList text), q)

/-- An anchor or an alias. -/
def named? (s : Scan) (t : String → Token) : Option Scan :=
  s.keyStart? fun p => (anchorName? (p.skip 1)).map fun (name, q) => (t name, q)

/-- A plain scalar. After it a key may start on a new line. -/
def plain? (s : Scan) : Option Scan := do
  let s ← s.saveCandidate?
  let (text, p, fresh) ← plainScalar? s.inFlow (s.indent + 1).toNat s.place
  return { s.emit (.scalar .plain (String.ofList text)) with keyAllowed := fresh, place := p }

/-- A block scalar. -/
def block? (s : Scan) (folded : Bool) : Option Scan := do
  let s ← s.dropCandidate?
  let (text, p) ← blockScalar? folded s.indent (s.place.skip 1)
  return { s.emit (.scalar (if folded then .folded else .literal) (String.ofList text)) with
    keyAllowed := true, place := p }

/-- The characters that no plain scalar starts with, unless a word follows the first three. -/
def isIndicator (c : Char) : Bool := "-?:,[]\x7b\x7d#&*!|>'\"%@`".toList.contains c

/-- A plain scalar may start here. -/
def atPlain (s : Scan) (c : Char) (r : List Char) : Bool :=
  (!isIndicator c && !Text.isBlank c) || (c == '-' && !atBlank r) ||
    (!s.inFlow && (c == '?' || c == ':') && !atBlankOrEnd r)

/-- Reads the token that starts with `c`, with `r` after it. -/
def token? (s : Scan) (c : Char) (r : List Char) : Option Scan :=
  let p := s.place
  if p.column = 0 && c == '%' then do
    let (t, q) ← directive? (p.skip 1)
    s.mark? t q
  else if p.atDocumentMark then
    s.mark? (if c == '-' then .documentStart else .documentEnd) (p.skip 3)
  else if c == '[' then s.openFlow? .flowSequenceStart
  else if c == '{' then s.openFlow? .flowMappingStart
  else if c == ']' then s.closeFlow? .flowSequenceEnd
  else if c == '}' then s.closeFlow? .flowMappingEnd
  else if c == ',' then s.comma?
  else if c == '-' && atBlankOrEnd r then s.hyphen?
  else if c == '?' && (s.inFlow || atBlankOrEnd r) then s.question?
  else if c == ':' && (s.inFlow || atBlankOrEnd r) then s.colon?
  else if c == '*' then s.named? .alias
  else if c == '&' then s.named? .anchor
  else if c == '!' then s.keyStart? (tag? s.inFlow)
  else if c == '|' && !s.inFlow then s.block? false
  else if c == '>' && !s.inFlow then s.block? true
  else if c == '\'' then s.quoted? true
  else if c == '"' then s.quoted? false
  else if s.atPlain c r then s.plain?
  else none

/-- Moves to the next token and closes the block collections that it is not in. -/
def advance? (s : Scan) : Option Scan := do
  let (p, allowed) := s.place.skipToToken s.inFlow s.keyAllowed
  let s ← refreshAll? { s with place := p, keyAllowed := allowed }
  return s.unroll p.column

/-- Ends the scan. -/
def finish? (s : Scan) : Option (List Token) := do
  let s ← (s.unroll (-1)).dropCandidate?
  return s.tokens.reverse

/-- The tokens of the text that is left. Every token takes a character. -/
def run? (s : Scan) : Option (List Token) :=
  match s.advance? with
  | none => none
  | some t =>
    match t.place.rest with
    | [] => t.finish?
    | c :: r =>
      match t.token? c r with
      | none => none
      | some u => if u.place.rest.length < s.place.rest.length then run? u else none
termination_by s.place.rest.length

end Scan

/-- The tokens of a text. -/
def tokens? (text : List Char) : Option (List Token) :=
  if text.all isAllowed then Scan.run? { place := .start text } else none

end RouteDocs.Yaml
