import Mathlib.Data.Option.Basic
import RouteDocs.Proofs.Yaml.Place
import RouteDocs.Yaml.Token.Stream

/-!
# Runs of the scan

The scan stands at a token once it has passed what is in front of it and closed the block
collections that the token is not in. A step goes from one token to the next.

## Main definitions

* `Blocks`: the tokens so far and the open block collections.
* `Blocks.scan`: a scan outside flow collections.
* `Scan.Step`, `Scan.Steps`: the way from a token to the next one, and to a later one.

## Main statements

* `Scan.run?_of_steps`: a way to the end of the text gives its tokens.
-/

namespace RouteDocs.Yaml

open Text (isBlank)

/-! ## Steps -/

theorem Place.length_skip_le (p : Place) (n : Nat) : (p.skip n).rest.length ≤ p.rest.length := by
  simp

theorem Place.length_skipComment_le (p : Place) : p.skipComment.rest.length ≤ p.rest.length := by
  unfold skipComment
  split
  · exact length_skip_le _ _
  · exact Nat.le_refl _

theorem Place.length_skipByteOrderMark_le (p : Place) :
    p.skipByteOrderMark.rest.length ≤ p.rest.length := by
  unfold skipByteOrderMark
  split
  · exact length_skip_le _ _
  · exact Nat.le_refl _

theorem Place.length_skipToToken_le (inFlow keyAllowed : Bool) (p : Place) :
    (p.skipToToken inFlow keyAllowed).1.rest.length ≤ p.rest.length := by
  fun_induction skipToToken inFlow keyAllowed p with
  | case1 keyAllowed p blank q h ih => omega
  | case2 keyAllowed p blank q h =>
    have hcomment := (p.skipByteOrderMark.skipWhile blank).length_skipComment_le
    have hblank := p.skipByteOrderMark.length_skip_le
      (p.skipByteOrderMark.rest.takeWhile blank).length
    have hmark := p.length_skipByteOrderMark_le
    exact Nat.le_trans hcomment (Nat.le_trans hblank hmark)

namespace Scan

theorem place_refreshAll? {s t : Scan} (h : s.refreshAll? = some t) : t.place = s.place := by
  simp only [refreshAll?, Option.bind_eq_bind, Option.bind_eq_some_iff] at h
  obtain ⟨_, -, _, -, h⟩ := h
  cases h
  rfl

theorem place_unroll (s : Scan) (column : Int) : (s.unroll column).place = s.place := by
  unfold unroll
  split <;> rfl

theorem length_advance?_le {s t : Scan} (h : s.advance? = some t) :
    t.place.rest.length ≤ s.place.rest.length := by
  simp only [advance?, Option.bind_eq_bind, Option.bind_eq_some_iff] at h
  obtain ⟨u, hu, h⟩ := h
  cases h
  rw [place_unroll, place_refreshAll? hu]
  exact s.place.length_skipToToken_le _ _

/-- The scan reads the token that it stands at and goes on to the next one. -/
def Step (s t : Scan) : Prop :=
  ∃ c r u, s.place.rest = c :: r ∧ s.token? c r = some u ∧
    u.place.rest.length < s.place.rest.length ∧ u.advance? = some t

theorem Step.intro {s t u : Scan} {c : Char} {r : List Char} (hrest : s.place.rest = c :: r)
    (htoken : s.token? c r = some u) (hlength : u.place.rest.length ≤ r.length)
    (hadvance : u.advance? = some t) : Step s t := by
  refine ⟨c, r, u, hrest, htoken, ?_, hadvance⟩
  rw [hrest]
  exact Nat.lt_succ_of_le hlength

/-- The scan goes on to a later token. -/
inductive Steps : Scan → Scan → Prop
  | refl (s : Scan) : Steps s s
  | head {s t u : Scan} (hst : Step s t) (htu : Steps t u) : Steps s u

theorem Steps.trans {s t u : Scan} (hst : Steps s t) (htu : Steps t u) : Steps s u := by
  induction hst with
  | refl => exact htu
  | head hstep _ ih => exact .head hstep (ih htu)

theorem Step.steps {s t : Scan} (h : Step s t) : Steps s t := .head h (.refl t)

/-- A way from the first token to the end of the text gives its tokens. -/
theorem run?_of_steps {s t u : Scan} {ts : List Token} (hu : u.advance? = some s)
    (hsteps : Steps s t) (hend : t.place.rest = []) (hfinish : t.finish? = some ts) :
    u.run? = some ts := by
  induction hsteps generalizing u with
  | refl s =>
    rw [run?]
    simp only [hu, hend]
    exact hfinish
  | @head s t _ hstep _ ih =>
    obtain ⟨c, r, v, hrest, htoken, hlength, hadvance⟩ := hstep
    have hshort : v.place.rest.length < u.place.rest.length :=
      Nat.lt_of_lt_of_le hlength (length_advance?_le hu)
    rw [run?]
    simp only [hu, hrest, htoken, if_pos hshort]
    exact ih hadvance hend hfinish

end Scan

/-! ## Outside flow collections -/

/-- What a scan has found: its tokens, last one first, and the columns of the open block
collections. -/
structure Blocks where
  tokens : List Token
  indent : Int
  outer : List Int

namespace Blocks

/-- Appends tokens. -/
def emits (b : Blocks) (ts : List Token) : Blocks := { b with tokens := ts.reverse ++ b.tokens }

/-- Opens a block collection at a column, unless one is open there. -/
def roll (b : Blocks) (column : Nat) (t : Token) : Blocks :=
  if b.indent < column then ⟨t :: b.tokens, column, b.indent :: b.outer⟩ else b

/-- Closes the block collections to the right of a column. -/
def unroll (b : Blocks) (column : Int) : Blocks :=
  let (n, indent, outer) := Scan.close column b.indent b.outer
  ⟨List.replicate n .blockEnd ++ b.tokens, indent, outer⟩

/-- The scan at a place outside flow collections. -/
def scan (b : Blocks) (p : Place) (keyAllowed : Bool) (candidate : Option Candidate) : Scan :=
  { place := p, tokens := b.tokens, count := b.tokens.length, indent := b.indent
    outerIndents := b.outer, candidate := candidate, keyAllowed := keyAllowed }

/-- The key that may start at a place. -/
def candidate (b : Blocks) (p : Place) : Candidate :=
  ⟨b.tokens.length, p.line, p.column, p.index, b.indent = p.column⟩

/-- The key that may start at a place, if any key may start there. -/
def saved (b : Blocks) (p : Place) (keyAllowed : Bool) : Option Candidate :=
  if keyAllowed then some (b.candidate p) else none

variable {b : Blocks} {p q : Place} {keyAllowed : Bool} {candidate? : Option Candidate}

/-! ### Tokens and columns -/

@[simp] theorem emits_emits (b : Blocks) (ts us : List Token) :
    (b.emits ts).emits us = b.emits (ts ++ us) := by
  simp [emits]

theorem roll_of_lt {column : Nat} (h : b.indent < column) (t : Token) :
    b.roll column t = ⟨t :: b.tokens, column, b.indent :: b.outer⟩ := if_pos h

theorem roll_of_le {column : Nat} (h : column ≤ b.indent) (t : Token) : b.roll column t = b :=
  if_neg (Int.not_lt.2 h)

theorem indent_roll {column : Nat} (h : b.indent ≤ column) (t : Token) :
    (b.roll column t).indent = column := by
  by_cases hlt : b.indent < column
  · rw [roll_of_lt hlt]
  · rw [roll_of_le (Int.not_lt.1 hlt)]
    exact Int.le_antisymm h (Int.not_lt.1 hlt)

theorem unroll_of_le {column : Int} (h : b.indent ≤ column) : b.unroll column = b := by
  obtain ⟨tokens, indent, outer⟩ := b
  cases outer <;> simp [unroll, Scan.close, show indent ≤ column from h]

/-- A collection that was opened is closed in front of what stands to the left of it. -/
theorem unroll_roll {k : Int} {c : Nat} (h : b.indent < c) (hk : k < c) (t : Token)
    (ts : List Token) :
    ((b.roll c t).emits ts).unroll k = (b.emits (t :: ts ++ [.blockEnd])).unroll k := by
  have hright : ¬(c : Int) ≤ k := Int.not_le.2 hk
  rw [roll_of_lt h]
  simp [unroll, emits, Scan.close, hright, List.replicate_succ', List.append_assoc]

/-! ### The scan -/

/-- A token is put in front of others. -/
theorem insert_scan (b : Blocks) (ts : List Token) (p : Place) (keyAllowed : Bool)
    (candidate? : Option Candidate) (t : Token) :
    ((b.emits ts).scan p keyAllowed candidate?).insert b.tokens.length t =
      (b.emits (t :: ts)).scan p keyAllowed candidate? := by
  have hlater : (ts.reverse ++ b.tokens).length - b.tokens.length = ts.reverse.length := by simp
  simp only [Scan.insert, scan, emits, hlater, List.take_left, List.drop_left]
  simp [Nat.add_assoc]

/-- A collection is opened in front of tokens. -/
theorem roll_scan (b : Blocks) (ts : List Token) (p : Place) (keyAllowed : Bool)
    (candidate? : Option Candidate) (column : Nat) (t : Token) :
    ((b.emits ts).scan p keyAllowed candidate?).roll column b.tokens.length t =
      ((b.roll column t).emits ts).scan p keyAllowed candidate? := by
  have hflow : ((b.emits ts).scan p keyAllowed candidate?).inFlow = false := rfl
  by_cases h : b.indent < column
  · have hroll : ((b.emits ts).scan p keyAllowed candidate?).indent < column := h
    rw [roll_of_lt h, Scan.roll, hflow, if_pos (by simpa using hroll), insert_scan]
    simp [scan, emits]
  · have hroll : ¬((b.emits ts).scan p keyAllowed candidate?).indent < column := h
    rw [roll_of_le (Int.not_lt.1 h), Scan.roll, hflow, if_neg (by simpa using hroll)]

theorem unroll_scan (b : Blocks) (p : Place) (keyAllowed : Bool) (candidate? : Option Candidate)
    (column : Int) :
    (b.scan p keyAllowed candidate?).unroll column = (b.unroll column).scan p keyAllowed candidate? := by
  simp [Scan.unroll, Scan.inFlow, scan, unroll, Nat.add_comm]

theorem saveCandidate?_scan (b : Blocks) (p : Place) (keyAllowed : Bool) :
    (b.scan p keyAllowed none).saveCandidate? =
      some (b.scan p keyAllowed (b.saved p keyAllowed)) := by
  cases keyAllowed <;> rfl

theorem finish?_scan (b : Blocks) (p : Place) (keyAllowed : Bool) :
    (b.scan p keyAllowed none).finish? = some (b.unroll (-1)).tokens.reverse := by
  rw [Scan.finish?, unroll_scan]
  rfl

/-! ### To the next token -/

theorem advance?_scan {fresh : Bool} {candidate' : Option Candidate}
    (hskip : p.skipToToken false keyAllowed = (q, fresh))
    (hrefresh : (b.scan q fresh candidate?).refresh? candidate? = some candidate') :
    (b.scan p keyAllowed candidate?).advance? =
      some ((b.unroll q.column).scan q fresh candidate') := by
  have hskip' : (b.scan p keyAllowed candidate?).place.skipToToken
      (b.scan p keyAllowed candidate?).inFlow (b.scan p keyAllowed candidate?).keyAllowed =
        (q, fresh) := hskip
  have hall : Scan.refreshAll? (b.scan q fresh candidate?) = some (b.scan q fresh candidate') := by
    rw [Scan.refreshAll?]
    show ((b.scan q fresh candidate?).refresh? candidate?).bind _ = _
    rw [hrefresh]
    rfl
  rw [Scan.advance?, hskip']
  show (Scan.refreshAll? (b.scan q fresh candidate?)).bind _ = _
  rw [hall, ← unroll_scan]
  rfl

/-! ### Keys -/

@[simp] theorem refresh?_none (s : Scan) : s.refresh? none = some none := rfl

/-- A key is kept on its line. -/
theorem refresh?_near {s : Scan} {c : Candidate} (hline : s.place.line ≤ c.line)
    (hindex : s.place.index ≤ c.index + 1024) : s.refresh? (some c) = some (some c) := by
  apply if_neg
  simp only [Scan.stale, Bool.or_eq_true, decide_eq_true_eq]
  omega

/-- What may have been a key is none on a later line. -/
theorem refresh?_saved {s : Scan} (hline : p.line < s.place.line) (hp : b.indent ≠ p.column)
    (keyAllowed : Bool) : s.refresh? (b.saved p keyAllowed) = some none := by
  cases keyAllowed with
  | false => rfl
  | true => simp [Scan.refresh?, Scan.stale, saved, candidate, hline, hp]

/-! ### What is read -/

/-- The scan goes on to the text `r` at the column `k` of a new line. There it has found `b`, and it
has closed what is to the right of that column. -/
def Reached (s : Scan) (b : Blocks) (k : Nat) (r : List Char) : Prop :=
  ∃ q : Place, s.Steps ((b.unroll k).scan q true none) ∧ q.rest = r ∧ q.column = k

/-- From a place on the scan finds tokens, and goes on to the text `r` at the column `k` of a new
line. -/
def Reads (b : Blocks) (p : Place) (keyAllowed : Bool) (ts : List Token) (k : Nat)
    (r : List Char) : Prop :=
  ∃ s, (b.scan p keyAllowed none).advance? = some s ∧ Reached s (b.emits ts) k r

/-! ### Indicators -/

theorem head?_ne_of_atBlankOrEnd {c : Char} {r : List Char} (hr : atBlankOrEnd r = true)
    (hc : isBlank c = false ∧ isBreak c = false) : r.head? ≠ some c := by
  rintro h
  obtain ⟨s, rfl⟩ := List.head?_eq_some_iff.1 h
  simp [atBlankOrEnd, hc] at hr

/-- The hyphen of an item opens a sequence at its column. -/
theorem token?_hyphen {r : List Char} (hp : p.rest = '-' :: r) (hr : atBlankOrEnd r = true) :
    (b.scan p true none).token? '-' r =
      some (((b.roll p.column .blockSequenceStart).emits [.blockEntry]).scan (p.skip 1) true
        none) := by
  have hmark : (b.scan p true none).place.atDocumentMark = false :=
    Place.atDocumentMark_of_head?_ne hp (head?_ne_of_atBlankOrEnd hr ⟨rfl, rfl⟩)
  have hscan : (b.scan p true none).token? '-' r = (b.scan p true none).hyphen? := by
    simp [Scan.token?, hmark, hr]
  rw [hscan, Scan.hyphen?]
  show (Scan.dropCandidate? (((b.emits []).scan p true none).roll _ b.tokens.length _)).bind _ = _
  rw [roll_scan]
  rfl

/-- The question mark of a key opens a mapping at its column. -/
theorem token?_question {r : List Char} (hp : p.rest = '?' :: r) (hr : atBlankOrEnd r = true) :
    (b.scan p true none).token? '?' r =
      some (((b.roll p.column .blockMappingStart).emits [.key]).scan (p.skip 1) true none) := by
  have hmark : (b.scan p true none).place.atDocumentMark = false :=
    Place.atDocumentMark_of_head?_ne hp (head?_ne_of_atBlankOrEnd hr ⟨rfl, rfl⟩)
  have hscan : (b.scan p true none).token? '?' r = (b.scan p true none).question? := by
    simp [Scan.token?, hmark, hr]
  rw [hscan, Scan.question?]
  show (Scan.dropCandidate? (((b.emits []).scan p true none).roll _ b.tokens.length _)).bind _ = _
  rw [roll_scan]
  rfl

/-- The colon of a value after a key with a question mark. -/
theorem token?_colon {r : List Char} (hp : p.rest = ':' :: r) (hr : atBlankOrEnd r = true) :
    (b.scan p true none).token? ':' r =
      some (((b.roll p.column .blockMappingStart).emits [.value]).scan (p.skip 1) true none) := by
  have hmark : (b.scan p true none).place.atDocumentMark = false :=
    Place.atDocumentMark_of_head?_ne hp (head?_ne_of_atBlankOrEnd hr ⟨rfl, rfl⟩)
  have hscan : (b.scan p true none).token? ':' r = (b.scan p true none).colon? := by
    simp [Scan.token?, hmark, hr]
  have hroll : (b.scan p true none).roll (b.scan p true none).place.column
      (b.scan p true none).count .blockMappingStart =
        (b.roll p.column .blockMappingStart).scan p true none := roll_scan b [] p true none _ _
  have hnone : (b.scan p true none).candidate = none := rfl
  rw [hscan, Scan.colon?]
  simp only [hnone, hroll]
  rfl

/-- The colon of a value after a scalar that started where a key may start. The scalar is the key,
and its mapping starts in front of it. -/
theorem token?_colon_key {r : List Char} {t : Token} (hp : q.rest = ':' :: r)
    (hr : atBlankOrEnd r = true) :
    ((b.emits [t]).scan q keyAllowed (some (b.candidate p))).token? ':' r =
      some (((b.roll p.column .blockMappingStart).emits [.key, t, .value]).scan (q.skip 1) false
        none) := by
  have hmark : ((b.emits [t]).scan q keyAllowed (some (b.candidate p))).place.atDocumentMark =
      false := Place.atDocumentMark_of_head?_ne hp (head?_ne_of_atBlankOrEnd hr ⟨rfl, rfl⟩)
  have hscan : ((b.emits [t]).scan q keyAllowed (some (b.candidate p))).token? ':' r =
      ((b.emits [t]).scan q keyAllowed (some (b.candidate p))).colon? := by
    simp [Scan.token?, hmark, hr]
  have hroll : (((b.emits [t]).scan q keyAllowed (some (b.candidate p))).insert
      (b.candidate p).tokensBefore .key).roll (b.candidate p).column (b.candidate p).tokensBefore
        .blockMappingStart =
          ((b.roll p.column .blockMappingStart).emits [.key, t]).scan q keyAllowed
            (some (b.candidate p)) := by
    show (Scan.insert _ b.tokens.length _).roll _ b.tokens.length _ = _
    rw [insert_scan, roll_scan]
    rfl
  have hsome : ((b.emits [t]).scan q keyAllowed (some (b.candidate p))).candidate =
      some (b.candidate p) := rfl
  rw [hscan, Scan.colon?]
  simp only [hsome, hroll]
  rfl

/-! ### Ways -/

/-- The way from a token to the next one starts a longer way. -/
theorem Reads.reached {b' : Blocks} {c : Char} {r s : List Char} {k : Nat} {ts : List Token}
    {e : Place} {fresh : Bool} (h : b'.Reads e fresh ts k r) (hrest : p.rest = c :: s)
    (htoken : (b.scan p keyAllowed candidate?).token? c s = some (b'.scan e fresh none))
    (hlength : e.rest.length ≤ s.length) :
    Reached (b.scan p keyAllowed candidate?) (b'.emits ts) k r := by
  obtain ⟨t, hadvance, q, hsteps, hq⟩ := h
  exact ⟨q, .head (.intro hrest htoken hlength hadvance) hsteps, hq⟩

theorem Reached.trans {s : Scan} {b b' : Blocks} {k k' : Nat} {r r' : List Char}
    (h : Reached s b k r)
    (h' : ∀ q : Place, q.rest = r → q.column = k →
      Reached ((b.unroll k).scan q true none) b' k' r') : Reached s b' k' r' := by
  obtain ⟨q, hsteps, hrest, hcolumn⟩ := h
  obtain ⟨q', hsteps', hq'⟩ := h' q hrest hcolumn
  exact ⟨q', hsteps.trans hsteps', hq'⟩

/-- From a place on the scan takes tokens: it reads the last of them up to `e`. -/
def Takes (b : Blocks) (p : Place) (keyAllowed : Bool) (ts : List Token) (e : Place) (fresh : Bool)
    (candidate? : Option Candidate) : Prop :=
  ∃ s t c r, (b.scan p keyAllowed none).advance? = some s ∧ s.Steps t ∧ t.place.rest = c :: r ∧
    t.token? c r = some ((b.emits ts).scan e fresh candidate?) ∧ e.rest.length ≤ r.length

theorem takes_of_token {c : Char} {s : List Char} {t : Token} {e : Place} {fresh fresh' : Bool}
    (hskip : p.skipToToken false keyAllowed = (q, fresh)) (hq : b.indent ≤ q.column)
    (hrest : q.rest = c :: s)
    (htoken : (b.scan q fresh none).token? c s = some ((b.emits [t]).scan e fresh' candidate?))
    (hlength : e.rest.length ≤ s.length) : b.Takes p keyAllowed [t] e fresh' candidate? := by
  have hfirst := advance?_scan (b := b) hskip (refresh?_none _)
  rw [unroll_of_le hq] at hfirst
  exact ⟨_, _, c, s, hfirst, .refl _, hrest, htoken, hlength⟩

/-- Tokens that end on their line or in front of the next one are all that is read. -/
theorem Takes.reads {e f : Place} {fresh : Bool} {ts : List Token} {k : Nat}
    (h : b.Takes p keyAllowed ts e fresh candidate?)
    (hnext : e.skipToToken false fresh = (f, true))
    (hrefresh : ((b.emits ts).scan f true candidate?).refresh? candidate? = some none)
    (hk : f.column = k) : b.Reads p keyAllowed ts k f.rest := by
  obtain ⟨s, t, c, r, hfirst, hsteps, hrest, htoken, hlength⟩ := h
  have hsecond := advance?_scan (b := b.emits ts) hnext hrefresh
  rw [hk] at hsecond
  have hstep := Scan.Step.intro hrest htoken hlength hsecond
  exact ⟨s, hfirst, f, hsteps.trans hstep.steps, rfl, hk⟩

end Blocks

end RouteDocs.Yaml
