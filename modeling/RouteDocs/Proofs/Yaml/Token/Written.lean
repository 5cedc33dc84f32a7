import RouteDocs.Proofs.Yaml.Token.Block
import RouteDocs.Proofs.Yaml.Token.Plain
import RouteDocs.Proofs.Yaml.Token.Quoted
import RouteDocs.Proofs.Yaml.Token.Stream

/-!
# Strings read back

The scan reads a string as one scalar token, in whatever way it is written.

## Main statements

* `Blocks.reads_plain`: a plain scalar on its line.
* `Blocks.reads_string`: a string as an item or a value.
-/

namespace RouteDocs.Yaml

open Text (isBlank)

/-! ## The ways a string is written -/

/-- The style of the scalar that is read. -/
def Written.style : Written → Style
  | .plain => .plain
  | .singleQuoted => .singleQuoted
  | .doubleQuoted => .doubleQuoted
  | .literal => .literal

/-- The token of a string. -/
def stringToken (s : List Char) : Token := .scalar (Written.ofString s).style (String.ofList s)

theorem ofString_eq_plain {s : List Char} (h : Written.ofString s = .plain) :
    ambiguous s = false ∧ plainAllowed s = true := by
  grind [Written.ofString]

theorem ofString_eq_literal {s : List Char} (h : Written.ofString s = .literal) :
    '\n' ∈ s ∧ ∀ c ∈ s, isPrintable c = true := by
  have hliteral : '\n' ∈ s ∧ literalAllowed s = true := by
    grind [Written.ofString]
  simp only [literalAllowed, Bool.and_eq_true, Bool.not_eq_true', hasSpecial,
    List.any_eq_false] at hliteral
  exact ⟨hliteral.1, fun c hc => by simpa using hliteral.2.1.2 c hc⟩

theorem ofString_eq_singleQuoted {s : List Char} (h : Written.ofString s = .singleQuoted) :
    IsSingle s := by
  have hsingle : '\n' ∉ s ∧ singleAllowed s = true := by
    grind [Written.ofString]
  simp only [singleAllowed, Bool.and_eq_true, Bool.not_eq_true', hasSpecial,
    List.any_eq_false] at hsingle
  obtain ⟨hfeed, ⟨hbreakSpace, hspaceBreak⟩, hspecial⟩ := hsingle
  refine ⟨fun c hc => ⟨by simpa using hspecial c hc, ?_⟩, hspaceBreak, hbreakSpace⟩
  rintro rfl
  exact hfeed hc

namespace Blocks

variable {b : Blocks} {p q e : Place} {keyAllowed fresh : Bool} {candidate? : Option Candidate}

/-! ## Scalar tokens -/

theorem isBlank_of_plainAllowed {c : Char} {r : List Char} (h : plainAllowed (c :: r) = true) :
    isBlank c = false := by
  have hsolid := startsSolid_words (words_of_plainAllowed h).1 []
  exact (hsolid c rfl).1

/-- The first character of a plain scalar means nothing else. -/
theorem token?_of_plainStart {c : Char} {r t : List Char} (h : PlainStart c r)
    (hblank : isBlank c = false) (hmark : p.atDocumentMark = false) :
    (b.scan p keyAllowed candidate?).token? c (r ++ t) =
      (b.scan p keyAllowed candidate?).plain? := by
  have hmark' : (b.scan p keyAllowed candidate?).place.atDocumentMark = false := hmark
  have hflow : (b.scan p keyAllowed candidate?).inFlow = false := rfl
  have hleading := h.notLeading
  simp [isLeadingIndicator] at hleading
  by_cases hc : c = '?' ∨ c = ':' ∨ c = '-'
  · have hnext := h.followed_append hc t
    have hblankNext : atBlank (r ++ t) = false := by
      cases h : r ++ t with
      | nil => rfl
      | cons d s => simpa [h, atBlankOrEnd, atBlank] using hnext
    have hatPlain : (b.scan p keyAllowed candidate?).atPlain c (r ++ t) = true := by
      rcases hc with rfl | rfl | rfl
      · simp [Scan.atPlain, hflow, hnext]
      · simp [Scan.atPlain, hflow, hnext]
      · simp [Scan.atPlain, hblankNext]
    simp [Scan.token?, hmark', hflow, hleading, hnext, hatPlain]
  · simp only [not_or] at hc
    have hatPlain : (b.scan p keyAllowed candidate?).atPlain c (r ++ t) = true := by
      simp [Scan.atPlain, Scan.isIndicator, hleading, hc, hblank]
    simp [Scan.token?, hmark', hflow, hleading, hc, hatPlain]

theorem token?_plain {c : Char} {r t : List Char} (hw : plainAllowed (c :: r) = true)
    (hp : p.rest = c :: (r ++ t)) (hmark : p.atDocumentMark = false)
    (hcolumn : (b.indent + 1).toNat ≤ p.column + 1)
    (he : PlainEnd (b.indent + 1).toNat (p.skip (r.length + 1)) e fresh) (keyAllowed : Bool) :
    (b.scan p keyAllowed none).token? c (r ++ t) =
      some ((b.emits [.scalar .plain (String.ofList (c :: r))]).scan e fresh
        (b.saved p keyAllowed)) := by
  obtain ⟨-, _, _, heq, hstart⟩ := words_of_plainAllowed hw
  cases heq
  have hblank := isBlank_of_plainAllowed hw
  have hscan : (b.scan p keyAllowed none).token? c (r ++ t) = (b.scan p keyAllowed none).plain? :=
    token?_of_plainStart hstart hblank hmark
  have hread := plainScalar?_plainAllowed hw ⟨t, by simp [hp]⟩ hmark hcolumn he
  rw [hscan, Scan.plain?, saveCandidate?_scan]
  show (plainScalar? false (b.indent + 1).toNat p).bind _ = _
  rw [hread]
  rfl

theorem token?_quoted (single : Bool) {r s : List Char} (hp : p.rest = quoteOf single :: r)
    (hread : quotedScalar? single (p.skip 1) = some (s, e)) (keyAllowed : Bool) :
    (b.scan p keyAllowed none).token? (quoteOf single) r =
      some ((b.emits [.scalar (if single then .singleQuoted else .doubleQuoted)
        (String.ofList s)]).scan e false (b.saved p keyAllowed)) := by
  have hmark : (b.scan p keyAllowed none).place.atDocumentMark = false :=
    Place.atDocumentMark_of_ne hp (by cases single <;> decide) (by cases single <;> decide)
  have hscan : (b.scan p keyAllowed none).token? (quoteOf single) r =
      (b.scan p keyAllowed none).quoted? single := by
    cases single <;> simp [Scan.token?, quoteOf, hmark]
  rw [hscan, Scan.quoted?, Scan.keyStart?, saveCandidate?_scan]
  show ((quotedScalar? single (p.skip 1)).map _).bind _ = _
  rw [hread]
  rfl

theorem token?_literal {r s : List Char} (hp : p.rest = '|' :: r)
    (hread : blockScalar? false b.indent (p.skip 1) = some (s, e)) (keyAllowed : Bool) :
    (b.scan p keyAllowed none).token? '|' r =
      some ((b.emits [.scalar .literal (String.ofList s)]).scan e true none) := by
  have hmark : (b.scan p keyAllowed none).place.atDocumentMark = false :=
    Place.atDocumentMark_of_ne hp (by decide) (by decide)
  have hscan : (b.scan p keyAllowed none).token? '|' r = (b.scan p keyAllowed none).block? false := by
    have hflow : (b.scan p keyAllowed none).inFlow = false := rfl
    simp [Scan.token?, hmark, hflow]
  rw [hscan, Scan.block?]
  show (blockScalar? false b.indent (p.skip 1)).bind _ = _
  rw [hread]
  rfl

/-! ## Values -/

/-- The value after `p` is in the innermost collection, at column `indent`. What comes next is `r`,
at a column that is not further in. -/
structure Fits (b : Blocks) (p : Place) (indent k : Nat) (r : List Char) : Prop where
  indent_eq : b.indent = indent
  lt_column : indent < p.column
  le_indent : k ≤ indent
  startsToken : StartsToken r

variable {indent k : Nat} {r : List Char}

theorem skipToToken_space {s : List Char} (hp : p.rest = ' ' :: s) (hs : StartsToken s)
    (keyAllowed : Bool) : p.skipToToken false keyAllowed = (p.skip 1, keyAllowed) :=
  Place.skipToToken_spaces (n := 1) hp hs false keyAllowed

theorem startsToken_plain {w : List Char} (hw : plainAllowed w = true) (t : List Char) :
    StartsToken (w ++ t) := by
  obtain ⟨hwords, c, r, rfl, hstart⟩ := words_of_plainAllowed hw
  have hsolid := startsSolid_words hwords t
  have hprint := (isPrintable_of_plainAllowed hw c List.mem_cons_self).1
  intro d hd
  obtain rfl : c = d := Option.some.inj hd
  refine ⟨(hsolid c rfl).1, (hsolid c rfl).2, hstart.ne_hash, ?_⟩
  rintro rfl
  cases hprint

theorem takes_plain {w t : List Char} (hindent : b.indent < p.column) (hw : plainAllowed w = true)
    (hp : p.rest = ' ' :: (w ++ t))
    (he : PlainEnd (b.indent + 1).toNat (p.skip (w.length + 1)) e fresh) (keyAllowed : Bool) :
    b.Takes p keyAllowed [.scalar .plain (String.ofList w)] e fresh
      (b.saved (p.skip 1) keyAllowed) := by
  obtain ⟨-, c, s, rfl, -⟩ := words_of_plainAllowed hw
  have hskip := skipToToken_space hp (startsToken_plain hw _) keyAllowed
  have hrest : (p.skip 1).rest = c :: (s ++ t) := by
    rw [Place.rest_skip, hp]
    rfl
  have he' : PlainEnd (b.indent + 1).toNat ((p.skip 1).skip (s.length + 1)) e fresh := by
    rwa [Place.skip_skip, Nat.add_comm 1]
  have hmark : (p.skip 1).atDocumentMark = false :=
    Place.atDocumentMark_of_column_ne (Nat.succ_ne_zero _)
  have htoken := token?_plain (b := b) hw hrest hmark (by simp; omega) he' keyAllowed
  have hlength := he.length_le
  refine takes_of_token hskip (by simp; omega) hrest htoken (Nat.le_trans hlength ?_)
  simp [hp]

theorem takes_quoted (single : Bool) {s t : List Char} (hindent : b.indent < p.column)
    (hp : p.rest = ' ' :: quoteOf single :: t)
    (hread : quotedScalar? single (p.skip 2) = some (s, e)) (hlength : e.rest.length ≤ t.length)
    (keyAllowed : Bool) :
    b.Takes p keyAllowed [.scalar (if single then .singleQuoted else .doubleQuoted)
      (String.ofList s)] e false (b.saved (p.skip 1) keyAllowed) := by
  have hstart : StartsToken (quoteOf single :: t) := by
    cases single <;> exact startsToken_cons (by decide) t
  have hskip := skipToToken_space hp hstart keyAllowed
  have hquote : (p.skip 1).rest = quoteOf single :: t := by
    rw [Place.rest_skip, hp]
    rfl
  have htoken := token?_quoted (b := b) single hquote (by rw [Place.skip_skip]; exact hread)
    keyAllowed
  exact takes_of_token hskip (by simp; omega) hquote htoken hlength

theorem takes_literal {s t : List Char} (hindent : b.indent < p.column)
    (hp : p.rest = ' ' :: '|' :: t) (hread : blockScalar? false b.indent (p.skip 2) = some (s, e))
    (hlength : e.rest.length ≤ t.length) (keyAllowed : Bool) :
    b.Takes p keyAllowed [.scalar .literal (String.ofList s)] e true none := by
  have hskip := skipToToken_space hp (startsToken_cons (by decide) _) keyAllowed
  have hrest : (p.skip 1).rest = '|' :: t := by
    rw [Place.rest_skip, hp]
    rfl
  have htoken := token?_literal (b := b) hrest (by rw [Place.skip_skip]; exact hread) keyAllowed
  exact takes_of_token hskip (by simp; omega) hrest htoken hlength

theorem Fits.indent_lt (h : b.Fits p indent k r) : b.indent < p.column := by
  rw [h.indent_eq]
  exact Int.ofNat_lt.2 h.lt_column

/-- What may have been a key in front of the value is none on a later line. -/
theorem Fits.refresh?_saved {s : Scan} (h : b.Fits p indent k r) (hline : p.line < s.place.line)
    (keyAllowed : Bool) : s.refresh? (b.saved (p.skip 1) keyAllowed) = some none := by
  have hcolumn := h.indent_lt
  exact Blocks.refresh?_saved (p := p.skip 1) hline (by simp; omega) keyAllowed

theorem reads_plain {w : List Char} (h : b.Fits p indent k r) (hw : plainAllowed w = true)
    (hp : p.rest = ' ' :: (w ++ '\n' :: (spaces k ++ r))) (keyAllowed : Bool) :
    b.Reads p keyAllowed [.scalar .plain (String.ofList w)] k r := by
  have hindent := h.indent_eq
  have hk := h.le_indent
  have hend : (p.skip (w.length + 1)).rest = '\n' :: (spaces k ++ r) := by simp [hp]
  have hplain : PlainEnd (b.indent + 1).toNat (p.skip (w.length + 1)) _ true :=
    .line hend h.startsToken.solid (by omega)
  exact (takes_plain h.indent_lt hw hp hplain keyAllowed).reads
    (Place.skipToToken_of_startsToken h.startsToken false true)
    (h.refresh?_saved (Nat.lt_succ_self _) keyAllowed) rfl

theorem reads_quoted (single : Bool) {s t : List Char} (h : b.Fits p indent k r)
    (hp : p.rest = ' ' :: quoteOf single :: t)
    (hread : quotedScalar? single (p.skip 2) = some (s, e))
    (hrest : e.rest = '\n' :: (spaces k ++ r)) (hlength : e.rest.length ≤ t.length)
    (hline : p.line ≤ e.line) (keyAllowed : Bool) :
    b.Reads p keyAllowed [.scalar (if single then .singleQuoted else .doubleQuoted)
      (String.ofList s)] k r :=
  (takes_quoted single h.indent_lt hp hread hlength keyAllowed).reads
    (Place.skipToToken_lineFeed hrest h.startsToken false)
    (h.refresh?_saved (Nat.lt_succ_of_le hline) keyAllowed) rfl

theorem reads_literal {s : List Char} (h : b.Fits p indent k r)
    (hs : ∀ c ∈ s, isPrintable c = true) (hne : s ≠ [])
    (hp : p.rest = ' ' :: '|' :: (indentationHint s ++ (chompingHint s ++ '\n' ::
      (literalBody (indent + 2) true s ++ (spaces k ++ r))))) (keyAllowed : Bool) :
    b.Reads p keyAllowed [.scalar .literal (String.ofList s)] k r := by
  have hstart := h.startsToken
  obtain ⟨e, hread, rfl, hek⟩ := blockScalar?_literal (p := p.skip 2) hstart.solid h.le_indent hs
    hne (by rw [Place.rest_skip, hp]; rfl)
  rw [← h.indent_eq] at hread
  have htakes := takes_literal h.indent_lt hp hread (by simp; omega) keyAllowed
  exact htakes.reads (Place.skipToToken_of_startsToken hstart false true) rfl hek

/-- A string is read back as an item or a value. -/
theorem reads_string {s : List Char} (h : b.Fits p indent k r)
    (hp : p.rest = ' ' :: (stringLine (indent + 2) s ++ (spaces k ++ r))) (keyAllowed : Bool) :
    b.Reads p keyAllowed [stringToken s] k r := by
  have hquoted : (p.skip 2).column ≠ 0 := Nat.succ_ne_zero _
  unfold stringLine at hp
  rw [stringToken]
  cases hwritten : Written.ofString s with
  | plain =>
    rw [hwritten] at hp
    exact reads_plain h (ofString_eq_plain hwritten).2 (by simpa using hp) keyAllowed
  | singleQuoted =>
    rw [hwritten] at hp
    have hrest : (p.skip 2).rest = singleBody (indent + 2) false s ++ '\'' :: '\n' ::
      (spaces k ++ r) := by simp [hp]
    obtain ⟨e, hread, hend⟩ := quotedScalar?_single (ofString_eq_singleQuoted hwritten) hrest
      (by simp) hquoted (by simp)
    exact reads_quoted true h (by simpa [quoteOf] using hp) hread hend.rest_eq
      (by simp [hend.rest_eq]; omega) hend.line_le keyAllowed
  | doubleQuoted =>
    rw [hwritten] at hp
    have hrest : (p.skip 2).rest = s.flatMap escapeDouble ++ '"' :: '\n' :: (spaces k ++ r) := by
      simp [hp]
    have hread := quotedScalar?_double hrest (by simp) hquoted
    have hend : ((p.skip 2).skip ((s.flatMap escapeDouble).length + 1)).rest =
        '\n' :: (spaces k ++ r) := by
      rw [Place.rest_skip, hrest, List.drop_length_add_append]
      rfl
    exact reads_quoted false h (by simpa [quoteOf] using hp) hread hend
      (by rw [hend]; simp; omega) (Nat.le_refl _) keyAllowed
  | literal =>
    rw [hwritten] at hp
    obtain ⟨hfeed, hprint⟩ := ofString_eq_literal hwritten
    exact reads_literal h hprint (List.ne_nil_of_mem hfeed) (by simpa using hp) keyAllowed

/-! ## Empty collections -/

/-- The scan inside a flow collection that was opened where a key might start. -/
def flowScan (b : Blocks) (p : Place) (saved : Option Candidate) : Scan :=
  { b.scan p true none with outerCandidates := [saved] }

theorem advance?_flowScan (hstart : StartsToken p.rest)
    (hrefresh : (b.flowScan p candidate?).refresh? candidate? = some candidate?) :
    (b.flowScan p candidate?).advance? = some (b.flowScan p candidate?) := by
  have hskip : (b.flowScan p candidate?).place.skipToToken (b.flowScan p candidate?).inFlow
      (b.flowScan p candidate?).keyAllowed = (p, true) :=
    Place.skipToToken_of_startsToken hstart true true
  have hall : (b.flowScan p candidate?).refreshAll? = some (b.flowScan p candidate?) := by
    rw [Scan.refreshAll?]
    show (List.mapM (b.flowScan p candidate?).refresh? [candidate?]).bind _ = _
    rw [List.mapM_cons, hrefresh]
    rfl
  rw [Scan.advance?, hskip]
  show ((b.flowScan p candidate?).refreshAll?).bind _ = _
  rw [hall]
  rfl

/-- An opening bracket and the closing one. -/
inductive Brackets : Char → Char → Token → Token → Prop
  | sequence : Brackets '[' ']' .flowSequenceStart .flowSequenceEnd
  | mapping : Brackets '{' '}' .flowMappingStart .flowMappingEnd

theorem token?_open {o c : Char} {t u : Token} {s : List Char} (h : Brackets o c t u)
    (hmark : p.atDocumentMark = false) :
    (b.scan p keyAllowed none).token? o s =
      some ((b.emits [t]).flowScan (p.skip 1) (b.saved p keyAllowed)) := by
  have hmark' : (b.scan p keyAllowed none).place.atDocumentMark = false := hmark
  cases h <;> simp [Scan.token?, hmark', Scan.openFlow?, saveCandidate?_scan] <;> rfl

theorem token?_close {o c : Char} {t u : Token} {s : List Char} (h : Brackets o c t u)
    (hmark : p.atDocumentMark = false) :
    (b.flowScan p candidate?).token? c s =
      some ((b.emits [u]).scan (p.skip 1) false candidate?) := by
  have hmark' : (b.flowScan p candidate?).place.atDocumentMark = false := hmark
  cases h <;> simp [Scan.token?, hmark', Scan.closeFlow?] <;> rfl

theorem takes_empty {o c : Char} {t u : Token} {s : List Char} (hindent : b.indent < p.column)
    (hflow : Brackets o c t u) (hp : p.rest = ' ' :: o :: c :: s) (keyAllowed : Bool) :
    b.Takes p keyAllowed [t, u] (p.skip 3) false (b.saved (p.skip 1) keyAllowed) := by
  have hstart : StartsToken (o :: c :: s) := by
    cases hflow <;> exact startsToken_cons (by decide) _
  have hopen : (p.skip 1).rest = o :: c :: s := by
    rw [Place.rest_skip, hp]
    rfl
  have hclose : ((p.skip 1).skip 1).rest = c :: s := by
    rw [Place.rest_skip, hopen]
    rfl
  -- to the opening bracket, and over it
  have hfirst := advance?_scan (b := b) (skipToToken_space hp hstart keyAllowed) (refresh?_none _)
  have hkept : ((b.emits [t]).flowScan ((p.skip 1).skip 1) (b.saved (p.skip 1) keyAllowed)).refresh?
      (b.saved (p.skip 1) keyAllowed) = some (b.saved (p.skip 1) keyAllowed) := by
    cases keyAllowed with
    | false => rfl
    | true => exact refresh?_near (Nat.le_refl _) (by simp [flowScan, scan, candidate])
  have hstart' : StartsToken ((p.skip 1).skip 1).rest := by
    rw [hclose]
    cases hflow <;> exact startsToken_cons (by decide) _
  have hsecond := advance?_flowScan hstart' hkept
  rw [unroll_of_le (by simp; omega)] at hfirst
  have hmark := Place.atDocumentMark_of_column_ne (p := p.skip 1) (Nat.succ_ne_zero _)
  have hmark' := Place.atDocumentMark_of_column_ne (p := (p.skip 1).skip 1) (Nat.succ_ne_zero _)
  have hstep := Scan.Step.intro hopen (token?_open hflow hmark) (Nat.le_of_eq (congrArg _ hclose))
    hsecond
  have hlast : ((b.emits [t]).flowScan ((p.skip 1).skip 1) (b.saved (p.skip 1) keyAllowed)).token?
      c s = some (((b.emits [t]).emits [u]).scan (((p.skip 1).skip 1).skip 1) false
        (b.saved (p.skip 1) keyAllowed)) := token?_close hflow hmark'
  exact ⟨_, _, c, s, hfirst, hstep.steps, hclose, by simpa using hlast, by simp [hp]⟩

/-- An empty collection is read back. -/
theorem reads_empty {o c : Char} {t u : Token} (h : b.Fits p indent k r) (hflow : Brackets o c t u)
    (hp : p.rest = ' ' :: o :: c :: '\n' :: (spaces k ++ r)) (keyAllowed : Bool) :
    b.Reads p keyAllowed [t, u] k r := by
  have hend : (p.skip 3).rest = '\n' :: (spaces k ++ r) := by simp [hp]
  exact (takes_empty h.indent_lt hflow hp keyAllowed).reads
    (Place.skipToToken_lineFeed hend h.startsToken false)
    (h.refresh?_saved (Nat.lt_succ_self _) keyAllowed) rfl

end Blocks

end RouteDocs.Yaml
