import Mathlib.Data.List.Forall2
import RouteDocs.Proofs.Generate
import RouteDocs.Proofs.Route.Placeholder

/-!
# Which lines are declarations

A declaration has three parts: the call with its verb, which starts the line, the quoted URL and the
argument list of the handler. The latter two are looked for in the whole line, each on its own, and
the first one found is taken. Here the parts are described by how they divide the line.

## Main definitions

* `CallsVerb`, `UrlAt`, `ArgumentsAt`: the three parts, each at its place.
* `FirstUrl`, `FirstArguments`: the first URL and the first argument list of a line.
* `FirstLack`: the first part that a line lacks.
* `Names`: the names in an argument list.

## Main statements

* `firstGroup?_verb_iff`, `firstGroup?_url_iff`, `firstGroup?_handler_iff`: what the patterns find.
* `parse_iff_parts`: which lines are accepted, what is read from them, and how the others fail.
-/

namespace RouteDocs.Signature

open Text Source

/-! ## The first group of a pattern -/

section FirstGroup

variable {p : Pattern} {line g : List Char}

theorem firstGroup?_eq_some_iff :
    firstGroup? p line = some g ↔
      ∃ past t m, line = past ++ t ∧ p.matchAt? past.getLast? t = some m ∧ m.group 0 = g ∧
        ∀ past' t', line = past' ++ t' → past'.length < past.length →
          p.matchAt? past'.getLast? t' = none := by
  simp only [firstGroup?, Option.map_eq_some_iff, Prod.exists, Pattern.search?_eq_some_iff,
    Option.or_none]
  constructor
  · rintro ⟨past, m, ⟨⟨t, ht, hm⟩, hleft⟩, hg⟩
    exact ⟨past, t, m, ht, hm, hg, hleft⟩
  · rintro ⟨past, t, m, ht, hm, hg, hleft⟩
    exact ⟨past, m, ⟨⟨t, ht, hm⟩, hleft⟩, hg⟩

theorem exists_firstGroup?_iff :
    (∃ g, firstGroup? p line = some g) ↔
      ∃ past t m, line = past ++ t ∧ p.matchAt? past.getLast? t = some m := by
  constructor
  · rintro ⟨g, hg⟩
    obtain ⟨past, t, m, ht, hm, -⟩ := firstGroup?_eq_some_iff.1 hg
    exact ⟨past, t, m, ht, hm⟩
  · rintro ⟨past, t, m, ht, hm⟩
    cases hsearch : p.search? none line with
    | some x => exact ⟨_, by rw [firstGroup?, hsearch]; rfl⟩
    | none =>
      have hnone := Pattern.search?_eq_none_iff.1 hsearch past t ht
      simp [hm] at hnone

end FirstGroup

/-! ## The call -/

/-- A letter of ASCII or an underscore, and then letters, digits and underscores. -/
def IsIdentifier (s : List Char) : Prop :=
  ∃ c cs, s = c :: cs ∧ Pattern.isIdentifierStart c = true ∧
    ∀ d ∈ cs, Pattern.isIdentifierRest d = true

theorem isIdentifier_iff {s : List Char} :
    IsIdentifier s ↔
      s.head?.any Pattern.isIdentifierStart = true ∧ s.tail.all Pattern.isIdentifierRest = true := by
  cases s <;> simp [IsIdentifier]

instance : DecidablePred IsIdentifier := fun _ => decidable_of_iff _ isIdentifier_iff.symm

/-- Behind white space the line starts with the call of this verb. -/
def CallsVerb (line verb : List Char) : Prop :=
  ∃ space rest, line = space ++ (declarationWord ++ (verb ++ '(' :: rest)) ∧
    (∀ c ∈ space, isSpace c = true) ∧ IsIdentifier verb

section Parts

variable {before : Option Char} {s a r : List Char}

theorem takeAll?_call_iff :
    takeAll? before [.textStart, .run isSpace, .text ['r', 'o', 'u', 't', 'e', 's', ':']] s =
        some (a, r) ↔
      before = none ∧ s = a ++ r ∧
        ∃ space, a = space ++ declarationWord ∧ ∀ c ∈ space, isSpace c = true := by
  rw [← declarationWord]
  simp only [takeAll?_cons_iff, takeAll?_nil_iff, Piece.take?_textStart_iff, Piece.take?_run_iff,
    Piece.take?_text_iff]
  constructor
  · rintro ⟨_, _, _, ⟨rfl, rfl, rfl⟩, ⟨space, _, _, ⟨rfl, hspace, -⟩, ⟨_, _, _, ⟨rfl, rfl⟩,
      ⟨rfl, rfl⟩, rfl⟩, rfl⟩, rfl⟩
    exact ⟨rfl, by simp, space, by simp, hspace⟩
  · rintro ⟨rfl, rfl, space, rfl, hspace⟩
    exact ⟨[], _, _, ⟨rfl, rfl, rfl⟩, ⟨space, _, declarationWord, ⟨by simp, hspace,
      by simp [declarationWord, isSpace]⟩, ⟨_, _, [], ⟨rfl, rfl⟩, ⟨rfl, rfl⟩, by simp⟩, rfl⟩, rfl⟩

theorem takeAll?_identifier_iff :
    takeAll? before [.one Pattern.isIdentifierStart, .run Pattern.isIdentifierRest] s =
        some (a, r) ↔
      s = a ++ r ∧ IsIdentifier a ∧ ∀ c ∈ r.head?, Pattern.isIdentifierRest c = false := by
  simp only [takeAll?_cons_iff, takeAll?_nil_iff, take?_one_iff, Piece.take?_run_iff]
  constructor
  · rintro ⟨_, _, _, ⟨c, hc, rfl, rfl⟩, ⟨cs, _, _, ⟨rfl, hcs, hr⟩, ⟨rfl, rfl⟩, rfl⟩, rfl⟩
    exact ⟨by simp, ⟨c, cs, by simp, hc, hcs⟩, hr⟩
  · rintro ⟨rfl, ⟨c, cs, rfl, hc, hcs⟩, hr⟩
    exact ⟨[c], _, cs, ⟨c, hc, rfl, rfl⟩, ⟨cs, r, [], ⟨rfl, hcs, hr⟩, ⟨rfl, rfl⟩, by simp⟩, rfl⟩

theorem matchAt?_verb_iff {m : Match} :
    Pattern.verb.matchAt? before s = some m ↔
      before = none ∧ ∃ space verb rest, s = space ++ (declarationWord ++ (verb ++ '(' :: rest)) ∧
        (∀ c ∈ space, isSpace c = true) ∧ IsIdentifier verb ∧
        m = ⟨[(false, space ++ declarationWord), (true, verb), (false, ['('])], rest⟩ := by
  have hbracket : ∀ c ∈ ['('].head?, Pattern.isIdentifierRest c = false := by
    simp [Pattern.isIdentifierRest, Pattern.isIdentifierStart, Pattern.isLower]
  simp only [Pattern.verb, Part.plain, Part.group, Pattern.matchAt?_cons_iff,
    Pattern.matchAt?_nil_iff, takeAll?_call_iff, takeAll?_identifier_iff,
    takeAll?_text_iff]
  constructor
  · rintro ⟨_, _, _, ⟨rfl, rfl, space, rfl, hspace⟩, ⟨verb, _, _, ⟨rfl, hverb, -⟩, ⟨_, rest, _,
      ⟨rfl, rfl⟩, rfl, rfl⟩, rfl⟩, rfl⟩
    exact ⟨rfl, space, verb, rest, by simp, hspace, hverb, rfl⟩
  · rintro ⟨rfl, space, verb, rest, rfl, hspace, hverb, rfl⟩
    exact ⟨_, _, _, ⟨rfl, by simp, space, rfl, hspace⟩, ⟨verb, '(' :: rest, _,
      ⟨rfl, hverb, hbracket⟩, ⟨_, rest, _, ⟨rfl, rfl⟩, rfl, rfl⟩, rfl⟩, rfl⟩

end Parts

theorem firstGroup?_verb_iff {line verb : List Char} :
    firstGroup? Pattern.verb line = some verb ↔ CallsVerb line verb := by
  rw [firstGroup?_eq_some_iff]
  constructor
  · rintro ⟨past, t, m, rfl, hm, rfl, -⟩
    obtain ⟨hpast, space, verb, rest, rfl, hspace, hverb, rfl⟩ := matchAt?_verb_iff.1 hm
    obtain rfl : past = [] := by simpa using hpast
    exact ⟨space, rest, rfl, hspace, hverb⟩
  · rintro ⟨space, rest, hline, hspace, hverb⟩
    exact ⟨[], line, _, rfl,
      matchAt?_verb_iff.2 ⟨rfl, space, verb, rest, hline, hspace, hverb, rfl⟩, rfl, by simp⟩

/-! ## The URL -/

/-- Behind `past` a quoted at sign stands in the line, and then the URL up to the next quote. -/
def UrlAt (line past url : List Char) : Prop :=
  ∃ path rest, line = past ++ (['"', '@', '/'] ++ (path ++ '"' :: rest)) ∧ '"' ∉ path ∧
    url = '/' :: path

/-- Somewhere in the line stands a quoted at sign with a slash, and a quote behind it. -/
def HasUrl (line : List Char) : Prop :=
  ∃ past s rest, line = past ++ (['"', '@', '/'] ++ (s ++ '"' :: rest))

/-- The URL behind the first quoted at sign with a slash. -/
def FirstUrl (line url : List Char) : Prop :=
  ∃ past, UrlAt line past url ∧ ∀ q < past.length, ¬['"', '@', '/'] <+: line.drop q

theorem rawUrl?_eq_some_iff {line url : List Char} :
    rawUrl? line = some url ↔ FirstUrl line url := by
  simp only [rawUrl?, Option.bind_eq_some_iff, Option.map_eq_some_iff, Prod.exists]
  constructor
  · rintro ⟨past, s, hstart, path, rest, hstop, rfl⟩
    obtain ⟨hline, hfirst⟩ := splitAtFirst?_eq_some_iff.1 hstart
    obtain ⟨rfl, hquote⟩ := splitAtFirst?_eq_some_iff.1 hstop
    refine ⟨past, ⟨path, rest, by simpa using hline, fun hmem => ?_, rfl⟩, hfirst⟩
    obtain ⟨a, b, rfl⟩ := List.append_of_mem hmem
    exact hquote a.length (by simp) (by simp)
  · rintro ⟨past, ⟨path, rest, hline, hquote, rfl⟩, hfirst⟩
    exact ⟨past, path ++ '"' :: rest, splitAtFirst?_eq_some_iff.2 ⟨by simp [hline], hfirst⟩,
      path, rest, splitAtFirst?_singleton hquote rest, rfl⟩

theorem firstGroup?_url_iff {line url : List Char} :
    firstGroup? Pattern.url line = some url ↔ FirstUrl line url := by
  rw [firstGroup?_url, rawUrl?_eq_some_iff]

theorem exists_firstUrl_iff {line : List Char} : (∃ url, FirstUrl line url) ↔ HasUrl line := by
  simp only [← firstGroup?_url_iff, exists_firstGroup?_iff, matchAt?_url_iff]
  constructor
  · rintro ⟨past, t, m, rfl, path, rest, rfl, -, -⟩
    exact ⟨past, path, rest, rfl⟩
  · rintro ⟨past, s, rest, rfl⟩
    obtain ⟨path, rest', hs, hquote⟩ :=
      List.eq_append_cons_of_mem (show '"' ∈ s ++ '"' :: rest by simp)
    exact ⟨past, _, _, rfl, path, rest', by rw [hs], hquote, rfl⟩

/-! ## The argument list -/

/-- The word that an argument list stands behind. -/
def handlerWord : List Char := ['f', 'u', 'n', 'c', 't', 'i', 'o', 'n']

/-- The word of a handler, white space, and the bracket that opens its argument list. -/
def OpensArguments (t : List Char) : Prop :=
  ∃ space, t = handlerWord ++ (space ++ ['(']) ∧ ∀ c ∈ space, isSpace c = true

/-- Behind `past` an argument list is opened in the line. Its text goes up to the next closing
bracket. -/
def ArgumentsAt (line past arguments : List Char) : Prop :=
  ∃ t rest, OpensArguments t ∧ line = past ++ (t ++ (arguments ++ ')' :: rest)) ∧ ')' ∉ arguments

/-- Somewhere in the line an argument list is opened, with a closing bracket behind it. -/
def HasHandler (line : List Char) : Prop :=
  ∃ past t s rest, OpensArguments t ∧ line = past ++ (t ++ (s ++ ')' :: rest))

/-- The text of the first argument list. -/
def FirstArguments (line arguments : List Char) : Prop :=
  ∃ past, ArgumentsAt line past arguments ∧
    ∀ past' arguments', ArgumentsAt line past' arguments' → past.length ≤ past'.length

theorem takeAll?_opensArguments_iff {before : Option Char} {s a r : List Char} :
    takeAll? before [.text ['f', 'u', 'n', 'c', 't', 'i', 'o', 'n'], .run isSpace, .text ['(']] s =
        some (a, r) ↔
      s = a ++ r ∧ OpensArguments a := by
  rw [← handlerWord]
  simp only [takeAll?_cons_iff, takeAll?_nil_iff, Piece.take?_run_iff, Piece.take?_text_iff]
  constructor
  · rintro ⟨_, _, _, ⟨rfl, rfl⟩, ⟨space, _, _, ⟨rfl, hspace, -⟩, ⟨_, _, _, ⟨rfl, rfl⟩, ⟨rfl, rfl⟩,
      rfl⟩, rfl⟩, rfl⟩
    exact ⟨by simp, space, by simp, hspace⟩
  · rintro ⟨rfl, space, rfl, hspace⟩
    exact ⟨handlerWord, space ++ ('(' :: r), space ++ ['('], ⟨rfl, by simp⟩, ⟨space, _, ['('],
      ⟨rfl, hspace, by simp [isSpace]⟩, ⟨_, _, [], ⟨rfl, rfl⟩, ⟨rfl, rfl⟩, by simp⟩, rfl⟩, rfl⟩

theorem matchAt?_handler_iff {before : Option Char} {s : List Char} {m : Match} :
    Pattern.handler.matchAt? before s = some m ↔
      ∃ t arguments rest, OpensArguments t ∧ s = t ++ (arguments ++ ')' :: rest) ∧
        ')' ∉ arguments ∧ m = ⟨[(false, t), (true, arguments), (false, [')'])], rest⟩ := by
  simp only [Pattern.handler, Part.plain, Part.group, Pattern.matchAt?_cons_iff,
    Pattern.matchAt?_nil_iff, takeAll?_opensArguments_iff, takeAll?_run_iff,
    takeAll?_text_iff]
  constructor
  · rintro ⟨t, _, _, ⟨rfl, ht⟩, ⟨arguments, _, _, ⟨rfl, harguments, -⟩, ⟨_, rest, _, ⟨rfl, rfl⟩,
      rfl, rfl⟩, rfl⟩, rfl⟩
    exact ⟨t, arguments, rest, ht, rfl, fun hmem => by simpa using harguments _ hmem, rfl⟩
  · rintro ⟨t, arguments, rest, ht, rfl, harguments, rfl⟩
    refine ⟨t, _, _, ⟨rfl, ht⟩, ⟨arguments, ')' :: rest, _, ⟨rfl, fun c hc => ?_, by simp⟩,
      ⟨_, rest, _, ⟨rfl, rfl⟩, rfl, rfl⟩, rfl⟩, rfl⟩
    have hne : c ≠ ')' := fun h => harguments (h ▸ hc)
    simpa using hne

/-- An argument list at a place is a match there. -/
theorem argumentsAt_iff {line past arguments : List Char} :
    ArgumentsAt line past arguments ↔
      ∃ t m, line = past ++ t ∧ Pattern.handler.matchAt? past.getLast? t = some m ∧
        m.group 0 = arguments := by
  simp only [matchAt?_handler_iff]
  constructor
  · rintro ⟨t, rest, ht, rfl, harguments⟩
    exact ⟨_, _, rfl, ⟨t, arguments, rest, ht, rfl, harguments, rfl⟩, rfl⟩
  · rintro ⟨_, _, rfl, ⟨t, arguments, rest, ht, rfl, harguments, rfl⟩, rfl⟩
    exact ⟨t, rest, ht, rfl, harguments⟩

/-- At a place there is at most one argument list. -/
theorem ArgumentsAt.unique {line past past' arguments arguments' : List Char}
    (h : ArgumentsAt line past arguments) (h' : ArgumentsAt line past' arguments')
    (hlen : past.length = past'.length) : past = past' ∧ arguments = arguments' := by
  obtain ⟨t, m, rfl, hm, rfl⟩ := argumentsAt_iff.1 h
  obtain ⟨t', m', hline, hm', rfl⟩ := argumentsAt_iff.1 h'
  obtain ⟨rfl, rfl⟩ := List.append_inj hline hlen
  cases hm.symm.trans hm'
  exact ⟨rfl, rfl⟩

theorem firstGroup?_handler_iff {line arguments : List Char} :
    firstGroup? Pattern.handler line = some arguments ↔ FirstArguments line arguments := by
  rw [firstGroup?_eq_some_iff]
  constructor
  · rintro ⟨past, t, m, ht, hm, hg, hleft⟩
    refine ⟨past, argumentsAt_iff.2 ⟨t, m, ht, hm, hg⟩, fun past' arguments' h' => ?_⟩
    obtain ⟨t', m', ht', hm', -⟩ := argumentsAt_iff.1 h'
    refine Nat.not_lt.1 fun hlt => ?_
    cases (hleft past' t' ht' hlt).symm.trans hm'
  · rintro ⟨past, h, hfirst⟩
    obtain ⟨t, m, ht, hm, hg⟩ := argumentsAt_iff.1 h
    refine ⟨past, t, m, ht, hm, hg, fun past' t' ht' hlt => ?_⟩
    cases hm' : Pattern.handler.matchAt? past'.getLast? t' with
    | none => rfl
    | some m' =>
      have hle := hfirst past' _ (argumentsAt_iff.2 ⟨t', m', ht', hm', rfl⟩)
      omega

theorem ArgumentsAt.hasHandler {line past arguments : List Char}
    (h : ArgumentsAt line past arguments) : HasHandler line := by
  obtain ⟨t, rest, ht, hline, -⟩ := h
  exact ⟨past, t, arguments, rest, ht, hline⟩

/-- Where an argument list is opened, a closing bracket behind it makes it one. -/
theorem exists_argumentsAt {t s : List Char} (ht : OpensArguments t) (hs : ')' ∈ s)
    (past : List Char) : ∃ arguments, ArgumentsAt (past ++ (t ++ s)) past arguments := by
  obtain ⟨arguments, rest, rfl, harguments⟩ := List.eq_append_cons_of_mem hs
  exact ⟨arguments, t, rest, ht, rfl, harguments⟩

theorem exists_firstArguments_iff {line : List Char} :
    (∃ arguments, FirstArguments line arguments) ↔ HasHandler line := by
  simp only [← firstGroup?_handler_iff, exists_firstGroup?_iff]
  constructor
  · rintro ⟨past, t, m, rfl, hm⟩
    obtain ⟨t, arguments, rest, ht, rfl, -, -⟩ := matchAt?_handler_iff.1 hm
    exact ⟨past, t, arguments, rest, ht, rfl⟩
  · rintro ⟨past, t, s, rest, ht, rfl⟩
    obtain ⟨arguments, h⟩ := exists_argumentsAt ht (s := s ++ ')' :: rest) (by simp) past
    obtain ⟨u, m, hu, hm, -⟩ := argumentsAt_iff.1 h
    exact ⟨past, u, m, hu, hm⟩

/-! ## The names -/

/-- The names in an argument list: the text is cut at its commas, what stays of the pieces without
white space around them is a name unless it is empty, and the first name is left out. -/
def Names (arguments : List Char) (names : List String) : Prop :=
  ∃ pieces trimmed, pieces ≠ [] ∧ (∀ p ∈ pieces, ',' ∉ p) ∧
    List.intercalate [','] pieces = arguments ∧ List.Forall₂ IsTrimmed pieces trimmed ∧
    names = ((trimmed.filter fun a => !a.isEmpty).map String.ofList).tail

theorem forall₂_isTrimmed_iff {pieces trimmed : List (List Char)} :
    List.Forall₂ IsTrimmed pieces trimmed ↔ pieces.map trim = trimmed := by
  have heq : pieces.map trim = trimmed ↔ List.Forall₂ (· = ·) (pieces.map trim) trimmed := by
    rw [List.forall₂_eq_eq_eq]
  rw [heq, List.forall₂_map_left_iff]
  simp only [trim_eq_iff]

theorem argumentNames_eq_iff {arguments : List Char} {names : List String} :
    argumentNames arguments = names ↔ Names arguments names := by
  constructor
  · rintro rfl
    obtain ⟨hne, hcomma, hjoin⟩ := splitOn_eq_iff.1 (rfl : splitOn ',' arguments = _)
    refine ⟨_, _, hne, hcomma, hjoin, forall₂_isTrimmed_iff.2 rfl, ?_⟩
    rw [argumentNames, List.map_tail]
  · rintro ⟨pieces, trimmed, hne, hcomma, hjoin, htrim, rfl⟩
    obtain rfl := forall₂_isTrimmed_iff.1 htrim
    rw [argumentNames, splitOn_eq_iff.2 ⟨hne, hcomma, hjoin⟩, List.map_tail]

/-! ## Reading a line -/

/-- The first part that a line lacks, in the order in which they are written. -/
def FirstLack (line : List Char) : Lack → Prop
  | .verb => ¬∃ verb, CallsVerb line verb
  | .url => (∃ verb, CallsVerb line verb) ∧ ¬HasUrl line
  | .handler => (∃ verb, CallsVerb line verb) ∧ HasUrl line ∧ ¬HasHandler line

theorem parse_eq_ok_iff_parts {line : String} {s : Logged Signature} :
    parse line = .ok s ↔
      ∃ verb url arguments names, CallsVerb line.toList verb ∧ FirstUrl line.toList url ∧
        FirstArguments line.toList arguments ∧ Names arguments names ∧
        s = ofParts verb url names := by
  simp only [parse_eq_ok_iff, firstGroup?_verb_iff, firstGroup?_url_iff, firstGroup?_handler_iff,
    ← argumentNames_eq_iff]
  grind

theorem exists_parse_eq_ok_iff {line : String} :
    (∃ s, parse line = .ok s) ↔
      (∃ verb, CallsVerb line.toList verb) ∧ HasUrl line.toList ∧ HasHandler line.toList := by
  simp only [parse_eq_ok_iff, firstGroup?_verb_iff, firstGroup?_url_iff, firstGroup?_handler_iff,
    ← exists_firstUrl_iff, ← exists_firstArguments_iff]
  grind

theorem parse_eq_error_iff {line : String} {m : Malformed} :
    parse line = .error m ↔
      IsTrimmed line.toList m.line.toList ∧ FirstLack line.toList m.lack := by
  obtain ⟨text, lack⟩ := m
  have htext : IsTrimmed line.toList text.toList ↔ String.ofList (trim line.toList) = text := by
    rw [← trim_eq_iff, ← String.toList_inj, String.toList_ofList]
  simp only [FirstLack, htext, ← firstGroup?_verb_iff, ← exists_firstUrl_iff, ← firstGroup?_url_iff,
    ← exists_firstArguments_iff, ← firstGroup?_handler_iff]
  cases hverb : firstGroup? Pattern.verb line.toList with
  | none => cases lack <;> simp [parse, hverb]
  | some verb =>
    cases hurl : firstGroup? Pattern.url line.toList with
    | none => cases lack <;> simp [parse, hverb, hurl]
    | some url =>
      cases harguments : firstGroup? Pattern.handler line.toList with
      | none => cases lack <;> simp [parse, hverb, hurl, harguments]
      | some arguments => cases lack <;> simp [parse, hverb, hurl, harguments]

/-- A line is accepted exactly if it has all three parts. Its verb, its first URL and the names in
its first argument list then make up the signature. Any other line fails with its text, trimmed, and
the first part that it lacks. A run that meets it stops there, and reports nothing for it. -/
theorem parse_iff_parts (line : String) :
    ((∃ s, parse line = .ok s) ↔
      (∃ verb, CallsVerb line.toList verb) ∧ HasUrl line.toList ∧ HasHandler line.toList) ∧
    (∀ s, parse line = .ok s ↔
      ∃ verb url arguments names, CallsVerb line.toList verb ∧ FirstUrl line.toList url ∧
        FirstArguments line.toList arguments ∧ Names arguments names ∧
        s.result.verb = String.ofList verb ∧ s.result.parameterNames = names ∧
        s = ofParts verb url names) ∧
    (∀ m, parse line = .error m ↔
      IsTrimmed line.toList m.line.toList ∧ FirstLack line.toList m.lack) ∧
    (∀ m, parse line = .error m → ∀ (d : Document) settings comment rest,
      d.addRoutes (Route.ofBlock settings ⟨line, comment⟩ :: rest) = ⟨.error m, []⟩) := by
  refine ⟨exists_parse_eq_ok_iff, fun s => ?_, fun m => parse_eq_error_iff,
    fun m hm d settings comment rest => ?_⟩
  · rw [parse_eq_ok_iff_parts]
    constructor
    · rintro ⟨verb, url, arguments, names, hverb, hurl, harguments, hnames, rfl⟩
      exact ⟨verb, url, arguments, names, hverb, hurl, harguments, hnames, rfl, rfl, rfl⟩
    · rintro ⟨verb, url, arguments, names, hverb, hurl, harguments, hnames, -, -, rfl⟩
      exact ⟨verb, url, arguments, names, hverb, hurl, harguments, hnames, rfl⟩
  · rw [ofBlock_of_error hm]
    rfl

/-- The word of a handler may stand in the URL, and may come twice. -/
example : (parse "routes:get(\"@/a function\", function(req, id), function(x, y)").toOption.map
    (·.result.parameterNames) = some ["id"] := by decide +kernel

end RouteDocs.Signature
