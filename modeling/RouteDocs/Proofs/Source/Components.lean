import RouteDocs.Components
import RouteDocs.Proofs.Source.Blocks

/-!
# The components comment and the blocks

The components comment is found by its marks alone. It ends at the first closing mark, not at the
first bracket that closes a long comment, and it is looked for without regard to the blocks. So its
text may hold such a bracket, and it may meet a block.

## Main definitions

* `IsRegion`: a components comment, without reference to the pattern that finds it.
* `FirstRegion`: the first components comment of a text, with its place.
* `Meets`: the ways in which it can share characters with a block.

## Main statements

* `exists_firstRegion_iff`: the text that is read is that of the first components comment.
* `FirstRegion.comment_eq`: when a route comment is the components comment too, and ends with it.
* `region_separate`: when its text ends in front of the first bracket, and when it meets a block.
-/

namespace RouteDocs.Source

open Text

/-- The mark that opens the components comment. -/
def openMark : List Char := ['-', '-', '[', '[']

/-- The mark that closes the components comment. -/
def closeMark : List Char := ['-', '-', ']', ']']

/-- The key of the components. -/
def componentsKey : List Char := ['c', 'o', 'm', 'p', 'o', 'n', 'e', 'n', 't', 's', ':']

/-- The text begins with the components key, behind blanks and line ends. -/
def BeginsWithKey (text : List Char) : Prop :=
  ∃ space tail, (∀ c ∈ space, isBlank c = true ∨ c = '\r' ∨ c = '\n') ∧
    text = space ++ (componentsKey ++ tail)

/-- At the start of `t` stands a components comment: between its marks `text`, which begins with the
key and is followed by the first closing mark, and then `rest`. -/
structure IsRegion (t text rest : List Char) : Prop where
  cut : t = openMark ++ (text ++ (closeMark ++ rest))
  key : BeginsWithKey text
  first : ∀ q < text.length, ¬closeMark <+: (text ++ (closeMark ++ rest)).drop q

/-- At offset `p` of a text stands the first components comment, with this text. -/
structure FirstRegion (s : List Char) (p : Nat) (text : List Char) : Prop where
  region : ∃ past t rest, s = past ++ t ∧ past.length = p ∧ IsRegion t text rest
  first : ∀ past t text' rest, s = past ++ t → past.length < p → ¬IsRegion t text' rest

/-! ## The pattern -/

theorem Piece.take?_upTo_iff {before : Option Char} {s a r p : List Char} :
    Piece.take? before s (.upTo p) = some (a, r) ↔
      ∃ b, splitAtFirst? p s = some (a, b) ∧ r = p ++ b := by
  simp only [Piece.take?, Option.map_eq_some_iff, Prod.exists, Prod.mk.injEq]
  constructor
  · rintro ⟨_, b, hs, rfl, rfl⟩
    exact ⟨b, hs, rfl⟩
  · rintro ⟨b, hs, rfl⟩
    exact ⟨a, b, hs, rfl, rfl⟩

/-- The closing mark starts with a dash, and there is none in the key or in front of it. -/
theorem dash_not_mem_of_space {space : List Char}
    (h : ∀ c ∈ space, isBlank c = true ∨ c = '\r' ∨ c = '\n') : '-' ∉ space ++ componentsKey := by
  intro hmem
  rcases List.mem_append.1 hmem with hmem | hmem
  · exact absurd (h _ hmem) (by decide)
  · exact absurd hmem (by decide)

theorem isRegion_iff {t text rest : List Char} :
    IsRegion t text rest ↔
      ∃ space s tail, (∀ c ∈ space, isBlank c = true ∨ c = '\r' ∨ c = '\n') ∧
        t = openMark ++ (space ++ (componentsKey ++ s)) ∧
        splitAtFirst? closeMark s = some (tail, rest) ∧
        text = space ++ (componentsKey ++ tail) := by
  constructor
  · rintro ⟨rfl, ⟨space, tail, hspace, rfl⟩, hfirst⟩
    refine ⟨space, tail ++ (closeMark ++ rest), tail, hspace, by simp, ?_, rfl⟩
    refine splitAtFirst?_eq_some_iff.2 ⟨by simp, fun q hq hpre => ?_⟩
    refine hfirst ((space ++ componentsKey).length + q) (by simp; omega) ?_
    have hcut : space ++ (componentsKey ++ tail) ++ (closeMark ++ rest) =
        (space ++ componentsKey) ++ (tail ++ (closeMark ++ rest)) := by simp
    rw [hcut, List.drop_length_add_append]
    exact hpre
  · rintro ⟨space, s, tail, hspace, rfl, htail, rfl⟩
    have hwhole := splitAtFirst?_append_of_not_mem (p := ['-', ']', ']'])
      (dash_not_mem_of_space hspace) s
    rw [show '-' :: ['-', ']', ']'] = closeMark from rfl, htail] at hwhole
    obtain ⟨hs, hfirst⟩ := splitAtFirst?_eq_some_iff.1 hwhole
    have hs' : space ++ (componentsKey ++ s) =
        space ++ (componentsKey ++ tail) ++ (closeMark ++ rest) := by simpa using hs
    refine ⟨by rw [hs'], ⟨space, tail, hspace, rfl⟩, ?_⟩
    rw [← hs']
    simpa using hfirst

theorem matchAt?_componentsRegion_iff {before : Option Char} {t : List Char} {m : Match} :
    Pattern.componentsRegion.matchAt? before t = some m ↔
      ∃ text rest, IsRegion t text rest ∧
        m = ⟨[(false, openMark), (true, text), (false, closeMark)], rest⟩ := by
  have hspace : ∀ c : Char, (isBlank c || c == '\r' || c == '\n') = true ↔
      isBlank c = true ∨ c = '\r' ∨ c = '\n' := fun c => by simp [or_assoc]
  simp only [Pattern.componentsRegion, Part.plain, Part.group, Pattern.matchAt?_cons_iff,
    Pattern.matchAt?_nil_iff, takeAll?_cons_iff, takeAll?_nil_iff, Piece.take?_text_iff,
    Piece.take?_run_iff, Piece.take?_upTo_iff, isRegion_iff, hspace]
  constructor
  · rintro ⟨_, _, _, ⟨_, _, _, ⟨rfl, rfl⟩, ⟨rfl, rfl⟩, rfl⟩, ⟨_, _, _, ⟨space, _, _,
      ⟨rfl, hall, -⟩, ⟨_, _, _, ⟨rfl, rfl⟩, ⟨tail, _, _, ⟨b, htail, rfl⟩, ⟨rfl, rfl⟩, rfl⟩, rfl⟩,
      rfl⟩, ⟨_, _, _, ⟨_, _, _, ⟨rfl, hb⟩, ⟨rfl, rfl⟩, rfl⟩, rfl, rfl⟩, rfl⟩, rfl⟩
    obtain rfl := List.append_cancel_left hb
    refine ⟨_, b, ⟨space, _, tail, hall, rfl, htail, rfl⟩, ?_⟩
    simp [openMark, closeMark, componentsKey]
  · rintro ⟨_, rest, ⟨space, s, tail, hall, rfl, htail, rfl⟩, rfl⟩
    exact ⟨_, _, _, ⟨_, _, [], ⟨rfl, rfl⟩, ⟨rfl, rfl⟩, rfl⟩, ⟨_, _, _, ⟨space, _, _,
      ⟨rfl, hall, by simp [componentsKey, isBlank]⟩, ⟨_, _, _, ⟨rfl, rfl⟩, ⟨tail, _, [],
      ⟨rest, htail, rfl⟩, ⟨rfl, rfl⟩, rfl⟩, rfl⟩, rfl⟩, ⟨_, rest, _, ⟨_, _, [], ⟨rfl, rfl⟩,
      ⟨rfl, rfl⟩, rfl⟩, rfl, rfl⟩, rfl⟩, by simp [openMark, closeMark, componentsKey]⟩

/-- The leftmost match of the pattern is the first components comment. -/
theorem search?_componentsRegion {s skipped : List Char} {m : Match}
    (h : Pattern.componentsRegion.search? none s = some (skipped, m)) :
    FirstRegion s skipped.length (m.group 0) := by
  obtain ⟨⟨t, hs, hm⟩, hleft⟩ := Pattern.search?_eq_some_iff.1 h
  obtain ⟨text, rest, hregion, rfl⟩ := matchAt?_componentsRegion_iff.1 hm
  refine ⟨⟨skipped, t, rest, hs, rfl, hregion⟩, fun past t' text' rest' hs' hlt hother => ?_⟩
  obtain ⟨n, hn⟩ : ∃ n, Pattern.componentsRegion.matchAt? (past.getLast?.or none) t' = some n :=
    ⟨_, matchAt?_componentsRegion_iff.2 ⟨text', rest', hother, rfl⟩⟩
  cases (hleft past t' hs' hlt).symm.trans hn

/-- A components comment at a place has one text. -/
theorem IsRegion.unique {t text text' rest rest' : List Char} (h : IsRegion t text rest)
    (h' : IsRegion t text' rest') : text = text' ∧ rest = rest' := by
  have hsplit : ∀ {u r}, IsRegion t u r → ∃ s, t = openMark ++ s ∧
      splitAtFirst? closeMark s = some (u, r) := fun {u r} hregion =>
    ⟨_, hregion.cut, splitAtFirst?_eq_some_iff.2 ⟨by simp, hregion.first⟩⟩
  obtain ⟨s, rfl, hs⟩ := hsplit h
  obtain ⟨s', heq, hs'⟩ := hsplit h'
  obtain rfl := List.append_cancel_left heq
  cases hs.symm.trans hs'
  exact ⟨rfl, rfl⟩

/-- The text that is read is that of the first components comment. -/
theorem exists_firstRegion_iff {source : String} {text : List Char} :
    Components.region? source = some text ↔ ∃ p, FirstRegion source.toList p text := by
  rw [Components.region?, Option.map_eq_some_iff]
  constructor
  · rintro ⟨⟨skipped, m⟩, hsearch, rfl⟩
    exact ⟨_, search?_componentsRegion hsearch⟩
  · rintro ⟨_, ⟨past, t, rest, hs, rfl, hregion⟩, hfirst⟩
    refine ⟨(past, ⟨[(false, openMark), (true, text), (false, closeMark)], rest⟩),
      Pattern.search?_eq_some_iff.2 ⟨⟨t, hs, ?_⟩, fun past' t' hs' hlt => ?_⟩, rfl⟩
    · exact matchAt?_componentsRegion_iff.2 ⟨text, rest, hregion, rfl⟩
    · apply Option.eq_none_iff_forall_ne_some.2
      intro m hm
      obtain ⟨text', rest', hother, -⟩ := matchAt?_componentsRegion_iff.1 hm
      exact hfirst past' t' text' rest' hs' hlt hother

/-! ## Where texts can stand -/

/-- Of two texts that occur, the later one is behind the other if that one lacks its first
character. -/
theorem le_of_prefix_drop {s a p : List Char} {c : Char} {i j : Nat} (ha : a <+: s.drop i)
    (hp : c :: p <+: s.drop j) (hc : c ∉ a) (hij : i ≤ j) : i + a.length ≤ j := by
  obtain ⟨r, hr⟩ := ha
  obtain ⟨n, rfl⟩ := Nat.exists_eq_add_of_le hij
  apply Nat.add_le_add_left
  apply Nat.not_lt.1
  intro hlt
  rw [← List.drop_drop, ← hr, List.drop_append_of_le_length (Nat.le_of_lt hlt),
    List.drop_eq_getElem_cons hlt, List.cons_append, List.cons_prefix_cons] at hp
  exact hc (hp.1 ▸ List.getElem_mem hlt)

/-- The bracket that opens a long comment whose brackets have `level` equals signs. -/
def openingBracket (level : Nat) : List Char :=
  '-' :: '-' :: '[' :: (List.replicate level '=' ++ ['['])

/-- Of an opening, only the declaration and the bracket have dashes, and what is between them begins
with the end of the line. -/
theorem IsOpening.exists_parts {t decl : List Char} {level : Nat} (h : IsOpening t decl level) :
    ∃ indent line x gap, '-' ∉ indent ∧ decl = declarationWord ++ line ∧ x ∉ openMark ∧
      '-' ∉ x :: gap ∧ t = indent ++ (decl ++ (x :: gap ++ openingBracket level)) := by
  obtain ⟨indent, line, cr, indent', hindent, -, hcr, hindent', rfl, rfl⟩ := h
  have hdash : ∀ {u : List Char}, (∀ c ∈ u, isBlank c = true) → '-' ∉ u :=
    fun hu hmem => absurd (hu _ hmem) (by decide)
  rcases hcr with rfl | rfl
  · exact ⟨indent, line, '\n', indent', hdash hindent, rfl, by decide,
      by simp [hdash hindent'], by simp [openingBracket]⟩
  · exact ⟨indent, line, '\r', '\n' :: indent', hdash hindent, rfl, by decide,
      by simp [hdash hindent'], by simp [openingBracket]⟩

/-- The opening mark stands in a bracket only if it is the bracket. -/
theorem eq_zero_of_mark {level n : Nat} {r : List Char}
    (hmark : openMark <+: (openingBracket level ++ r).drop n)
    (hn : n < (openingBracket level).length) : level = 0 ∧ n = 0 := by
  match n with
  | 0 =>
    refine ⟨?_, rfl⟩
    cases level with
    | zero => rfl
    | succ level => simp [openMark, openingBracket, List.replicate_succ] at hmark
  | 1 => simp [openMark, openingBracket] at hmark
  | n + 2 =>
    -- there is no dash in the rest of the bracket
    have htail : '[' :: (List.replicate level '=' ++ ['[']) <+:
        (openingBracket level ++ r).drop 2 := by simp [openingBracket]
    have hle := le_of_prefix_drop htail hmark (by simp [List.mem_replicate]) (by omega)
    simp [openingBracket] at hle hn
    omega

/-- The opening mark stands in the declaration of an opening, or it is its bracket. -/
theorem IsOpening.mark_cases {t decl r : List Char} {level n : Nat} (h : IsOpening t decl level)
    (hmark : openMark <+: (t ++ r).drop n) (hn : n < t.length) :
    openMark <:+: decl ∧ 0 < n ∧ n + openMark.length < t.length ∨
      level = 0 ∧ n + openMark.length = t.length := by
  obtain ⟨indent, line, x, gap, hindent, hdecl, hx, hgap, rfl⟩ := h.exists_parts
  -- the mark is behind the indentation and the word that the declaration starts with
  have hword : (indent ++ declarationWord).length ≤ n := by
    have hpre : indent ++ declarationWord <+: ((indent ++ (decl ++ (x :: gap ++
        openingBracket level))) ++ r).drop 0 := by simp [hdecl]
    simpa using le_of_prefix_drop hpre hmark (by simp [hindent, declarationWord]) (Nat.zero_le n)
  rw [List.length_append] at hword
  obtain ⟨n, rfl⟩ := Nat.exists_eq_add_of_le (Nat.le_of_add_right_le hword)
  rw [List.append_assoc, List.drop_length_add_append, List.append_assoc] at hmark
  rcases Nat.lt_or_ge n decl.length with hlt | hge
  · left
    rw [List.drop_append_of_le_length (Nat.le_of_lt hlt), List.append_assoc,
      List.cons_append] at hmark
    have hin : openMark <+: decl.drop n := prefix_of_prefix_append_cons hx hmark
    have hlen := hin.length_le
    refine ⟨hin.isInfix.trans (List.drop_suffix n decl).isInfix, ?_, ?_⟩
    · simp only [declarationWord, List.length_cons, List.length_nil] at hword
      omega
    · simp only [List.length_drop] at hlen
      simp only [List.length_append, List.length_cons]
      omega
  · right
    obtain ⟨n, rfl⟩ := Nat.exists_eq_add_of_le hge
    rw [List.drop_length_add_append, List.append_assoc] at hmark
    have hpre : x :: gap <+: ((x :: gap) ++ (openingBracket level ++ r)).drop 0 :=
      List.prefix_append _ _
    have hbehind := le_of_prefix_drop hpre hmark hgap (Nat.zero_le n)
    obtain ⟨n, rfl⟩ := Nat.exists_eq_add_of_le hbehind
    rw [Nat.zero_add, List.drop_length_add_append] at hmark
    simp only [List.length_append] at hn
    obtain ⟨rfl, rfl⟩ := eq_zero_of_mark hmark (by omega)
    refine ⟨rfl, ?_⟩
    simp only [List.length_append, openingBracket, openMark]
    simp
    omega

/-! ## Meeting a block -/

/-- The offset behind the components comment at `p`. -/
def regionStop (p : Nat) (text : List Char) : Nat :=
  p + openMark.length + text.length + closeMark.length

/-- How the components comment at `p` meets a block. -/
inductive Meets (p : Nat) (text : List Char) (b : Site) : Prop
  /-- The block starts in its text. -/
  | inside (h : p + openMark.length < b.start) (h' : b.start < p + openMark.length + text.length)
  /-- It starts in the declaration of the block. -/
  | declaration (hdecl : openMark <:+: b.declaration) (h : b.start < p)
      (h' : p + openMark.length < b.body)
  /-- Its opening mark is the opening bracket of the block. -/
  | bracket (hlevel : b.level = 0) (h : p + openMark.length = b.body)
  /-- It starts in the comment of the block. -/
  | comment (h : b.body ≤ p) (h' : p + openMark.length ≤ b.close)

section Meets

variable {s text : List Char} {p : Nat} {b : Site}

theorem FirstRegion.exists_drop (h : FirstRegion s p text) :
    ∃ rest, s.drop p = openMark ++ (text ++ (closeMark ++ rest)) := by
  obtain ⟨past, t, rest, rfl, rfl, hregion⟩ := h.region
  exact ⟨rest, by rw [List.drop_left, hregion.cut]⟩

theorem FirstRegion.mark_prefix (h : FirstRegion s p text) : openMark <+: s.drop p := by
  obtain ⟨rest, hdrop⟩ := h.exists_drop
  exact ⟨_, hdrop.symm⟩

/-- What stands behind the opening mark. -/
theorem FirstRegion.exists_drop_text (h : FirstRegion s p text) :
    ∃ rest, s.drop (p + openMark.length) = text ++ (closeMark ++ rest) := by
  obtain ⟨rest, hdrop⟩ := h.exists_drop
  exact ⟨rest, by rw [← List.drop_drop, hdrop, List.drop_left]⟩

theorem FirstRegion.closeMark_prefix (h : FirstRegion s p text) :
    closeMark <+: s.drop (p + openMark.length + text.length) := by
  obtain ⟨rest, hdrop⟩ := h.exists_drop_text
  exact ⟨rest, by rw [← List.drop_drop, hdrop, List.drop_left]⟩

/-- The text of a components comment ends in front of the first bracket that closes a long comment
exactly if it holds no such bracket. -/
theorem FirstRegion.closed_iff (h : FirstRegion s p text) :
    (∀ q, p + openMark.length ≤ q → closingBracket 0 <+: s.drop q →
      p + openMark.length + text.length ≤ q) ↔ ¬closingBracket 0 <:+: text := by
  obtain ⟨rest, hdrop⟩ := h.exists_drop_text
  constructor
  · rintro hend ⟨u, v, rfl⟩
    have hat : closingBracket 0 <+: s.drop (p + openMark.length + u.length) := by
      rw [← List.drop_drop, hdrop]
      simp [List.append_assoc]
    have hle := hend _ (by omega) hat
    have hpos : 0 < (closingBracket 0).length := by decide
    simp only [List.length_append] at hle
    omega
  · intro hnot q hq hat
    obtain ⟨n, rfl⟩ := Nat.exists_eq_add_of_le hq
    apply Nat.add_le_add_left
    apply Nat.not_lt.1
    intro hlt
    rw [← List.drop_drop, hdrop, List.drop_append_of_le_length (Nat.le_of_lt hlt)] at hat
    have hin : closingBracket 0 <+: text.drop n := prefix_of_prefix_append_cons (by decide) hat
    exact hnot (hin.isInfix.trans (List.drop_suffix n text).isInfix)

/-- A block starts with a character that stands in no mark. -/
theorem OpeningAt.exists_cons_prefix {decl : List Char} {start level body : Nat}
    (h : OpeningAt s start decl level body) :
    ∃ x, x ∉ openMark ∧ x ∉ closeMark ∧ [x] <+: s.drop start := by
  obtain ⟨past, t, rest, rfl, rfl, -, hopening, -⟩ := h
  obtain ⟨indent, line, cr, indent', hindent, -, -, -, rfl, rfl⟩ := hopening
  rw [List.drop_left]
  cases indent with
  | nil => exact ⟨'r', by decide, by decide, by simp [declarationWord]⟩
  | cons c indent =>
    have hblank : isBlank c = true := hindent c List.mem_cons_self
    have hopen : ∀ d ∈ openMark, isBlank d = false := by simp [openMark, isBlank]
    have hclose : ∀ d ∈ closeMark, isBlank d = false := by simp [closeMark, isBlank]
    refine ⟨c, fun hmem => ?_, fun hmem => ?_, by simp⟩
    · cases hblank.symm.trans (hopen c hmem)
    · cases hblank.symm.trans (hclose c hmem)

/-- In front of a block that does not start a text stands a line feed. -/
theorem OpeningAt.lineFeed_prefix {decl : List Char} {start level body : Nat}
    (h : OpeningAt s start decl level body) (hpos : 0 < start) : ['\n'] <+: s.drop (start - 1) := by
  obtain ⟨past, t, rest, rfl, rfl, hline, -, -⟩ := h
  have hne : past ≠ [] := List.length_pos_iff.1 hpos
  obtain ⟨front, hfront⟩ : ∃ front, past = front ++ ['\n'] :=
    AtLineStart.exists_eq_append (List.nil_append past ▸ hline) hne
  rw [hfront]
  simp

/-- Neither mark of a components comment overlaps the start of a block. -/
theorem FirstRegion.inside_of_lt (h : FirstRegion s p text) (hb : b.IsIn s) (hlt : p < b.start)
    (hstop : b.start < regionStop p text) :
    p + openMark.length < b.start ∧ b.start < p + openMark.length + text.length := by
  obtain ⟨x, hx, hx', hat⟩ := hb.opening.exists_cons_prefix
  constructor
  · have hfeed := hb.opening.lineFeed_prefix (by omega)
    have hle := le_of_prefix_drop h.mark_prefix hfeed (by decide) (by omega)
    omega
  · apply Nat.not_le.1
    intro hle
    have hbehind := le_of_prefix_drop h.closeMark_prefix hat hx' hle
    rw [regionStop] at hstop
    omega

/-- The opening mark does not overlap the bracket that closes a block. -/
theorem FirstRegion.mark_le_close (h : FirstRegion s p text) (hb : b.IsIn s) (hlt : p < b.stop) :
    p + openMark.length ≤ b.close := by
  rcases Nat.le_total b.close p with hle | hle
  · have hdash : '-' ∉ closingBracket b.level := by simp [closingBracket, List.mem_replicate]
    have hbehind := le_of_prefix_drop hb.closed h.mark_prefix hdash hle
    rw [Site.stop] at hlt
    omega
  · exact le_of_prefix_drop h.mark_prefix hb.closed (by decide) hle

/-- The components comment shares characters with a block exactly if it meets it in one of the four
ways. -/
theorem FirstRegion.meets_iff (h : FirstRegion s p text) (hb : b.IsIn s) :
    p < b.stop ∧ b.start < regionStop p text ↔ Meets p text b := by
  have hbody := hb.body_le
  have hstart := hb.opening.start_lt
  have hstop : b.close < b.stop := by simp [Site.stop, closingBracket]
  constructor
  · rintro ⟨hlt, hlt'⟩
    rcases Nat.lt_or_ge p b.start with hfront | hbehind
    · obtain ⟨hinside, hinside'⟩ := h.inside_of_lt hb hfront hlt'
      exact .inside hinside hinside'
    rcases Nat.lt_or_ge p b.body with hopen | hcomment
    · obtain ⟨n, rfl⟩ := Nat.exists_eq_add_of_le hbehind
      obtain ⟨past, t, rest, rfl, hpast, -, hopening, hend⟩ := hb.opening
      have hmark := h.mark_prefix
      rw [← hpast, List.drop_length_add_append] at hmark
      rcases hopening.mark_cases hmark (by omega) with ⟨hdecl, hpos, hend'⟩ | ⟨hlevel, hend'⟩
      · exact .declaration hdecl (by omega) (by omega)
      · exact .bracket hlevel (by omega)
    · exact .comment hcomment (h.mark_le_close hb hlt)
  · intro hmeets
    have hregion : p + openMark.length + text.length < regionStop p text := by
      simp [regionStop, closeMark]
    have hmark : 0 < openMark.length := by decide
    cases hmeets <;> constructor <;> omega

/-- A route comment that begins with the key is the components comment too. If its text holds no
bracket that closes a long comment, then both have this text and end together. -/
theorem FirstRegion.comment_eq (h : FirstRegion s p text) (hb : b.IsIn s) (hlevel : b.level = 0)
    (hbody : p + openMark.length = b.body) (hnot : ¬closingBracket 0 <:+: text) :
    b.comment = text ∧ b.stop = regionStop p text := by
  obtain ⟨rest, hdrop⟩ := h.exists_drop_text
  have hclosed := hb.closed
  have hfirst := hb.first
  rw [hlevel] at hclosed hfirst
  have hclose : b.close = b.body + (text ++ ['-', '-']).length := by
    apply Nat.le_antisymm
    · apply Nat.not_lt.1
      intro hlt
      refine hfirst _ (Nat.le_add_right _ _) hlt ?_
      rw [← hbody, ← List.drop_drop, hdrop]
      simp [closeMark, closingBracket]
    · have hend := h.closed_iff.2 hnot b.close (hbody ▸ hb.body_le) hclosed
      have hdash : ['-', '-'] <+: s.drop (p + openMark.length + text.length) :=
        List.IsPrefix.trans ⟨[']', ']'], rfl⟩ h.closeMark_prefix
      have hle := le_of_prefix_drop hdash hclosed (by decide) hend
      simpa [hbody, Nat.add_assoc] using hle
  constructor
  · have hcomment := hb.comment
    have htext : IsCommentText (text ++ ['-', '-']) text :=
      ⟨_, [], (List.append_nil _).symm, by simp, by simp [EndsSolid, isSpace], .inl rfl⟩
    have hbetween : (s.drop b.body).take (b.close - b.body) = text ++ ['-', '-'] := by
      rw [← hbody, hdrop, hbody, hclose, Nat.add_sub_cancel_left]
      have hcut : text ++ (closeMark ++ rest) = text ++ ['-', '-'] ++ ([']', ']'] ++ rest) := by
        simp [closeMark]
      rw [hcut, List.take_left]
    rw [hbetween] at hcomment
    exact (commentText_eq_iff.2 hcomment).symm.trans (commentText_eq_iff.2 htext)
  · rw [Site.stop, regionStop, hbody, hclose, hlevel]
    simp [closingBracket, closeMark, Nat.add_assoc]

end Meets

/-- Where the components comment stands in a text. What is read is the text between its marks. It
ends in front of the first bracket that closes a long comment exactly if it holds none; and the
comment shares characters with a block exactly if the block starts in its text, or its opening mark
is in the declaration of the block, in its comment, or is its bracket. -/
theorem region_separate {source : String} {text : List Char}
    (h : Components.region? source = some text) :
    ∃ p, FirstRegion source.toList p text ∧
      ((∀ q, p + openMark.length ≤ q → closingBracket 0 <+: source.toList.drop q →
        p + openMark.length + text.length ≤ q) ↔ ¬closingBracket 0 <:+: text) ∧
      ∀ sites, Selected source.toList 0 sites → blocks source = sites.map Site.block ∧
        ∀ b ∈ sites, p < b.stop ∧ b.start < regionStop p text ↔ Meets p text b := by
  obtain ⟨p, hregion⟩ := exists_firstRegion_iff.1 h
  refine ⟨p, hregion, hregion.closed_iff, fun sites hsites => ⟨?_, fun b hb => ?_⟩⟩
  · obtain ⟨sites', hsites', hblocks⟩ := Cursor.exists_selected (Cursor.start source.toList)
    exact (hsites.unique hsites') ▸ hblocks
  · exact hregion.meets_iff ((hsites.2 b).1 hb).1

/-- A route comment that is the components comment too, and goes on as such behind its bracket. -/
def sharedComment : String :=
  "routes:get(\"@/\", function(r)\n--[[\ncomponents:\n  a: x ]] y\n--]]\n"

/-- The block of the shared comment, which ends at the first bracket. -/
def sharedSite : Site where
  start := 0
  declaration := "routes:get(\"@/\", function(r)".toList
  level := 0
  body := 33
  close := 53
  comment := "\ncomponents:\n  a: x".toList

theorem openingAt_sharedSite :
    OpeningAt sharedComment.toList 0 sharedSite.declaration 0 33 := by
  have hline : ("get(\"@/\", function(r)".toList.all fun c => c != '\r' && c != '\n') = true := by
    decide +kernel
  refine ⟨[], sharedComment.toList.take 33, sharedComment.toList.drop 33,
    (List.take_append_drop 33 _).symm, rfl, nofun, ?_, by decide +kernel⟩
  refine ⟨[], "get(\"@/\", function(r)".toList, [], [], nofun, fun c hc => ?_, .inl rfl, nofun,
    by decide +kernel, by decide +kernel⟩
  simpa using List.all_eq_true.1 hline c hc

theorem sharedSite_isIn : sharedSite.IsIn sharedComment.toList where
  opening := openingAt_sharedSite
  body_le := by decide
  closed := by decide +kernel
  first := by
    have hfirst : ∀ q < 53, 33 ≤ q → ¬closingBracket 0 <+: sharedComment.toList.drop q := by
      decide +kernel
    exact fun q hq hlt => hfirst q hlt hq
  comment := commentText_eq_iff.1 (by decide +kernel)

theorem mem_of_selected_sharedComment {sites : List Site}
    (h : Selected sharedComment.toList 0 sites) : sharedSite ∈ sites :=
  (h.2 sharedSite).2 ⟨sharedSite_isIn, Nat.zero_le _, fun _ _ hlt => nomatch hlt⟩

theorem region_separate_shared :
    ∃ text p sites, Components.region? sharedComment = some text ∧
      FirstRegion sharedComment.toList p text ∧
      ((∀ q, p + openMark.length ≤ q → closingBracket 0 <+: sharedComment.toList.drop q →
        p + openMark.length + text.length ≤ q) ↔ ¬closingBracket 0 <:+: text) ∧
      Selected sharedComment.toList 0 sites ∧ blocks sharedComment = sites.map Site.block ∧
      sharedSite ∈ sites ∧
      (p < sharedSite.stop ∧ sharedSite.start < regionStop p text ↔ Meets p text sharedSite) := by
  have hsome : (Components.region? sharedComment).isSome = true := by decide +kernel
  obtain ⟨text, htext⟩ := Option.isSome_iff_exists.1 hsome
  obtain ⟨p, hregion, hclosed, hmeets⟩ := region_separate htext
  obtain ⟨sites, hsites, -⟩ := Cursor.exists_selected (Cursor.start sharedComment.toList)
  obtain ⟨hblocks, hmeets⟩ := hmeets sites hsites
  have hmem := mem_of_selected_sharedComment hsites
  exact ⟨text, p, sites, htext, hregion, hclosed, hsites, hblocks, hmem, hmeets sharedSite hmem⟩

/-- The text that is read goes on behind a bracket that closes a long comment, and the block that
the bracket closes is the components comment too. -/
theorem region_not_separate :
    ∃ p text, Components.region? sharedComment = some text ∧
      FirstRegion sharedComment.toList p text ∧
      (∃ q, p + openMark.length ≤ q ∧ q < p + openMark.length + text.length ∧
        closingBracket 0 <+: sharedComment.toList.drop q) ∧
      ∀ sites, Selected sharedComment.toList 0 sites →
        ∃ b ∈ sites, p < b.stop ∧ b.start < regionStop p text := by
  have hmatch : (Pattern.componentsRegion.search? none sharedComment.toList).map
      (fun x => (x.1.length, x.2.group 0)) =
        some (29, "\ncomponents:\n  a: x ]] y\n".toList) := by decide +kernel
  obtain ⟨⟨skipped, m⟩, hsearch, heq⟩ := Option.map_eq_some_iff.1 hmatch
  have hregion := search?_componentsRegion hsearch
  obtain ⟨hp, htext⟩ := Prod.mk.inj heq
  rw [hp, htext] at hregion
  refine ⟨29, _, exists_firstRegion_iff.2 ⟨_, hregion⟩, hregion, ⟨53, by decide, by decide +kernel,
    by decide +kernel⟩, fun sites hsites => ?_⟩
  exact ⟨sharedSite, mem_of_selected_sharedComment hsites, by decide, by decide⟩

end RouteDocs.Source
