import RouteDocs.Proofs.Source.Pattern
import RouteDocs.Source.Block

/-!
# Openings of comments below a declaration

The shape of an opening is stated without reference to the pattern that finds it: a declaration line
and, at the start of the next line, the opening bracket of a long comment.

## Main definitions

* `IsOpening`: the shape.
* `OpeningAt`: an opening stands at an offset of a text, at the start of a line.

## Main statements

* `opening_of_matchAt?`, `exists_matchAt?_of_isOpening`: the pattern matches exactly this shape.
* `OpeningAt.eq_of_eq`, `OpeningAt.le_of_lt`: there is at most one opening at an offset, and no two
  openings overlap.
-/

namespace RouteDocs.Source

open Text

/-- The word that a declaration starts with. -/
def declarationWord : List Char := ['r', 'o', 'u', 't', 'e', 's', ':']

/-- The text `t` is a declaration line, in front of which blanks may stand, and on the next line the
bracket that opens a long comment of this level. -/
def IsOpening (t decl : List Char) (level : Nat) : Prop :=
  ∃ indent line cr indent', (∀ c ∈ indent, isBlank c = true) ∧
    (∀ c ∈ line, c ≠ '\r' ∧ c ≠ '\n') ∧ (cr = [] ∨ cr = ['\r']) ∧
    (∀ c ∈ indent', isBlank c = true) ∧ decl = declarationWord ++ line ∧
    t = indent ++ (decl ++ (cr ++ '\n' :: (indent' ++ ['-', '-', '['])) ++
      (List.replicate level '=' ++ ['[']))

/-- A line starts after `past`. -/
def AtLineStart (past : List Char) : Prop := ∀ c ∈ past.getLast?, c = '\n'

/-- At offset `p` of a text, at the start of a line, stands an opening that ends at offset `e`. -/
def OpeningAt (s : List Char) (p : Nat) (decl : List Char) (level e : Nat) : Prop :=
  ∃ past t rest, s = past ++ (t ++ rest) ∧ past.length = p ∧ AtLineStart past ∧
    IsOpening t decl level ∧ e = p + t.length

/-! ## The parts of the pattern -/

section Parts

variable {before : Option Char} {s a r : List Char}

theorem takeAll?_indent_iff :
    takeAll? before [.lineStart, .run isBlank] s = some (a, r) ↔
      before.all (· == '\n') = true ∧ s = a ++ r ∧ (∀ c ∈ a, isBlank c = true) ∧
        ∀ c ∈ r.head?, isBlank c = false := by
  simp only [takeAll?_cons_iff, takeAll?_nil_iff, Piece.take?_lineStart_iff, Piece.take?_run_iff]
  constructor
  · rintro ⟨_, _, _, ⟨hb, rfl, rfl⟩, ⟨x, _, _, ⟨rfl, hx, hr⟩, ⟨rfl, rfl⟩, rfl⟩, rfl⟩
    exact ⟨hb, by simp, by simpa using hx, hr⟩
  · rintro ⟨hb, rfl, ha, hr⟩
    exact ⟨[], _, a, ⟨hb, rfl, rfl⟩, ⟨a, r, [], ⟨rfl, ha, hr⟩, ⟨rfl, rfl⟩, by simp⟩, rfl⟩

theorem takeAll?_declaration_iff :
    takeAll? before [.text declarationWord, .run fun c => c != '\r' && c != '\n'] s = some (a, r) ↔
      ∃ line, a = declarationWord ++ line ∧ s = a ++ r ∧ (∀ c ∈ line, c ≠ '\r' ∧ c ≠ '\n') ∧
        ∀ c ∈ r.head?, c = '\r' ∨ c = '\n' := by
  simp only [takeAll?_cons_iff, takeAll?_nil_iff, Piece.take?_text_iff, Piece.take?_run_iff]
  constructor
  · rintro ⟨_, _, _, ⟨rfl, rfl⟩, ⟨line, _, _, ⟨rfl, hline, hr⟩, ⟨rfl, rfl⟩, rfl⟩, rfl⟩
    refine ⟨line, by simp, by simp, by simpa using hline, fun c hc => ?_⟩
    have := hr c hc
    grind
  · rintro ⟨line, rfl, rfl, hline, hr⟩
    refine ⟨_, _, line, ⟨rfl, by simp⟩, ⟨line, r, [], ⟨rfl, by simpa using hline, fun c hc => ?_⟩,
      ⟨rfl, rfl⟩, by simp⟩, rfl⟩
    rcases hr c hc with rfl | rfl <;> rfl

theorem takeAll?_bracket_iff :
    takeAll? before [.optional '\r', .text ['\n'], .run isBlank, .text ['-', '-', '[']] s =
        some (a, r) ↔
      ∃ cr indent, (cr = [] ∨ cr = ['\r']) ∧ (∀ c ∈ indent, isBlank c = true) ∧
        a = cr ++ '\n' :: (indent ++ ['-', '-', '[']) ∧ s = a ++ r := by
  simp only [takeAll?_cons_iff, takeAll?_nil_iff, Piece.take?_text_iff, Piece.take?_run_iff,
    Piece.take?_optional_iff]
  constructor
  · rintro ⟨cr, _, _, ⟨rfl, hcr⟩, ⟨_, _, _, ⟨rfl, rfl⟩, ⟨indent, _, _, ⟨rfl, hi, -⟩,
      ⟨_, _, _, ⟨rfl, rfl⟩, ⟨rfl, rfl⟩, rfl⟩, rfl⟩, rfl⟩, rfl⟩
    exact ⟨cr, indent, hcr.symm.imp_left And.left, hi, by simp, by simp⟩
  · rintro ⟨cr, indent, hcr, hi, rfl, rfl⟩
    refine ⟨cr, '\n' :: (indent ++ ['-', '-', '['] ++ r), '\n' :: (indent ++ ['-', '-', '[']),
      ⟨by simp, ?_⟩, ⟨['\n'], _, indent ++ ['-', '-', '['], ⟨rfl, rfl⟩, ⟨indent, _, ['-', '-', '['],
      ⟨by simp, hi, ?_⟩, ⟨_, r, [], ⟨rfl, rfl⟩, ⟨rfl, rfl⟩, rfl⟩, rfl⟩, rfl⟩, rfl⟩
    · rcases hcr with rfl | rfl
      · exact .inr ⟨rfl, by simp⟩
      · exact .inl rfl
    · simp [isBlank]

theorem takeAll?_level_iff :
    takeAll? before [.run (· == '=')] s = some (a, r) ↔
      ∃ level, a = List.replicate level '=' ∧ s = a ++ r ∧ r.head? ≠ some '=' := by
  simp only [takeAll?_cons_iff, takeAll?_nil_iff, Piece.take?_run_iff]
  constructor
  · rintro ⟨x, _, _, ⟨rfl, hx, hr⟩, ⟨rfl, rfl⟩, rfl⟩
    refine ⟨x.length, ?_, by simp, fun h => ?_⟩
    · simpa using List.eq_replicate_of_mem fun c hc => by simpa using hx c hc
    · simpa using hr '=' h
  · rintro ⟨level, rfl, rfl, hr⟩
    refine ⟨_, r, [], ⟨rfl, by simp, fun c hc => ?_⟩, ⟨rfl, rfl⟩, by simp⟩
    have hne : c ≠ '=' := fun heq => hr (heq ▸ hc)
    simpa using hne

end Parts

/-! ## The pattern -/

/-- A match of the pattern is an opening at the start of a line. -/
theorem opening_of_matchAt? {before : Option Char} {s : List Char} {m : Match}
    (h : Pattern.opening.matchAt? before s = some m) :
    before.all (· == '\n') = true ∧ IsOpening m.text (m.group 0) (m.group 1).length := by
  simp only [Pattern.opening, Part.plain, Part.group, Pattern.matchAt?_cons_iff,
    Pattern.matchAt?_nil_iff] at h
  obtain ⟨indent, _, _, h₁, ⟨decl, _, _, h₂, ⟨bracket, _, _, h₃, ⟨equals, _, _, h₄,
    ⟨last, rest, _, h₅, rfl, rfl⟩, rfl⟩, rfl⟩, rfl⟩, rfl⟩ := h
  obtain ⟨hb, -, hindent, -⟩ := takeAll?_indent_iff.1 h₁
  obtain ⟨line, rfl, -, hline, -⟩ := takeAll?_declaration_iff.1 h₂
  obtain ⟨cr, indent', hcr, hindent', rfl, -⟩ := takeAll?_bracket_iff.1 h₃
  obtain ⟨level, rfl, -, -⟩ := takeAll?_level_iff.1 h₄
  obtain ⟨_, _, _, hlast, ⟨rfl, rfl⟩, rfl⟩ := takeAll?_cons_iff.1 h₅
  obtain ⟨rfl, -⟩ := Piece.take?_text_iff.1 hlast
  refine ⟨hb, indent, line, cr, indent', hindent, hline, hcr, hindent', rfl, ?_⟩
  simp [Match.text, Match.group, Match.groups]

/-- At the start of a line the pattern matches an opening, whatever comes after it. -/
theorem exists_matchAt?_of_isOpening {before : Option Char} {t decl : List Char} {level : Nat}
    (rest : List Char) (hb : before.all (· == '\n') = true) (h : IsOpening t decl level) :
    ∃ m, Pattern.opening.matchAt? before (t ++ rest) = some m ∧ m.text = t ∧ m.rest = rest ∧
      m.group 0 = decl ∧ (m.group 1).length = level := by
  obtain ⟨indent, line, cr, indent', hindent, hline, hcr, hindent', rfl, rfl⟩ := h
  refine ⟨⟨[(false, indent), (true, declarationWord ++ line),
    (false, cr ++ '\n' :: (indent' ++ ['-', '-', '['])), (true, List.replicate level '='),
    (false, ['['])], rest⟩, ?_, by simp [Match.text], rfl, rfl, by simp [Match.group, Match.groups]⟩
  simp only [Pattern.opening, Part.plain, Part.group, Pattern.matchAt?_cons_iff,
    Pattern.matchAt?_nil_iff]
  refine ⟨indent, _, _, takeAll?_indent_iff.2 ⟨hb, by simp, hindent, ?_⟩,
    ⟨declarationWord ++ line, _, _, takeAll?_declaration_iff.2 ⟨line, rfl, rfl, hline, ?_⟩,
    ⟨cr ++ '\n' :: (indent' ++ ['-', '-', '[']), _, _,
    takeAll?_bracket_iff.2 ⟨cr, indent', hcr, hindent', rfl, rfl⟩,
    ⟨List.replicate level '=', _, _, takeAll?_level_iff.2 ⟨level, rfl, rfl, ?_⟩,
    ⟨['['], rest, _, takeAll?_cons_iff.2 ⟨['['], rest, [], Piece.take?_text_iff.2 ⟨rfl, rfl⟩, by simp,
    rfl⟩, rfl, rfl⟩, rfl⟩, rfl⟩, rfl⟩, rfl⟩
  · simp [declarationWord, isBlank]
  · rcases hcr with rfl | rfl <;> simp
  · simp

theorem atLineStart_iff {past : List Char} :
    AtLineStart past ↔ past.getLast?.all (· == '\n') = true := by
  cases h : past.getLast? <;> simp [AtLineStart, h]

/-- A line starts behind a text that is not empty only if the text ends with a line feed. -/
theorem AtLineStart.exists_eq_append {past u : List Char} (h : AtLineStart (past ++ u))
    (hne : u ≠ []) : ∃ w, u = w ++ ['\n'] := by
  have hlast : u.getLast hne = '\n' :=
    h _ (by simp [List.getLast?_append, List.getLast?_eq_some_getLast hne])
  exact ⟨u.dropLast, by rw [← hlast, List.dropLast_concat_getLast]⟩

/-! ## Openings do not meet -/

/-- Of two ways to cut a text, the one with the longer front part cuts the back part of the other. -/
theorem exists_append_of_append_eq {a b c d : List Char} (h : a ++ b = c ++ d)
    (hlen : a.length ≤ c.length) : ∃ u, c = a ++ u ∧ b = u ++ d := by
  rcases List.append_eq_append_iff.1 h with ⟨u, hc, hb⟩ | ⟨u, ha, hd⟩
  · exact ⟨u, hc, hb⟩
  · have hu : u = [] := by
      have := congrArg List.length ha
      simp only [List.length_append] at this
      exact List.length_eq_zero_iff.1 (by omega)
    subst hu
    exact ⟨[], by simpa using ha.symm, by simpa using hd.symm⟩

/-- A line feed that neither text in front holds is the same one. -/
theorem append_lineFeed_inj {a b c d : List Char} (h : a ++ '\n' :: b = c ++ '\n' :: d)
    (ha : '\n' ∉ a) (hb : '\n' ∉ b) : c = a ∧ d = b := by
  rcases List.append_eq_append_iff.1 h with ⟨u, rfl, hu⟩ | ⟨u, rfl, hu⟩
  · cases u with
    | nil => simpa [eq_comm] using hu
    | cons x u =>
      obtain ⟨-, rfl⟩ : '\n' = x ∧ b = u ++ '\n' :: d := by simpa using hu
      simp at hb
  · cases u with
    | nil => simpa using hu
    | cons x u =>
      obtain ⟨rfl, -⟩ : '\n' = x ∧ d = u ++ '\n' :: b := by simpa using hu
      simp at ha

theorem lineFeed_not_mem_of_blank {s : List Char} (h : ∀ c ∈ s, isBlank c = true) : '\n' ∉ s :=
  fun hmem => absurd (h _ hmem) (by decide)

/-- The only line feed of an opening stands in front of the bracket. -/
theorem IsOpening.split {t decl : List Char} {level : Nat} (h : IsOpening t decl level) :
    ∃ a indent b, t = a ++ '\n' :: (indent ++ '-' :: b) ∧ (∀ c ∈ indent, isBlank c = true) ∧
      '\n' ∉ a ∧ '\n' ∉ indent ++ '-' :: b := by
  obtain ⟨indent, line, cr, indent', hindent, hline, hcr, hindent', rfl, rfl⟩ := h
  refine ⟨indent ++ (declarationWord ++ line ++ cr), indent',
    ['-', '['] ++ (List.replicate level '=' ++ ['[']), by simp, hindent', ?_, ?_⟩
  · have hfree : '\n' ∉ line := fun hmem => (hline _ hmem).2 rfl
    have hcr' : '\n' ∉ cr := by rcases hcr with rfl | rfl <;> simp
    simp [lineFeed_not_mem_of_blank hindent, hfree, hcr', declarationWord]
  · simp [lineFeed_not_mem_of_blank hindent', List.mem_replicate]

/-- An opening is a declaration behind its indentation. -/
theorem IsOpening.exists_indent {t decl : List Char} {level : Nat} (h : IsOpening t decl level) :
    ∃ indent b, t = indent ++ 'r' :: b ∧ ∀ c ∈ indent, isBlank c = true := by
  obtain ⟨indent, line, cr, indent', hindent, -, -, -, rfl, rfl⟩ := h
  exact ⟨indent, _, by simp [declarationWord]; rfl, hindent⟩

/-- An opening ends in front of every later one. -/
theorem OpeningAt.le_of_lt {s decl decl' : List Char} {p q level level' e e' : Nat}
    (h : OpeningAt s p decl level e) (h' : OpeningAt s q decl' level' e') (hlt : p < q) :
    e ≤ q := by
  obtain ⟨past, t, rest, rfl, rfl, -, ht, rfl⟩ := h
  obtain ⟨past', t', rest', hs, rfl, hstart, ht', -⟩ := h'
  obtain ⟨u, rfl, hu⟩ := exists_append_of_append_eq hs (Nat.le_of_lt hlt)
  rcases Nat.lt_or_ge u.length t.length with hlen | hlen
  · exfalso
    obtain ⟨v, rfl, hv⟩ := exists_append_of_append_eq hu.symm (Nat.le_of_lt hlen)
    have hne : u ≠ [] := fun h => by simp [h] at hlt
    -- the later opening starts after the line feed, where a hyphen comes first
    obtain ⟨w, rfl⟩ := hstart.exists_eq_append hne
    obtain ⟨a, indent, b, hsplit, hindent, ha, hb⟩ := ht.split
    have hcut : a ++ '\n' :: (indent ++ '-' :: b) = w ++ '\n' :: v := by simpa using hsplit.symm
    obtain ⟨-, rfl⟩ := append_lineFeed_inj hcut ha hb
    obtain ⟨indent', b', rfl, hindent'⟩ := ht'.exists_indent
    have hdrop := congrArg (List.dropWhile isBlank) hv
    rw [List.append_assoc, List.append_assoc,
      dropWhile_append_of_all hindent' (by simp [isBlank]),
      dropWhile_append_of_all hindent (by simp [isBlank])] at hdrop
    simp at hdrop
  · simpa using hlen

/-- At most one opening stands at an offset. -/
theorem OpeningAt.eq_of_eq {s decl decl' : List Char} {p level level' e e' : Nat}
    (h : OpeningAt s p decl level e) (h' : OpeningAt s p decl' level' e') :
    decl = decl' ∧ level = level' ∧ e = e' := by
  obtain ⟨past, t, rest, rfl, hp, hstart, ht, rfl⟩ := h
  obtain ⟨past', t', rest', hs, hp', -, ht', rfl⟩ := h'
  obtain ⟨rfl, hrest⟩ := List.append_inj hs (hp.trans hp'.symm)
  obtain ⟨m, hm, htext, -, hdecl, hlevel⟩ :=
    exists_matchAt?_of_isOpening rest (atLineStart_iff.1 hstart) ht
  obtain ⟨m', hm', htext', -, hdecl', hlevel'⟩ :=
    exists_matchAt?_of_isOpening rest' (atLineStart_iff.1 hstart) ht'
  rw [← hrest, hm] at hm'
  cases hm'
  exact ⟨hdecl.symm.trans hdecl', hlevel.symm.trans hlevel', by rw [← htext, ← htext']⟩

end RouteDocs.Source
