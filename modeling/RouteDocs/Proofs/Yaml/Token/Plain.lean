import RouteDocs.Proofs.Yaml.Place
import RouteDocs.Yaml.Token.Plain

/-!
# Plain scalars read back

A string that is written plain is a sequence of words with spaces between them. It is read word by
word, up to what ends its line or its key.

## Main definitions

* `Words`: one or more words with spaces between them.
* `PlainEnd`: where a plain scalar ends, and whether that is on a new line.

## Main statements

* `words_of_plainAllowed`: what may be written plain is a sequence of words.
* `plainScalar?_plainAllowed`: it is read as a plain scalar.
-/

namespace RouteDocs.Yaml

open Text (isBlank)

/-! ## Words -/

/-- One or more characters without white space, the last of which is no colon. -/
structure IsWord (a : List Char) : Prop where
  ne_nil : a ≠ []
  solid : ∀ c ∈ a, isBlank c = false ∧ isBreak c = false
  getLast?_ne : a.getLast? ≠ some ':'

/-- Words with spaces between them. None but the first starts with a number sign. -/
inductive Words : List Char → Prop
  | word {a : List Char} (ha : IsWord a) : Words a
  | cons {a w : List Char} (ha : IsWord a) (n : Nat) (hw : Words w) (hhash : w.head? ≠ some '#') :
    Words (a ++ (spaces (n + 1) ++ w))

theorem IsWord.cons {c : Char} {a : List Char} (hc : isBlank c = false ∧ isBreak c = false)
    (ha : IsWord a) : IsWord (c :: a) where
  ne_nil := by simp
  solid := List.forall_mem_cons.2 ⟨hc, ha.solid⟩
  getLast?_ne := by
    rw [List.getLast?_cons_of_ne_nil ha.ne_nil]
    exact ha.getLast?_ne

theorem isWord_singleton {c : Char} (hc : isBlank c = false ∧ isBreak c = false) (h : c ≠ ':') :
    IsWord [c] where
  ne_nil := by simp
  solid := by simpa using hc
  getLast?_ne := by simpa using h

theorem Words.cons_char {c : Char} {w : List Char} (hc : isBlank c = false ∧ isBreak c = false)
    (hw : Words w) : Words (c :: w) := by
  cases hw with
  | word ha => exact .word (ha.cons hc)
  | cons ha n hw hhash => exact .cons (ha.cons hc) n hw hhash

theorem Words.ne_nil {w : List Char} (hw : Words w) : w ≠ [] := by
  cases hw with
  | word ha => exact ha.ne_nil
  | cons ha n hw hhash => simp [ha.ne_nil]

/-- Without indicators the text is a sequence of words, or spaces and then one. The text is taken
apart from its front; `before` is the character in front of it. -/
theorem words_of_hasIndicator {before : Char} {s : List Char} (hs : s ≠ [])
    (hline : ∀ c ∈ s, isPrintable c = true ∧ isBreak c = false)
    (hindicator : hasIndicator before s = false) (hlast : s.getLast? ≠ some ' ') :
    (s.head? ≠ some ' ' → Words s) ∧
      (s.head? = some ' ' → ∃ n w, s = spaces (n + 1) ++ w ∧ Words w ∧ w.head? ≠ some '#') := by
  induction s generalizing before with
  | nil => exact absurd rfl hs
  | cons c s ih =>
    obtain ⟨⟨hprint, hbreak⟩, hline⟩ := List.forall_mem_cons.1 hline
    simp only [hasIndicator, Bool.or_eq_false_iff, Bool.and_eq_false_iff] at hindicator
    obtain ⟨⟨hcolon, hhash⟩, hrest⟩ := hindicator
    rcases List.eq_nil_or_concat s with rfl | ⟨_, _, hconcat⟩
    · have hc : c ≠ ' ' := by simpa using hlast
      have hword : c ≠ ':' := by simpa [atBlankOrEnd] using hcolon
      have hsolid : isBlank c = false ∧ isBreak c = false := ⟨isBlank_eq_false_of_ne hprint hc, hbreak⟩
      exact ⟨fun _ => .word (isWord_singleton hsolid hword), fun h => absurd (Option.some.inj h) hc⟩
    · have hne : s ≠ [] := by simp [hconcat]
      have hlast' : s.getLast? ≠ some ' ' := by rwa [List.getLast?_cons_of_ne_nil hne] at hlast
      obtain ⟨hword, hspaces⟩ := ih hne hline hrest hlast'
      obtain ⟨d, r, rfl⟩ := List.exists_cons_of_ne_nil hne
      simp only [hasIndicator, Bool.or_eq_false_iff, Bool.and_eq_false_iff] at hrest
      by_cases hc : c = ' '
      · subst hc
        refine ⟨fun h => absurd rfl h, fun _ => ?_⟩
        by_cases hd : d = ' '
        · obtain ⟨n, w, hw, hwords⟩ := hspaces (by simp [hd])
          exact ⟨n + 1, w, by simp [hw, spaces, List.replicate_succ], hwords⟩
        · refine ⟨0, d :: r, rfl, hword (by simpa using hd), ?_⟩
          simpa [isBlank] using hrest.1.2
      · refine ⟨fun _ => ?_, fun h => absurd (Option.some.inj h) hc⟩
        have hsolid : isBlank c = false ∧ isBreak c = false := ⟨isBlank_eq_false_of_ne hprint hc, hbreak⟩
        by_cases hd : d = ' '
        · obtain ⟨n, w, hw, hwords, hhash⟩ := hspaces (by simp [hd])
          have hcolon : c ≠ ':' := by simpa [hd, atBlankOrEnd, isBlank] using hcolon
          rw [hw]
          exact .cons (isWord_singleton hsolid hcolon) n hwords hhash
        · exact (hword (by simpa using hd)).cons_char hsolid

/-- How a text starts that may be written plain. -/
structure PlainStart (c : Char) (r : List Char) : Prop where
  notLeading : isLeadingIndicator c = false
  followed : c = '?' ∨ c = ':' ∨ c = '-' → atBlankOrEnd r = false
  notDashes : ∀ t, c = '-' → r = '-' :: '-' :: t → False
  notPoints : ∀ t, c = '.' → r = '.' :: '.' :: t → False

theorem plainStart_of_misread {s : List Char} (h : misread s = false) :
    ∃ c r, s = c :: r ∧ PlainStart c r ∧ hasIndicator c r = false := by
  unfold misread at h
  split at h
  · cases h
  · cases h
  · cases h
  · rename_i c r hdashes hpoints
    simp only [Bool.or_eq_false_iff, Bool.and_eq_false_iff, beq_eq_false_iff_ne] at h
    obtain ⟨⟨hleading, hfollowed⟩, hindicator⟩ := h
    refine ⟨c, r, rfl, ⟨hleading, fun hc => ?_, hdashes, hpoints⟩, hindicator⟩
    rcases hfollowed with ⟨⟨h₁, h₂⟩, h₃⟩ | hfollowed
    · rcases hc with hc | hc | hc
      · exact absurd hc h₁
      · exact absurd hc h₂
      · exact absurd hc h₃
    · exact hfollowed

theorem PlainStart.ne_hash {c : Char} {r : List Char} (h : PlainStart c r) : c ≠ '#' := by
  rintro rfl
  have := h.notLeading
  contradiction

theorem PlainStart.followed_append {c : Char} {r : List Char} (h : PlainStart c r)
    (hc : c = '?' ∨ c = ':' ∨ c = '-') (t : List Char) : atBlankOrEnd (r ++ t) = false := by
  have hr := h.followed hc
  cases r with
  | nil => cases hr
  | cons d r => exact hr

/-- A plain key does not start a document mark. -/
theorem PlainStart.atDocumentMark {c : Char} {r t : List Char} {p : Place} (h : PlainStart c r)
    (hp : p.rest = c :: (r ++ ':' :: t)) : p.atDocumentMark = false := by
  apply Bool.eq_false_iff.2
  intro hmark
  obtain ⟨d, s, hrest, hd⟩ := Place.exists_of_atDocumentMark hmark
  obtain ⟨rfl, hr⟩ := List.cons.inj (hp.symm.trans hrest)
  match r, hr with
  | [], hr =>
    cases hr
    simp at hd
  | [e], hr =>
    cases hr
    simp at hd
  | e :: f :: r, hr =>
    obtain ⟨rfl, hr⟩ := List.cons.inj hr
    obtain ⟨rfl, -⟩ := List.cons.inj hr
    rcases hd with rfl | rfl
    · exact h.notDashes r rfl rfl
    · exact h.notPoints r rfl rfl

theorem isPrintable_of_plainAllowed {s : List Char} (h : plainAllowed s = true) :
    ∀ c ∈ s, isPrintable c = true ∧ isBreak c = false := by
  simp only [plainAllowed, Bool.and_eq_true, Bool.not_eq_true'] at h
  obtain ⟨⟨⟨⟨-, hbreak⟩, hspecial⟩, -⟩, -⟩ := h
  intro c hc
  exact ⟨by simpa using List.any_eq_false.1 hspecial c hc,
    by simpa using List.any_eq_false.1 hbreak c hc⟩

/-- What a text is that may be written plain. -/
theorem words_of_plainAllowed {s : List Char} (h : plainAllowed s = true) :
    Words s ∧ ∃ c r, s = c :: r ∧ PlainStart c r := by
  have hline := isPrintable_of_plainAllowed h
  simp only [plainAllowed, Bool.and_eq_true, Bool.not_eq_true', bne_iff_ne] at h
  obtain ⟨⟨⟨⟨hmisread, -⟩, -⟩, hhead⟩, hlast⟩ := h
  obtain ⟨c, r, rfl, hstart, hindicator⟩ := plainStart_of_misread hmisread
  refine ⟨?_, c, r, rfl, hstart⟩
  have hcolon : c = ':' → atBlankOrEnd r = false := fun hc => hstart.followed (.inr (.inl hc))
  have hindicator' : hasIndicator ' ' (c :: r) = false := by
    have hhash := hstart.ne_hash
    by_cases hc : c = ':'
    · simp [hasIndicator, hindicator, hhash, hcolon hc]
    · simp [hasIndicator, hindicator, hhash, hc]
  exact (words_of_hasIndicator (by simp) hline hindicator' hlast).1 hhead

/-! ## Reading words -/

/-- A word ends in front of white space, in front of a colon that ends a key, and at the end. -/
def EndsWord : List Char → Prop
  | [] => True
  | c :: s => isBlank c = true ∨ isBreak c = true ∨ (c = ':' ∧ atBlankOrEnd s = true)

theorem plainWord?_append {a t : List Char} (ha : IsWord a) (ht : EndsWord t) :
    plainWord? false (a ++ t) = some a := by
  obtain ⟨-, hsolid, hlast⟩ := ha
  induction a with
  | nil =>
    cases t with
    | nil => rfl
    | cons c s =>
      rw [List.nil_append, plainWord?]
      rcases ht with hc | hc | ⟨rfl, hs⟩
      · simp [hc]
      · simp [hc]
      · simp [hs]
  | cons c a ih =>
    obtain ⟨⟨hblank, hbreak⟩, htail⟩ := List.forall_mem_cons.1 hsolid
    have hnext : (c == ':' && atBlankOrEnd (a ++ t)) = false := by
      apply Bool.eq_false_iff.2
      intro h
      simp only [Bool.and_eq_true, beq_iff_eq] at h
      obtain ⟨rfl, hend⟩ := h
      cases a with
      | nil => simp at hlast
      | cons d a =>
        have hd := htail d List.mem_cons_self
        simp [atBlankOrEnd, hd] at hend
    have hlast' : a.getLast? ≠ some ':' := by
      cases a with
      | nil => simp
      | cons d a => simpa using hlast
    have hword := ih htail hlast'
    by_cases hc : (c == ':') = true
    · rw [hc, Bool.true_and] at hnext
      simp [plainWord?, hblank, hbreak, hword, hc, hnext]
    · simp [plainWord?, hblank, hbreak, hword, hc]

/-- Where a plain scalar ends, whose last word ends at `q`, and whether that is on a new line. -/
inductive PlainEnd (indent : Nat) (q : Place) : Place → Bool → Prop
  | key {s : List Char} (hq : q.rest = ':' :: s) (hs : atBlankOrEnd s = true) :
    PlainEnd indent q q false
  | line {n : Nat} {s : List Char} (hq : q.rest = '\n' :: (spaces n ++ s)) (hs : StartsSolid s)
    (hn : n < indent) : PlainEnd indent q ⟨s, q.line + 1, n, q.index + 1 + n⟩ true
  | text (hq : q.rest = []) : PlainEnd indent q q false

theorem PlainEnd.endsWord {indent : Nat} {q e : Place} {fresh : Bool}
    (h : PlainEnd indent q e fresh) : EndsWord q.rest := by
  cases h with
  | key hq hs =>
    rw [hq]
    exact .inr (.inr ⟨rfl, hs⟩)
  | line hq hs hn =>
    rw [hq]
    exact .inr (.inl rfl)
  | text hq =>
    rw [hq]
    trivial

theorem PlainEnd.length_le {indent : Nat} {q e : Place} {fresh : Bool}
    (h : PlainEnd indent q e fresh) : e.rest.length ≤ q.rest.length := by
  cases h with
  | key | text => exact Nat.le_refl _
  | line hq hs hn =>
    simp only [hq, List.length_cons, List.length_append]
    omega

/-- What happens after a word. -/
theorem plainRest?_word {a : List Char} {p : Place} (ha : IsWord a) (hhash : a.head? ≠ some '#')
    (hp : a <+: p.rest) (hmark : p.atDocumentMark = false)
    (hend : EndsWord (p.skip a.length).rest) (indent : Nat) (gap : Gap) :
    plainRest? false indent gap p =
      if !atBlank (p.skip a.length).rest then some (gap.folded ++ a, p.skip a.length, false)
      else
        ((p.skip a.length).gap? indent).bind fun x =>
          if x.2.column < indent then some (gap.folded ++ a, x.2, !x.1.breaks.isEmpty)
          else if x.2.rest.length < p.rest.length then
            (plainRest? false indent x.1 x.2).bind fun y => some (gap.folded ++ a ++ y.1, y.2)
          else none := by
  obtain ⟨t, ht⟩ := hp
  have hword : plainWord? false (a ++ t) = some a :=
    plainWord?_append ha (by simpa [← ht] using hend)
  have hhash' : (p.rest.head? == some '#') = false := by
    obtain ⟨c, a, rfl⟩ := List.exists_cons_of_ne_nil ha.ne_nil
    simpa [← ht] using hhash
  have hne : a.isEmpty = false := by simp [ha.ne_nil]
  rw [plainRest?, hmark, hhash']
  simp only [Bool.or_self, ← ht, hword, Option.bind_eq_bind, Option.bind_some, hne,
    Bool.false_eq_true, if_false, Bool.not_false, Bool.true_and, decide_eq_true_eq]
  rfl

theorem startsSolid_words {w : List Char} (hw : Words w) (t : List Char) :
    StartsSolid (w ++ t) := by
  obtain ⟨c, a, hca, hc⟩ : ∃ c a, w = c :: a ∧ isBlank c = false ∧ isBreak c = false := by
    cases hw with
    | word ha =>
      obtain ⟨c, a, rfl⟩ := List.exists_cons_of_ne_nil ha.ne_nil
      exact ⟨c, a, rfl, ha.solid c List.mem_cons_self⟩
    | cons ha n hw hhash =>
      obtain ⟨c, a, rfl⟩ := List.exists_cons_of_ne_nil ha.ne_nil
      exact ⟨c, _, rfl, ha.solid c List.mem_cons_self⟩
  intro d hd
  rw [hca] at hd
  cases hd
  exact hc

/-- A sequence of words is read up to the end of its line, of its key or of the text. -/
theorem plainRest?_words {indent : Nat} {w : List Char} {gap : Gap} {p e : Place} {fresh : Bool}
    (hw : Words w) (hhash : w.head? ≠ some '#') (hp : w <+: p.rest)
    (hmark : p.atDocumentMark = false) (hcolumn : indent ≤ p.column + 1)
    (he : PlainEnd indent (p.skip w.length) e fresh) :
    plainRest? false indent gap p = some (gap.folded ++ w, e, fresh) := by
  induction hw generalizing p gap with
  | @word a ha =>
    rw [plainRest?_word ha hhash hp hmark he.endsWord]
    cases he with
    | key hq hs =>
      have hblank : atBlank (p.skip a.length).rest = false := by
        rw [hq]
        rfl
      rw [hblank]
      rfl
    | line hq hs hn =>
      have hblank : atBlank (p.skip a.length).rest = true := by
        rw [hq]
        rfl
      rw [hblank, Place.gap?_break hq rfl, Place.breaksAfter?_lineFeed hq hs]
      simp [hn]
    | text hq =>
      have hblank : atBlank (p.skip a.length).rest = false := by
        rw [hq]
        rfl
      rw [hblank]
      rfl
  | @cons a w ha n hw hhash' ih =>
    obtain ⟨t, ht⟩ := hp
    have hrest : (p.skip a.length).rest = spaces (n + 1) ++ (w ++ t) := by simp [← ht]
    have hblank : atBlank (p.skip a.length).rest = true := by
      rw [hrest]
      rfl
    have hhead : a.head? ≠ some '#' := by
      obtain ⟨c, a, rfl⟩ := List.exists_cons_of_ne_nil ha.ne_nil
      exact hhash
    have hend : EndsWord (p.skip a.length).rest := by
      rw [hrest]
      exact .inl rfl
    have hpos : 0 < a.length := List.length_pos_iff.2 ha.ne_nil
    -- the next word stands right of the first column, so the scalar goes on
    have hnext : (p.skip (a.length + (n + 1))).rest = w ++ t := by simp [← ht, spaces]
    have hright : ¬p.column + (a.length + (n + 1)) < indent := by omega
    have hlength : p.rest.length - (a.length + (n + 1)) < p.rest.length := by
      have hrest := congrArg List.length ht
      simp only [List.length_append] at hrest
      omega
    have hlater : (p.skip (a.length + (n + 1))).atDocumentMark = false :=
      Place.atDocumentMark_of_column_ne (by simp)
    have hword : plainRest? false indent { blanks := spaces (n + 1) } _ = _ :=
      ih hhash' ⟨t, hnext.symm⟩ hlater (by simp; omega) (by simpa [spaces, Nat.add_assoc] using he)
    rw [plainRest?_word ha hhead ⟨_, by simpa using ht⟩ hmark hend, hblank,
      Place.gap?_spaces hrest (startsSolid_words hw t)]
    simp [hword, hright, hlength, Gap.folded]

/-- What may be written plain is read as a plain scalar, up to its end. -/
theorem plainScalar?_plainAllowed {indent : Nat} {w : List Char} {p e : Place} {fresh : Bool}
    (hw : plainAllowed w = true) (hp : w <+: p.rest) (hmark : p.atDocumentMark = false)
    (hcolumn : indent ≤ p.column + 1) (he : PlainEnd indent (p.skip w.length) e fresh) :
    plainScalar? false indent p = some (w, e, fresh) := by
  obtain ⟨hwords, c, r, rfl, hstart⟩ := words_of_plainAllowed hw
  exact plainRest?_words hwords (by simpa using hstart.ne_hash) hp hmark hcolumn he

end RouteDocs.Yaml
