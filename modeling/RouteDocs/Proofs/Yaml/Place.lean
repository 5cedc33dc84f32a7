import RouteDocs.Proofs.Text
import RouteDocs.Yaml.Place
import RouteDocs.Yaml.Printer.Scalar

/-!
# Moving through a YAML text

## Main definitions

* `StartsToken`: what stands in front is neither white space nor a comment.

## Main statements

* `Place.skipToToken_spaces`, `Place.skipToToken_lineFeed`: on the way to the next token there is
  the rest of a line or the indentation of the next one.
* `Place.breaksAfter?_spaces`, `Place.breaksAfter?_break`: the same inside scalars.
-/

namespace RouteDocs.Yaml

open Text (isBlank)

/-- The text is at its end, or it starts with what is neither white space nor a comment. -/
def StartsToken (s : List Char) : Prop :=
  ∀ c ∈ s.head?, isBlank c = false ∧ isBreak c = false ∧ c ≠ '#' ∧ c ≠ byteOrderMark

/-- The text is at its end, or it starts with what is no white space. -/
def StartsSolid (s : List Char) : Prop := ∀ c ∈ s.head?, isBlank c = false ∧ isBreak c = false

theorem startsToken_cons {c : Char}
    (hc : isBlank c = false ∧ isBreak c = false ∧ c ≠ '#' ∧ c ≠ byteOrderMark) (s : List Char) :
    StartsToken (c :: s) := by
  intro d hd
  obtain rfl : c = d := Option.some.inj hd
  exact hc

theorem StartsToken.solid {s : List Char} (h : StartsToken s) : StartsSolid s :=
  fun c hc => ⟨(h c hc).1, (h c hc).2.1⟩

theorem isBlank_eq_false_of_isBreak {c : Char} (h : isBreak c = true) : isBlank c = false := by
  simp only [isBreak, Bool.or_eq_true, beq_iff_eq] at h
  rcases h with (((rfl | rfl) | rfl) | rfl) | rfl <;> rfl

/-- There are no tabs among the characters that are written as they are. -/
theorem isBlank_eq_false_of_ne {c : Char} (hprint : isPrintable c = true) (hc : c ≠ ' ') :
    isBlank c = false := by
  simp only [isBlank, Bool.or_eq_false_iff, beq_eq_false_iff_ne]
  refine ⟨hc, ?_⟩
  rintro rfl
  cases hprint

/-- A break that is written as it is stands for itself. -/
theorem breakValue_of_isPrintable {c : Char} (hprint : isPrintable c = true)
    (hbreak : isBreak c = true) : breakValue c = c ∧ c ≠ '\r' := by
  simp only [isBreak, Bool.or_eq_true, beq_iff_eq] at hbreak
  rcases hbreak with (((rfl | rfl) | rfl) | rfl) | rfl
  · cases hprint
  · exact ⟨rfl, by decide⟩
  · cases hprint
  · exact ⟨rfl, by decide⟩
  · exact ⟨rfl, by decide⟩

@[simp] theorem length_spaces (n : Nat) : (spaces n).length = n := List.length_replicate

theorem eq_space_of_mem_spaces {n : Nat} {c : Char} (h : c ∈ spaces n) : c = ' ' :=
  List.eq_of_mem_replicate h

namespace Place

@[simp] theorem rest_skip (p : Place) (n : Nat) : (p.skip n).rest = p.rest.drop n := rfl

@[simp] theorem line_skip (p : Place) (n : Nat) : (p.skip n).line = p.line := rfl

@[simp] theorem column_skip (p : Place) (n : Nat) : (p.skip n).column = p.column + n := rfl

@[simp] theorem index_skip (p : Place) (n : Nat) : (p.skip n).index = p.index + n := rfl

@[simp] theorem skip_zero (p : Place) : p.skip 0 = p := rfl

@[simp] theorem skip_skip (p : Place) (m n : Nat) : (p.skip m).skip n = p.skip (m + n) := by
  simp [skip, Nat.add_assoc]

theorem atDocumentMark_of_column_ne {p : Place} (h : p.column ≠ 0) : p.atDocumentMark = false := by
  simp [atDocumentMark, h]

theorem exists_of_atDocumentMark {p : Place} (h : p.atDocumentMark = true) :
    ∃ c s, p.rest = c :: c :: c :: s ∧ (c = '-' ∨ c = '.') := by
  unfold atDocumentMark at h
  split at h
  · simp only [Bool.and_eq_true, Bool.or_eq_true, beq_iff_eq] at h
    obtain ⟨-, ⟨⟨rfl, rfl⟩, hc⟩, -⟩ := h
    rename_i heq
    exact ⟨_, _, heq, hc⟩
  · simp at h

theorem atDocumentMark_of_ne {p : Place} {c : Char} {r : List Char} (hp : p.rest = c :: r)
    (hdash : c ≠ '-') (hpoint : c ≠ '.') : p.atDocumentMark = false := by
  apply Bool.eq_false_iff.2
  intro h
  obtain ⟨d, s, hrest, hd⟩ := exists_of_atDocumentMark h
  cases hp.symm.trans hrest
  exact hd.elim hdash hpoint

theorem atDocumentMark_of_head?_ne {p : Place} {c : Char} {r : List Char} (hp : p.rest = c :: r)
    (hc : r.head? ≠ some c) : p.atDocumentMark = false := by
  apply Bool.eq_false_iff.2
  intro h
  obtain ⟨d, s, hrest, -⟩ := exists_of_atDocumentMark h
  cases hp.symm.trans hrest
  exact hc rfl

theorem skipWhile_append {p : Place} {q : Char → Bool} {a s : List Char} (hp : p.rest = a ++ s)
    (ha : ∀ c ∈ a, q c = true) (hs : ∀ c ∈ s.head?, q c = false) :
    p.skipWhile q = p.skip a.length := by
  rw [skipWhile, hp, Text.takeWhile_append_of_all ha hs]

theorem nextLine_of_ne {p : Place} {c : Char} {s : List Char} (hp : p.rest = c :: s)
    (hc : c ≠ '\r') : p.nextLine = ⟨s, p.line + 1, 0, p.index + 1⟩ := by
  unfold nextLine
  rw [hp]
  split
  · rename_i heq
    cases heq
    exact absurd rfl hc
  · rfl

/-! ## To the next token -/

theorem atBreak_of_startsSolid {p : Place} (h : StartsSolid p.rest) : p.atBreak = false := by
  cases hr : p.rest with
  | nil => simp [atBreak, hr]
  | cons c s => simp [atBreak, hr, (h c (by simp [hr])).2]

theorem skipComment_of_startsToken {p : Place} (h : StartsToken p.rest) : p.skipComment = p := by
  apply if_neg
  intro hc
  exact (h '#' hc).2.2.1 rfl

theorem skipByteOrderMark_of_ne {p : Place} (h : ∀ c ∈ p.rest.head?, c ≠ byteOrderMark) :
    p.skipByteOrderMark = p := by
  apply if_neg
  intro hc
  simp only [Bool.and_eq_true, decide_eq_true_eq] at hc
  exact h _ hc.2 rfl

theorem head?_spaces_append {n : Nat} {s : List Char} {c : Char} (h : c ∈ (spaces n ++ s).head?) :
    c = ' ' ∨ c ∈ s.head? := by
  cases n with
  | zero => exact .inr h
  | succ n => exact .inl (Option.some.inj h).symm

theorem skipToToken_spaces {p : Place} {n : Nat} {s : List Char} (hp : p.rest = spaces n ++ s)
    (h : StartsToken s) (inFlow keyAllowed : Bool) :
    p.skipToToken inFlow keyAllowed = (p.skip n, keyAllowed) := by
  have hmark : p.skipByteOrderMark = p := by
    apply skipByteOrderMark_of_ne
    intro c hc
    rw [hp] at hc
    rcases head?_spaces_append hc with rfl | hc
    · decide
    · exact (h c hc).2.2.2
  have hblanks : p.skipWhile (fun c => c == ' ' || ((inFlow || !keyAllowed) && c == '\t')) =
      p.skip n := by
    refine (skipWhile_append hp ?_ ?_).trans (by simp [spaces])
    · intro c hc
      simp [eq_space_of_mem_spaces hc]
    · intro c hc
      have hblank := (h c hc).1
      simp only [isBlank, Bool.or_eq_false_iff] at hblank
      simp [hblank]
  have hrest : (p.skip n).rest = s := by simp [hp, spaces]
  rw [skipToToken, hmark, hblanks, skipComment_of_startsToken (hrest ▸ h)]
  simp [atBreak_of_startsSolid (hrest ▸ h.solid : StartsSolid (p.skip n).rest)]

theorem skipToToken_of_startsToken {p : Place} (h : StartsToken p.rest) (inFlow keyAllowed : Bool) :
    p.skipToToken inFlow keyAllowed = (p, keyAllowed) :=
  skipToToken_spaces (n := 0) rfl h inFlow keyAllowed

theorem skipToToken_lineFeed {p : Place} {n : Nat} {s : List Char}
    (hp : p.rest = '\n' :: (spaces n ++ s)) (h : StartsToken s) (keyAllowed : Bool) :
    p.skipToToken false keyAllowed = (⟨s, p.line + 1, n, p.index + 1 + n⟩, true) := by
  have hmark : p.skipByteOrderMark = p := by
    apply skipByteOrderMark_of_ne
    intro c hc
    rw [hp] at hc
    cases hc
    decide
  have hblanks : p.skipWhile (fun c => c == ' ' || ((false || !keyAllowed) && c == '\t')) = p := by
    refine (skipWhile_append (a := []) hp (by simp) ?_).trans (skip_zero p)
    intro c hc
    cases hc
    simp
  have hcomment : p.skipComment = p := if_neg (by simp [hp])
  have hnext := nextLine_of_ne hp (by decide)
  have hbreak : p.atBreak = true := by simp [atBreak, hp, isBreak]
  have hlength : p.nextLine.rest.length < p.rest.length := by simp [hnext, hp]
  have hafter : p.nextLine.skipToToken false true = (p.nextLine.skip n, true) :=
    skipToToken_spaces (by simp [hnext]) h false true
  rw [skipToToken, hmark, hblanks, hcomment, if_pos ⟨hbreak, hlength⟩, Bool.not_false,
    Bool.or_true, hafter, hnext]
  simp [skip, spaces]

/-! ## Inside scalars -/

/-- The indentation of a line inside a scalar. -/
theorem breaksAfter?_spaces {p : Place} {n : Nat} {s : List Char} (hp : p.rest = spaces n ++ s)
    (h : StartsSolid s) (indent : Nat) : p.breaksAfter? indent = some ([], p.skip n) := by
  induction n generalizing p with
  | zero =>
    rw [breaksAfter?]
    cases hs : s with
    | nil => simp [hp, hs, spaces]
    | cons c r =>
      have hc := h c (by simp [hs])
      simp [hp, hs, spaces, hc]
  | succ n ih =>
    have hrest : p.rest = ' ' :: (spaces n ++ s) := by simp [hp, spaces, List.replicate_succ]
    have hafter := ih (p := p.skip 1) (by simp [hrest])
    rw [breaksAfter?]
    simp [hrest, isBlank, hafter, Nat.add_comm]

/-- A break inside a scalar. -/
theorem breaksAfter?_break {p : Place} {c : Char} {s : List Char} (hp : p.rest = c :: s)
    (hc : isBreak c = true) (hr : c ≠ '\r') (indent : Nat) :
    p.breaksAfter? indent =
      (breaksAfter? indent ⟨s, p.line + 1, 0, p.index + 1⟩).map
        fun r => (breakValue c :: r.1, r.2) := by
  have hblank := isBlank_eq_false_of_isBreak hc
  rw [breaksAfter?]
  simp [hp, hblank, hc, nextLine_of_ne hp hr]

/-- Spaces between two words. -/
theorem gap?_spaces {p : Place} {n : Nat} {s : List Char} (hp : p.rest = spaces n ++ s)
    (h : StartsSolid s) (indent : Nat) :
    p.gap? indent = some ({ blanks := spaces n }, p.skip n) := by
  have hall : ∀ c ∈ spaces n, isBlank c = true := by
    intro c hc
    rw [eq_space_of_mem_spaces hc]
    rfl
  have hsolid : ∀ c ∈ s.head?, isBlank c = false := fun c hc => (h c hc).1
  have hskip : p.skipWhile isBlank = p.skip n := by
    rw [skipWhile_append hp hall hsolid]
    simp [spaces]
  have hbreak : (p.skip n).atBreak = false := by
    apply atBreak_of_startsSolid
    simpa [hp, spaces] using h
  have hblanks : p.rest.takeWhile isBlank = spaces n := by
    rw [hp, Text.takeWhile_append_of_all hall hsolid]
  simp [gap?, hskip, hbreak, hblanks]

/-- Breaks between two words. -/
theorem gap?_break {p : Place} {c : Char} {s : List Char} (hp : p.rest = c :: s)
    (hc : isBreak c = true) (indent : Nat) :
    p.gap? indent = (p.breaksAfter? indent).map fun r => ({ breaks := r.1 }, r.2) := by
  have hskip : p.skipWhile isBlank = p.skip ([] : List Char).length := by
    apply skipWhile_append hp (by simp)
    intro d hd
    cases hd
    exact isBlank_eq_false_of_isBreak hc
  have hbreak : p.atBreak = true := by simp [atBreak, hp, hc]
  simp [gap?, hskip, hbreak]

theorem breaksAfter?_lineFeed {p : Place} {n : Nat} {s : List Char}
    (hp : p.rest = '\n' :: (spaces n ++ s)) (h : StartsSolid s) (indent : Nat) :
    p.breaksAfter? indent = some (['\n'], ⟨s, p.line + 1, n, p.index + 1 + n⟩) := by
  rw [breaksAfter?_break hp rfl (by decide), breaksAfter?_spaces rfl h]
  simp [skip, spaces, breakValue]

end Place

end RouteDocs.Yaml
