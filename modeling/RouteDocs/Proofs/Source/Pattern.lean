import RouteDocs.Proofs.Text
import RouteDocs.Source.Pattern

/-!
# What a pattern matches

A piece takes a text exactly if the text has the shape that the piece asks for. So a match can be
read off the pattern, and the leftmost match is the one that no match starts in front of.

## Main statements

* `Piece.take?_run_iff` and its siblings: what each piece takes.
* `Pattern.search?_eq_some_iff`, `Pattern.search?_eq_none_iff`: the leftmost match.
-/

namespace RouteDocs.Source

open Text

variable {before : Option Char} {s a r : List Char}

/-! ## Pieces -/

namespace Piece

theorem take?_lineStart_iff :
    take? before s .lineStart = some (a, r) ↔ before.all (· == '\n') = true ∧ a = [] ∧ s = r := by
  simp [take?]

theorem take?_textStart_iff :
    take? before s .textStart = some (a, r) ↔ before = none ∧ a = [] ∧ s = r := by
  simp [take?]

theorem take?_text_iff {t : List Char} :
    take? before s (.text t) = some (a, r) ↔ a = t ∧ s = t ++ r := by
  simp only [take?, Option.map_eq_some_iff, strip?_eq_some_iff, Prod.mk.injEq]
  constructor
  · rintro ⟨x, rfl, rfl, rfl⟩
    exact ⟨rfl, rfl⟩
  · rintro ⟨rfl, rfl⟩
    exact ⟨r, rfl, rfl, rfl⟩

theorem take?_run_iff {p : Char → Bool} :
    take? before s (.run p) = some (a, r) ↔
      s = a ++ r ∧ (∀ c ∈ a, p c = true) ∧ ∀ c ∈ r.head?, p c = false := by
  simp only [take?, Option.some.injEq, Prod.mk.injEq]
  constructor
  · rintro ⟨rfl, rfl⟩
    refine ⟨List.takeWhile_append_dropWhile.symm, fun c hc => ?_, fun c hc => ?_⟩
    · exact List.all_eq_true.1 List.all_takeWhile c hc
    · have := List.head?_dropWhile_not p s
      simp_all
  · rintro ⟨rfl, ha, hr⟩
    exact ⟨takeWhile_append_of_all ha hr, dropWhile_append_of_all ha hr⟩

theorem take?_optional_iff {c : Char} :
    take? before s (.optional c) = some (a, r) ↔
      s = a ++ r ∧ (a = [c] ∨ a = [] ∧ r.head? ≠ some c) := by
  cases s with
  | nil => grind [take?]
  | cons x s => by_cases hx : x = c <;> grind [take?]

end Piece

/-! ## Sequences of pieces -/

@[simp] theorem takeAll?_nil_iff : takeAll? before [] s = some (a, r) ↔ a = [] ∧ s = r := by
  simp [takeAll?, eq_comm]

theorem takeAll?_cons_iff {piece : Piece} {pieces : List Piece} :
    takeAll? before (piece :: pieces) s = some (a, r) ↔
      ∃ x t y, piece.take? before s = some (x, t) ∧
        takeAll? before pieces t = some (y, r) ∧ a = x ++ y := by
  simp only [takeAll?, bind, pure, Option.bind_eq_some_iff, Prod.exists, Option.some.injEq,
    Prod.mk.injEq]
  constructor
  · rintro ⟨x, t, hx, y, _, hy, rfl, rfl⟩
    exact ⟨x, t, y, hx, hy, rfl⟩
  · rintro ⟨x, t, y, hx, hy, rfl⟩
    exact ⟨x, t, hx, y, r, hy, rfl, rfl⟩

theorem takeAll?_text_iff {t : List Char} :
    takeAll? before [.text t] s = some (a, r) ↔ a = t ∧ s = t ++ r := by
  simp only [takeAll?_cons_iff, takeAll?_nil_iff, Piece.take?_text_iff]
  grind

theorem takeAll?_run_iff {p : Char → Bool} :
    takeAll? before [.run p] s = some (a, r) ↔
      s = a ++ r ∧ (∀ c ∈ a, p c = true) ∧ ∀ c ∈ r.head?, p c = false := by
  simp only [takeAll?_cons_iff, takeAll?_nil_iff, Piece.take?_run_iff]
  grind

namespace Pattern

@[simp] theorem matchAt?_nil_iff {m : Match} :
    matchAt? before [] s = some m ↔ m = ⟨[], s⟩ := by
  simp [matchAt?, eq_comm]

theorem matchAt?_cons_iff {part : Part} {parts : Pattern} {m : Match} :
    matchAt? before (part :: parts) s = some m ↔
      ∃ a t n, takeAll? before part.pieces s = some (a, t) ∧ matchAt? before parts t = some n ∧
        m = { n with parts := (part.captured, a) :: n.parts } := by
  simp only [matchAt?, bind, pure, Option.bind_eq_some_iff, Prod.exists, Option.some.injEq]
  constructor
  · rintro ⟨a, t, ha, n, hn, rfl⟩
    exact ⟨a, t, n, ha, hn, rfl⟩
  · rintro ⟨a, t, n, ha, hn, rfl⟩
    exact ⟨a, t, ha, n, hn, rfl⟩

/-! ## The leftmost match -/

/-- The character in front of the text that is left after `past`. -/
theorem getLast?_cons_or (c : Char) (past : List Char) (before : Option Char) :
    (c :: past).getLast?.or before = past.getLast?.or (some c) := by
  cases past with
  | nil => rfl
  | cons d past => simp [List.getLast?_cons]

theorem search?_eq_some_iff {p : Pattern} {skipped : List Char} {m : Match} :
    p.search? before s = some (skipped, m) ↔
      (∃ t, s = skipped ++ t ∧ p.matchAt? (skipped.getLast?.or before) t = some m) ∧
        ∀ past t, s = past ++ t → past.length < skipped.length →
          p.matchAt? (past.getLast?.or before) t = none := by
  induction s generalizing before skipped with
  | nil =>
    simp only [search?, Option.map_eq_some_iff, Prod.mk.injEq]
    constructor
    · rintro ⟨n, hn, rfl, rfl⟩
      exact ⟨⟨[], rfl, by simpa using hn⟩, by simp⟩
    · rintro ⟨⟨t, ht, hm⟩, -⟩
      obtain ⟨rfl, rfl⟩ : skipped = [] ∧ t = [] := by simpa using ht.symm
      exact ⟨m, by simpa using hm, rfl, rfl⟩
  | cons c s ih =>
    rw [search?]
    cases hc : p.matchAt? before (c :: s) with
    | some n =>
      simp only [Option.some.injEq, Prod.mk.injEq]
      constructor
      · rintro ⟨rfl, rfl⟩
        exact ⟨⟨_, rfl, by simpa using hc⟩, by simp⟩
      · rintro ⟨⟨t, ht, hm⟩, hleft⟩
        cases skipped with
        | nil =>
          obtain rfl : c :: s = t := by simpa using ht
          exact ⟨rfl, Option.some.inj (hc.symm.trans (by simpa using hm))⟩
        | cons d skipped =>
          have hnone := hleft [] (c :: s) rfl (by simp)
          simp [hc] at hnone
    | none =>
      simp only [Option.map_eq_some_iff, Prod.mk.injEq, Prod.exists]
      constructor
      · rintro ⟨x, n, hx, rfl, rfl⟩
        obtain ⟨⟨t, rfl, hm⟩, hleft⟩ := ih.1 hx
        refine ⟨⟨t, rfl, by rwa [getLast?_cons_or]⟩, fun past u hu hlt => ?_⟩
        cases past with
        | nil =>
          obtain rfl : c :: (x ++ t) = u := by simpa using hu
          simpa using hc
        | cons d past =>
          obtain ⟨rfl, htail⟩ : c = d ∧ x ++ t = past ++ u := by simpa using hu
          rw [getLast?_cons_or]
          exact hleft past u htail (by simpa using hlt)
      · rintro ⟨⟨t, ht, hm⟩, hleft⟩
        cases skipped with
        | nil =>
          obtain rfl : c :: s = t := by simpa using ht
          simp [hc] at hm
        | cons d skipped =>
          obtain ⟨rfl, rfl⟩ : c = d ∧ s = skipped ++ t := by simpa using ht
          refine ⟨skipped, m, ih.2 ⟨⟨t, rfl, by rwa [← getLast?_cons_or]⟩, ?_⟩, rfl, rfl⟩
          intro past u hu hlt
          rw [← getLast?_cons_or]
          exact hleft (c :: past) u (by simp [hu]) (by simpa using hlt)

theorem search?_eq_none_iff {p : Pattern} :
    p.search? before s = none ↔
      ∀ past t, s = past ++ t → p.matchAt? (past.getLast?.or before) t = none := by
  induction s generalizing before with
  | nil =>
    simp only [search?, Option.map_eq_none_iff]
    constructor
    · rintro h past t ht
      obtain ⟨rfl, rfl⟩ : past = [] ∧ t = [] := by simpa using ht.symm
      simpa using h
    · intro h
      simpa using h [] [] rfl
  | cons c s ih =>
    rw [search?]
    cases hc : p.matchAt? before (c :: s) with
    | some n =>
      simp only [reduceCtorEq, false_iff]
      intro h
      have hnone := h [] (c :: s) rfl
      simp [hc] at hnone
    | none =>
      simp only [Option.map_eq_none_iff, ih]
      constructor
      · intro h past t ht
        cases past with
        | nil =>
          obtain rfl : c :: s = t := by simpa using ht
          simpa using hc
        | cons d past =>
          obtain ⟨rfl, htail⟩ : c = d ∧ s = past ++ t := by simpa using ht
          rw [getLast?_cons_or]
          exact h past t htail
      · intro h past t ht
        rw [← getLast?_cons_or]
        exact h (c :: past) t (by simp [ht])

end Pattern

end RouteDocs.Source
