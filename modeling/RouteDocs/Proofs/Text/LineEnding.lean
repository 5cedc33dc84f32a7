import RouteDocs.Proofs.Text
import RouteDocs.Text.Lines

/-!
# Line endings

A text whose lines end with a carriage return and a line feed has the same lines as one whose lines
end with a line feed alone. What is cut out of it in front of and behind a fixed text, a class of
characters or white space is what is cut out of the other, with its line endings.

## Main definition

* `Text.withReturns`: the text with a carriage return in front of every line feed.

## Main statements

* `Text.lines_withReturns`: the lines stay as they are.
* `Text.splitAtFirst?_withReturns`, `Text.trimEnd_withReturns`: what is cut out.
-/

namespace RouteDocs.Text

/-- The text with a carriage return in front of every line feed. -/
def withReturns (s : List Char) : List Char :=
  s.flatMap fun c => if c = '\n' then ['\r', '\n'] else [c]

variable {s t : List Char}

@[simp] theorem withReturns_nil : withReturns [] = [] := rfl

@[simp] theorem withReturns_lineFeed : withReturns ('\n' :: s) = '\r' :: '\n' :: withReturns s := rfl

@[simp] theorem withReturns_cons {c : Char} (hc : c ≠ '\n') :
    withReturns (c :: s) = c :: withReturns s := by
  simp [withReturns, hc]

@[simp] theorem withReturns_append : withReturns (s ++ t) = withReturns s ++ withReturns t :=
  List.flatMap_append

theorem withReturns_eq_self (h : '\n' ∉ s) : withReturns s = s := by
  induction s with
  | nil => rfl
  | cons c s ih =>
    rw [withReturns_cons (List.ne_of_not_mem_cons h).symm, ih (List.not_mem_of_not_mem_cons h)]

/-- The last character stays. -/
theorem getLast?_withReturns (s : List Char) : (withReturns s).getLast? = s.getLast? := by
  induction s with
  | nil => rfl
  | cons c s ih =>
    by_cases hc : c = '\n'
    · subst hc
      simp [List.getLast?_cons, ih]
    · simp [hc, List.getLast?_cons, ih]

/-- Nothing is lost: the carriage returns can be taken out again. -/
theorem filter_withReturns (h : '\r' ∉ s) : (withReturns s).filter (· ≠ '\r') = s := by
  induction s with
  | nil => rfl
  | cons c s ih =>
    have hc := List.ne_of_not_mem_cons h
    have hs := ih (List.not_mem_of_not_mem_cons h)
    by_cases hlf : c = '\n'
    · subst hlf
      simpa using hs
    · simpa [hlf, hc.symm] using hs

/-! ## Lines -/

theorem dropReturn_of_getLast?_ne (h : s.getLast? ≠ some '\r') : dropReturn s = s := by
  fun_induction dropReturn s <;> grind

theorem dropReturn_of_not_mem (h : '\r' ∉ s) : dropReturn s = s :=
  dropReturn_of_getLast?_ne fun hlast => h (List.mem_of_getLast? hlast)

theorem dropReturn_append_return (s : List Char) : dropReturn (s ++ ['\r']) = s := by
  induction s with
  | nil => rfl
  | cons c s ih => cases s <;> simp_all [dropReturn]

theorem linesFrom_withReturns {current : List Char} (hcurrent : '\r' ∉ current) (h : '\r' ∉ s) :
    linesFrom current (withReturns s) = linesFrom current s := by
  induction s generalizing current with
  | nil => rfl
  | cons c s ih =>
    have hc := List.ne_of_not_mem_cons h
    have hs := List.not_mem_of_not_mem_cons h
    by_cases hlf : c = '\n'
    · subst hlf
      have hreverse : '\r' ∉ current.reverse := by simpa using hcurrent
      have hnext : linesFrom [] (withReturns s) = linesFrom [] s := ih (by simp) hs
      simp [linesFrom, dropReturn_append_return, dropReturn_of_not_mem hreverse, hnext]
    · rw [withReturns_cons hlf]
      simp only [linesFrom, if_neg hlf]
      exact ih (by simp [hc, hcurrent]) hs

theorem lines_withReturns (h : '\r' ∉ s) : lines (withReturns s) = lines s :=
  linesFrom_withReturns (by simp) h

theorem dedent_withReturns (h : '\r' ∉ s) : dedent (withReturns s) = dedent s := by
  rw [dedent, dedent, lines_withReturns h]

/-! ## Cutting -/

theorem takeWhile_withReturns {p : Char → Bool} (hp : p '\r' = p '\n') (s : List Char) :
    (withReturns s).takeWhile p = withReturns (s.takeWhile p) := by
  induction s with
  | nil => rfl
  | cons c s ih =>
    by_cases hlf : c = '\n'
    · subst hlf
      cases hlf : p '\n' <;> simp [hp, hlf, ih]
    · cases hc : p c <;> simp [hlf, hc, ih]

theorem dropWhile_withReturns {p : Char → Bool} (hp : p '\r' = p '\n') (s : List Char) :
    (withReturns s).dropWhile p = withReturns (s.dropWhile p) := by
  induction s with
  | nil => rfl
  | cons c s ih =>
    by_cases hlf : c = '\n'
    · subst hlf
      cases hlf : p '\n' <;> simp [hp, hlf, ih]
    · cases hc : p c <;> simp [hlf, hc, ih]

/-- A text that is looked for, and that no line ending is part of. -/
def IsInline (p : List Char) : Prop := '\r' ∉ p ∧ '\n' ∉ p

theorem strip?_withReturns {p : List Char} (hp : IsInline p) (s : List Char) :
    strip? p (withReturns s) = (strip? p s).map withReturns := by
  induction p generalizing s with
  | nil => rfl
  | cons x p ih =>
    have hreturn := List.ne_of_not_mem_cons hp.1
    have hfeed := List.ne_of_not_mem_cons hp.2
    have hrest : IsInline p :=
      ⟨List.not_mem_of_not_mem_cons hp.1, List.not_mem_of_not_mem_cons hp.2⟩
    cases s with
    | nil => rfl
    | cons c s =>
      by_cases hlf : c = '\n'
      · subst hlf
        simp [strip?, hreturn.symm, hfeed.symm]
      · rw [withReturns_cons hlf]
        by_cases hx : x = c <;> simp [strip?, hx, ih hrest]

theorem splitAtFirst?_withReturns {p : List Char} (hp : IsInline p) (hne : p ≠ []) (s : List Char) :
    splitAtFirst? p (withReturns s) =
      (splitAtFirst? p s).map fun (a, b) => (withReturns a, withReturns b) := by
  induction s with
  | nil =>
    cases p with
    | nil => exact absurd rfl hne
    | cons x p => rfl
  | cons c s ih =>
    by_cases hlf : c = '\n'
    · subst hlf
      simp only [withReturns_lineFeed, splitAtFirst?, strip?_cons_of_not_mem hne hp.1,
        strip?_cons_of_not_mem hne hp.2, ih]
      cases splitAtFirst? p s <;> simp
    · have hstrip := strip?_withReturns hp (c :: s)
      rw [withReturns_cons hlf] at hstrip ⊢
      rw [splitAtFirst?, splitAtFirst?, hstrip, ih]
      cases strip? p (c :: s) <;> cases splitAtFirst? p s <;> simp [hlf]

/-! ## Trimming -/

theorem all_isSpace_withReturns (h : ∀ c ∈ s, isSpace c = true) :
    ∀ c ∈ withReturns s, isSpace c = true := by
  intro c hc
  obtain ⟨d, hd, hc⟩ := List.mem_flatMap.1 hc
  split at hc
  · simp only [List.mem_cons, List.not_mem_nil, or_false] at hc
    rcases hc with rfl | rfl <;> decide
  · cases List.mem_singleton.1 hc
    exact h c hd

theorem trimEnd_withReturns (s : List Char) : trimEnd (withReturns s) = withReturns (trimEnd s) := by
  obtain ⟨t, hs, ht, hsolid⟩ := exists_append_trimEnd s
  refine trimEnd_eq_iff.2 ⟨withReturns t, ?_, all_isSpace_withReturns ht, ?_⟩
  · rw [← withReturns_append, ← hs]
  · rwa [EndsSolid, getLast?_withReturns]

theorem stripEnd?_withReturns {p : List Char} (hp : IsInline p) (h : '\r' ∉ s) :
    stripEnd? p (withReturns s) = (stripEnd? p s).map withReturns := by
  cases hs : stripEnd? p s with
  | some t =>
    have hself := withReturns_eq_self hp.2
    rw [stripEnd?_eq_some_iff] at hs
    exact stripEnd?_eq_some_iff.2 (by rw [hs, withReturns_append, hself])
  | none =>
    rw [stripEnd?_eq_none_iff] at hs
    refine stripEnd?_eq_none_iff.2 fun ⟨t, ht⟩ => hs ⟨t.filter (· ≠ '\r'), ?_⟩
    have hkeep : p.filter (· ≠ '\r') = p := List.filter_eq_self.2 fun c hc => by
      simpa using ne_of_mem_of_not_mem hc hp.1
    rw [← filter_withReturns h, ← ht, List.filter_append, hkeep]

end RouteDocs.Text
