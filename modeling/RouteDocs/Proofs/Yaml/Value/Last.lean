import RouteDocs.Proofs.Dict
import RouteDocs.Proofs.Yaml.Value.Repeated

/-!
# The last of several entries

Of entries for the same thing the last one counts, so it matters how a merge moves entries. Where the
merge key is taken out, the last entry of all comes to stand in its place. What the merge brings in
stands behind all entries that were there.

## Main definition

* `IsLast`: the last member of a list with a property.

## Main statements

* `lastValue?_map_eq_some_iff`: looking up the last entry with a key.
* `Entries.isLast_erase`: when the last entry is still the last one after a key is taken out.
* `Entries.exists_foldl_addNew_eq_append`: what is brought in stands behind the rest.
-/

namespace RouteDocs

/-! ## The last member of a list -/

/-- The member is the last one of a list with a property. -/
def IsLast {α : Type} (p : α → Prop) (l : List α) (a : α) : Prop :=
  ∃ before after, l = before ++ a :: after ∧ p a ∧ ∀ b ∈ after, ¬p b

section IsLast

variable {α β : Type} {p : α → Prop} {l r : List α} {a : α}

theorem IsLast.mem (h : IsLast p l a) : a ∈ l := by
  obtain ⟨before, after, rfl, -⟩ := h
  simp

theorem IsLast.prop (h : IsLast p l a) : p a := by
  obtain ⟨before, after, -, ha, -⟩ := h
  exact ha

theorem find?_reverse_eq_some_iff {p : α → Bool} :
    l.reverse.find? p = some a ↔ IsLast (p · = true) l a := by
  rw [List.find?_eq_some_iff_append]
  constructor
  · rintro ⟨ha, after, before, hl, hafter⟩
    refine ⟨before.reverse, after.reverse, ?_, ha, fun b hb => ?_⟩
    · simpa using congrArg List.reverse hl
    · simpa using hafter b (List.mem_reverse.1 hb)
  · rintro ⟨before, after, rfl, ha, hafter⟩
    exact ⟨ha, after.reverse, before.reverse, by simp, fun b hb => by
      simpa using hafter b (List.mem_reverse.1 hb)⟩

/-- There is only one last member. -/
theorem IsLast.unique {b : α} (ha : IsLast p l a) (hb : IsLast p l b) : a = b := by
  classical
  have hfind : ∀ c, IsLast p l c ↔ l.reverse.find? (p ·) = some c := fun c => by
    simp [find?_reverse_eq_some_iff]
  exact Option.some.inj (((hfind a).1 ha).symm.trans ((hfind b).1 hb))

theorem exists_isLast (h : ∃ a ∈ l, p a) : ∃ a, IsLast p l a := by
  induction l with
  | nil => simp at h
  | cons b l ih =>
    by_cases hl : ∃ a ∈ l, p a
    · obtain ⟨a, before, after, rfl, ha, hafter⟩ := ih hl
      exact ⟨a, b :: before, after, rfl, ha, hafter⟩
    · obtain ⟨c, hc, hp⟩ := h
      rcases List.mem_cons.1 hc with rfl | hc
      · exact ⟨c, [], l, rfl, hp, fun a ha hpa => hl ⟨a, ha, hpa⟩⟩
      · exact absurd ⟨c, hc, hp⟩ hl

theorem isLast_append_iff :
    IsLast p (l ++ r) a ↔ IsLast p r a ∨ IsLast p l a ∧ ∀ b ∈ r, ¬p b := by
  constructor
  · rintro ⟨before, after, heq, ha, hafter⟩
    rcases List.append_eq_append_iff.1 heq with ⟨x, rfl, rfl⟩ | ⟨x, rfl, hx⟩
    · exact .inl ⟨x, after, rfl, ha, hafter⟩
    · cases x with
      | nil => exact .inl ⟨[], after, by simpa using hx.symm, ha, hafter⟩
      | cons b x =>
        obtain ⟨rfl, rfl⟩ := List.cons.inj hx
        exact .inr ⟨⟨before, x, rfl, ha, fun b hb => hafter b (by simp [hb])⟩,
          fun b hb => hafter b (by simp [hb])⟩
  · rintro (⟨before, after, rfl, ha, hafter⟩ | ⟨⟨before, after, rfl, ha, hafter⟩, hr⟩)
    · exact ⟨l ++ before, after, by simp, ha, hafter⟩
    · refine ⟨before, after ++ r, by simp, ha, fun b hb => ?_⟩
      exact (List.mem_append.1 hb).elim (hafter b) (hr b)

theorem isLast_singleton_iff {b : α} : IsLast p [b] a ↔ p b ∧ a = b := by
  constructor
  · rintro ⟨before, after, heq, ha, -⟩
    cases before with
    | nil =>
      obtain ⟨rfl, -⟩ := List.cons.inj heq
      exact ⟨ha, rfl⟩
    | cons c before => simp at heq
  · rintro ⟨ha, rfl⟩
    exact ⟨[], [], rfl, ha, nofun⟩

theorem isLast_cons_iff {b : α} :
    IsLast p (b :: l) a ↔ IsLast p l a ∨ (p b ∧ a = b) ∧ ∀ c ∈ l, ¬p c := by
  rw [← List.singleton_append, isLast_append_iff, isLast_singleton_iff]

theorem isLast_congr {q : α → Prop} (h : ∀ b ∈ l, p b ↔ q b) :
    IsLast p l a ↔ IsLast q l a := by
  induction l with
  | nil => simp [IsLast]
  | cons b l ih =>
    obtain ⟨hb, hl⟩ := List.forall_mem_cons.1 h
    have hnone : (∀ c ∈ l, ¬p c) ↔ ∀ c ∈ l, ¬q c := forall₂_congr fun c hc => not_congr (hl c hc)
    rw [isLast_cons_iff, isLast_cons_iff, ih hl, hb, hnone]

theorem isLast_map_iff {f : α → β} {q : β → Prop} {b : β} :
    IsLast q (l.map f) b ↔ ∃ a, IsLast (fun a => q (f a)) l a ∧ f a = b := by
  constructor
  · rintro ⟨before, after, heq, hb, hafter⟩
    obtain ⟨before, rest, rfl, rfl, hrest⟩ := List.map_eq_append_iff.1 heq
    obtain ⟨a, after, rfl, rfl, rfl⟩ := List.map_eq_cons_iff.1 hrest
    exact ⟨a, ⟨before, after, rfl, hb, fun c hc => hafter _ (List.mem_map_of_mem hc)⟩, rfl⟩
  · rintro ⟨a, ⟨before, after, rfl, ha, hafter⟩, rfl⟩
    exact ⟨before.map f, after.map f, by simp, ha, List.forall_mem_map.2 hafter⟩

/-- The last member goes along when a list is mapped. -/
theorem IsLast.exists_of_mapM {f : α → Option β} {q : β → Prop} {bs : List β} (ha : IsLast p l a)
    (h : l.mapM f = some bs) (hpq : ∀ a b, f a = some b → (q b ↔ p a)) :
    ∃ b, f a = some b ∧ IsLast q bs b := by
  obtain ⟨before, after, rfl, hp, hafter⟩ := ha
  simp only [List.mapM_append, List.mapM_cons, bind, pure, Option.bind_eq_some_iff,
    Option.some.injEq] at h
  obtain ⟨before', -, -, ⟨b, hb, after', hmap, rfl⟩, rfl⟩ := h
  refine ⟨b, hb, before', after', rfl, (hpq a b hb).2 hp, fun c hc hqc => ?_⟩
  obtain ⟨a', ha', hac⟩ := (mem_iff_of_mapM_eq_some hmap).1 hc
  exact hafter a' ha' ((hpq a' c hac).1 hqc)

theorem lastValue?_map_eq_some_iff {f : α → String × β} {k : String} {b : β} :
    Dict.lastValue? (l.map f) k = some b ↔
      ∃ a, IsLast (fun a => (f a).1 = k) l a ∧ (f a).2 = b := by
  simp only [Dict.lastValue?, List.getLast?_filter, ← List.map_reverse, List.find?_map,
    Option.map_eq_some_iff, find?_reverse_eq_some_iff, Function.comp_def, decide_eq_true_eq]
  constructor
  · rintro ⟨-, ⟨a, ha, rfl⟩, rfl⟩
    exact ⟨a, ha, rfl⟩
  · rintro ⟨a, ha, rfl⟩
    exact ⟨f a, ⟨a, ha, rfl⟩, rfl⟩

end IsLast

namespace Yaml.Entries

variable {es : Entries} {e : Value × Value} {k : Value}

/-! ## Keys that are kept -/

section Kept

variable (hes : ∀ e ∈ es, e.1.IsProper ∧ e.2.IsProper)
include hes

/-- Every key is kept, though perhaps in the spelling of an earlier one. -/
theorem exists_mem_ofList_of_mem (he : e ∈ es) : ∃ c ∈ ofList es, c.1.same e.1 = true := by
  obtain ⟨f, hf, hfe⟩ := exists_mem_firsts he
  have hmem : f.1 ∈ (ofList es).map Prod.fst := map_fst_ofList hes ▸ List.mem_map_of_mem hf
  obtain ⟨c, hc, hcf⟩ := List.mem_map.1 hmem
  exact ⟨c, hc, hcf ▸ hfe⟩

theorem exists_mem_of_mem_ofList (he : e ∈ ofList es) : ∃ f ∈ es, f.1 = e.1 := by
  have hmem : e.1 ∈ es.firsts.map Prod.fst := map_fst_ofList hes ▸ List.mem_map_of_mem he
  obtain ⟨f, hf, hfe⟩ := List.mem_map.1 hmem
  exact ⟨f, mem_of_mem_firsts hf, hfe⟩

theorem mem_erase_ofList_iff :
    e ∈ (ofList es).erase k ↔ e ∈ ofList es ∧ e.1.same k = false := by
  simp [((Value.IsProper.ofList hes).erase_perm_filter k).mem_iff]

end Kept

/-! ## Taking out a key -/

/-- An entry is taken out from the end, or else the last one takes its place. -/
theorem erase_cases (es : Entries) (k : Value) :
    ((∀ e ∈ es, e.1.same k = false) ∧ es.erase k = es) ∨
      ∃ front e, e.1.same k = true ∧
        ((es = front ++ [e] ∧ es.erase k = front) ∨
          ∃ mid last, es = front ++ e :: (mid ++ [last]) ∧ es.erase k = front ++ last :: mid) := by
  induction es with
  | nil => exact .inl ⟨nofun, rfl⟩
  | cons e es ih =>
    cases hek : e.1.same k with
    | true =>
      refine .inr ⟨[], e, hek, ?_⟩
      rcases List.eq_nil_or_concat es with rfl | ⟨mid, last, rfl⟩
      · exact .inl ⟨rfl, by simp [erase, hek]⟩
      · exact .inr ⟨mid, last, by simp, by simp [erase, hek]⟩
    | false =>
      rcases ih with ⟨hnew, h⟩ | ⟨front, f, hf, ⟨rfl, h⟩ | ⟨mid, last, rfl, h⟩⟩
      · exact .inl ⟨List.forall_mem_cons.2 ⟨hek, hnew⟩, by simp [erase, hek, h]⟩
      · exact .inr ⟨e :: front, f, hf, .inl ⟨rfl, by simp [erase, hek, h]⟩⟩
      · exact .inr ⟨e :: front, f, hf, .inr ⟨mid, last, rfl, by simp [erase, hek, h]⟩⟩

/-- Taking out a key leaves the last entry with a property the last one, if the last entry of all
does not come to stand in front of others that have the property. -/
theorem isLast_erase {p : Value × Value → Prop} (hp : ∀ f, p f → f.1.same k = false)
    (hkept : ∀ front m mid last, es = front ++ m :: (mid ++ [last]) → m.1.same k = true → p last →
      ∀ f ∈ mid, ¬p f) (h : IsLast p es e) : IsLast p (es.erase k) e := by
  rcases erase_cases es k with ⟨-, heq⟩ | ⟨front, m, hm, ⟨rfl, heq⟩ | ⟨mid, last, rfl, heq⟩⟩
  · rwa [heq]
  · have hnot : ¬p m := fun hpm => by simp [hp m hpm] at hm
    rw [isLast_append_iff, isLast_singleton_iff] at h
    rw [heq]
    exact (h.resolve_left fun h => hnot h.1).1
  · have hnot : ¬p m := fun hpm => by simp [hp m hpm] at hm
    rw [isLast_append_iff, isLast_cons_iff, isLast_append_iff, isLast_singleton_iff] at h
    rw [heq, isLast_append_iff, isLast_cons_iff]
    rcases h with ((h | ⟨h, -⟩) | ⟨⟨hpm, -⟩, -⟩) | ⟨h, hback⟩
    · exact .inl (.inr ⟨h, hkept front m mid last rfl hm h.1⟩)
    · exact .inl (.inl h)
    · exact absurd hpm hnot
    · refine .inr ⟨h, fun f hf => hback f ?_⟩
      rcases List.mem_cons.1 hf with rfl | hf
      · simp
      · simp [hf]

/-! ## Bringing in entries -/

/-- What is added stands behind all other entries, and has none of their keys. -/
theorem exists_addNew_eq_append (es fs : Entries) : ∃ added : Entries,
    es.addNew fs = es ++ added ∧ ∀ f ∈ added, f ∈ fs ∧ ∀ e ∈ es, e.1.same f.1 = false := by
  induction fs generalizing es with
  | nil => exact ⟨[], by simp [addNew], nofun⟩
  | cons f fs ih =>
    have hstep : es.addNew (f :: fs) =
        (if es.any (·.1.same f.1) then es else es ++ [f]).addNew fs := rfl
    rw [hstep]
    split
    next =>
      obtain ⟨added, h, hadded⟩ := ih es
      exact ⟨added, h, fun g hg => ⟨List.mem_cons_of_mem _ (hadded g hg).1, (hadded g hg).2⟩⟩
    next hany =>
      obtain ⟨added, h, hadded⟩ := ih (es ++ [f])
      refine ⟨f :: added, by simp [h], List.forall_mem_cons.2 ⟨⟨List.mem_cons_self, ?_⟩, ?_⟩⟩
      · simpa using hany
      · intro g hg
        obtain ⟨hmem, hnew⟩ := hadded g hg
        exact ⟨List.mem_cons_of_mem _ hmem, fun e he => hnew e (List.mem_append_left _ he)⟩

theorem exists_foldl_addNew_eq_append (es : Entries) (sources : List Entries) :
    ∃ added : Entries, sources.foldl addNew es = es ++ added ∧
      ∀ f ∈ added, (∃ fs ∈ sources, f ∈ fs) ∧ ∀ e ∈ es, e.1.same f.1 = false := by
  obtain ⟨added, h, hadded⟩ := exists_addNew_eq_append es sources.flatten
  refine ⟨added, ?_, fun f hf => ⟨List.mem_flatten.1 (hadded f hf).1, (hadded f hf).2⟩⟩
  rw [← h, addNew, List.foldl_flatten]
  rfl

end Yaml.Entries

end RouteDocs
