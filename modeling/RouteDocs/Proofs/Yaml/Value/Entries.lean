import Mathlib.Data.List.Pairwise
import RouteDocs.Proofs.Yaml.Value.Same

/-!
# Looking up the entries of mappings

## Main statements

* `Entries.get?_addNew`: entries that are added never hide those that are there.
* `Entries.erase_perm_filter`: taking out a key takes out its entry and no other.
* `Value.IsProper.erase`, `Value.IsProper.addNew`, `Value.IsProper.ofList`: keys stay distinct.
-/

namespace RouteDocs.Yaml

namespace Entries

/-! ## Lookups -/

section

variable {es fs : Entries} {k x : Value}

@[simp] theorem get?_nil : get? [] k = none := rfl

theorem get?_cons (e : Value × Value) (es : Entries) (k : Value) :
    get? (e :: es) k = if e.1.same k then some e.2 else es.get? k := by
  cases h : e.1.same k <;> simp [get?, h]

theorem get?_append (es fs : Entries) (k : Value) :
    get? (es ++ fs) k = (es.get? k).or (fs.get? k) := by
  induction es with
  | nil => simp
  | cons e es ih =>
    rw [List.cons_append, get?_cons, get?_cons, ih]
    split <;> rfl

theorem get?_eq_none_iff : es.get? k = none ↔ ∀ e ∈ es, e.1.same k = false := by
  simp [get?]

theorem isSome_get?_iff : (es.get? k).isSome ↔ ∃ e ∈ es, e.1.same k = true := by
  simp [get?]

theorem exists_mem_of_get?_eq_some (h : es.get? k = some x) :
    ∃ e ∈ es, e.1.same k = true ∧ e.2 = x := by
  obtain ⟨e, he, rfl⟩ := Option.map_eq_some_iff.1 h
  exact ⟨e, List.mem_of_find?_eq_some he, by simpa using List.find?_some he, rfl⟩

/-- An entry that is added is found under keys that were not there. -/
theorem get?_addNew (es fs : Entries) (k : Value) :
    (es.addNew fs).get? k = (es.get? k).or (fs.get? k) := by
  induction fs generalizing es with
  | nil => simp [addNew]
  | cons f fs ih =>
    have hstep : es.addNew (f :: fs) =
        (if es.any (·.1.same f.1) then es else es ++ [f]).addNew fs := rfl
    rw [hstep, ih, get?_cons]
    split
    · rename_i hany
      obtain ⟨e, he, hef⟩ := List.any_eq_true.1 hany
      split
      · rename_i hfk
        have hfound : (es.get? k).isSome := isSome_get?_iff.2 ⟨e, he, Value.same_trans hef hfk⟩
        obtain ⟨y, hy⟩ := Option.isSome_iff_exists.1 hfound
        simp [hy]
      · rfl
    · rw [get?_append, get?_cons, get?_nil, Option.or_assoc]
      split <;> simp

/-- Of several mappings that are added, the first one with the key counts. -/
theorem get?_foldl_addNew (es : Entries) (sources : List Entries) (k : Value) :
    (sources.foldl addNew es).get? k = (es.get? k).or (sources.findSome? (·.get? k)) := by
  induction sources generalizing es with
  | nil => simp
  | cons fs sources ih =>
    rw [List.foldl_cons, ih, get?_addNew, Option.or_assoc, List.findSome?_cons]
    cases fs.get? k <;> rfl

/-- A value is set in the place of its key, or at the end if the key was not there. -/
theorem insert_cases (es : Entries) (k x : Value) :
    ((∀ e ∈ es, e.1.same k = false) ∧ es.insert k x = es ++ [(k, x)]) ∨
      ∃ front e back, es = front ++ e :: back ∧ (∀ f ∈ front, f.1.same k = false) ∧
        e.1.same k = true ∧ es.insert k x = front ++ (e.1, x) :: back := by
  induction es with
  | nil => simp [insert]
  | cons e es ih =>
    cases hek : e.1.same k with
    | true => exact .inr ⟨[], e, es, rfl, by simp, hek, by simp [insert, hek]⟩
    | false =>
      rcases ih with ⟨hnew, hes⟩ | ⟨front, f, back, rfl, hfront, hf, hes⟩
      · exact .inl ⟨by simpa [hek] using hnew, by simp [insert, hek, hes]⟩
      · refine .inr ⟨e :: front, f, back, rfl, ?_, hf, by simp [insert, hek, hes]⟩
        simpa [hek] using hfront

theorem erase_of_new (h : ∀ e ∈ es, e.1.same k = false) : es.erase k = es := by
  induction es with
  | nil => rfl
  | cons e es ih =>
    obtain ⟨he, hes⟩ := List.forall_mem_cons.1 h
    simp [erase, he, ih hes]

theorem Distinct.of_map_fst_eq (hes : es.Distinct) (h : fs.map (·.1) = es.map (·.1)) :
    fs.Distinct := by
  have hkeys : ∀ gs : Entries, gs.Distinct ↔
      (gs.map (·.1)).Pairwise fun k l => k.same l = false ∧ l.same k = false := fun gs => by
    rw [List.pairwise_map]
    rfl
  rw [hkeys, h, ← hkeys]
  exact hes

/-- The last entry of a list in the place of its first gives the same entries. -/
theorem getLast_cons_dropLast_perm {e : Value × Value} (h : e ∈ es.getLast?) :
    (e :: es.dropLast).Perm es := by
  obtain ⟨front, rfl⟩ := List.getLast?_eq_some_iff.1 h
  simpa using (List.perm_append_singleton e front).symm

end

end Entries

/-! ## Mappings with distinct keys -/

namespace Value.IsProper

variable {es fs : Entries} {k x : Value}

theorem mapping_iff :
    (Value.mapping es).IsProper ↔ es.Distinct ∧ ∀ e ∈ es, e.1.IsProper ∧ e.2.IsProper := by
  constructor
  · rintro (_ | _ | _ | _ | _ | ⟨hdistinct, hkeys, hvalues⟩)
    exact ⟨hdistinct, fun e he => ⟨hkeys e he, hvalues e he⟩⟩
  · rintro ⟨hdistinct, hes⟩
    exact .mapping hdistinct (fun e he => (hes e he).1) fun e he => (hes e he).2

/-- What stands at a key is proper. -/
theorem of_get?_eq_some (hes : (Value.mapping es).IsProper) (h : es.get? k = some x) :
    x.IsProper := by
  obtain ⟨e, he, -, rfl⟩ := Entries.exists_mem_of_get?_eq_some h
  exact ((mapping_iff.1 hes).2 e he).2

/-- Only one entry has a given key. -/
theorem eq_of_same (hes : (Value.mapping es).IsProper) {e f : Value × Value} (he : e ∈ es)
    (hf : f ∈ es) (hek : e.1.same k = true) (hfk : f.1.same k = true) : e = f := by
  obtain ⟨hdistinct, hparts⟩ := mapping_iff.1 hes
  by_contra hne
  have hapart : Entries.Apart e f := hdistinct.forall he hf hne
  have hsame := same_trans hek (same_symm (hparts f hf).1 hfk)
  simp [hapart.1] at hsame

theorem get?_eq_some_iff (hes : (Value.mapping es).IsProper) :
    es.get? k = some x ↔ ∃ e ∈ es, e.1.same k = true ∧ e.2 = x := by
  refine ⟨Entries.exists_mem_of_get?_eq_some, ?_⟩
  rintro ⟨e, he, hek, rfl⟩
  obtain ⟨y, hy⟩ := Option.isSome_iff_exists.1 (Entries.isSome_get?_iff.2 ⟨e, he, hek⟩)
  obtain ⟨f, hf, hfk, rfl⟩ := Entries.exists_mem_of_get?_eq_some hy
  rw [hy, hes.eq_of_same he hf hek hfk]

/-! ## Adding entries -/

theorem nil : (Value.mapping []).IsProper := mapping_iff.2 ⟨.nil, by simp⟩

/-- An entry with a new key. -/
theorem append_singleton (hes : (Value.mapping es).IsProper) (hk : k.IsProper) (hx : x.IsProper)
    (hnew : ∀ e ∈ es, e.1.same k = false) : (Value.mapping (es ++ [(k, x)])).IsProper := by
  obtain ⟨hdistinct, hparts⟩ := mapping_iff.1 hes
  refine mapping_iff.2 ⟨?_, ?_⟩
  · refine List.pairwise_append.2 ⟨hdistinct, by simp, fun e he f hf => ?_⟩
    obtain rfl := List.mem_singleton.1 hf
    refine ⟨hnew e he, Bool.eq_false_iff.2 fun hke => ?_⟩
    have hek := same_symm hk hke
    simp [hnew e he] at hek
  · intro e he
    rcases List.mem_append.1 he with he | he
    · exact hparts e he
    · obtain rfl := List.mem_singleton.1 he
      exact ⟨hk, hx⟩

theorem addNew (hes : (Value.mapping es).IsProper) (hfs : (Value.mapping fs).IsProper) :
    (Value.mapping (es.addNew fs)).IsProper := by
  have hparts := (mapping_iff.1 hfs).2
  clear hfs
  induction fs generalizing es with
  | nil => exact hes
  | cons f fs ih =>
    have hstep : es.addNew (f :: fs) =
        (if es.any (·.1.same f.1) then es else es ++ [f]).addNew fs := rfl
    obtain ⟨hf, hrest⟩ := List.forall_mem_cons.1 hparts
    rw [hstep]
    refine ih ?_ hrest
    split
    · exact hes
    · rename_i hany
      exact hes.append_singleton hf.1 hf.2 (by simpa using hany)

theorem foldl_addNew {sources : List Entries} (hes : (Value.mapping es).IsProper)
    (hsources : ∀ fs ∈ sources, (Value.mapping fs).IsProper) :
    (Value.mapping (sources.foldl Entries.addNew es)).IsProper := by
  induction sources generalizing es with
  | nil => exact hes
  | cons fs sources ih =>
    obtain ⟨hfs, hrest⟩ := List.forall_mem_cons.1 hsources
    exact ih (hes.addNew hfs) hrest

theorem insert (hes : (Value.mapping es).IsProper) (hk : k.IsProper) (hx : x.IsProper) :
    (Value.mapping (es.insert k x)).IsProper := by
  rcases Entries.insert_cases es k x with ⟨hnew, h⟩ | ⟨front, e, back, rfl, -, -, h⟩
  · exact h ▸ hes.append_singleton hk hx hnew
  · obtain ⟨hdistinct, hparts⟩ := mapping_iff.1 hes
    refine h ▸ mapping_iff.2 ⟨hdistinct.of_map_fst_eq (by simp), fun f hf => ?_⟩
    rcases List.mem_append.1 hf with hf | hf
    · exact hparts f (by simp [hf])
    · rcases List.mem_cons.1 hf with rfl | hf
      · exact ⟨(hparts e (by simp)).1, hx⟩
      · exact hparts f (by simp [hf])

/-- Entries in any order, with any keys, make up a proper mapping. -/
theorem ofList (hes : ∀ e ∈ es, e.1.IsProper ∧ e.2.IsProper) :
    (Value.mapping (Entries.ofList es)).IsProper :=
  List.foldlRecOn (motive := fun fs => (Value.mapping fs).IsProper) es _ nil fun _ hfs e he =>
    hfs.insert (hes e he).1 (hes e he).2

/-! ## Taking out a key -/

/-- Taking out a key takes out its entry and no other. -/
theorem erase_perm_filter (hes : (Value.mapping es).IsProper) (k : Value) :
    (es.erase k).Perm (es.filter fun e => !e.1.same k) := by
  induction es with
  | nil => exact .nil
  | cons e es ih =>
    obtain ⟨hdistinct, hparts⟩ := mapping_iff.1 hes
    obtain ⟨hapart, hrest⟩ := List.pairwise_cons.1 hdistinct
    cases hek : e.1.same k with
    | false =>
      have htail : (Value.mapping es).IsProper :=
        mapping_iff.2 ⟨hrest, fun f hf => hparts f (List.mem_cons_of_mem _ hf)⟩
      simpa [Entries.erase, hek] using ih htail
    | true =>
      have hfilter : es.filter (fun f => !f.1.same k) = es := by
        refine List.filter_eq_self.2 fun f hf => ?_
        cases hfk : f.1.same k with
        | false => rfl
        | true =>
          -- the entry taken out would not be the only one with this key
          obtain rfl := hes.eq_of_same (by simp) (List.mem_cons_of_mem _ hf) hek hfk
          have hself := (hapart e hf).1
          simp [same_refl] at hself
      rw [List.filter_cons_of_neg (by simp [hek]), hfilter]
      simp only [Entries.erase, hek, if_true]
      split
      · rename_i hlast
        simp [List.getLast?_eq_none_iff.1 hlast]
      · rename_i hlast
        exact Entries.getLast_cons_dropLast_perm hlast

theorem erase (hes : (Value.mapping es).IsProper) (k : Value) :
    (Value.mapping (es.erase k)).IsProper := by
  obtain ⟨hdistinct, hparts⟩ := mapping_iff.1 hes
  have hperm := hes.erase_perm_filter k
  refine mapping_iff.2 ⟨?_, fun e he => ?_⟩
  · exact hperm.symm.pairwise (hdistinct.filter _) fun h => ⟨h.2, h.1⟩
  · exact hparts e (List.mem_filter.1 (hperm.mem_iff.1 he)).1

/-- What stands at a key does not change when another key is taken out. -/
theorem get?_erase (hes : (Value.mapping es).IsProper) {j : Value} (hj : j.IsProper) (k : Value) :
    (es.erase j).get? k = if j.same k then none else es.get? k := by
  have hmem : ∀ e, e ∈ es.erase j ↔ e ∈ es ∧ e.1.same j = false := fun e => by
    simp [(hes.erase_perm_filter j).mem_iff]
  split
  · rename_i hjk
    refine Entries.get?_eq_none_iff.2 fun e he => Bool.eq_false_iff.2 fun hek => ?_
    have hej := same_trans hek (same_symm hj hjk)
    simp [((hmem e).1 he).2] at hej
  · rename_i hjk
    ext x
    rw [(hes.erase j).get?_eq_some_iff, hes.get?_eq_some_iff]
    constructor
    · rintro ⟨e, he, h⟩
      exact ⟨e, ((hmem e).1 he).1, h⟩
    · rintro ⟨e, he, hek, h⟩
      refine ⟨e, (hmem e).2 ⟨he, Bool.eq_false_iff.2 fun hej => hjk ?_⟩, hek, h⟩
      exact same_trans (same_symm ((mapping_iff.1 hes).2 e he).1 hej) hek

end Value.IsProper

end RouteDocs.Yaml
