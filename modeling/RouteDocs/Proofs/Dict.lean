import RouteDocs.Data.Dict

/-!
# Laws of dictionaries

A dictionary is determined by its lookups, and each operation is described by what it does to them.

## Main statements

* `Dict.get?_insert`, `Dict.get?_modify`, `Dict.get?_map`: lookup after a change.
* `Dict.get?_ofList`: of entries with the same key the last one counts.
* `Dict.ext_get?`: dictionaries with the same lookups are equal.
* `Dict.map_insert`, `Dict.map_modify`: a change of every value goes past a change at one key.
* `Dict.ofList_toList`: a dictionary is rebuilt from its entries.
-/

namespace RouteDocs.Dict

variable {α β : Type}

/-! ## Lookup -/

theorem find?_insertEntry (k x : String) (a : α) (es : List (String × α)) :
    (insertEntry k a es).find? (·.1 = x) = if k = x then some (k, a) else es.find? (·.1 = x) := by
  induction es with
  | nil => by_cases h : k = x <;> simp [insertEntry, h]
  | cons e es ih =>
    obtain ⟨y, b⟩ := e
    simp only [insertEntry]
    split
    · by_cases h : k = x <;> simp [h]
    · split
      · rename_i hky
        subst hky
        by_cases h : k = x <;> simp [h]
      · rename_i hky
        by_cases hy : y = x
        · subst hy
          simp [hky]
        · simpa [hy] using ih

@[simp] theorem get?_empty (k : String) : (empty : Dict α).get? k = none := rfl

theorem get?_insert (d : Dict α) (k x : String) (a : α) :
    (d.insert k a).get? x = if k = x then some a else d.get? x := by
  simp only [get?, insert, find?_insertEntry]
  split <;> rfl

@[simp] theorem get?_insert_self (d : Dict α) (k : String) (a : α) :
    (d.insert k a).get? k = some a := by
  simp [get?_insert]

theorem get?_modify [Inhabited α] (d : Dict α) (k x : String) (f : α → α) :
    (d.modify k f).get? x = if k = x then some (f ((d.get? k).getD default)) else d.get? x :=
  get?_insert _ _ _ _

theorem get?_map (f : α → β) (d : Dict α) (k : String) : (d.map f).get? k = (d.get? k).map f := by
  simp [get?, map, Function.comp_def]

/-- No key comes twice. -/
theorem pairwise_fst_ne (d : Dict α) : d.toList.Pairwise (·.1 ≠ ·.1) :=
  d.ascending.imp String.ne_of_lt

theorem eq_of_fst_eq {d : Dict α} {e f : String × α} (he : e ∈ d.toList) (hf : f ∈ d.toList)
    (h : e.1 = f.1) : e = f :=
  List.Pairwise.forall_of_forall_of_flip (R := fun x y => x.1 = y.1 → x = y) (fun _ _ _ => rfl)
    (d.pairwise_fst_ne.imp fun hne heq => absurd heq hne)
    (d.pairwise_fst_ne.imp fun hne heq => absurd heq.symm hne) he hf h

theorem mem_toList_iff {d : Dict α} {k : String} {a : α} :
    (k, a) ∈ d.toList ↔ d.get? k = some a := by
  constructor
  · intro hmem
    have hfound : (d.toList.find? (·.1 = k)).isSome := List.find?_isSome.2 ⟨_, hmem, by simp⟩
    obtain ⟨e, he⟩ := Option.isSome_iff_exists.1 hfound
    have hkey : e.1 = k := by simpa using List.find?_some he
    have heq := eq_of_fst_eq (List.mem_of_find?_eq_some he) hmem hkey
    simp [get?, he, heq]
  · intro h
    obtain ⟨e, he, rfl⟩ := Option.map_eq_some_iff.1 h
    have hkey : e.1 = k := by simpa using List.find?_some he
    exact hkey ▸ List.mem_of_find?_eq_some he

theorem nodup_toList (d : Dict α) : d.toList.Nodup :=
  d.pairwise_fst_ne.imp fun hne heq => hne (congrArg Prod.fst heq)

theorem toList_injective {d e : Dict α} (h : d.toList = e.toList) : d = e := by
  cases d
  cases e
  cases h
  rfl

/-- Dictionaries with the same lookups are equal. -/
theorem ext_get? {d e : Dict α} (h : ∀ k, d.get? k = e.get? k) : d = e := by
  have hmem : ∀ x, x ∈ d.toList ↔ x ∈ e.toList := fun ⟨k, a⟩ => by
    rw [mem_toList_iff, mem_toList_iff, h]
  have hperm := (List.perm_ext_iff_of_nodup d.nodup_toList e.nodup_toList).2 hmem
  exact toList_injective (hperm.eq_of_pairwise
    (fun x y _ _ hxy hyx => absurd hxy (String.lt_asymm hyx)) d.ascending e.ascending)

theorem size_insert_pos (d : Dict α) (k : String) (a : α) : 0 < (d.insert k a).size :=
  List.length_pos_of_mem (mem_toList_iff.2 (get?_insert_self d k a))

/-! ## Lookup in a list of entries -/

/-- The value of the last entry with a key. -/
def lastValue? (es : List (String × α)) (k : String) : Option α :=
  ((es.filter (·.1 = k)).getLast?).map (·.2)

theorem lastValue?_cons (e : String × α) (es : List (String × α)) (k : String) :
    lastValue? (e :: es) k = (lastValue? es k).or (if e.1 = k then some e.2 else none) := by
  by_cases h : e.1 = k
  · simp only [lastValue?, List.filter_cons, h, decide_true, if_true, List.getLast?_cons]
    cases (es.filter (·.1 = k)).getLast? <;> rfl
  · simp [lastValue?, h]

/-- Of entries with the same key the last one counts. -/
theorem get?_ofList (es : List (String × α)) (k : String) :
    (ofList es).get? k = lastValue? es k := by
  have hfold : ∀ d : Dict α, (es.foldl (fun d e => d.insert e.1 e.2) d).get? k =
      (lastValue? es k).or (d.get? k) := by
    induction es with
    | nil => exact fun _ => rfl
    | cons e es ih =>
      intro d
      rw [List.foldl_cons, ih, get?_insert, lastValue?_cons]
      cases lastValue? es k with
      | some a => rfl
      | none => split <;> rfl
  exact (hfold empty).trans (Option.or_none ..)

theorem isSome_lastValue?_iff {es : List (String × α)} {k : String} :
    (lastValue? es k).isSome ↔ ∃ e ∈ es, e.1 = k := by
  simp [lastValue?]

theorem lastValue?_map (f : α → β) (es : List (String × α)) (k : String) :
    lastValue? (es.map fun e => (e.1, f e.2)) k = (lastValue? es k).map f := by
  induction es with
  | nil => rfl
  | cons e es ih =>
    rw [List.map_cons, lastValue?_cons, lastValue?_cons, ih, Option.map_or]
    split <;> rfl

/-- No entry means no entry in the dictionary. -/
theorem toList_ofList_eq_nil_iff {es : List (String × α)} : (ofList es).toList = [] ↔ es = [] := by
  constructor
  · intro h
    refine List.eq_nil_iff_forall_not_mem.2 fun e he => ?_
    have hfound : ((ofList es).get? e.1).isSome := by
      rw [get?_ofList, isSome_lastValue?_iff]
      exact ⟨e, he, rfl⟩
    obtain ⟨a, ha⟩ := Option.isSome_iff_exists.1 hfound
    have hmem := mem_toList_iff.2 ha
    exact List.not_mem_nil (h ▸ hmem)
  · rintro rfl
    rfl

/-! ## Changing every value -/

theorem map_insert (f : α → β) (d : Dict α) (k : String) (a : α) :
    (d.insert k a).map f = (d.map f).insert k (f a) := by
  apply ext_get?
  intro x
  rw [get?_map, get?_insert, get?_insert, get?_map]
  split <;> rfl

theorem map_modify [Inhabited α] [Inhabited β] {f : α → β} {g : α → α} {g' : β → β}
    (hg : ∀ a, f (g a) = g' (f a)) (hdefault : f default = default) (d : Dict α) (k : String) :
    (d.modify k g).map f = (d.map f).modify k g' := by
  rw [modify, modify, map_insert, hg, get?_map]
  cases d.get? k with
  | none => rw [Option.getD_none, Option.map_none, Option.getD_none, hdefault]
  | some a => rfl

/-! ## Properties of all values -/

section

variable {p : α → Prop}

theorem forall_mem_insert {d : Dict α} (k : String) {a : α} (ha : p a)
    (hd : ∀ e ∈ d.toList, p e.2) : ∀ e ∈ (d.insert k a).toList, p e.2 := by
  intro e he
  rcases eq_or_mem_of_mem_insertEntry he with rfl | he
  · exact ha
  · exact hd e he

theorem of_get?_eq_some {d : Dict α} {k : String} {a : α} (hd : ∀ e ∈ d.toList, p e.2)
    (h : d.get? k = some a) : p a := by
  obtain ⟨e, he, rfl⟩ := Option.map_eq_some_iff.1 h
  exact hd e (List.mem_of_find?_eq_some he)

theorem forall_mem_modify [Inhabited α] {d : Dict α} {k : String} {f : α → α}
    (hd : ∀ e ∈ d.toList, p e.2) (hdefault : p default) (hf : ∀ a, p a → p (f a)) :
    ∀ e ∈ (d.modify k f).toList, p e.2 := by
  apply forall_mem_insert _ _ hd
  apply hf
  cases h : d.get? k with
  | none => exact hdefault
  | some a => exact of_get?_eq_some hd h

theorem forall_mem_ofList {es : List (String × α)} (h : ∀ e ∈ es, p e.2) :
    ∀ e ∈ (ofList es).toList, p e.2 := by
  apply List.foldlRecOn (motive := fun d : Dict α => ∀ e ∈ d.toList, p e.2) es
  · exact fun _ he => nomatch he
  · intro d hd e he
    exact forall_mem_insert e.1 (h e he) hd

end

/-! ## Rebuilding -/

/-- A key after all others goes to the end. -/
theorem insertEntry_of_forall_lt {k : String} {a : α} {es : List (String × α)}
    (h : ∀ e ∈ es, e.1 < k) : insertEntry k a es = es ++ [(k, a)] := by
  induction es with
  | nil => rfl
  | cons e es ih =>
    have hlt : e.1 < k := h e (by simp)
    have hnot : ¬k < e.1 := String.lt_asymm hlt
    have hne : k ≠ e.1 := fun heq => String.lt_irrefl k (heq ▸ hlt)
    simp [insertEntry, hnot, hne, ih fun e he => h e (List.mem_cons_of_mem _ he)]

/-- Inserting the rest of an ascending list, one entry after the other, appends it. -/
theorem toList_foldl_insert {es : List (String × α)} (d : Dict α)
    (h : (d.toList ++ es).Pairwise (·.1 < ·.1)) :
    (es.foldl (fun d (k, a) => d.insert k a) d).toList = d.toList ++ es := by
  induction es generalizing d with
  | nil => simp
  | cons e es ih =>
    have hlast : ∀ x ∈ d.toList, x.1 < e.1 := fun x hx =>
      (List.pairwise_append.1 h).2.2 x hx e (by simp)
    have hstep : (d.insert e.1 e.2).toList = d.toList ++ [e] := insertEntry_of_forall_lt hlast
    rw [List.foldl_cons, ih _ (by simpa [hstep] using h), hstep]
    simp

theorem toList_ofList {es : List (String × α)} (h : es.Pairwise (·.1 < ·.1)) :
    (ofList es).toList = es :=
  toList_foldl_insert empty (by simpa [empty] using h)

@[simp] theorem ofList_toList (d : Dict α) : ofList d.toList = d :=
  toList_injective (toList_ofList d.ascending)

@[simp] theorem map_id (d : Dict α) : d.map id = d := toList_injective (by simp [map])

end RouteDocs.Dict
