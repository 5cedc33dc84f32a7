import Mathlib.Data.List.Forall2
import Mathlib.Logic.Relation
import RouteDocs.Proofs.Yaml.Value.Entries
import RouteDocs.Yaml.Value.Merge

/-!
# What a merge makes of a value

What a mapping holds after its merge is said key by key: its own value, or else that of the first
source with the key. A value is merged from the root down, so the values that a merge brings in are
merged as well, and sources that were not taken over are never looked into.

## Main definitions

* `Entries.MergesFrom`: the mappings under the merge key, if they can be merged.
* `Entries.mergedValue?`: what stands at a key after the merge.
* `Value.Reaches`: the values that are met on the way down, each mapping after its own merge.
* `Value.Merges`: a value and what the merges of all reached mappings make of it.

## Main statements

* `Value.merge?_eq_none_iff`: a merge fails exactly if a reached mapping cannot be merged.
* `Value.merges_of_merge?`: what a merge gives.
* `Value.contains_iff_reaches`: what is in the result are the reached values, merged.
* `Value.merge?_eq_self`: where there is no merge key, a merge changes nothing.
-/

namespace RouteDocs

theorem mapM_eq_some_iff {α β : Type} {f : α → Option β} {as : List α} {bs : List β} :
    as.mapM f = some bs ↔ List.Forall₂ (fun a b => f a = some b) as bs := by
  induction as generalizing bs with
  | nil => cases bs <;> simp
  | cons a as ih =>
    simp only [List.mapM_cons, bind, pure, Option.bind_eq_some_iff, Option.some.injEq, ih]
    constructor
    · rintro ⟨b, hb, bs, hbs, rfl⟩
      exact .cons hb hbs
    · rintro (_ | ⟨hb, hbs⟩)
      exact ⟨_, hb, _, hbs, rfl⟩

theorem exists_mapM_eq_some_iff {α β : Type} {f : α → Option β} {as : List α} :
    (∃ bs, as.mapM f = some bs) ↔ ∀ a ∈ as, ∃ b, f a = some b := by
  induction as with
  | nil => simp
  | cons a as ih =>
    rw [List.forall_mem_cons, ← ih]
    cases ha : f a <;> cases has : as.mapM f <;> simp [List.mapM_cons, ha, has]

theorem mem_iff_of_mapM_eq_some {α β : Type} {f : α → Option β} {as : List α} {bs : List β}
    (h : as.mapM f = some bs) {b : β} : b ∈ bs ↔ ∃ a ∈ as, f a = some b := by
  replace h := mapM_eq_some_iff.1 h
  induction h with
  | nil => simp
  | cons ha _ ih => simp [ih, ha, eq_comm]

theorem rel_imp {α β : Type} {r q : α → β → Prop} {a : Option α} {b : Option β}
    (h : Option.Rel r a b) (himp : ∀ x ∈ a, ∀ y ∈ b, r x y → q x y) : Option.Rel q a b := by
  cases h with
  | none => exact .none
  | some h => exact .some (himp _ rfl _ rfl h)

theorem isSome_eq_of_rel {α β : Type} {r : α → β → Prop} {a : Option α} {b : Option β}
    (h : Option.Rel r a b) : a.isSome = b.isSome := by
  cases h <;> rfl

namespace Yaml

/-! ## One mapping -/

theorem Value.entries?_eq_some_iff {v : Value} {es : Entries} :
    v.entries? = some es ↔ v = .mapping es := by
  cases v <;> simp [entries?]

namespace Entries

/-- The mappings whose entries are to be merged into a mapping: there is no merge key, or it holds a
mapping or a sequence of mappings. -/
inductive MergesFrom (es : Entries) : List Entries → Prop where
  | none (h : es.get? mergeKey = none) : MergesFrom es []
  | one {fs : Entries} (h : es.get? mergeKey = some (.mapping fs)) : MergesFrom es [fs]
  | many {sources : List Entries}
    (h : es.get? mergeKey = some (.sequence (sources.map Value.mapping))) : MergesFrom es sources

/-- What stands at a key after the merge: what the mapping has itself, or else what the first source
with this key has. The merge key is not among the keys that the mapping has itself. -/
def mergedValue? (es : Entries) (sources : List Entries) (k : Value) : Option Value :=
  (if mergeKey.same k then none else es.get? k).or (sources.findSome? (·.get? k))

variable {es fs : Entries} {sources : List Entries} {k x : Value}

theorem mapM_entries?_eq_some_iff {items : List Value} :
    items.mapM Value.entries? = some sources ↔ items = sources.map .mapping := by
  rw [mapM_eq_some_iff, ← List.forall₂_eq_eq_eq, List.forall₂_map_right_iff]
  simp only [Value.entries?_eq_some_iff]

theorem mergeSources?_eq_some_iff : es.mergeSources? = some sources ↔ es.MergesFrom sources := by
  unfold mergeSources?
  constructor
  · intro h
    split at h
    · rename_i hkey
      cases h
      exact .none hkey
    · rename_i hkey
      cases h
      exact .one hkey
    · rename_i hkey
      exact .many (mapM_entries?_eq_some_iff.1 h ▸ hkey)
    · cases h
  · rintro (hkey | hkey | hkey)
    · simp [hkey]
    · simp [hkey]
    · simp only [hkey]
      exact mapM_entries?_eq_some_iff.2 rfl

theorem merged?_eq_some_iff : es.merged? = some fs ↔
    ∃ sources, es.MergesFrom sources ∧ sources.foldl addNew (es.erase mergeKey) = fs := by
  simp only [merged?, Option.map_eq_some_iff, mergeSources?_eq_some_iff]

theorem merged?_eq_none_iff : es.merged? = none ↔ ∀ sources, ¬es.MergesFrom sources := by
  rw [merged?, Option.map_eq_none_iff, Option.eq_none_iff_forall_ne_some]
  simp only [ne_eq, mergeSources?_eq_some_iff]

/-- A mapping has at most one list of sources. -/
theorem MergesFrom.unique {sources' : List Entries} (h : es.MergesFrom sources)
    (h' : es.MergesFrom sources') : sources = sources' :=
  Option.some.inj ((mergeSources?_eq_some_iff.2 h).symm.trans (mergeSources?_eq_some_iff.2 h'))

/-- The sources stand in the mapping itself. -/
theorem MergesFrom.exists_mem (h : es.MergesFrom sources) (hfs : fs ∈ sources) :
    ∃ e ∈ es, e.2 = .mapping fs ∨ ∃ items, e.2 = .sequence items ∧ .mapping fs ∈ items := by
  cases h with
  | none => simp at hfs
  | one hkey =>
    obtain ⟨e, he, -, hval⟩ := exists_mem_of_get?_eq_some hkey
    obtain rfl := List.mem_singleton.1 hfs
    exact ⟨e, he, .inl hval⟩
  | many hkey =>
    obtain ⟨e, he, -, hval⟩ := exists_mem_of_get?_eq_some hkey
    exact ⟨e, he, .inr ⟨_, hval, List.mem_map.2 ⟨fs, hfs, rfl⟩⟩⟩

/-- Whatever stands at a key after the merge stands in the mapping or in a source. -/
theorem exists_mem_of_mergedValue? (h : es.mergedValue? sources k = some x) :
    ∃ e : Value × Value, (e ∈ es ∨ ∃ fs ∈ sources, e ∈ fs) ∧ e.2 = x := by
  rcases Option.or_eq_some_iff.1 h with h | ⟨-, h⟩
  · split at h
    · cases h
    · obtain ⟨e, he, -, hval⟩ := exists_mem_of_get?_eq_some h
      exact ⟨e, .inl he, hval⟩
  · obtain ⟨fs, hfs, h⟩ := List.exists_of_findSome?_eq_some h
    obtain ⟨e, he, -, hval⟩ := exists_mem_of_get?_eq_some h
    exact ⟨e, .inr ⟨fs, hfs, he⟩, hval⟩

end Entries

namespace Value.IsProper

variable {es fs : Entries} {sources : List Entries}

theorem mergeKey : mergeKey.IsProper := .string _

theorem of_mergesFrom (hes : (Value.mapping es).IsProper) (h : es.MergesFrom sources)
    (hfs : fs ∈ sources) : (Value.mapping fs).IsProper := by
  obtain ⟨e, he, hval⟩ := h.exists_mem hfs
  have hproper := ((mapping_iff.1 hes).2 e he).2
  rcases hval with hval | ⟨items, hval, hmem⟩
  · exact hval ▸ hproper
  · rw [hval] at hproper
    cases hproper with
    | sequence hitems => exact hitems _ hmem

/-- The merge of one mapping. -/
theorem merged (hes : (Value.mapping es).IsProper) (h : es.MergesFrom sources) :
    ∃ fs, es.merged? = some fs ∧ (Value.mapping fs).IsProper ∧
      ∀ k, fs.get? k = es.mergedValue? sources k := by
  refine ⟨_, Entries.merged?_eq_some_iff.2 ⟨sources, h, rfl⟩, ?_, fun k => ?_⟩
  · exact (hes.erase _).foldl_addNew fun fs hfs => hes.of_mergesFrom h hfs
  · rw [Entries.get?_foldl_addNew, hes.get?_erase mergeKey]
    rfl

end Value.IsProper

/-! ## On the way down -/

namespace Value

/-- What is met directly below a value: the items of a sequence, the value behind a tag, and the
values of a mapping after its own merge. -/
inductive Child : Value → Value → Prop where
  | item {items : List Value} {w : Value} (h : w ∈ items) : Child (.sequence items) w
  | inside {tag : String} {w : Value} : Child (.tagged tag w) w
  | entry {es : Entries} {sources : List Entries} {k w : Value} (hsources : es.MergesFrom sources)
    (h : es.mergedValue? sources k = some w) : Child (.mapping es) w

theorem child_sequence_iff {items : List Value} {w : Value} :
    Child (.sequence items) w ↔ w ∈ items := by
  constructor
  · rintro (h | _ | _)
    exact h
  · exact .item

theorem child_tagged_iff {tag : String} {v w : Value} : Child (.tagged tag v) w ↔ w = v := by
  constructor
  · rintro (_ | _ | _)
    rfl
  · rintro rfl
    exact .inside

/-- What is met on the way down, the value itself included. -/
def Reaches : Value → Value → Prop := Relation.ReflTransGen Child

theorem Child.isProper {v w : Value} (h : Child v w) (hv : v.IsProper) : w.IsProper := by
  cases h with
  | item hw =>
    cases hv with
    | sequence hitems => exact hitems w hw
  | inside =>
    cases hv with
    | tagged _ hw => exact hw
  | entry hsources hk =>
    obtain ⟨fs, -, hfs, hget⟩ := hv.merged hsources
    exact hfs.of_get?_eq_some ((hget _).trans hk)

theorem Reaches.isProper {v w : Value} (h : v.Reaches w) (hv : v.IsProper) : w.IsProper := by
  induction h with
  | refl => exact hv
  | tail _ hchild ih => exact hchild.isProper ih

/-! ### Depth -/

theorem depth_le_itemsDepth {items : List Value} {v : Value} (h : v ∈ items) :
    v.depth ≤ itemsDepth items := by
  induction items with
  | nil => cases h
  | cons x items ih => grind [itemsDepth]

theorem depth_le_entriesDepth {es : Entries} {e : Value × Value} (h : e ∈ es) :
    e.2.depth ≤ entriesDepth es := by
  induction es with
  | nil => cases h
  | cons f es ih => grind [entriesDepth]

/-- The sources of a mapping are deeper inside it than its values. -/
theorem depth_lt_of_mergesFrom {es fs : Entries} {sources : List Entries}
    (h : es.MergesFrom sources) (hfs : fs ∈ sources) : entriesDepth fs < entriesDepth es := by
  obtain ⟨e, he, hval⟩ := h.exists_mem hfs
  have hle := depth_le_entriesDepth he
  rcases hval with hval | ⟨items, hval, hmem⟩
  · rw [hval, depth] at hle
    omega
  · have hitem := depth_le_itemsDepth hmem
    rw [hval, depth] at hle
    rw [depth] at hitem
    omega

theorem Child.depth_lt {v w : Value} (h : Child v w) : w.depth < v.depth := by
  cases h with
  | item hw =>
    have := depth_le_itemsDepth hw
    rw [depth]
    omega
  | inside =>
    rw [depth]
    omega
  | entry hsources hk =>
    obtain ⟨e, he, rfl⟩ := Entries.exists_mem_of_mergedValue? hk
    rw [depth]
    rcases he with he | ⟨fs, hfs, he⟩
    · have := depth_le_entriesDepth he
      omega
    · have := depth_le_entriesDepth he
      have := depth_lt_of_mergesFrom hsources hfs
      omega

/-- Induction from what is met below a value to the value. -/
theorem childInduction {P : Value → Prop} (step : ∀ v, (∀ w, Child v w → P w) → P v) (v : Value) :
    P v :=
  (measure depth).wf.induction (C := P) v fun v ih => step v fun w hw => ih w hw.depth_lt

/-! ## The merge level by level -/

/-- The merge of a value whose mappings below are merged by `f`. -/
def mergeLevel? (f : Value → Option Value) : Value → Option Value
  | .sequence items => (items.mapM f).map .sequence
  | .tagged tag v => (f v).map (.tagged tag)
  | .mapping es =>
    (Entries.merged? es).bind fun fs => (fs.mapM fun e => (f e.2).map (e.1, ·)).map .mapping
  | v => some v

theorem mergeWith?_succ (n : Nat) (v : Value) :
    mergeWith? (n + 1) v = mergeLevel? (mergeWith? n) v := by
  cases v with
  | mapping es =>
    simp only [mergeWith?, mergeLevel?, bind, pure]
    congr 1
    funext fs
    cases fs.mapM fun e : Value × Value => (mergeWith? n e.2).map (e.1, ·) <;> rfl
  | null | bool | number | string | sequence | tagged => rfl

theorem mapM_congr {α β : Type} {f g : α → Option β} {as : List α} (h : ∀ a ∈ as, f a = g a) :
    as.mapM f = as.mapM g := by
  induction as with
  | nil => rfl
  | cons a as ih =>
    obtain ⟨ha, has⟩ := List.forall_mem_cons.1 h
    rw [List.mapM_cons, List.mapM_cons, ha, ih has]

/-- Below a mapping the values of its own merge are met. -/
theorem child_mapping_iff {es fs : Entries} (hes : (Value.mapping es).IsProper)
    (h : es.merged? = some fs) {w : Value} : Child (.mapping es) w ↔ ∃ e ∈ fs, e.2 = w := by
  obtain ⟨sources, hsources, -⟩ := Entries.merged?_eq_some_iff.1 h
  obtain ⟨gs, hgs, hproper, hget⟩ := hes.merged hsources
  cases h.symm.trans hgs
  constructor
  · rintro (_ | _ | ⟨hsources', hk⟩)
    cases hsources.unique hsources'
    obtain ⟨e, he, -, hval⟩ := Entries.exists_mem_of_get?_eq_some ((hget _).trans hk)
    exact ⟨e, he, hval⟩
  · rintro ⟨e, he, rfl⟩
    refine .entry hsources ((hget e.1).symm.trans ?_)
    exact hproper.get?_eq_some_iff.2 ⟨e, he, same_refl _, rfl⟩

/-- Only what is met below a value matters for its merge. -/
theorem mergeLevel?_congr {f g : Value → Option Value} {v : Value} (hv : v.IsProper)
    (h : ∀ w, Child v w → f w = g w) : mergeLevel? f v = mergeLevel? g v := by
  cases v with
  | null | bool | number | string => rfl
  | sequence items => rw [mergeLevel?, mergeLevel?, mapM_congr fun x hx => h x (.item hx)]
  | tagged tag v => rw [mergeLevel?, mergeLevel?, h v .inside]
  | mapping es =>
    simp only [mergeLevel?]
    cases hmerged : Entries.merged? es with
    | none => rfl
    | some fs =>
      have hbelow : ∀ e ∈ fs, f e.2 = g e.2 := fun e he =>
        h e.2 ((child_mapping_iff hv hmerged).2 ⟨e, he, rfl⟩)
      rw [Option.bind_some, Option.bind_some, mapM_congr fun e he => by rw [hbelow e he]]

/-- More fuel than the depth of a value changes nothing. -/
theorem mergeWith?_eq {v : Value} (hv : v.IsProper) {n : Nat} (hn : v.depth ≤ n) :
    mergeWith? n v = v.merge? := by
  induction v using childInduction generalizing n with
  | step v ih =>
    cases n with
    | zero => rw [merge?, Nat.le_zero.1 hn]
    | succ n =>
      rw [merge?]
      cases hd : v.depth with
      | zero =>
        cases v with
        | null | bool | number | string => rfl
        | sequence | mapping | tagged => simp [depth] at hd
      | succ d =>
        rw [mergeWith?_succ, mergeWith?_succ]
        refine mergeLevel?_congr hv fun w hw => ?_
        have := hw.depth_lt
        rw [ih w hw (hw.isProper hv) (by omega), ih w hw (hw.isProper hv) (by omega)]

/-- The merge of a value in terms of the merges of what is below it. -/
theorem merge?_eq {v : Value} (hv : v.IsProper) : v.merge? = mergeLevel? merge? v := by
  rw [← mergeWith?_eq hv (Nat.le_succ _), mergeWith?_succ]
  refine mergeLevel?_congr hv fun w hw => ?_
  exact mergeWith?_eq (hw.isProper hv) (Nat.le_of_lt hw.depth_lt)

/-! ## When a merge fails -/

/-- A value can be merged if it can be merged itself and so can all that is met below it. -/
theorem exists_merge?_iff {v : Value} (hv : v.IsProper) :
    (∃ w, v.merge? = some w) ↔
      (∀ es : Entries, v = .mapping es → ∃ sources, es.MergesFrom sources) ∧
        ∀ u, Child v u → ∃ w, u.merge? = some w := by
  rw [merge?_eq hv]
  cases v with
  | null | bool | number | string =>
    exact iff_of_true ⟨_, rfl⟩ ⟨nofun, nofun⟩
  | sequence items =>
    simp [mergeLevel?, child_sequence_iff, exists_mapM_eq_some_iff]
  | tagged tag v =>
    simp [mergeLevel?, child_tagged_iff]
  | mapping es =>
    cases hmerged : Entries.merged? es with
    | none =>
      have hnone := Entries.merged?_eq_none_iff.1 hmerged
      simp [mergeLevel?, hmerged, hnone]
    | some fs =>
      obtain ⟨sources, hsources, -⟩ := Entries.merged?_eq_some_iff.1 hmerged
      have hself : ∃ sources, Entries.MergesFrom es sources := ⟨sources, hsources⟩
      have hchild : (∀ u, Child (.mapping es) u → ∃ w, u.merge? = some w) ↔
          ∀ e ∈ fs, ∃ w, e.2.merge? = some w := by
        simp only [child_mapping_iff hv hmerged]
        exact ⟨fun h e he => h e.2 ⟨e, he, rfl⟩, fun h u ⟨e, he, hu⟩ => hu ▸ h e he⟩
      rw [hchild]
      simp [mergeLevel?, hmerged, hself, exists_mapM_eq_some_iff]

theorem reaches_iff {v u : Value} : v.Reaches u ↔ v = u ∨ ∃ w, Child v w ∧ w.Reaches u :=
  Relation.ReflTransGen.cases_head_iff

/-- A value can be merged exactly if all reached mappings can. -/
theorem exists_merge?_iff_reaches {v : Value} (hv : v.IsProper) :
    (∃ w, v.merge? = some w) ↔
      ∀ es : Entries, v.Reaches (.mapping es) → ∃ sources, es.MergesFrom sources := by
  induction v using childInduction with
  | step v ih =>
    rw [exists_merge?_iff hv]
    constructor
    · rintro ⟨hself, hbelow⟩ es hes
      rcases reaches_iff.1 hes with rfl | ⟨w, hw, hes⟩
      · exact hself es rfl
      · exact (ih w hw (hw.isProper hv)).1 (hbelow w hw) es hes
    · intro h
      refine ⟨fun es hes => h es (hes ▸ .refl), fun w hw => (ih w hw (hw.isProper hv)).2 ?_⟩
      exact fun es hes => h es (.head hw hes)

/-- A merge fails exactly if a reached mapping cannot be merged. -/
theorem merge?_eq_none_iff {v : Value} (hv : v.IsProper) :
    v.merge? = none ↔ ∃ es : Entries, v.Reaches (.mapping es) ∧ ∀ sources, ¬es.MergesFrom sources := by
  have h := not_congr (exists_merge?_iff_reaches hv)
  simpa [Option.eq_none_iff_forall_ne_some] using h

/-- What is reached from a value that can be merged can be merged. -/
theorem Reaches.exists_merge? {v u w : Value} (h : v.Reaches u) (hv : v.IsProper)
    (hw : v.merge? = some w) : ∃ w, u.merge? = some w :=
  (exists_merge?_iff_reaches (h.isProper hv)).2 fun es hes =>
    (exists_merge?_iff_reaches hv).1 ⟨w, hw⟩ es (h.trans hes)

/-! ## What a merge gives -/

/-- A value and what the merges of its mappings make of it. A sequence keeps its items and a tag its
value, merged. A mapping has what stands at its keys after its own merge, merged; the order of its
entries is left open. -/
inductive Merges : Value → Value → Prop where
  | null : Merges .null .null
  | bool (b : Bool) : Merges (.bool b) (.bool b)
  | number (n : Number) : Merges (.number n) (.number n)
  | string (s : String) : Merges (.string s) (.string s)
  | sequence {items items' : List Value} (h : List.Forall₂ Merges items items') :
    Merges (.sequence items) (.sequence items')
  | tagged (tag : String) {v w : Value} (h : Merges v w) : Merges (.tagged tag v) (.tagged tag w)
  | mapping {es fs : Entries} {sources : List Entries} (hsources : es.MergesFrom sources)
    (h : ∀ k, Option.Rel Merges (es.mergedValue? sources k) (fs.get? k)) :
    Merges (.mapping es) (.mapping fs)

/-- The lookup among entries whose values have been merged. -/
theorem rel_get?_of_forall₂ {fs gs : Entries} {f : Value → Option Value}
    (h : List.Forall₂ (fun e e' => (f e.2).map (e.1, ·) = some e') fs gs) (k : Value) :
    Option.Rel (fun x y => f x = some y) (fs.get? k) (gs.get? k) := by
  induction h with
  | nil => exact .none
  | cons he _ ih =>
    obtain ⟨x, hx, rfl⟩ := Option.map_eq_some_iff.1 he
    rw [Entries.get?_cons, Entries.get?_cons]
    split
    · exact .some hx
    · exact ih

/-- The merge of a mapping: of its entries after its own merge the values are merged. -/
theorem exists_mapM_of_merge?_mapping {es : Entries} {w : Value}
    (hes : (Value.mapping es).IsProper) (h : (Value.mapping es).merge? = some w) :
    ∃ fs gs : Entries, es.merged? = some fs ∧
      fs.mapM (fun e => (e.2.merge?).map (e.1, ·)) = some gs ∧ w = .mapping gs := by
  rw [merge?_eq hes] at h
  simp only [mergeLevel?, Option.bind_eq_some_iff, Option.map_eq_some_iff] at h
  obtain ⟨fs, hfs, gs, hgs, rfl⟩ := h
  exact ⟨fs, gs, hfs, hgs, rfl⟩

/-- The merge of a mapping, key by key. -/
theorem exists_of_merge?_mapping {es : Entries} {sources : List Entries} {w : Value}
    (hes : (Value.mapping es).IsProper) (hsources : es.MergesFrom sources)
    (h : (Value.mapping es).merge? = some w) :
    ∃ gs : Entries, w = .mapping gs ∧
      ∀ k, Option.Rel (fun x y => x.merge? = some y) (es.mergedValue? sources k) (gs.get? k) := by
  obtain ⟨fs, gs, hfs, hgs, rfl⟩ := exists_mapM_of_merge?_mapping hes h
  obtain ⟨fs', hfs', -, hget⟩ := hes.merged hsources
  cases hfs.symm.trans hfs'
  exact ⟨gs, rfl, fun k => hget k ▸ rel_get?_of_forall₂ (mapM_eq_some_iff.1 hgs) k⟩

/-- What a merge gives. -/
theorem merges_of_merge? {v w : Value} (hv : v.IsProper) (h : v.merge? = some w) :
    Merges v w := by
  induction v using childInduction generalizing w with
  | step v ih =>
    -- what is met below the value is proper as well
    replace ih : ∀ u u', Child v u → u.merge? = some u' → Merges u u' :=
      fun u u' hu => ih u hu (hu.isProper hv)
    cases v with
    | null | bool | number | string =>
      rw [merge?_eq hv] at h
      cases h
      constructor
    | sequence items =>
      rw [merge?_eq hv] at h
      obtain ⟨ws, hws, rfl⟩ := Option.map_eq_some_iff.1 h
      have hitems : List.Forall₂ (fun x y => x ∈ items ∧ x.merge? = some y) items ws :=
        (List.forall₂_and_left _ _).2 ⟨fun _ hx => hx, mapM_eq_some_iff.1 hws⟩
      exact .sequence (hitems.imp fun x y ⟨hx, hy⟩ => ih x y (.item hx) hy)
    | tagged tag v =>
      rw [merge?_eq hv] at h
      obtain ⟨x, hx, rfl⟩ := Option.map_eq_some_iff.1 h
      exact .tagged tag (ih v x .inside hx)
    | mapping es =>
      obtain ⟨sources, hsources⟩ := ((exists_merge?_iff hv).1 ⟨w, h⟩).1 es rfl
      obtain ⟨gs, rfl, hget⟩ := exists_of_merge?_mapping hv hsources h
      exact .mapping hsources fun k =>
        rel_imp (hget k) fun x hx y _ hxy => ih x y (.entry hsources hx) hxy

/-! ## What is in the result -/

/-- What stands directly in a value: the items of a sequence, the value behind a tag, and the values
of a mapping. -/
inductive Part : Value → Value → Prop where
  | item {items : List Value} {w : Value} (h : w ∈ items) : Part (.sequence items) w
  | inside {tag : String} {w : Value} : Part (.tagged tag w) w
  | entry {es : Entries} {e : Value × Value} (h : e ∈ es) : Part (.mapping es) e.2

theorem part_sequence_iff {items : List Value} {w : Value} :
    Part (.sequence items) w ↔ w ∈ items := by
  constructor
  · rintro (h | _ | _)
    exact h
  · exact .item

theorem part_tagged_iff {tag : String} {v w : Value} : Part (.tagged tag v) w ↔ w = v := by
  constructor
  · rintro (_ | _ | _)
    rfl
  · rintro rfl
    exact .inside

theorem part_mapping_iff {es : Entries} {w : Value} :
    Part (.mapping es) w ↔ ∃ e ∈ es, e.2 = w := by
  constructor
  · rintro (_ | _ | ⟨h⟩)
    exact ⟨_, h, rfl⟩
  · rintro ⟨e, he, rfl⟩
    exact .entry he

/-- What stands in a value at any depth, the value itself included. -/
def Contains : Value → Value → Prop := Relation.ReflTransGen Part

/-- What stands directly in the result is what is met directly below the value, merged. -/
theorem part_iff {v w u' : Value} (hv : v.IsProper) (h : v.merge? = some w) :
    Part w u' ↔ ∃ u, Child v u ∧ u.merge? = some u' := by
  rw [merge?_eq hv] at h
  cases v with
  | null | bool | number | string =>
    cases h
    exact iff_of_false nofun (by rintro ⟨u, ⟨⟩, -⟩)
  | sequence items =>
    obtain ⟨ws, hws, rfl⟩ := Option.map_eq_some_iff.1 h
    simp only [part_sequence_iff, child_sequence_iff, mem_iff_of_mapM_eq_some hws]
  | tagged tag v =>
    obtain ⟨x, hx, rfl⟩ := Option.map_eq_some_iff.1 h
    simp [part_tagged_iff, child_tagged_iff, hx, eq_comm]
  | mapping es =>
    obtain ⟨fs, hfs, hmap⟩ := Option.bind_eq_some_iff.1 h
    obtain ⟨gs, hgs, rfl⟩ := Option.map_eq_some_iff.1 hmap
    simp only [part_mapping_iff, child_mapping_iff hv hfs, mem_iff_of_mapM_eq_some hgs,
      Option.map_eq_some_iff]
    constructor
    · rintro ⟨e', ⟨e, he, x, hx, rfl⟩, rfl⟩
      exact ⟨e.2, ⟨e, he, rfl⟩, hx⟩
    · rintro ⟨u, ⟨e, he, rfl⟩, hx⟩
      exact ⟨(e.1, u'), ⟨e, he, u', hx, rfl⟩, rfl⟩

/-- What stands in the result is what is reached, merged. -/
theorem contains_iff_reaches {v w u' : Value} (hv : v.IsProper) (h : v.merge? = some w) :
    w.Contains u' ↔ ∃ u, v.Reaches u ∧ u.merge? = some u' := by
  constructor
  · intro hu
    induction hu with
    | refl => exact ⟨v, .refl, h⟩
    | tail _ hpart ih =>
      obtain ⟨u, hreach, hmerge⟩ := ih
      obtain ⟨u', hchild, hmerge'⟩ := (part_iff (hreach.isProper hv) hmerge).1 hpart
      exact ⟨u', hreach.tail hchild, hmerge'⟩
  · rintro ⟨u, hreach, hmerge⟩
    induction hreach generalizing u' with
    | refl =>
      cases h.symm.trans hmerge
      exact .refl
    | tail hreach hchild ih =>
      obtain ⟨x, hx⟩ := Reaches.exists_merge? hreach hv h
      exact (ih hx).tail ((part_iff (Reaches.isProper hreach hv) hx).2 ⟨_, hchild, hmerge⟩)

/-! ## Where nothing is merged -/

/-- A mapping without the merge key is not changed. -/
theorem merged?_of_get?_eq_none {es : Entries} (h : es.get? mergeKey = none) :
    es.merged? = some es := by
  have hnone := Entries.get?_eq_none_iff.1 h
  simp [Entries.merged?, Entries.mergeSources?, h, Entries.erase_of_new hnone]

theorem mergeWith?_eq_self {v : Value}
    (h : ∀ es : Entries, v.Contains (.mapping es) → es.get? mergeKey = none) (n : Nat) :
    mergeWith? n v = some v := by
  induction v using Value.induction generalizing n with
  | null | bool | number | string => cases n <;> rfl
  | sequence items ih =>
    cases n with
    | zero => rfl
    | succ n =>
      have hitems : items.mapM (mergeWith? n) = some items :=
        mapM_eq_some_iff.2 (List.forall₂_same.2 fun x hx =>
          ih x hx (fun es hes => h es (.head (.item hx) hes)) n)
      simp [mergeWith?, hitems]
  | mapping es ih =>
    cases n with
    | zero => rfl
    | succ n =>
      have hvalues : es.mapM (fun e => (mergeWith? n e.2).map (e.1, ·)) = some es := by
        refine mapM_eq_some_iff.2 (List.forall₂_same.2 fun e he => ?_)
        simp [(ih e he).2 (fun fs hfs => h fs (.head (.entry he) hfs)) n]
      simp [mergeWith?, merged?_of_get?_eq_none (h es .refl), hvalues]
  | tagged tag v ih =>
    cases n with
    | zero => rfl
    | succ n => simp [mergeWith?, ih (fun es hes => h es (.head .inside hes)) n]

/-- Where no mapping has the merge key, a merge leaves a value as it is. -/
theorem merge?_eq_self {v : Value}
    (h : ∀ es : Entries, v.Contains (.mapping es) → es.get? mergeKey = none) :
    v.merge? = some v :=
  mergeWith?_eq_self h _

end Value

end Yaml

end RouteDocs
