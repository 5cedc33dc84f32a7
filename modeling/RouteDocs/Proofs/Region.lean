import RouteDocs.Proofs.Yaml.Value.Repeated
import RouteDocs.Region

/-!
# Merge keys and repeated keys in the text of a region

A region is read with its merges resolved: what a mapping says itself wins over what is merged into
it, and an earlier source over a later one. Of the sources of a mapping one layer is merged, so a
merge key that a source brings in is left in the result.

Before that, the keys that a mapping repeats are resolved: each is kept once. Where there are no
merge keys, nothing else changes.

## Main definitions

* `Entries.Overlays`: what a mapping holds after its merge.
* `Region.Resolves`: what is read from a region whose text is valid YAML.

## Main statements

* `Region.resolves_of_read?`: how the merges of a region are resolved, and when they are not.
* `Region.exists_mergeKey_iff`: which merge keys stay.
* `Region.keeps_read?`: what is kept of repeated keys.
-/

namespace RouteDocs

open Yaml

/-! ## Precedence -/

namespace Yaml.Entries

/-- The entries `gs` are what a mapping `es` becomes that `sources` are merged into, all its values
merged in turn. Nothing is said about the merge key. -/
structure Overlays (es : Entries) (sources : List Entries) (gs : Entries) : Prop where
  /-- A key is there if the mapping or a source has it. -/
  has : ∀ k, mergeKey.same k = false →
    ((gs.get? k).isSome ↔ (es.get? k).isSome ∨ ∃ fs ∈ sources, (fs.get? k).isSome)
  /-- What the mapping has itself is kept, wherever the merge key stands. -/
  own : ∀ k x, mergeKey.same k = false → es.get? k = some x →
    ∃ y, x.merge? = some y ∧ gs.get? k = some y
  /-- Any other value is that of the first source with the key. -/
  first : ∀ k x before fs after, mergeKey.same k = false → es.get? k = none →
    sources = before ++ fs :: after → (∀ f ∈ before, f.get? k = none) → fs.get? k = some x →
    ∃ y, x.merge? = some y ∧ gs.get? k = some y

variable {es gs : Entries} {sources : List Entries} {k x : Value}

theorem mergedValue?_of_get?_eq_some (hk : mergeKey.same k = false) (h : es.get? k = some x) :
    es.mergedValue? sources k = some x := by
  simp [mergedValue?, hk, h]

theorem mergedValue?_of_get?_eq_none (h : es.get? k = none) :
    es.mergedValue? sources k = sources.findSome? (·.get? k) := by
  simp [mergedValue?, h]

/-- The merge key itself is taken from the sources only. -/
theorem mergedValue?_mergeKey :
    es.mergedValue? sources mergeKey = sources.findSome? (·.get? mergeKey) := by
  rw [mergedValue?, if_pos (Value.same_refl _), Option.none_or]

theorem isSome_mergedValue?_iff (hk : mergeKey.same k = false) :
    (es.mergedValue? sources k).isSome ↔
      (es.get? k).isSome ∨ ∃ fs ∈ sources, (fs.get? k).isSome := by
  simp [mergedValue?, hk]

/-- A mapping that is merged key by key is overlaid. -/
theorem overlays_of_rel
    (h : ∀ k, Option.Rel (fun x y => x.merge? = some y) (es.mergedValue? sources k) (gs.get? k)) :
    es.Overlays sources gs := by
  have htaken : ∀ k x, es.mergedValue? sources k = some x →
      ∃ y, x.merge? = some y ∧ gs.get? k = some y := by
    intro k x hx
    have hk := h k
    rw [hx] at hk
    generalize gs.get? k = y at hk
    cases hk with
    | some hy => exact ⟨_, hy, rfl⟩
  refine ⟨fun k hk => ?_, fun k x hk hx => ?_, fun k x before fs after _ hnone hs hbefore hx => ?_⟩
  · rw [← isSome_mergedValue?_iff hk, isSome_eq_of_rel (h k)]
  · exact htaken k x (mergedValue?_of_get?_eq_some hk hx)
  · refine htaken k x ((mergedValue?_of_get?_eq_none hnone).trans ?_)
    exact List.findSome?_eq_some_iff.2 ⟨before, fs, after, hs, hx, hbefore⟩

end Yaml.Entries

namespace Yaml.Value

variable {v w : Value} {es gs : Entries} {sources : List Entries}

/-- Every reached mapping has its place in the result, overlaid on its sources. -/
theorem Reaches.exists_overlays (h : v.Reaches (.mapping es)) (hv : v.IsProper)
    (hw : v.merge? = some w) (hsources : es.MergesFrom sources) :
    ∃ gs : Entries, w.Contains (.mapping gs) ∧ es.Overlays sources gs := by
  obtain ⟨u, hu⟩ := h.exists_merge? hv hw
  obtain ⟨gs, rfl, hget⟩ := exists_of_merge?_mapping (h.isProper hv) hsources hu
  exact ⟨gs, (contains_iff_reaches hv hw).2 ⟨_, h, hu⟩, Entries.overlays_of_rel hget⟩

/-! ## Merge keys that stay -/

/-- Only a mapping is merged into a mapping. -/
theorem exists_of_merge?_eq_mapping (hv : v.IsProper) (h : v.merge? = some (.mapping gs)) :
    ∃ (es : Entries) (sources : List Entries), v = .mapping es ∧ es.MergesFrom sources := by
  cases merges_of_merge? hv h with
  | mapping hsources => exact ⟨_, _, rfl, hsources⟩

/-- A merged mapping has the merge key exactly if a source has it. -/
theorem isSome_get?_mergeKey_iff (hes : (Value.mapping es).IsProper)
    (hsources : es.MergesFrom sources) (h : (Value.mapping es).merge? = some (.mapping gs)) :
    (gs.get? mergeKey).isSome ↔ ∃ fs ∈ sources, (fs.get? mergeKey).isSome := by
  obtain ⟨gs', hgs, hget⟩ := exists_of_merge?_mapping hes hsources h
  cases hgs
  rw [← isSome_eq_of_rel (hget mergeKey), Entries.mergedValue?_mergeKey,
    List.findSome?_isSome_iff]

/-- There is a merge key in the result exactly if a source of a reached mapping has one. -/
theorem exists_contains_mergeKey_iff (hv : v.IsProper) (hw : v.merge? = some w) :
    (∃ gs : Entries, w.Contains (.mapping gs) ∧ (gs.get? mergeKey).isSome) ↔
      ∃ (es : Entries) (sources : List Entries), v.Reaches (.mapping es) ∧
        es.MergesFrom sources ∧ ∃ fs ∈ sources, (fs.get? mergeKey).isSome := by
  constructor
  · rintro ⟨gs, hgs, hsome⟩
    obtain ⟨u, hreach, hmerge⟩ := (contains_iff_reaches hv hw).1 hgs
    obtain ⟨es, sources, rfl, hsources⟩ := exists_of_merge?_eq_mapping (hreach.isProper hv) hmerge
    exact ⟨es, sources, hreach, hsources,
      (isSome_get?_mergeKey_iff (hreach.isProper hv) hsources hmerge).1 hsome⟩
  · rintro ⟨es, sources, hreach, hsources, hsome⟩
    obtain ⟨u, hmerge⟩ := hreach.exists_merge? hv hw
    obtain ⟨gs, rfl, -⟩ := exists_of_merge?_mapping (hreach.isProper hv) hsources hmerge
    exact ⟨gs, (contains_iff_reaches hv hw).2 ⟨_, hreach, hmerge⟩,
      (isSome_get?_mergeKey_iff (hreach.isProper hv) hsources hmerge).2 hsome⟩

end Yaml.Value

/-! ## Regions -/

namespace Region

/-- What a region holds whose value is `w` after the merges. -/
def holding (region : Region) : Value → Logged (Option Entries)
  | .mapping es => { result := some es }
  | .null => { result := some [] }
  | _ => { result := some [], log := [.notMapping region] }

/-- What is read from a region whose text is valid YAML with the value `v`. -/
structure Resolves (region : Region) (text : List Char) (v : Value) : Prop where
  /-- Nothing is read, with this warning alone, if a reached mapping has under its merge key
  something that is neither a mapping nor a sequence of mappings only. -/
  fails_iff : region.read text = ⟨none, [.unresolvableMerge region]⟩ ↔
    ∃ es : Entries, v.Reaches (.mapping es) ∧ ∀ sources, ¬es.MergesFrom sources
  /-- Otherwise the merged value is read, and every reached mapping has its place in it. -/
  reads : (∀ es : Entries, v.Reaches (.mapping es) → ∃ sources, es.MergesFrom sources) →
    ∃ w, v.Merges w ∧ region.read text = region.holding w ∧
      ∀ (es : Entries) (sources : List Entries), v.Reaches (.mapping es) → es.MergesFrom sources →
        ∃ gs : Entries, w.Contains (.mapping gs) ∧ es.Overlays sources gs

variable {region : Region} {text : List Char} {v w : Value}

theorem read_of_merge?_eq_none (h : Value.read? (Text.dedent text) = some v)
    (hmerge : v.merge? = none) : region.read text = ⟨none, [.unresolvableMerge region]⟩ := by
  simp [read, h, hmerge]

theorem read_of_merge?_eq_some (h : Value.read? (Text.dedent text) = some v)
    (hmerge : v.merge? = some w) : region.read text = region.holding w := by
  simp only [read, h, hmerge]
  cases w <;> rfl

theorem isSome_result_holding (region : Region) (w : Value) :
    (region.holding w).result.isSome := by
  cases w <;> rfl

/-- The merges of a region are resolved with the precedence of `Entries.Overlays`, unless there is a
merge that cannot be resolved. -/
theorem resolves_of_read? (region : Region) {text : List Char} {v : Value}
    (h : Value.read? (Text.dedent text) = some v) : region.Resolves text v := by
  have hv := Value.isProper_of_read? h
  refine ⟨?_, fun hmerges => ?_⟩
  · rw [← Value.merge?_eq_none_iff hv]
    refine ⟨fun hread => ?_, read_of_merge?_eq_none h⟩
    cases hmerge : v.merge? with
    | none => rfl
    | some w =>
      have hsome := isSome_result_holding region w
      rw [← read_of_merge?_eq_some h hmerge, hread] at hsome
      cases hsome
  · obtain ⟨w, hw⟩ := (Value.exists_merge?_iff_reaches hv).2 hmerges
    exact ⟨w, Value.merges_of_merge? hv hw, read_of_merge?_eq_some h hw,
      fun es sources hes hsources => hes.exists_overlays hv hw hsources⟩

/-- A text in which a mapping overrides a value of its only source. -/
def overriding : String := "base: &base {a: 1, b: 2}\nlast: {b: 3, <<: *base}\n"

theorem resolves_of_read?_overriding :
    ∃ v, Value.read? (Text.dedent overriding.toList) = some v ∧
      routeComment.Resolves overriding.toList v := by
  have hsome : (Value.read? (Text.dedent overriding.toList)).isSome = true := by decide +kernel
  obtain ⟨v, hv⟩ := Option.isSome_iff_exists.1 hsome
  exact ⟨v, hv, resolves_of_read? routeComment hv⟩

/-- The text of a region that a mapping is read from is valid YAML that can be merged. If it holds no
mapping, then an empty one is read. -/
theorem exists_of_result_read {es : Entries} (h : (region.read text).result = some es) :
    ∃ v w, Value.read? (Text.dedent text) = some v ∧ v.merge? = some w ∧
      (w = .mapping es ∨ (∀ fs : Entries, w ≠ .mapping fs) ∧ es = []) := by
  cases hread : Value.read? (Text.dedent text) with
  | none => simp [read, hread] at h
  | some v =>
    cases hmerge : v.merge? with
    | none => simp [read_of_merge?_eq_none hread hmerge] at h
    | some w =>
      rw [read_of_merge?_eq_some hread hmerge] at h
      refine ⟨v, w, rfl, hmerge, ?_⟩
      cases w with
      | mapping fs =>
        cases h
        exact .inl rfl
      | null | bool | number | string | sequence | tagged =>
        cases h
        refine .inr ⟨?_, rfl⟩
        intro fs heq
        cases heq

/-- An empty mapping contains no merge key. -/
theorem not_exists_mergeKey_nil :
    ¬∃ gs : Entries, (Value.mapping []).Contains (.mapping gs) ∧ (gs.get? mergeKey).isSome := by
  rintro ⟨gs, hgs, hsome⟩
  rcases Relation.ReflTransGen.cases_head hgs with heq | ⟨u, hpart, -⟩
  · cases heq
    simp at hsome
  · cases hpart with
    | entry he => cases he

/-- There is a merge key in the mapping that is read from a region exactly if the source of a merge
has one itself: of the sources of a mapping one layer is merged. -/
theorem exists_mergeKey_iff {region : Region} {text : List Char} {es : Entries}
    (h : (region.read text).result = some es) :
    (∃ gs : Entries, (Value.mapping es).Contains (.mapping gs) ∧ (gs.get? mergeKey).isSome) ↔
      ∃ root : Entries, Value.read? (Text.dedent text) = some (.mapping root) ∧
        ∃ (fs : Entries) (sources : List Entries), (Value.mapping root).Reaches (.mapping fs) ∧
          fs.MergesFrom sources ∧ ∃ source ∈ sources, (source.get? mergeKey).isSome := by
  obtain ⟨v, w, hread, hmerge, hw⟩ := exists_of_result_read h
  have hv := Value.isProper_of_read? hread
  rcases hw with rfl | ⟨hw, rfl⟩
  · obtain ⟨root, -, rfl, -⟩ := Value.exists_of_merge?_eq_mapping hv hmerge
    rw [Value.exists_contains_mergeKey_iff hv hmerge]
    constructor
    · exact fun hreach => ⟨root, hread, hreach⟩
    · rintro ⟨root', hroot, hreach⟩
      cases hread.symm.trans hroot
      exact hreach
  · refine iff_of_false not_exists_mergeKey_nil ?_
    rintro ⟨root, hroot, -⟩
    cases hread.symm.trans hroot
    cases Value.merges_of_merge? hv hmerge with
    | mapping => exact hw _ rfl

/-- A text in which the source of a merge has a merge key. -/
def chained : String :=
  "base: &base {a: 1}\nmore: &more {<<: *base}\nlast: {<<: *more}\n"

theorem exists_mergeKey_iff_chained :
    ∃ es, (routeComment.read chained.toList).result = some es ∧
      ((∃ gs : Entries, (Value.mapping es).Contains (.mapping gs) ∧ (gs.get? mergeKey).isSome) ↔
        ∃ root : Entries, Value.read? (Text.dedent chained.toList) = some (.mapping root) ∧
          ∃ (fs : Entries) (sources : List Entries), (Value.mapping root).Reaches (.mapping fs) ∧
            fs.MergesFrom sources ∧ ∃ source ∈ sources, (source.get? mergeKey).isSome) := by
  have hsome : (routeComment.read chained.toList).result.isSome = true := by decide +kernel
  obtain ⟨es, hes⟩ := Option.isSome_iff_exists.1 hsome
  exact ⟨es, hes, exists_mergeKey_iff hes⟩

theorem mergeKey_chained :
    ∃ es gs : Entries, (routeComment.read chained.toList).result = some es ∧
      (Value.mapping es).Contains (.mapping gs) ∧ (gs.get? mergeKey).isSome := by
  have hsome : ((routeComment.read chained.toList).result.bind fun es =>
      (Entries.field? es "last").bind fun last => last.entries?.bind fun gs =>
        gs.get? mergeKey).isSome = true := by decide +kernel
  simp only [Option.isSome_iff_exists, Option.bind_eq_some_iff] at hsome
  obtain ⟨x, es, hes, last, hlast, gs, hgs, hx⟩ := hsome
  obtain ⟨e, he, -, rfl⟩ := Entries.exists_mem_of_get?_eq_some hlast
  have hpart : Value.Part (.mapping es) (.mapping gs) :=
    Value.entries?_eq_some_iff.1 hgs ▸ .entry he
  exact ⟨es, gs, hes, .single hpart, by rw [hx]; rfl⟩

/-! ### Repeated keys -/

/-- Every text that can be read with all entries of its mappings can be loaded, and no other. In
every mapping, at any depth and also in the keys, each key is kept once: at the place of its first
entry, with the value of its last one. Where there is no merge key, this is what a region holds. -/
theorem keeps_read? (text : List Char) :
    Option.Rel Value.Keeps (Value.readAll? text) (Value.read? text) ∧
      ∀ all, Value.readAll? text = some all → all.LacksMergeKey →
        ∃ v, Value.read? text = some v ∧ all.Keeps v ∧
          ∀ (region : Region) (source : List Char), Text.dedent source = text →
            region.read source = region.holding v := by
  rw [Value.read?_eq_map_readAll?]
  constructor
  · cases Value.readAll? text with
    | none => exact .none
    | some all => exact .some all.keeps_keepLast
  · intro all hall hlacks
    refine ⟨all.keepLast, by rw [hall, Option.map_some], all.keeps_keepLast, ?_⟩
    rintro region source rfl
    refine read_of_merge?_eq_some ?_ hlacks.merge?_keepLast
    rw [Value.read?_eq_map_readAll?, hall, Option.map_some]

/-- A text with a repeated key. -/
def repeatedKey : String := "a: 1\nb: 2\na: 3\n"

theorem keeps_read?_repeatedKey :
    ∃ all, Value.readAll? repeatedKey.toList = some all ∧ all.LacksMergeKey ∧
      ∃ v, Value.read? repeatedKey.toList = some v ∧ all.Keeps v ∧
        ∀ (region : Region) (source : List Char), Text.dedent source = repeatedKey.toList →
          region.read source = region.holding v := by
  have hsome : ((Value.readAll? repeatedKey.toList).bind Value.entries?).any (fun es =>
      es.all fun e => !e.1.same mergeKey && e.2.depth == 0) = true := by decide +kernel
  simp only [Option.any_eq_true, Option.bind_eq_some_iff, Value.entries?_eq_some_iff,
    List.all_eq_true, Bool.and_eq_true, Bool.not_eq_true', beq_iff_eq] at hsome
  obtain ⟨es, ⟨all, hall, rfl⟩, hes⟩ := hsome
  have hlacks : (Value.mapping es).LacksMergeKey := by
    intro fs hfs e he heq
    rcases Relation.ReflTransGen.cases_head hfs with hself | ⟨w, hpart, hw⟩
    · cases hself
      simpa [heq, Value.same_refl] using (hes e he).1
    · -- the values are scalars, so nothing stands in them
      obtain ⟨f, hf, rfl⟩ := Value.part_mapping_iff.1 hpart
      have hdepth := (hes f hf).2
      generalize f.2 = x at hdepth hw
      rcases Relation.ReflTransGen.cases_head hw with rfl | ⟨u, hpart, -⟩
      · simp [Value.depth] at hdepth
      · cases hpart <;> simp [Value.depth] at hdepth
  exact ⟨_, hall, hlacks, (keeps_read? repeatedKey.toList).2 _ hall hlacks⟩

/-- A text with keys that are spelled alike and are different, and keys that are spelled differently
and are the same. -/
def spelledKeys : String :=
  "1: a\n'1': b\n1.0: c\n0x1: d\n? {x: 1, x: 2}\n: e\n? {x: 2}\n: f\n"

/-- The keys `1`, `'1'` and `1.0` are three, but `0x1` is the first of them again. So is a mapping
that is the same as another once its own repeats are resolved. -/
theorem entries_read?_spelledKeys :
    ∃ es : Entries, Value.read? spelledKeys.toList = some (.mapping es) ∧
      es.map Prod.snd = ["d", "b", "c", "f"].map Value.string := by
  have hread : ((Value.read? spelledKeys.toList).bind Value.entries?).any (fun es =>
      Value.sameItems (es.map Prod.snd) (["d", "b", "c", "f"].map Value.string)) = true := by
    decide +kernel
  simp only [Option.any_eq_true, Option.bind_eq_some_iff, Value.entries?_eq_some_iff,
    Value.sameItems_iff, List.forall₂_map_right_iff, Value.same_string_right_iff] at hread
  obtain ⟨es, ⟨_, hes, rfl⟩, hvalues⟩ := hread
  refine ⟨es, hes, ?_⟩
  rwa [← List.forall₂_eq_eq_eq, List.forall₂_map_right_iff]

end Region

end RouteDocs
