import Mathlib.Data.List.Forall2
import Mathlib.Data.List.Induction
import RouteDocs.Proofs.Yaml.Value.Load
import RouteDocs.Proofs.Yaml.Value.Merge

/-!
# Repeated keys

A mapping may be written with a key that comes more than once. It is loaded with each key once: at
the place of its first entry, and with the value of its last one. Two keys are the same if the
values that they are loaded as are. So repeats inside a key are resolved before it is compared.

A text can also be read with all entries of its mappings, and then no key is compared with another.
What is loaded is this value with its repeats resolved. So repeated keys are never the reason that a
text cannot be loaded.

## Main definitions

* `Entries.firsts`, `Entries.last?`: the first entry and the last value of each key.
* `Entries.KeepsLast`: what is kept of entries with repeated keys.
* `Value.keepLast`: a value with the repeats of all its mappings resolved.
* `Value.Keeps`: what the resolved value is, mapping by mapping.
* `Value.LacksMergeKey`: no mapping that stands in a value has the merge key.
* `Value.readAll?`: the value of a text, with all entries of its mappings.

## Main statements

* `Entries.keepsLast_ofList`: what is kept when entries are inserted one by one.
* `Value.keeps_keepLast`: the repeats of every mapping are resolved.
* `Value.LacksMergeKey.merge?_keepLast`: where there is no merge key, nothing else changes.
* `Value.read?_eq_map_readAll?`: a text is loaded by resolving the repeats in it.
-/

namespace RouteDocs

theorem mapM_eq_map_mapM {m : Type → Type} [Monad m] [LawfulMonad m] {α β γ : Type} {f : α → m γ}
    {g : α → m β} {r : β → γ} {as : List α} (h : ∀ a, f a = r <$> g a) :
    as.mapM f = List.map r <$> as.mapM g := by
  induction as with
  | nil => simp
  | cons a as ih => simp [h, ih]

namespace Yaml

/-! ## The entries of one mapping -/

namespace Entries

/-- The entries that are the first ones with their key. -/
def firsts : Entries → Entries
  | [] => []
  | e :: es => e :: (firsts es).filter fun f => !e.1.same f.1

/-- The value of the last entry with a key. -/
def last? (es : Entries) (k : Value) : Option Value := get? es.reverse k

/-- Of entries with repeated keys each key is kept once, at the place of its first entry, with the
value of its last entry. -/
structure KeepsLast (es fs : Entries) : Prop where
  /-- No key is kept twice. -/
  distinct : fs.Distinct
  /-- The keys are those of the first entries, in their order. -/
  keys_eq : fs.map Prod.fst = es.firsts.map Prod.fst
  /-- Under every key is the value of its last entry. -/
  get?_eq : ∀ k, fs.get? k = es.last? k

variable {es fs : Entries} {e : Value × Value} {k l x : Value}

theorem mem_of_mem_firsts (h : e ∈ es.firsts) : e ∈ es := by
  induction es with
  | nil => exact h
  | cons f es ih =>
    rcases List.mem_cons.1 h with rfl | h
    · exact List.mem_cons_self
    · exact List.mem_cons_of_mem _ (ih (List.mem_filter.1 h).1)

/-- Every key is that of a first entry. -/
theorem exists_mem_firsts (h : e ∈ es) : ∃ f ∈ es.firsts, f.1.same e.1 = true := by
  induction es with
  | nil => cases h
  | cons g es ih =>
    cases hge : g.1.same e.1 with
    | true => exact ⟨g, List.mem_cons_self, hge⟩
    | false =>
      rcases List.mem_cons.1 h with rfl | h
      · simp [Value.same_refl] at hge
      · obtain ⟨f, hf, hfe⟩ := ih h
        refine ⟨f, List.mem_cons_of_mem _ (List.mem_filter.2 ⟨hf, ?_⟩), hfe⟩
        -- otherwise the key would be the same as that of `g`
        cases hgf : g.1.same f.1 with
        | false => rfl
        | true => simp [Value.same_trans hgf hfe] at hge

theorem firsts_append_singleton (es : Entries) (e : Value × Value) :
    (es ++ [e]).firsts =
      if es.any (·.1.same e.1) then es.firsts else es.firsts ++ [e] := by
  induction es with
  | nil => rfl
  | cons f es ih =>
    rw [List.cons_append, firsts, ih, List.any_cons]
    cases hfe : f.1.same e.1 <;> cases hes : es.any (·.1.same e.1) <;> simp [firsts, hfe]

theorem last?_append_singleton (es : Entries) (e : Value × Value) (k : Value) :
    (es ++ [e]).last? k = if e.1.same k then some e.2 else es.last? k := by
  simp [last?, get?_cons]

theorem isSome_last?_iff : (es.last? k).isSome ↔ ∃ e ∈ es, e.1.same k = true := by
  simp [last?, isSome_get?_iff]

theorem exists_mem_of_last?_eq_some (h : es.last? k = some x) :
    ∃ e ∈ es, e.1.same k = true ∧ e.2 = x := by
  simpa using exists_mem_of_get?_eq_some h

theorem ofList_append_singleton (es : Entries) (e : Value × Value) :
    ofList (es ++ [e]) = (ofList es).insert e.1 e.2 := by
  simp [ofList]

/-- What stands at a key after a value is set at one. -/
theorem get?_insert (hes : (Value.mapping es).IsProper) (hk : k.IsProper) :
    (es.insert k x).get? l = if k.same l then some x else es.get? l := by
  have hparts := (Value.IsProper.mapping_iff.1 hes).2
  -- an entry that is found at `l` would have the key `k` as well
  have hfound : ∀ f : Value × Value, k.same l = true → f.1.same k = false → f.1.same l = false := by
    intro f hkl hfk
    cases hfl : f.1.same l with
    | false => rfl
    | true => simp [Value.same_trans hfl (Value.same_symm hk hkl)] at hfk
  rcases insert_cases es k x with ⟨hnew, h⟩ | ⟨front, e, back, rfl, hfront, he, h⟩
  · rw [h, get?_append, get?_cons, get?_nil]
    split
    · rename_i hkl
      have hnone : es.get? l = none := get?_eq_none_iff.2 fun f hf => hfound f hkl (hnew f hf)
      rw [hnone, Option.none_or]
    · rw [Option.or_none]
  · rw [h, get?_append, get?_append, get?_cons, get?_cons]
    have hel : e.1.same l = k.same l := by
      rw [Bool.eq_iff_iff]
      exact ⟨Value.same_trans (Value.same_symm (hparts e (by simp)).1 he), Value.same_trans he⟩
    rw [hel]
    split
    · rename_i hkl
      have hnone : get? front l = none := get?_eq_none_iff.2 fun f hf => hfound f hkl (hfront f hf)
      simp [hnone]
    · rfl

theorem get?_ofList (hes : ∀ e ∈ es, e.1.IsProper ∧ e.2.IsProper) :
    (ofList es).get? k = es.last? k := by
  induction es using List.reverseRecOn with
  | nil => rfl
  | append_singleton es e ih =>
    have hparts : ∀ f ∈ es, f.1.IsProper ∧ f.2.IsProper := fun f hf => hes f (by simp [hf])
    rw [ofList_append_singleton, get?_insert (.ofList hparts) (hes e (by simp)).1, ih hparts,
      last?_append_singleton]

theorem map_fst_ofList (hes : ∀ e ∈ es, e.1.IsProper ∧ e.2.IsProper) :
    (ofList es).map Prod.fst = es.firsts.map Prod.fst := by
  induction es using List.reverseRecOn with
  | nil => rfl
  | append_singleton es e ih =>
    have hparts : ∀ f ∈ es, f.1.IsProper ∧ f.2.IsProper := fun f hf => hes f (by simp [hf])
    have hany : es.any (·.1.same e.1) = true ↔ ∃ f ∈ ofList es, f.1.same e.1 = true := by
      rw [← isSome_get?_iff, get?_ofList hparts, isSome_last?_iff, List.any_eq_true]
    rw [ofList_append_singleton, firsts_append_singleton]
    rcases insert_cases (ofList es) e.1 e.2 with ⟨hnew, h⟩ | ⟨front, f, back, hsplit, -, hf, h⟩
    · have hnone : ¬es.any (·.1.same e.1) = true := by
        rw [hany]
        rintro ⟨f, hf, hfe⟩
        simp [hnew f hf] at hfe
      rw [h, if_neg hnone, List.map_append, List.map_append, ih hparts]
    · rw [h, if_pos (hany.2 ⟨f, by simp [hsplit], hf⟩), ← ih hparts, hsplit]
      simp

/-- What is kept when entries are inserted one by one. -/
theorem keepsLast_ofList (hes : ∀ e ∈ es, e.1.IsProper ∧ e.2.IsProper) :
    es.KeepsLast (ofList es) where
  distinct := (Value.IsProper.mapping_iff.1 (.ofList hes)).1
  keys_eq := map_fst_ofList hes
  get?_eq _ := get?_ofList hes

end Entries

/-! ## All mappings of a value -/

namespace Value

mutual

/-- The value with the repeats of all its mappings resolved, first inside their keys and values. -/
def keepLast : Value → Value
  | .sequence items => .sequence (keepLastItems items)
  | .mapping es => .mapping (Entries.ofList (keepLastEntries es))
  | .tagged tag v => .tagged tag (keepLast v)
  | v => v

def keepLastItems : List Value → List Value
  | [] => []
  | x :: xs => keepLast x :: keepLastItems xs

/-- The entries with resolved keys and values. None of them is left out. -/
def keepLastEntries : Entries → Entries
  | [] => []
  | (k, x) :: es => (keepLast k, keepLast x) :: keepLastEntries es

end

theorem keepLastItems_eq_map (items : List Value) : keepLastItems items = items.map keepLast := by
  induction items with
  | nil => rfl
  | cons x items ih => rw [keepLastItems, ih, List.map_cons]

theorem keepLastEntries_eq_map (es : Entries) :
    keepLastEntries es = es.map fun e => (e.1.keepLast, e.2.keepLast) := by
  induction es with
  | nil => rfl
  | cons e es ih => rw [keepLastEntries, ih, List.map_cons]

/-- A value with repeated keys, and the value without them. Of the entries of a mapping, with their
own repeats resolved, those of `Entries.KeepsLast` are left. -/
inductive Keeps : Value → Value → Prop where
  | null : Keeps .null .null
  | bool (b : Bool) : Keeps (.bool b) (.bool b)
  | number (n : Number) : Keeps (.number n) (.number n)
  | string (s : String) : Keeps (.string s) (.string s)
  | sequence {items items' : List Value} (h : List.Forall₂ Keeps items items') :
    Keeps (.sequence items) (.sequence items')
  | tagged (tag : String) {v w : Value} (h : Keeps v w) : Keeps (.tagged tag v) (.tagged tag w)
  | mapping {es es' fs : Entries}
    (hkeys : List.Forall₂ Keeps (es.map Prod.fst) (es'.map Prod.fst))
    (hvalues : List.Forall₂ Keeps (es.map Prod.snd) (es'.map Prod.snd))
    (hlast : es'.KeepsLast fs) : Keeps (.mapping es) (.mapping fs)

theorem isProper_keepLast (v : Value) : v.keepLast.IsProper := by
  induction v using Value.induction with
  | null => exact .null
  | bool b => exact .bool b
  | number n => exact .number n
  | string s => exact .string s
  | sequence items ih =>
    rw [keepLast, keepLastItems_eq_map]
    exact .sequence (List.forall_mem_map.2 ih)
  | mapping es ih =>
    rw [keepLast, keepLastEntries_eq_map]
    exact .ofList (List.forall_mem_map.2 ih)
  | tagged tag v ih => exact .tagged tag ih

theorem isProper_of_mem_keepLastEntries {es : Entries} {e : Value × Value}
    (h : e ∈ keepLastEntries es) : e.1.IsProper ∧ e.2.IsProper := by
  rw [keepLastEntries_eq_map] at h
  obtain ⟨f, -, rfl⟩ := List.mem_map.1 h
  exact ⟨isProper_keepLast f.1, isProper_keepLast f.2⟩

/-- The repeats of every mapping are resolved. -/
theorem keeps_keepLast (v : Value) : v.Keeps v.keepLast := by
  induction v using Value.induction with
  | null => exact .null
  | bool b => exact .bool b
  | number n => exact .number n
  | string s => exact .string s
  | sequence items ih =>
    rw [keepLast, keepLastItems_eq_map]
    exact .sequence (List.forall₂_map_right_iff.2 (List.forall₂_same.2 ih))
  | mapping es ih =>
    refine .mapping ?_ ?_
      (Entries.keepsLast_ofList fun e he => isProper_of_mem_keepLastEntries he)
    all_goals
      rw [keepLastEntries_eq_map, List.map_map, List.forall₂_map_left_iff,
        List.forall₂_map_right_iff, List.forall₂_same]
    · exact fun e he => (ih e he).1
    · exact fun e he => (ih e he).2
  | tagged tag v ih => exact .tagged tag ih

theorem IsScalar.keepLast_eq {v : Value} (h : v.IsScalar) : v.keepLast = v := by
  induction h with
  | null | bool | number | string => rfl
  | tagged tag _ ih => rw [keepLast, ih]

theorem keepLast_withTag (tag : Option String) (v : Value) :
    (v.withTag tag).keepLast = v.keepLast.withTag tag := by
  unfold withTag
  split <;> rfl

/-! ### Merge keys -/

/-- No mapping that stands in the value has the merge key. -/
def LacksMergeKey (v : Value) : Prop :=
  ∀ es : Entries, v.Contains (.mapping es) → ∀ e ∈ es, e.1 ≠ mergeKey

theorem keepLast_eq_mergeKey_iff {v : Value} : v.keepLast = mergeKey ↔ v = mergeKey := by
  cases v <;> simp [keepLast, mergeKey]

/-- What stands directly in a value without repeats stands in the value, with its repeats. -/
theorem exists_part_of_part_keepLast {v w : Value} (h : v.keepLast.Part w) :
    ∃ u, v.Part u ∧ u.keepLast = w := by
  cases v with
  | null | bool | number | string => cases h
  | sequence items =>
    rw [keepLast, part_sequence_iff, keepLastItems_eq_map, List.mem_map] at h
    obtain ⟨x, hx, rfl⟩ := h
    exact ⟨x, .item hx, rfl⟩
  | mapping es =>
    rw [keepLast, part_mapping_iff] at h
    obtain ⟨f, hf, rfl⟩ := h
    -- the value of the entry is the last one of its key
    have hproper : IsProper (.mapping (Entries.ofList (keepLastEntries es))) :=
      .ofList fun e he => isProper_of_mem_keepLastEntries he
    have hlast := hproper.get?_eq_some_iff.2 ⟨f, hf, same_refl f.1, rfl⟩
    rw [Entries.get?_ofList fun e he => isProper_of_mem_keepLastEntries he] at hlast
    obtain ⟨g, hg, -, hgf⟩ := Entries.exists_mem_of_last?_eq_some hlast
    rw [keepLastEntries_eq_map] at hg
    obtain ⟨e, he, rfl⟩ := List.mem_map.1 hg
    exact ⟨e.2, .entry he, hgf⟩
  | tagged tag v =>
    rw [keepLast, part_tagged_iff] at h
    exact ⟨v, .inside, h.symm⟩

theorem exists_contains_of_contains_keepLast {v w : Value} (h : v.keepLast.Contains w) :
    ∃ u, v.Contains u ∧ u.keepLast = w := by
  induction h with
  | refl => exact ⟨v, .refl, rfl⟩
  | tail _ hpart ih =>
    obtain ⟨x, hx, rfl⟩ := ih
    obtain ⟨y, hy, rfl⟩ := exists_part_of_part_keepLast hpart
    exact ⟨y, hx.tail hy, rfl⟩

/-- Where there is no merge key, nothing is merged after the repeats are resolved. -/
theorem LacksMergeKey.merge?_keepLast {v : Value} (h : v.LacksMergeKey) :
    v.keepLast.merge? = some v.keepLast := by
  refine merge?_eq_self fun fs hfs => ?_
  obtain ⟨u, hu, heq⟩ := exists_contains_of_contains_keepLast hfs
  cases u with
  | mapping es =>
    cases heq
    rw [Entries.get?_ofList fun e he => isProper_of_mem_keepLastEntries he,
      ← Option.not_isSome_iff_eq_none, Entries.isSome_last?_iff, keepLastEntries_eq_map]
    rintro ⟨f, hf, hkey⟩
    obtain ⟨e, he, rfl⟩ := List.mem_map.1 hf
    exact h es hu e he (keepLast_eq_mergeKey_iff.1 (same_string_right_iff.1 hkey))
  | null | bool | number | string | sequence | tagged => cases heq

end Value

/-! ## Texts -/

namespace Tree

/-- The value of a node with all entries of its mappings, in which at most `depth` collections
nest. -/
def loadAll (t : Tree) : (depth : Nat) → Node Nat → Reading Value
  | 0, n => do
    match ← t.follow n with
    | .scalar _ s => StateT.lift s.load?
    | _ => failure
  | depth + 1, n => do
    match ← t.follow n with
    | .scalar _ s => StateT.lift s.load?
    | .alias _ => failure
    | .sequence _ tag items =>
      let items ← items.mapM (loadAll t depth)
      return .withTag tag (.sequence items)
    | .mapping _ tag entries =>
      let entries ← entries.mapM fun (k, x) => return (← loadAll t depth k, ← loadAll t depth x)
      return .withTag tag (.mapping entries)

/-- There is nothing to resolve in a scalar. -/
theorem map_keepLast_lift (s : Scalar) :
    Value.keepLast <$> (StateT.lift s.load? : Reading Value) = StateT.lift s.load? := by
  cases hs : s.load? with
  | none => rfl
  | some v =>
    have hscalar := gives_option_iff.1 (Scalar.gives_load? s) v hs
    ext
    simp [hscalar.keepLast_eq]

/-- A node is loaded by resolving the repeats in it. -/
theorem load_eq_map_loadAll (t : Tree) (depth : Nat) (n : Node Nat) :
    t.load depth n = Value.keepLast <$> t.loadAll depth n := by
  induction depth generalizing n with
  | zero =>
    rw [load, loadAll, map_bind]
    refine bind_congr fun n => ?_
    rcases n with ⟨-, s⟩ | _ | _ | _
    · exact (map_keepLast_lift s).symm
    all_goals rfl
  | succ depth ih =>
    rw [load, loadAll, map_bind]
    refine bind_congr fun n => ?_
    rcases n with ⟨-, s⟩ | _ | _ | _
    · exact (map_keepLast_lift s).symm
    · rfl
    · simp [mapM_eq_map_mapM ih, Value.keepLast_withTag, Value.keepLast,
        Value.keepLastItems_eq_map]
    · have hentry : ∀ e : Node Nat × Node Nat,
          (do let k ← t.load depth e.1; Prod.mk k <$> t.load depth e.2) =
            (fun f : Value × Value => (f.1.keepLast, f.2.keepLast)) <$>
              (do let k ← t.loadAll depth e.1; Prod.mk k <$> t.loadAll depth e.2) := fun e => by
        simp [ih]
      simp [mapM_eq_map_mapM hentry, Value.keepLast_withTag, Value.keepLast,
        Value.keepLastEntries_eq_map]

end Tree

/-- The value of a text, with all entries of its mappings. -/
def Value.readAll? (text : List Char) : Option Value := do
  let t ← Tree.read? text
  match t.root with
  | none => return .null
  | some n => (t.loadAll Tree.depthLimit n).run' t.aliasLimit

/-- A text is loaded by resolving the repeats in it. -/
theorem Value.read?_eq_map_readAll? (text : List Char) :
    Value.read? text = (Value.readAll? text).map Value.keepLast := by
  unfold read? readAll?
  cases Tree.read? text with
  | none => rfl
  | some t =>
    simp only [Option.bind_eq_bind, Option.bind_some]
    cases t.root with
    | none => rfl
    | some n => simp [Tree.load_eq_map_loadAll, Function.comp_def]

end Yaml

end RouteDocs
