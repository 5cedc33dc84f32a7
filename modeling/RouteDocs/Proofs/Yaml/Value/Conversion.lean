import RouteDocs.Proofs.Yaml.Value.Json
import RouteDocs.Proofs.Yaml.Value.Last

/-!
# What YAML values become in JSON

Null, booleans, strings and whole numbers stay what they are, a tag is left out, and a sequence
becomes an array. A mapping becomes an object. The names of its members are the texts of the keys,
and of the keys with the same text the last one counts.

So a JSON value that is written as a YAML value comes back, in whatever order its members are
written.

## Main definitions

* `Value.Becomes`: a value, and what it becomes.
* `Value.Represents`: a value that is written for a JSON value.

## Main statements

* `Value.becomes_iff`: what the conversion gives.
* `Value.Represents.becomes`: a JSON value comes back.
* `Value.toJson_faithful`: the conversion loses nothing that JSON has.
-/

namespace RouteDocs.Yaml.Value

/-- What a value becomes in JSON. -/
inductive Becomes : Value → Json → Prop where
  | null : Becomes .null .null
  | bool (b : Bool) : Becomes (.bool b) (.bool b)
  | whole (n : Whole) : Becomes (.number (.whole n)) (.number (.whole n))
  | finite {x : Float} (h : x.isFinite = true) :
    Becomes (.number (.float x)) (.number (.float x))
  | nonFinite {x : Float} (h : x.isFinite = false) : Becomes (.number (.float x)) .null
  | string (s : String) : Becomes (.string s) (.string s)
  | sequence {items : List Value} {js : List Json} (h : List.Forall₂ Becomes items js) :
    Becomes (.sequence items) (.array js)
  | tagged (tag : String) {v : Value} {j : Json} (h : Becomes v j) : Becomes (.tagged tag v) j
  /-- The names are the texts of the keys. Under each of them is what the last entry whose key has
  this text becomes. -/
  | mapping {es : Entries} {d : Dict Json}
    (hkeys : ∀ s, (d.get? s).isSome ↔ ∃ e ∈ es, e.1.keyString = s)
    (hvalues : ∀ s e j, IsLast (fun f => f.1.keyString = s) es e → d.get? s = some j →
      Becomes e.2 j) : Becomes (.mapping es) (.object d.toList)

/-- The value is written for a JSON value. Its objects are written as mappings with the names as
keys, in any order. -/
inductive Represents : Value → Json → Prop where
  | null : Represents .null .null
  | bool (b : Bool) : Represents (.bool b) (.bool b)
  | number (n : Number) : Represents (.number n) (.number n)
  | string (s : String) : Represents (.string s) (.string s)
  | array {items : List Value} {js : List Json} (h : List.Forall₂ Represents items js) :
    Represents (.sequence items) (.array js)
  | object {es : Entries} {members : List (String × Json)}
    (hkeys : (es.map Prod.fst).Perm (members.map fun m => .string m.1))
    (hvalues : ∀ e ∈ es, ∀ m ∈ members, e.1 = .string m.1 → Represents e.2 m.2) :
    Represents (.mapping es) (.object members)

variable {v : Value} {j : Json} {es : Entries}

/-! ## The conversion -/

/-- The member with a given name. -/
theorem get?_ofList_entriesToJson_eq_some_iff {s : String} :
    (Dict.ofList (entriesToJson es)).get? s = some j ↔
      ∃ e, IsLast (fun f => f.1.keyString = s) es e ∧ e.2.toJson = j := by
  rw [Dict.get?_ofList, entriesToJson_eq_map, lastValue?_map_eq_some_iff]

theorem becomes_toJson (v : Value) : v.Becomes v.toJson := by
  induction v using Value.induction with
  | null => exact .null
  | bool b => exact .bool b
  | number n =>
    cases n with
    | whole n => exact .whole n
    | float x =>
      rw [toJson, numberJson]
      split
      next h => exact .finite h
      next h => exact .nonFinite (by simpa using h)
  | string s => exact .string s
  | sequence items ih =>
    rw [toJson, itemsToJson_eq_map]
    exact .sequence (List.forall₂_map_right_iff.2 (List.forall₂_same.2 ih))
  | mapping es ih =>
    refine .mapping (fun s => ?_) fun s e j he hj => ?_
    · rw [Dict.get?_ofList, entriesToJson_eq_map, Dict.isSome_lastValue?_iff]
      simp
    · obtain ⟨f, hf, rfl⟩ := get?_ofList_entriesToJson_eq_some_iff.1 hj
      obtain rfl := he.unique hf
      exact (ih e he.mem).2
  | tagged tag v ih => exact .tagged tag ih

/-- A value becomes nothing else. -/
theorem Becomes.toJson_eq (h : v.Becomes j) : v.toJson = j := by
  induction v using Value.induction generalizing j with
  | null | bool | string =>
    cases h
    rfl
  | number n =>
    cases h with
    | whole => rfl
    | finite h => simp [toJson, numberJson, h]
    | nonFinite h => simp [toJson, numberJson, h]
  | sequence items ih =>
    cases h with
    | sequence h =>
      have hitems : List.Forall₂ (fun x k => x.toJson = k) items _ :=
        ((List.forall₂_and_left items _).2 ⟨fun x hx k => ih x hx (j := k), h⟩).imp
          fun x k hxk => hxk.1 k hxk.2
      rw [← List.forall₂_map_left_iff (R := Eq), List.forall₂_eq_eq_eq] at hitems
      rw [toJson, itemsToJson_eq_map, hitems]
  | mapping es ih =>
    cases h with
    | mapping hkeys hvalues =>
      rename_i d
      have hdict : Dict.ofList (entriesToJson es) = d := by
        refine Dict.ext_get? fun s => Option.ext fun x => ?_
        rw [get?_ofList_entriesToJson_eq_some_iff]
        constructor
        · rintro ⟨e, he, rfl⟩
          obtain ⟨y, hy⟩ := Option.isSome_iff_exists.1 ((hkeys s).2 ⟨e, he.mem, he.prop⟩)
          rw [hy, (ih e he.mem).2 (hvalues s e y he hy)]
        · intro hx
          obtain ⟨e, he⟩ := exists_isLast ((hkeys s).1 (Option.isSome_iff_exists.2 ⟨x, hx⟩))
          exact ⟨e, he, (ih e he.mem).2 (hvalues s e x he hx)⟩
      rw [toJson, Json.ofMembers, Json.ofDict, hdict]
  | tagged tag v ih =>
    cases h with
    | tagged _ h => exact ih h

theorem becomes_iff : v.Becomes j ↔ v.toJson = j := by
  constructor
  · exact Becomes.toJson_eq
  · rintro rfl
    exact becomes_toJson v

/-! ## JSON values -/

/-- A JSON value comes back. -/
theorem Represents.becomes (h : v.Represents j) (hfree : j.IsFloatFree) (hordered : j.IsOrdered) :
    v.Becomes j := by
  induction j using Json.induction generalizing v with
  | null =>
    cases h
    exact .null
  | bool b =>
    cases h
    exact .bool b
  | number n =>
    cases h
    cases n with
    | whole n => exact .whole n
    | float x => exact absurd hfree id
  | string s =>
    cases h
    exact .string s
  | array items ih =>
    cases h with
    | array h =>
      have hfree := Json.isFloatFree_array_iff.1 hfree
      have hordered := Json.isOrdered_array_iff.1 hordered
      have hitems := (List.forall₂_and_left items _).2
        ⟨fun x hx v hv => ih x hx (v := v) hv (hfree x hx) (hordered x hx), h.flip⟩
      exact .sequence (hitems.imp fun x v hxv => hxv.1 v hxv.2).flip
  | object members ih =>
    cases h with
    | object hkeys hvalues =>
      rename_i es
      obtain ⟨hascend, hordered⟩ := Json.isOrdered_object_iff.1 hordered
      have hfree := Json.isFloatFree_object_iff.1 hfree
      have hmem : ∀ k, (∃ e ∈ es, e.1 = k) ↔ ∃ m ∈ members, .string m.1 = k := fun k => by
        simpa using hkeys.mem_iff (a := k)
      obtain ⟨d, rfl⟩ : ∃ d : Dict Json, d.toList = members := ⟨⟨members, hascend⟩, rfl⟩
      refine .mapping (fun s => ?_) fun s e x he hx => ?_
      · rw [Option.isSome_iff_exists]
        constructor
        · rintro ⟨x, hx⟩
          obtain ⟨e, he, hes⟩ := (hmem (.string s)).2 ⟨_, Dict.mem_toList_iff.2 hx, rfl⟩
          exact ⟨e, he, by rw [hes, keyString]⟩
        · rintro ⟨e, he, rfl⟩
          obtain ⟨m, hm, hme⟩ := (hmem e.1).1 ⟨e, he, rfl⟩
          rw [← hme, keyString]
          exact ⟨m.2, Dict.mem_toList_iff.1 hm⟩
      · obtain ⟨m, hm, hme⟩ := (hmem e.1).1 ⟨e, he.mem, rfl⟩
        have hname : m.1 = s := by
          have hprop : e.1.keyString = s := he.prop
          rwa [← hme, keyString] at hprop
        subst hname
        have hm' := Dict.mem_toList_iff.2 hx
        exact ih _ hm' (hvalues e he.mem _ hm' hme.symm) (hfree _ hm') (hordered _ hm')

/-- The value that a JSON value is written as is one of those. -/
theorem represents_ofJson (hordered : j.IsOrdered) : (ofJson j).Represents j := by
  induction j using Json.induction with
  | null => exact .null
  | bool b => exact .bool b
  | number n => exact .number n
  | string s => exact .string s
  | array items ih =>
    rw [ofJson, itemsOfJson_eq_map]
    refine .array (List.forall₂_map_left_iff.2 (List.forall₂_same.2 fun x hx => ?_))
    exact ih x hx (Json.isOrdered_array_iff.1 hordered x hx)
  | object members ih =>
    obtain ⟨hascend, hordered⟩ := Json.isOrdered_object_iff.1 hordered
    rw [ofJson, membersOfJson_eq_map]
    refine .object ?_ ?_
    · simp [Function.comp_def]
    · intro e he m hm hkey
      obtain ⟨n, hn, rfl⟩ := List.mem_map.1 he
      obtain rfl : n = m := Dict.eq_of_fst_eq (d := ⟨members, hascend⟩) hn hm (string.inj hkey)
      exact ih n hn (hordered n hn)

/-- A value is the same back in JSON. -/
theorem toJson_ofJson (hfree : j.IsFloatFree) (hordered : j.IsOrdered) : (ofJson j).toJson = j :=
  ((represents_ofJson hordered).becomes hfree hordered).toJson_eq

/-- What the conversion gives. A JSON value without doubles can be written as a value, and in
whatever order its members are written, it comes back. -/
theorem toJson_faithful :
    (∀ v j, Becomes v j ↔ v.toJson = j) ∧
      ∀ j : Json, j.IsFloatFree → j.IsOrdered →
        (∃ v, Represents v j) ∧ ∀ v, Represents v j → v.toJson = j :=
  ⟨fun _ _ => becomes_iff, fun j hfree hordered =>
    ⟨⟨ofJson j, represents_ofJson hordered⟩, fun _ h => (h.becomes hfree hordered).toJson_eq⟩⟩

theorem toJson_faithful_swapped :
    Represents (.mapping [(.string "b", .sequence [.bool true]), (.string "a", .null)])
        (.object [("a", .null), ("b", .array [.bool true])]) ∧
      toJson (.mapping [(.string "b", .sequence [.bool true]), (.string "a", .null)]) =
        .object [("a", .null), ("b", .array [.bool true])] := by
  have hvalues : Represents (.sequence [.bool true]) (.array [.bool true]) :=
    .array (.cons (.bool true) .nil)
  have h : Represents (.mapping [(.string "b", .sequence [.bool true]), (.string "a", .null)])
      (.object [("a", .null), ("b", .array [.bool true])]) := by
    refine .object (.swap _ _ _) fun e he m hm hkey => ?_
    simp only [List.mem_cons, List.not_mem_nil, or_false] at he hm
    rcases he with rfl | rfl <;> rcases hm with rfl | rfl
    · simp at hkey
    · exact hvalues
    · exact .null
    · simp at hkey
  exact ⟨h, (toJson_faithful.2 _ (by decide) (by decide)).2 _ h⟩

end RouteDocs.Yaml.Value
