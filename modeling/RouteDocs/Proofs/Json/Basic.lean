import RouteDocs.Document.Basic
import RouteDocs.Proofs.Dict

/-!
# The shape of JSON values

## Main definitions

* `Json.induction`: induction over a value.
* `Json.depth`: how deep arrays and objects nest.
* `Json.Everywhere`: a property of a value and of all values in it.
* `Json.IsFloatFree`: there is no double in the value.
* `Json.IsOrdered`: the members of all objects are in the order of their keys, as they are in every
  dictionary.
-/

namespace RouteDocs.Json

/-- Induction over a value: over the items of an array and the members of an object. -/
@[elab_as_elim]
theorem induction {P : Json → Prop} (null : P .null) (bool : ∀ b, P (.bool b))
    (number : ∀ n, P (.number n)) (string : ∀ s, P (.string s))
    (array : ∀ items, (∀ x ∈ items, P x) → P (.array items))
    (object : ∀ members : List (String × Json), (∀ m ∈ members, P m.2) → P (.object members))
    (j : Json) : P j :=
  @Json.rec P (fun items => ∀ x ∈ items, P x) (fun members => ∀ m ∈ members, P m.2)
    (fun m => P m.2) null bool number string array object
    (fun _ h => nomatch h) (fun _ _ hx hitems => List.forall_mem_cons.2 ⟨hx, hitems⟩)
    (fun _ h => nomatch h) (fun _ _ hm hmembers => List.forall_mem_cons.2 ⟨hm, hmembers⟩)
    (fun _ _ hx => hx) j

/-! ## Nesting -/

mutual

/-- How deep arrays and objects nest. -/
def depth : Json → Nat
  | .array items => itemsDepth items + 1
  | .object members => membersDepth members + 1
  | _ => 0

def itemsDepth : List Json → Nat
  | [] => 0
  | x :: items => max (depth x) (itemsDepth items)

def membersDepth : List (String × Json) → Nat
  | [] => 0
  | (_, x) :: members => max (depth x) (membersDepth members)

end

theorem itemsDepth_le_iff {n : Nat} {items : List Json} :
    itemsDepth items ≤ n ↔ ∀ x ∈ items, x.depth ≤ n := by
  induction items with
  | nil => simp [itemsDepth]
  | cons x items ih => rw [itemsDepth, Nat.max_le, ih, List.forall_mem_cons]

theorem membersDepth_le_iff {n : Nat} {members : List (String × Json)} :
    membersDepth members ≤ n ↔ ∀ m ∈ members, m.2.depth ≤ n := by
  induction members with
  | nil => simp [membersDepth]
  | cons m members ih => rw [membersDepth, Nat.max_le, ih, List.forall_mem_cons]

@[simp] theorem depth_array_le_succ_iff {n : Nat} {items : List Json} :
    (Json.array items).depth ≤ n + 1 ↔ ∀ x ∈ items, x.depth ≤ n := by
  simp [depth, itemsDepth_le_iff]

@[simp] theorem depth_object_le_succ_iff {n : Nat} {members : List (String × Json)} :
    (Json.object members).depth ≤ n + 1 ↔ ∀ m ∈ members, m.2.depth ≤ n := by
  simp [depth, membersDepth_le_iff]

theorem depth_array_le_iff {n : Nat} {items : List Json} :
    (Json.array items).depth ≤ n ↔ ∃ k, n = k + 1 ∧ ∀ x ∈ items, x.depth ≤ k := by
  cases n with
  | zero => simp [depth]
  | succ n => simp

theorem depth_object_le_iff {n : Nat} {members : List (String × Json)} :
    (Json.object members).depth ≤ n ↔ ∃ k, n = k + 1 ∧ ∀ m ∈ members, m.2.depth ≤ k := by
  cases n with
  | zero => simp [depth]
  | succ n => simp

theorem depth_ofDict_map_le_iff {α : Type} {n : Nat} {f : α → Json} {d : Dict α} :
    (ofDict (d.map f)).depth ≤ n ↔ ∃ k, n = k + 1 ∧ ∀ e ∈ d.toList, (f e.2).depth ≤ k := by
  simp only [ofDict, depth_object_le_iff, Dict.map, List.forall_mem_map]

/-! ## Properties of all values in a value -/

mutual

/-- The property holds of the value and of all values in it. -/
def Everywhere (p : Json → Prop) : Json → Prop
  | .array items => p (.array items) ∧ ItemsEverywhere p items
  | .object members => p (.object members) ∧ MembersEverywhere p members
  | .null => p .null
  | .bool b => p (.bool b)
  | .number n => p (.number n)
  | .string s => p (.string s)

def ItemsEverywhere (p : Json → Prop) : List Json → Prop
  | [] => True
  | x :: items => Everywhere p x ∧ ItemsEverywhere p items

def MembersEverywhere (p : Json → Prop) : List (String × Json) → Prop
  | [] => True
  | (_, x) :: members => Everywhere p x ∧ MembersEverywhere p members

end

variable {p : Json → Prop}

theorem everywhere_array_iff {items : List Json} :
    Everywhere p (.array items) ↔ p (.array items) ∧ ∀ x ∈ items, Everywhere p x := by
  have hitems : ItemsEverywhere p items ↔ ∀ x ∈ items, Everywhere p x := by
    induction items with
    | nil => simp [ItemsEverywhere]
    | cons x items ih => simp [ItemsEverywhere, ih]
  rw [Everywhere, hitems]

theorem everywhere_object_iff {members : List (String × Json)} :
    Everywhere p (.object members) ↔
      p (.object members) ∧ ∀ m ∈ members, Everywhere p m.2 := by
  have hmembers : MembersEverywhere p members ↔ ∀ m ∈ members, Everywhere p m.2 := by
    induction members with
    | nil => simp [MembersEverywhere]
    | cons m members ih => simp [MembersEverywhere, ih]
  rw [Everywhere, hmembers]

/-- The value is no double. -/
def NotFloat : Json → Prop
  | .number (.float _) => False
  | _ => True

/-- There is no double in the value. -/
def IsFloatFree (j : Json) : Prop := j.Everywhere NotFloat

/-- If the value is an object, its members are in the order of their keys, each with a key of its
own. -/
def MembersAscend : Json → Prop
  | .object members => members.Pairwise (·.1 < ·.1)
  | _ => True

/-- All objects in the value are dictionaries. -/
def IsOrdered (j : Json) : Prop := j.Everywhere MembersAscend

/-! ### Decidability -/

instance : DecidablePred NotFloat
  | .number (.float _) => isFalse id
  | .number (.whole _) | .null | .bool _ | .string _ | .array _ | .object _ => isTrue trivial

instance : DecidablePred MembersAscend
  | .object members => inferInstanceAs (Decidable (members.Pairwise (·.1 < ·.1)))
  | .number _ | .null | .bool _ | .string _ | .array _ => isTrue trivial

section

variable [DecidablePred p]

mutual

def decideEverywhere : (j : Json) → Decidable (Everywhere p j)
  | .array items => @instDecidableAnd _ _ _ (decideItems items)
  | .object members => @instDecidableAnd _ _ _ (decideMembers members)
  | .null => inferInstanceAs (Decidable (p .null))
  | .bool b => inferInstanceAs (Decidable (p (.bool b)))
  | .number n => inferInstanceAs (Decidable (p (.number n)))
  | .string s => inferInstanceAs (Decidable (p (.string s)))

def decideItems : (items : List Json) → Decidable (ItemsEverywhere p items)
  | [] => isTrue trivial
  | x :: items => @instDecidableAnd _ _ (decideEverywhere x) (decideItems items)

def decideMembers : (members : List (String × Json)) → Decidable (MembersEverywhere p members)
  | [] => isTrue trivial
  | (_, x) :: members => @instDecidableAnd _ _ (decideEverywhere x) (decideMembers members)

end

end

instance (j : Json) : Decidable j.IsFloatFree := decideEverywhere j

instance (j : Json) : Decidable j.IsOrdered := decideEverywhere j

/-! ### Arrays and objects -/

theorem isFloatFree_array_iff {items : List Json} :
    IsFloatFree (.array items) ↔ ∀ x ∈ items, IsFloatFree x := by
  simp [IsFloatFree, everywhere_array_iff, NotFloat]

theorem isFloatFree_object_iff {members : List (String × Json)} :
    IsFloatFree (.object members) ↔ ∀ m ∈ members, IsFloatFree m.2 := by
  simp [IsFloatFree, everywhere_object_iff, NotFloat]

theorem isFloatFree_ofDict_map_iff {α : Type} {f : α → Json} {d : Dict α} :
    IsFloatFree (ofDict (d.map f)) ↔ ∀ e ∈ d.toList, IsFloatFree (f e.2) := by
  simp only [ofDict, isFloatFree_object_iff, Dict.map, List.forall_mem_map]

theorem isOrdered_array_iff {items : List Json} :
    IsOrdered (.array items) ↔ ∀ x ∈ items, IsOrdered x := by
  simp [IsOrdered, everywhere_array_iff, MembersAscend]

theorem isOrdered_object_iff {members : List (String × Json)} :
    IsOrdered (.object members) ↔
      members.Pairwise (·.1 < ·.1) ∧ ∀ m ∈ members, IsOrdered m.2 := by
  simp [IsOrdered, everywhere_object_iff, MembersAscend]

/-- An object whose members are in order is rebuilt from them. -/
theorem ofMembers_eq {members : List (String × Json)} (h : members.Pairwise (·.1 < ·.1)) :
    ofMembers members = .object members := by
  rw [ofMembers, ofDict, Dict.toList_ofList h]

theorem isOrdered_ofDict_iff {d : Dict Json} :
    (ofDict d).IsOrdered ↔ ∀ e ∈ d.toList, e.2.IsOrdered := by
  rw [ofDict, isOrdered_object_iff]
  exact and_iff_right d.ascending

theorem isOrdered_ofMembers {members : List (String × Json)} (h : ∀ m ∈ members, m.2.IsOrdered) :
    (ofMembers members).IsOrdered :=
  isOrdered_ofDict_iff.2 (Dict.forall_mem_ofList h)

theorem isOrdered_emptyObject : emptyObject.IsOrdered :=
  isOrdered_object_iff.2 ⟨.nil, fun _ h => nomatch h⟩

end RouteDocs.Json
