import RouteDocs.Proofs.Json.Basic

/-!
# The last string of a JSON value

## Main definitions

* `Json.lastString?`: the string at the end of a value.
* `Json.mapLast`: the value with another string at its end.

## Main statements

* `Json.lastInduction`: induction from the last value in a collection.
* `Json.mapLast_eq_self_iff`: when the value stays the same.
-/

namespace RouteDocs.Json

/-! ## Definitions -/

mutual

/-- The string that a value ends with, if it ends with one. -/
def lastString? : Json → Option String
  | .string s => some s
  | .array items => lastItemString? items
  | .object members => lastMemberString? members
  | .null | .bool _ | .number _ => none

def lastItemString? : List Json → Option String
  | [] => none
  | [x] => lastString? x
  | _ :: y :: items => lastItemString? (y :: items)

def lastMemberString? : List (String × Json) → Option String
  | [] => none
  | [(_, x)] => lastString? x
  | _ :: m :: members => lastMemberString? (m :: members)

end

mutual

/-- Changes the string that a value ends with, if it ends with one. -/
def mapLast (f : String → String) : Json → Json
  | .string s => .string (f s)
  | .array items => .array (mapLastItem f items)
  | .object members => .object (mapLastMember f members)
  | .null => .null
  | .bool b => .bool b
  | .number n => .number n

def mapLastItem (f : String → String) : List Json → List Json
  | [] => []
  | [x] => [mapLast f x]
  | x :: y :: items => x :: mapLastItem f (y :: items)

def mapLastMember (f : String → String) : List (String × Json) → List (String × Json)
  | [] => []
  | [(k, x)] => [(k, mapLast f x)]
  | m :: n :: members => m :: mapLastMember f (n :: members)

end

/-! ## Collections -/

/-- Induction from the last item of an array and the last member of an object. -/
@[elab_as_elim]
theorem lastInduction {P : Json → Prop} (null : P .null) (bool : ∀ b, P (.bool b))
    (number : ∀ n, P (.number n)) (string : ∀ s, P (.string s)) (nil : P (.array []))
    (array : ∀ (init : List Json) (x : Json), P x → P (.array (init ++ [x])))
    (empty : P (.object []))
    (object : ∀ (init : List (String × Json)) (m : String × Json), P m.2 →
      P (.object (init ++ [m])))
    (j : Json) : P j := by
  induction j using Json.induction with
  | null => exact null
  | bool b => exact bool b
  | number n => exact number n
  | string s => exact string s
  | array items ih =>
    rcases List.eq_nil_or_concat items with rfl | ⟨init, x, rfl⟩
    · exact nil
    · rw [List.concat_eq_append] at ih ⊢
      exact array init x (ih x (by simp))
  | object members ih =>
    rcases List.eq_nil_or_concat members with rfl | ⟨init, m, rfl⟩
    · exact empty
    · rw [List.concat_eq_append] at ih ⊢
      exact object init m (ih m (by simp))

variable {f : String → String}

theorem lastString?_array (init : List Json) (x : Json) :
    (Json.array (init ++ [x])).lastString? = x.lastString? := by
  induction init with
  | nil => rfl
  | cons y init ih => cases init <;> exact ih

theorem lastString?_object (init : List (String × Json)) (m : String × Json) :
    (Json.object (init ++ [m])).lastString? = m.2.lastString? := by
  induction init with
  | nil => rfl
  | cons n init ih => cases init <;> exact ih

theorem mapLast_array (f : String → String) (init : List Json) (x : Json) :
    (Json.array (init ++ [x])).mapLast f = .array (init ++ [x.mapLast f]) := by
  have hitems : mapLastItem f (init ++ [x]) = init ++ [x.mapLast f] := by
    induction init with
    | nil => rfl
    | cons y init ih => cases init <;> exact congrArg (y :: ·) ih
  rw [mapLast, hitems]

theorem mapLast_object (f : String → String) (init : List (String × Json)) (m : String × Json) :
    (Json.object (init ++ [m])).mapLast f = .object (init ++ [(m.1, m.2.mapLast f)]) := by
  have hmembers : mapLastMember f (init ++ [m]) = init ++ [(m.1, m.2.mapLast f)] := by
    induction init with
    | nil => rfl
    | cons n init ih => cases init <;> exact congrArg (n :: ·) ih
  rw [mapLast, hmembers]

/-- A value stays the same exactly if the string at its end does. -/
theorem mapLast_eq_self_iff {j : Json} : j.mapLast f = j ↔ ∀ s ∈ j.lastString?, f s = s := by
  induction j using lastInduction with
  | null | bool | number | nil | empty => simp [mapLast, mapLastItem, mapLastMember, lastString?,
      lastItemString?, lastMemberString?]
  | string s => simp [mapLast, lastString?]
  | array init x ih => simp [mapLast_array, lastString?_array, ih]
  | object init m ih => simpa [mapLast_object, lastString?_object, Prod.ext_iff] using ih

/-! ## What is kept -/

theorem depth_mapLast_le {j : Json} {n : Nat} (h : j.depth ≤ n) : (j.mapLast f).depth ≤ n := by
  induction j using lastInduction generalizing n with
  | null | bool | number | nil | empty | string => exact h
  | array init x ih =>
    obtain ⟨n, rfl, hitems⟩ := depth_array_le_iff.1 h
    rw [List.forall_mem_append, List.forall_mem_singleton] at hitems
    rw [mapLast_array, depth_array_le_succ_iff, List.forall_mem_append, List.forall_mem_singleton]
    exact ⟨hitems.1, ih hitems.2⟩
  | object init m ih =>
    obtain ⟨n, rfl, hmembers⟩ := depth_object_le_iff.1 h
    rw [List.forall_mem_append, List.forall_mem_singleton] at hmembers
    rw [mapLast_object, depth_object_le_succ_iff, List.forall_mem_append,
      List.forall_mem_singleton]
    exact ⟨hmembers.1, ih hmembers.2⟩

/-- A property of all values in a value is kept if it holds of every string, and of an array or
object whatever its values are. -/
theorem everywhere_mapLast {p : Json → Prop} (hstring : ∀ s, p (.string s))
    (harray : ∀ items items', p (.array items) → p (.array items'))
    (hobject : ∀ members members' : List (String × Json),
      members.map Prod.fst = members'.map Prod.fst → p (.object members) → p (.object members'))
    {j : Json} (h : j.Everywhere p) : (j.mapLast f).Everywhere p := by
  induction j using lastInduction with
  | null | bool | number | nil | empty => exact h
  | string s => exact hstring _
  | array init x ih =>
    rw [mapLast_array]
    rw [everywhere_array_iff] at h ⊢
    refine ⟨harray _ _ h.1, ?_⟩
    have hitems := h.2
    simp only [List.forall_mem_append, List.forall_mem_singleton] at hitems ⊢
    exact ⟨hitems.1, ih hitems.2⟩
  | object init m ih =>
    rw [mapLast_object]
    rw [everywhere_object_iff] at h ⊢
    refine ⟨hobject _ _ (by simp) h.1, ?_⟩
    have hmembers := h.2
    simp only [List.forall_mem_append, List.forall_mem_singleton] at hmembers ⊢
    exact ⟨hmembers.1, ih hmembers.2⟩

theorem isFloatFree_mapLast {j : Json} (h : j.IsFloatFree) : (j.mapLast f).IsFloatFree :=
  everywhere_mapLast (fun _ => trivial) (fun _ _ _ => trivial) (fun _ _ _ _ => trivial) h

theorem isOrdered_mapLast {j : Json} (h : j.IsOrdered) : (j.mapLast f).IsOrdered := by
  refine everywhere_mapLast (fun _ => trivial) (fun _ _ _ => trivial) ?_ h
  intro members members' hkeys hmembers
  have hascend : (members.map Prod.fst).Pairwise (· < ·) := List.pairwise_map.2 hmembers
  rw [hkeys] at hascend
  exact List.pairwise_map.1 hascend

end RouteDocs.Json
