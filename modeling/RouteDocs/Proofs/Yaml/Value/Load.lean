import RouteDocs.Proofs.Gives
import RouteDocs.Proofs.Yaml.Value.Entries
import RouteDocs.Yaml.Value.Load

/-!
# What a text can be read as

However often a text repeats a key, in the value that is read the keys of every mapping are
distinct.

## Main definition

* `Value.IsScalar`: there are no collections in the value.

## Main statements

* `Scalar.gives_load?`: a scalar is read as a value without collections.
* `Value.isProper_of_read?`: the keys of every mapping that is read are distinct.
-/

namespace RouteDocs.Yaml

/-! ## Scalars -/

namespace Value

/-- There are no collections in the value. -/
inductive IsScalar : Value → Prop where
  | null : IsScalar .null
  | bool (b : Bool) : IsScalar (.bool b)
  | number (n : Number) : IsScalar (.number n)
  | string (s : String) : IsScalar (.string s)
  | tagged (tag : String) {v : Value} (h : IsScalar v) : IsScalar (.tagged tag v)

theorem IsScalar.isProper {v : Value} (h : v.IsScalar) : v.IsProper := by
  induction h with
  | null => exact .null
  | bool b => exact .bool b
  | number n => exact .number n
  | string s => exact .string s
  | tagged tag _ ih => exact .tagged tag ih

end Value

namespace Plain

theorem isScalar_of_value? {s : List Char} {v : Value} (h : value? s = some v) : v.IsScalar := by
  have hwide : (value?.wide s).IsScalar := by
    unfold value?.wide
    split
    · exact .number _
    · exact .string _
  unfold value? at h
  split at h
  · cases h
    exact .null
  · split at h
    · cases h
      exact .bool _
    · split at h
      · split at h
        · cases h
        · split at h
          · cases h
            exact .number _
          · cases h
            exact hwide
      · cases h
        exact hwide

end Plain

namespace Scalar

theorem gives_value? (s : Scalar) : Gives Value.IsScalar s.value? := by
  apply gives_option_iff.2
  intro v h
  simp only [value?] at h
  split at h
  · unfold value?.untagged at h
    split at h
    · exact Plain.isScalar_of_value? h
    · cases h
      exact .string _
  · split at h
    · obtain ⟨b, -, rfl⟩ := Option.map_eq_some_iff.1 h
      exact .bool b
    · split at h
      · obtain ⟨n, -, h⟩ := Option.bind_eq_some_iff.1 h
        obtain ⟨w, -, rfl⟩ := Option.map_eq_some_iff.1 h
        exact .number _
      · split at h
        · obtain ⟨x, -, rfl⟩ := Option.map_eq_some_iff.1 h
          exact .number _
        · split at h
          · split at h
            · cases h
              exact .null
            · cases h
          · cases h
            exact .string _

/-- A scalar is read as a value without collections. -/
theorem gives_load? (s : Scalar) : Gives Value.IsScalar s.load? := by
  apply gives_option_iff.2
  intro v h
  unfold load? at h
  split at h
  · obtain ⟨w, hw, rfl⟩ := Option.map_eq_some_iff.1 h
    exact .tagged _ (gives_option_iff.1 (gives_value? _) w hw)
  · exact gives_option_iff.1 (gives_value? s) v h

end Scalar

/-! ## Collections -/

theorem Value.IsProper.withTag {v : Value} (hv : v.IsProper) (tag : Option String) :
    (v.withTag tag).IsProper := by
  unfold Value.withTag
  split
  · exact .tagged _ hv
  · exact hv

theorem Tree.gives_load (t : Tree) (depth : Nat) (n : Node Nat) :
    Gives Value.IsProper (t.load depth n) := by
  have hfail : Gives Value.IsProper (failure : Reading Value) := ⟨failure, rfl⟩
  have hscalar : ∀ s : Scalar, Gives Value.IsProper (StateT.lift s.load? : Reading Value) := fun s =>
    .lift ((Scalar.gives_load? s).imp fun _ => Value.IsScalar.isProper)
  induction depth generalizing n with
  | zero =>
    unfold Tree.load
    apply Gives.bind_of_forall
    intro n
    split
    · exact hscalar _
    · exact hfail
  | succ depth ih =>
    unfold Tree.load
    apply Gives.bind_of_forall
    intro n
    split
    · exact hscalar _
    · exact hfail
    · exact (Gives.mapM _ ih).bind fun items hitems => .pure ((Value.IsProper.sequence hitems).withTag _)
    · have hentry : ∀ e : Node Nat × Node Nat, Gives (fun f : Value × Value => f.1.IsProper ∧ f.2.IsProper)
          (do return (← t.load depth e.1, ← t.load depth e.2)) := fun e =>
        (ih e.1).bind fun k hk => (ih e.2).bind fun x hx => .pure ⟨hk, hx⟩
      exact (Gives.mapM _ hentry).bind fun es hes => .pure ((Value.IsProper.ofList hes).withTag _)

/-- The keys of every mapping that is read are distinct. -/
theorem Value.isProper_of_read? {text : List Char} {v : Value} (h : Value.read? text = some v) :
    v.IsProper := by
  obtain ⟨t, -, h⟩ := Option.bind_eq_some_iff.1 h
  split at h
  · cases h
    exact .null
  · exact gives_option_iff.1 ((t.gives_load _ _).run' t.aliasLimit) v h

end RouteDocs.Yaml
