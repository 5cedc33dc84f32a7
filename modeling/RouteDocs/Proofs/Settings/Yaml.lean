import RouteDocs.Proofs.Yaml.Reading
import RouteDocs.Settings.Yaml

/-!
# What a configuration file says

A configuration file is white space, or a record in YAML. What a field of the record says is set,
and what the record does not have is left out. A text that is anything else sets nothing: it is not
read.

## Main definition

* `Configuration.IsGivenBy`: the configuration that a text stands for, without reference to the
  computation that reads it.

## Main statement

* `Configuration.read?_eq_some_iff`: what is read from a text.
-/

namespace RouteDocs

open Yaml

namespace Configuration

/-- The configuration has what the members of a record say, each under its name. -/
structure IsShownBy (t : Tree) (members : List (String × Node Nat)) (c : Configuration) : Prop where
  openapiVersion : t.HasField members "openapi_version" c.openapiVersion
  title : t.HasField members "title" c.title
  description : t.HasField members "description" c.description
  placeholderType : t.HasField members "placeholder_schema_type" c.placeholderType
  placeholderSample : t.HasField members "placeholder_example" c.placeholderSample

/-- The text is white space and sets nothing, or it is valid YAML, and its root is a record that
shows the configuration. A text without a root is a record that is left out. -/
inductive IsGivenBy (text : String) : Configuration → Prop
  | blank (h : ∀ ch ∈ text.toList, Text.isSpace ch = true) : IsGivenBy text {}
  | record {t : Tree} {members : List (String × Node Nat)} {c : Configuration}
      (hsolid : ∃ ch ∈ text.toList, Text.isSpace ch = false)
      (ht : Tree.read? text.toList = some t)
      (hmembers : t.HasMembers (t.root.getD .nothing) members) (hc : c.IsShownBy t members) :
      IsGivenBy text c

/-! ## Reading a record -/

variable {t : Tree} {text : String} {c : Configuration}

/-- The values of the fields. -/
def values (c : Configuration) : List (Option String) :=
  [c.openapiVersion, c.title, c.description, c.placeholderType, c.placeholderSample]

theorem isShownBy_iff {members : List (String × Node Nat)} :
    c.IsShownBy t members ↔ List.Forall₂ (t.HasField members)
      ["openapi_version", "title", "description", "placeholder_schema_type", "placeholder_example"]
      c.values := by
  constructor
  · intro h
    exact .cons h.openapiVersion (.cons h.title (.cons h.description (.cons h.placeholderType
      (.cons h.placeholderSample .nil))))
  · rintro (_ | ⟨h₁, _ | ⟨h₂, _ | ⟨h₃, _ | ⟨h₄, _ | ⟨h₅, -⟩⟩⟩⟩⟩)
    exact ⟨h₁, h₂, h₃, h₄, h₅⟩

/-- A record is read as the configuration that it shows. -/
theorem yields_decode (t : Tree) (depth : Nat) {bound : Nat} {n : Node Nat}
    (hbound : ∀ anchor tag entries, t.StandsFor n (.mapping anchor tag entries) →
      entries.length ≤ bound) :
    Yields (1 + bound + 5) (decode t.view ⟨depth + 1, n⟩)
      (fun c => ∃ members, t.HasMembers n members ∧ c.IsShownBy t members) := by
  have hstring : ∀ value : Option Inside, Yields 1 (value.mapM t.view.string)
      (Option.Rel (fun y s => t.HasText y.node s) value) := fun value =>
    .optionMapM value fun y => t.yields_string y.node
  have hfields := t.yields_fields ["openapi_version", "title", "description",
    "placeholder_schema_type", "placeholder_example"] depth hbound
  unfold decode
  refine (hfields.bind (q := fun values c =>
    List.Forall₂ (Option.Rel fun y s => t.HasText y.node s) values c.values)
    fun values h => ?_).mono (Nat.le_refl _) fun c => ?_
  · obtain ⟨members, -, h⟩ := h
    match values, h.length_eq with
    | [version, title, description, type, sample], _ =>
      refine ((hstring version).bind fun _ _ => (hstring title).bind fun _ _ =>
        (hstring description).bind fun _ _ => (hstring type).bind fun _ _ =>
          (hstring sample).bind fun _ _ => .pure _).mono (Nat.le_refl _) fun c => ?_
      constructor
      · rintro ⟨_, h₁, _, h₂, _, h₃, _, h₄, _, h₅, rfl⟩
        exact .cons h₁ (.cons h₂ (.cons h₃ (.cons h₄ (.cons h₅ .nil))))
      · rintro (_ | ⟨h₁, _ | ⟨h₂, _ | ⟨h₃, _ | ⟨h₄, _ | ⟨h₅, -⟩⟩⟩⟩⟩)
        exact ⟨_, h₁, _, h₂, _, h₃, _, h₄, _, h₅, rfl⟩
  · constructor
    · rintro ⟨values, ⟨members, hmembers, hvalues⟩, h⟩
      exact ⟨members, hmembers, isShownBy_iff.2 (t.exists_fields_iff.1 ⟨values, hvalues, h⟩)⟩
    · rintro ⟨members, hmembers, h⟩
      obtain ⟨values, hvalues, h⟩ := t.exists_fields_iff.2 (isShownBy_iff.1 h)
      exact ⟨values, ⟨members, hmembers, hvalues⟩, h⟩

/-- The root of a document is read as the configuration that it shows: there are more aliases that
may be followed than the root has entries and values that are looked at. -/
theorem yields_decode_root {s : List Char} (ht : Tree.read? s = some t) :
    Yields t.aliasLimit (decode t.view ⟨Tree.depthLimit, t.root.getD .nothing⟩)
      (fun c => ∃ members,
        t.HasMembers (t.root.getD .nothing) members ∧ c.IsShownBy t members) := by
  cases hroot : t.root with
  | none =>
    have hnothing : ∀ anchor tag entries, t.StandsFor .nothing (.mapping anchor tag entries) →
        entries.length ≤ 0 := by
      rintro _ _ _ ⟨⟩
    have hpure : decode t.view ⟨Tree.depthLimit, .nothing⟩ = pure {} := rfl
    have hread := yields_decode t 127 hnothing
    exact (Yields.of_pure hread).mono (Nat.zero_le _) fun _ => Iff.rfl
  | some n =>
    obtain ⟨hlimit, hlength⟩ := Tree.length_add_le_aliasLimit ht hroot
    have hbound : ∀ anchor tag entries, t.StandsFor n (.mapping anchor tag entries) →
        entries.length ≤ t.aliasLimit - 99 := by
      intro anchor tag entries h
      have := hlength anchor tag entries h
      omega
    exact (yields_decode t 127 hbound).mono (by omega) fun _ => Iff.rfl

/-- What is read from a text. -/
theorem read?_eq_some_iff : Configuration.read? text = some c ↔ IsGivenBy text c := by
  unfold Configuration.read?
  split
  case isTrue hblank =>
    have hall : ∀ ch ∈ text.toList, Text.isSpace ch = true := by simpa using hblank
    constructor
    · intro h
      cases h
      exact .blank hall
    · rintro (_ | ⟨⟨ch, hch, hsolid⟩, -, -, -⟩)
      · rfl
      · simp [hall ch hch] at hsolid
  case isFalse hblank =>
    have hsolid : ∃ ch ∈ text.toList, Text.isSpace ch = false := by simpa using hblank
    constructor
    · intro h
      obtain ⟨t, ht, h⟩ := Option.bind_eq_some_iff.1 h
      obtain ⟨members, hmembers, hc⟩ :=
        ((yields_decode_root ht).run'_eq_some_iff (Nat.le_refl _) c).1 h
      exact .record hsolid ht hmembers hc
    · rintro (h | ⟨-, ht, hmembers, hc⟩)
      · exact absurd (List.all_eq_true.2 h) hblank
      · exact Option.bind_eq_some_iff.2 ⟨_, ht, ((yields_decode_root ht).run'_eq_some_iff
          (Nat.le_refl _) c).2 ⟨_, hmembers, hc⟩⟩

end Configuration

end RouteDocs
