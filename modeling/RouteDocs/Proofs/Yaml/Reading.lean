import Mathlib.Data.List.Forall2
import RouteDocs.Yaml.View

/-!
# Records that are read

What a field of a record in YAML says, without reference to the computation that reads it: an alias
stands for the node with its anchor, every scalar is a string, and a name stands for the one value
that it is given.

The computation follows aliases, of which it may follow a limited number. Where this number is
large enough, it reads what is there, and fails where that is not what was asked for.

## Main definitions

* `Tree.StandsFor`, `Tree.HasText`: nodes behind aliases, and strings.
* `Tree.HasMembers`, `Tree.HasField`: records and their fields.
* `Yields`: what a computation reads if it may follow enough aliases.

## Main statements

* `Yields.bind`, `Yields.mapM`: what a computation reads is known from its parts.
* `Tree.yields_fields`: the fields of a record.
-/

namespace RouteDocs.Yaml

/-! ## Nodes and what they say -/

namespace Tree

/-- An alias stands for the node with its anchor, any other node for itself. -/
inductive StandsFor (t : Tree) : Node Nat → Node Nat → Prop
  | self {n : Node Nat} (h : ∀ a, n ≠ .alias a) : StandsFor t n n
  | target {a : Nat} {n : Node Nat} (h : t.target? a = some n) : StandsFor t (.alias a) n

/-- The node stands for a scalar with this text. -/
def HasText (t : Tree) (n : Node Nat) (text : String) : Prop :=
  ∃ anchor s, t.StandsFor n (.scalar anchor s) ∧ s.text = text

/-- The node is a record with these members: a mapping whose keys are strings, or left out. -/
inductive IsRecord (t : Tree) : Node Nat → List (String × Node Nat) → Prop
  | mapping {anchor : Option Nat} {tag : Option String} {entries : List (Node Nat × Node Nat)}
      {members : List (String × Node Nat)}
      (h : List.Forall₂ (fun e m => t.HasText e.1 m.1 ∧ e.2 = m.2) entries members) :
      IsRecord t (.mapping anchor tag entries) members
  | leftOut {anchor : Option Nat} {s : Scalar} (hplain : s.style = .plain) (htext : s.text = "") :
      IsRecord t (.scalar anchor s) []

/-- The node stands for a record with these members. -/
def HasMembers (t : Tree) (n : Node Nat) (members : List (String × Node Nat)) : Prop :=
  ∃ m, t.StandsFor n m ∧ t.IsRecord m members

/-- The members give the name no value, or this one and no other. -/
inductive Field {α : Type} (members : List (String × α)) (name : String) : Option α → Prop
  | missing (h : ∀ m ∈ members, m.1 ≠ name) : Field members name none
  | given {before after : List (String × α)} {x : α} (h : members = before ++ (name, x) :: after)
      (hbefore : ∀ m ∈ before, m.1 ≠ name) (hafter : ∀ m ∈ after, m.1 ≠ name) :
      Field members name (some x)

/-- The members give the name this string, or no value. -/
def HasField (t : Tree) (members : List (String × Node Nat)) (name : String)
    (text : Option String) : Prop :=
  ∃ value, Field members name value ∧ Option.Rel t.HasText value text

end Tree

/-! ## Computations that follow aliases -/

variable {α β : Type} {cost cost' : Nat} {x : Reading α} {p q : α → Prop}

/-- The computation follows at most `cost` aliases. If it may follow so many, then it gives what has
the property, and nothing else. -/
structure Yields (cost : Nat) (x : Reading α) (p : α → Prop) : Prop where
  uses : ∀ k, cost ≤ k → ∀ a k', x.run k = some (a, k') → k ≤ k' + cost
  gives_iff : ∀ k, cost ≤ k → ∀ a, (∃ k', x.run k = some (a, k')) ↔ p a

namespace Yields

theorem pure (a : α) : Yields 0 (Pure.pure a) (a = ·) where
  uses k _ b k' h := by
    cases h
    exact Nat.le_refl _
  gives_iff k _ b := by simp

theorem failure : Yields 0 (Alternative.failure : Reading α) (fun _ => False) where
  uses k _ a k' h := by cases h
  gives_iff k _ a := iff_of_false (fun ⟨_, h⟩ => by cases h) id

theorem mono (hx : Yields cost x p) (hcost : cost ≤ cost') (hp : ∀ a, p a ↔ q a) :
    Yields cost' x q where
  uses k hk a k' h :=
    Nat.le_trans (hx.uses k (Nat.le_trans hcost hk) a k' h) (Nat.add_le_add_left hcost k')
  gives_iff k hk a := (hx.gives_iff k (Nat.le_trans hcost hk) a).trans (hp a)

/-- The first computation, then the one that goes on with what it gives. -/
theorem bind {f : α → Reading β} {q : α → β → Prop} (hx : Yields cost x p)
    (hf : ∀ a, p a → Yields cost' (f a) (q a)) :
    Yields (cost + cost') (x >>= f) (fun b => ∃ a, p a ∧ q a b) := by
  have hrun : ∀ k, cost + cost' ≤ k → ∀ b k', (x >>= f).run k = some (b, k') ↔
      ∃ a k'', x.run k = some (a, k'') ∧ (f a).run k'' = some (b, k') ∧ p a ∧
        k ≤ k'' + cost := by
    intro k hk b k'
    rw [StateT.run_bind, Option.bind_eq_bind, Option.bind_eq_some_iff, Prod.exists]
    refine exists_congr fun a => exists_congr fun k'' => and_congr_right fun ha => ?_
    have huses := hx.uses k (by omega) a k'' ha
    have hp := (hx.gives_iff k (by omega) a).1 ⟨k'', ha⟩
    exact ⟨fun hb => ⟨hb, hp, huses⟩, fun hb => hb.1⟩
  constructor
  · intro k hk b k' h
    obtain ⟨a, k'', -, hb, hp, huses⟩ := (hrun k hk b k').1 h
    have huses' := (hf a hp).uses k'' (by omega) b k' hb
    omega
  · intro k hk b
    constructor
    · rintro ⟨k', h⟩
      obtain ⟨a, k'', -, hb, hp, huses⟩ := (hrun k hk b k').1 h
      exact ⟨a, hp, ((hf a hp).gives_iff k'' (by omega) b).1 ⟨k', hb⟩⟩
    · rintro ⟨a, hp, hb⟩
      obtain ⟨k'', ha⟩ := (hx.gives_iff k (by omega) a).2 hp
      have huses := hx.uses k (by omega) a k'' ha
      obtain ⟨k', hb⟩ := ((hf a hp).gives_iff k'' (by omega) b).2 hb
      exact ⟨k', (hrun k hk b k').2 ⟨a, k'', ha, hb, hp, huses⟩⟩

/-- A list is read item by item. -/
theorem mapM {f : α → Reading β} {r : α → β → Prop} (l : List α)
    (hf : ∀ a, Yields cost (f a) (r a)) :
    Yields (l.length * cost) (l.mapM f) (List.Forall₂ r l) := by
  induction l with
  | nil =>
    rw [List.mapM_nil]
    refine (Yields.pure []).mono (Nat.zero_le _) fun bs => ?_
    rw [List.forall₂_nil_left_iff, eq_comm]
  | cons a l ih =>
    rw [List.mapM_cons]
    refine ((hf a).bind fun b _ => ih.bind fun bs _ => .pure (b :: bs)).mono ?_ fun bs => ?_
    · rw [List.length_cons, Nat.succ_mul]
      omega
    · rw [List.forall₂_cons_left_iff]
      grind

/-- What is missing is not read. -/
theorem optionMapM {f : α → Reading β} {r : α → β → Prop} (o : Option α)
    (hf : ∀ a, Yields cost (f a) (r a)) :
    Yields cost (o.mapM f) (Option.Rel r o) := by
  cases o with
  | none =>
    refine (Yields.pure none).mono (Nat.zero_le _) fun b => ?_
    constructor
    · rintro rfl
      exact .none
    · rintro ⟨⟩
      rfl
  | some a =>
    refine ((hf a).bind fun b _ => .pure (some b)).mono (Nat.le_refl _) fun b => ?_
    constructor
    · rintro ⟨b, hb, rfl⟩
      exact .some hb
    · rintro ⟨hb⟩
      exact ⟨_, hb, rfl⟩

/-- A computation that follows no alias. -/
theorem of_pure {a : α} (hx : Yields cost (Pure.pure a) p) : Yields 0 (Pure.pure a) p :=
  (pure a).mono (Nat.le_refl _) fun b =>
    ((pure a).gives_iff cost (Nat.zero_le _) b).symm.trans (hx.gives_iff cost (Nat.le_refl _) b)

/-- What is read from the start, with enough aliases that may be followed. -/
theorem run'_eq_some_iff (hx : Yields cost x p) {k : Nat} (hk : cost ≤ k) (a : α) :
    x.run' k = some a ↔ p a := by
  rw [← hx.gives_iff k hk a, StateT.run'_eq]
  simp

end Yields

/-! ## Records -/

namespace Tree

variable (t : Tree)

theorem standsFor_alias_iff {a : Nat} {n : Node Nat} :
    t.StandsFor (.alias a) n ↔ t.target? a = some n := by
  constructor
  · rintro (h | h)
    · exact absurd rfl (h a)
    · exact h
  · exact .target

theorem standsFor_iff_eq {n m : Node Nat} (hn : ∀ a, n ≠ .alias a) : t.StandsFor n m ↔ m = n := by
  constructor
  · rintro (_ | _)
    · rfl
    · exact absurd rfl (hn _)
  · rintro rfl
    exact .self hn

theorem run_follow_alias (a k : Nat) :
    (t.follow (.alias a)).run (k + 1) = (t.target? a).map (·, k) := by
  cases h : t.target? a <;> simp [follow, h]

theorem yields_follow (n : Node Nat) : Yields 1 (t.follow n) (t.StandsFor n) := by
  by_cases hn : ∃ a, n = .alias a
  · obtain ⟨a, rfl⟩ := hn
    constructor
    · intro k _ m k' h
      cases k with
      | zero => exact Nat.zero_le _
      | succ k =>
        rw [run_follow_alias] at h
        obtain ⟨n, -, hn⟩ := Option.map_eq_some_iff.1 h
        cases hn
        exact Nat.le_refl _
    · intro k hk m
      obtain ⟨k, rfl⟩ := Nat.exists_eq_add_of_le' hk
      rw [standsFor_alias_iff, run_follow_alias]
      simp
  · have hn : ∀ a, n ≠ .alias a := by simpa using hn
    have hfollow : t.follow n = pure n := by
      unfold follow
      split
      · exact absurd rfl (hn _)
      · rfl
    rw [hfollow]
    refine (Yields.pure n).mono (Nat.zero_le _) fun m => ?_
    rw [t.standsFor_iff_eq hn, eq_comm]

theorem yields_string (n : Node Nat) : Yields 1 (t.string n) (t.HasText n) := by
  unfold string
  refine ((t.yields_follow n).bind (q := fun m text => ∃ anchor s, m = .scalar anchor s ∧
    s.text = text) fun m _ => ?_).mono (Nat.le_refl (1 + 0)) fun text => ?_
  · split
    · exact (Yields.pure _).mono (Nat.le_refl _) (by simp [eq_comm])
    · rename_i hm
      refine Yields.failure.mono (Nat.le_refl _) fun text => ?_
      simp only [false_iff, not_exists, not_and]
      rintro anchor s rfl
      exact absurd rfl (hm anchor s)
  · grind [HasText]

theorem yields_stringEntries (depth : Nat) (entries : List (Node Nat × Node Nat)) :
    Yields entries.length (t.stringEntries depth entries)
      (List.Forall₂ (fun e m => t.HasText e.1 m.1 ∧ m.2 = ⟨depth, e.2⟩) entries) := by
  have hentry : ∀ e : Node Nat × Node Nat,
      Yields 1 (do return (← t.string e.1, Inside.mk depth e.2))
        (fun m => t.HasText e.1 m.1 ∧ m.2 = ⟨depth, e.2⟩) := by
    intro e
    refine ((t.yields_string e.1).bind fun k _ => .pure (k, Inside.mk depth e.2)).mono
      (Nat.le_refl _) fun m => ?_
    grind
  rw [← Nat.mul_one entries.length]
  exact Yields.mapM entries hentry

/-- The members with a name are those of the field. -/
theorem field_iff_filter {members : List (String × α)} {name : String} {value : Option α} :
    Field members name value ↔ members.filter (·.1 = name) = value.toList.map (name, ·) := by
  constructor
  · rintro (h | ⟨rfl, hbefore, hafter⟩)
    · simpa [List.filter_eq_nil_iff] using h
    · have hnil : ∀ {ms : List (String × α)}, (∀ m ∈ ms, m.1 ≠ name) →
          ms.filter (·.1 = name) = [] := by
        intro ms hms
        simpa [List.filter_eq_nil_iff] using hms
      simp [hnil hbefore, hnil hafter]
  · intro h
    cases value with
    | none => exact .missing (by simpa [List.filter_eq_nil_iff] using h)
    | some x =>
      obtain ⟨before, after, rfl, hbefore, -, hafter⟩ := List.filter_eq_cons_iff.1 h
      exact .given rfl (by simpa using hbefore) (by simpa [List.filter_eq_nil_iff] using hafter)

theorem yields_fieldValue (members : List (String × Inside)) (name : String) :
    Yields 0 (fieldValue members name) (Field members name) := by
  have hname : ∀ m ∈ members.filter (·.1 = name), m.1 = name := by simp
  unfold fieldValue
  split
  case h_1 h =>
    refine (Yields.pure none).mono (Nat.le_refl _) fun value => ?_
    rw [field_iff_filter, h]
    cases value <;> simp
  case h_2 k x h =>
    obtain rfl : k = name := by simpa [h] using hname
    refine (Yields.pure (some x)).mono (Nat.le_refl _) fun value => ?_
    rw [field_iff_filter, h]
    cases value <;> simp
  case h_3 hnil hone =>
    refine Yields.failure.mono (Nat.le_refl _) fun value => ?_
    rw [field_iff_filter, false_iff]
    intro h
    cases value with
    | none => exact hnil h
    | some x => exact hone name x h

theorem field_map_iff {members : List (String × α)} {name : String} {f : α → β}
    {value : Option β} :
    Field (members.map fun m => (m.1, f m.2)) name value ↔
      ∃ x, Field members name x ∧ value = x.map f := by
  simp only [field_iff_filter, List.filter_map, Function.comp_def]
  constructor
  · intro h
    cases value with
    | none => exact ⟨none, by simpa using h, rfl⟩
    | some y =>
      obtain ⟨⟨k, x⟩, hx, heq⟩ := List.map_eq_singleton_iff.1 h
      obtain ⟨rfl, rfl⟩ := Prod.mk.inj heq
      exact ⟨some x, hx, rfl⟩
  · rintro ⟨x, hx, rfl⟩
    rw [hx]
    cases x <;> rfl

/-- The entries of a mapping, with what their keys say. -/
theorem forall₂_entries_iff {depth : Nat} {entries : List (Node Nat × Node Nat)}
    {es : List (String × Inside)} :
    List.Forall₂ (fun e m => t.HasText e.1 m.1 ∧ m.2 = ⟨depth, e.2⟩) entries es ↔
      ∃ members : List (String × Node Nat),
        List.Forall₂ (fun e m => t.HasText e.1 m.1 ∧ e.2 = m.2) entries members ∧
          es = members.map fun m => (m.1, ⟨depth, m.2⟩) := by
  constructor
  · intro h
    induction h with
    | nil => exact ⟨[], .nil, rfl⟩
    | @cons e m entries es hm h ih =>
      obtain ⟨members, hmembers, rfl⟩ := ih
      obtain ⟨k, x⟩ := m
      obtain ⟨hk, rfl⟩ := hm
      exact ⟨(k, e.2) :: members, .cons ⟨hk, rfl⟩ hmembers, rfl⟩
  · rintro ⟨members, hmembers, rfl⟩
    rw [List.forall₂_map_right_iff]
    exact hmembers.imp fun e m hm => ⟨hm.1, by rw [hm.2]⟩

/-- What the named fields of a record are, inside a number of collections. -/
def Fields (depth : Nat) (members : List (String × Node Nat)) :
    List String → List (Option Inside) → Prop :=
  List.Forall₂ fun name value => ∃ x, Field members name x ∧ value = x.map (Inside.mk depth)

theorem fields_iff {depth : Nat} {members : List (String × Node Nat)} {names : List String}
    {values : List (Option Inside)} :
    Fields depth members names values ↔
      List.Forall₂ (Field (members.map fun m => (m.1, Inside.mk depth m.2))) names values := by
  have hfield : (fun name value => ∃ x, Field members name x ∧ value = x.map (Inside.mk depth)) =
      Field (members.map fun m => (m.1, Inside.mk depth m.2)) := by
    funext name value
    exact propext field_map_iff.symm
  rw [Fields, hfield]

/-- A record without members has no fields. -/
theorem fields_nil_iff (depth : Nat) {names : List String} {values : List (Option Inside)} :
    Fields depth [] names values ↔ values = names.map fun _ => none := by
  have hfield : Field ([] : List (String × Inside)) = fun _ value => value = none := by
    funext name value
    rw [field_iff_filter]
    cases value <;> simp
  rw [fields_iff, List.map_nil, hfield]
  constructor
  · intro h
    induction h with
    | nil => rfl
    | cons hvalue _ ih => rw [hvalue, ih, List.map_cons]
  · rintro rfl
    rw [List.forall₂_map_right_iff, List.forall₂_same]
    exact fun _ _ => rfl

theorem rel_map_mk_iff {depth : Nat} {x : Option (Node Nat)} {text : Option String} :
    Option.Rel (fun (y : Inside) s => t.HasText y.node s) (x.map (Inside.mk depth)) text ↔
      Option.Rel t.HasText x text := by
  cases x <;> cases text <;> simp

/-- The strings that the fields of a record are. -/
theorem exists_fields_iff {depth : Nat} {members : List (String × Node Nat)} {names : List String}
    {texts : List (Option String)} :
    (∃ values, Fields depth members names values ∧
      List.Forall₂ (Option.Rel fun y s => t.HasText y.node s) values texts) ↔
      List.Forall₂ (t.HasField members) names texts := by
  constructor
  · rintro ⟨values, hvalues, h⟩
    induction hvalues generalizing texts with
    | nil =>
      cases h
      exact .nil
    | cons hvalue _ ih =>
      obtain ⟨x, hx, rfl⟩ := hvalue
      cases h with
      | cons htext h => exact .cons ⟨x, hx, (t.rel_map_mk_iff).1 htext⟩ (ih h)
  · intro h
    induction h with
    | nil => exact ⟨[], .nil, .nil⟩
    | cons hfield _ ih =>
      obtain ⟨x, hx, htext⟩ := hfield
      obtain ⟨values, hvalues, h⟩ := ih
      exact ⟨_ :: values, .cons ⟨x, hx, rfl⟩ hvalues, .cons ((t.rel_map_mk_iff).2 htext) h⟩

/-- The fields of a record, which is inside fewer collections than may be opened. A mapping has at
most `bound` entries. -/
theorem yields_fields (names : List String) (depth : Nat) {bound : Nat} {n : Node Nat}
    (hbound : ∀ anchor tag entries, t.StandsFor n (.mapping anchor tag entries) →
      entries.length ≤ bound) :
    Yields (1 + bound) (t.view.fields names ⟨depth + 1, n⟩)
      (fun values => ∃ members, t.HasMembers n members ∧ Fields depth members names values) := by
  unfold view
  refine ((t.yields_follow n).bind (q := fun m values => ∃ members, t.IsRecord m members ∧
    Fields depth members names values) fun m hm => ?_).mono (Nat.le_refl (1 + bound))
      fun values => ?_
  · split
    case h_1 anchor tag entries =>
      refine ((t.yields_stringEntries depth entries).bind fun es _ =>
        Yields.mapM names (yields_fieldValue es)).mono ?_ fun values => ?_
      · have := hbound anchor tag entries hm
        omega
      · simp only [forall₂_entries_iff]
        constructor
        · rintro ⟨_, ⟨members, hmembers, rfl⟩, h⟩
          exact ⟨members, .mapping hmembers, fields_iff.2 h⟩
        · rintro ⟨members, ⟨hmembers⟩, h⟩
          exact ⟨_, ⟨members, hmembers, rfl⟩, fields_iff.1 h⟩
    case h_2 anchor s =>
      have hleftOut : s.isLeftOut = true ↔ s.style = .plain ∧ s.text = "" := by
        simp [Scalar.isLeftOut]
      split
      case isTrue hs =>
        obtain ⟨hplain, htext⟩ := hleftOut.1 hs
        refine (Yields.pure _).mono (Nat.zero_le _) fun values => ?_
        rw [eq_comm, ← fields_nil_iff depth]
        constructor
        · exact fun h => ⟨[], .leftOut hplain htext, h⟩
        · rintro ⟨_, ⟨⟩ | ⟨-, -⟩, h⟩
          exact h
      case isFalse hs =>
        refine Yields.failure.mono (Nat.zero_le _) fun values => ?_
        rw [false_iff]
        rintro ⟨_, ⟨⟩ | ⟨hplain, htext⟩, -⟩
        exact hs (hleftOut.2 ⟨hplain, htext⟩)
    case h_3 hmapping hscalar =>
      refine Yields.failure.mono (Nat.zero_le _) fun values => ?_
      rw [false_iff]
      rintro ⟨_, ⟨⟩ | ⟨⟩, -⟩
      · exact hmapping _ _ _ rfl
      · exact hscalar _ _ rfl
  · grind [HasMembers]

/-! ## Whole documents -/

theorem size_pos (n : Node Nat) : 0 < n.size := by
  cases n <;> simp only [Node.size] <;> omega

theorem length_le_entriesSize (entries : List (Node Nat × Node Nat)) :
    entries.length ≤ Node.entriesSize entries := by
  induction entries with
  | nil => exact Nat.zero_le _
  | cons e entries ih =>
    have := size_pos e.1
    simp only [List.length_cons, Node.entriesSize]
    omega

/-- A document has no root, or its nodes with an anchor are those in its root. -/
theorem eq_ofRoot_of_read? {text : List Char} {t : Tree} {n : Node Nat}
    (h : Tree.read? text = some t) (hroot : t.root = some n) : t = .ofRoot n := by
  simp only [Tree.read?, Option.bind_eq_bind, Option.bind_eq_some_iff] at h
  obtain ⟨tokens, -, root, -, h⟩ := h
  cases root with
  | none =>
    cases h
    cases hroot
  | some root =>
    obtain ⟨⟨m, names⟩, -, h⟩ := Option.bind_eq_some_iff.1 h
    cases h
    cases hroot
    rfl

/-- To read a document, many more aliases may be followed than its root has entries. -/
theorem length_add_le_aliasLimit {text : List Char} {t : Tree} {n : Node Nat}
    (h : Tree.read? text = some t) (hroot : t.root = some n) :
    100 ≤ t.aliasLimit ∧ ∀ anchor tag entries, t.StandsFor n (.mapping anchor tag entries) →
      entries.length + 99 ≤ t.aliasLimit := by
  obtain rfl := eq_ofRoot_of_read? h hroot
  have hlimit : (ofRoot n).aliasLimit = 100 * n.size := rfl
  rw [hlimit]
  constructor
  · have := size_pos n
    omega
  · intro anchor tag entries hn
    cases hn with
    | self =>
      have := length_le_entriesSize entries
      simp only [Node.size]
      omega
    | target htarget =>
      -- the root is the only node, so none has an anchor
      simp [ofRoot, target?, Node.anchored] at htarget

end Tree

end RouteDocs.Yaml
