import Mathlib.Data.List.Forall2
import RouteDocs.Yaml.Value

/-!
# When two values are one key

Values that count as one key form classes: the relation is reflexive and transitive, and it is
symmetric on values in which no mapping has a key twice.

## Main definitions

* `Number.Comparand`, `Number.comparand`: what of a number counts when it is compared.
* `Value.induction`: induction over a value.
* `Entries.Distinct`: no two entries have the same key.
* `Value.IsProper`: the keys of every mapping in the value are distinct.

## Main statements

* `Value.same_refl`, `Value.same_trans`, `Value.same_symm`: the laws of an equivalence.
-/

namespace RouteDocs

/-! ## Numbers -/

namespace Number

open Float.Model (UnpackedFloat)
open Float.Model.UnpackedFloat (Sign)

/-- What of a number counts when it is compared: everything but the sign of a zero. -/
inductive Comparand where
  | whole (n : Whole)
  | notANumber
  | zero
  | infinity (sign : Sign)
  | finite (sign : Sign) (mantissa : Nat) (exponent : Int)

/-- What of a double counts when it is compared. -/
def Comparand.ofDouble : UnpackedFloat → Comparand
  | .notANumber => .notANumber
  | .zero _ => .zero
  | .infinity s => .infinity s
  | .finite s m e _ => .finite s m e

theorem compare_sign_eq_iff (s t : Sign) : some (compare s t) = some .eq ↔ s = t := by
  cases s with
  | negative =>
    cases t with
    | negative => exact iff_of_true rfl rfl
    | positive => exact iff_of_false (fun h => by cases h) (fun h => by cases h)
  | positive =>
    cases t with
    | negative => exact iff_of_false (fun h => by cases h) (fun h => by cases h)
    | positive => exact iff_of_true rfl rfl

theorem compare_finite_eq_iff {s t : Sign} {m n : Nat} {e f : Int} (hm : 0 < m) (hn : 0 < n) :
    (UnpackedFloat.finite s m e hm).compare (.finite t n f hn) = some .eq ↔
      s = t ∧ m = n ∧ e = f := by
  have hmagnitude : (compare e f).then (compare m n) = .eq ↔ m = n ∧ e = f := by
    simp [Ordering.then_eq_eq, Std.LawfulEqCmp.compare_eq_iff_eq, and_comm]
  cases s with
  | negative =>
    cases t with
    | negative =>
      show some ((compare e f).then (compare m n)).swap = some .eq ↔ _
      simp [hmagnitude]
    | positive => exact iff_of_false (fun h => by cases h) (fun h => by cases h.1)
  | positive =>
    cases t with
    | negative => exact iff_of_false (fun h => by cases h) (fun h => by cases h.1)
    | positive =>
      show some ((compare e f).then (compare m n)) = some .eq ↔ _
      simp [hmagnitude]

/-- Two doubles are equal if they are the same number, whatever the sign of a zero. -/
theorem compare_eq_iff (x y : UnpackedFloat) :
    x.compare y = some .eq ↔
      Comparand.ofDouble x = Comparand.ofDouble y ∧ Comparand.ofDouble x ≠ .notANumber := by
  -- doubles of two shapes are never equal
  have hshape : ∀ {o : Option Ordering} {a b : Comparand}, o ≠ some .eq → a ≠ b →
      (o = some .eq ↔ a = b ∧ a ≠ .notANumber) :=
    fun ho hab => iff_of_false ho fun h => hab h.1
  cases x with
  | notANumber => exact iff_of_false (fun h => by cases h) fun h => h.2 rfl
  | infinity s =>
    cases y with
    | infinity t =>
      refine (compare_sign_eq_iff s t).trans ?_
      show _ ↔ Comparand.infinity s = .infinity t ∧ Comparand.infinity s ≠ .notANumber
      simp
    | notANumber => exact hshape (fun h => by cases h) (fun h => by cases h)
    | zero | finite => cases s <;> exact hshape (fun h => by cases h) (fun h => by cases h)
  | zero s =>
    cases y with
    | zero t => exact iff_of_true rfl ⟨rfl, fun h => by cases h⟩
    | notANumber => exact hshape (fun h => by cases h) (fun h => by cases h)
    | infinity t | finite t =>
      cases t <;> exact hshape (fun h => by cases h) (fun h => by cases h)
  | finite s m e hm =>
    cases y with
    | finite t n f hn =>
      refine (compare_finite_eq_iff hm hn).trans ?_
      show _ ↔ Comparand.finite s m e = .finite t n f ∧ Comparand.finite s m e ≠ .notANumber
      simp
    | notANumber => exact hshape (fun h => by cases h) (fun h => by cases h)
    | infinity t => cases t <;> exact hshape (fun h => by cases h) (fun h => by cases h)
    | zero t => cases s <;> exact hshape (fun h => by cases h) (fun h => by cases h)

theorem isNaN_iff (x : UnpackedFloat) :
    x.isNaN = true ↔ Comparand.ofDouble x = .notANumber := by
  cases x with
  | notANumber => exact iff_of_true rfl rfl
  | infinity | zero | finite => exact iff_of_false (fun h => by cases h) (fun h => by cases h)

/-- What of a number counts when it is compared. -/
def comparand : Number → Comparand
  | .whole n => .whole n
  | .float x => .ofDouble x.toModel.unpack

theorem Comparand.ofDouble_ne_whole (x : UnpackedFloat) (n : Whole) : ofDouble x ≠ .whole n := by
  cases x <;> exact fun h => by cases h

theorem sameValue_iff {m n : Number} : m.sameValue n = true ↔ m.comparand = n.comparand := by
  cases m with
  | whole m =>
    cases n with
    | whole n => simp [sameValue, comparand]
    | float y => simp [sameValue, comparand, (Comparand.ofDouble_ne_whole _ _).symm]
  | float x =>
    cases n with
    | whole n => simp [sameValue, comparand, Comparand.ofDouble_ne_whole]
    | float y =>
      have hbeq : (x == y) = (x.toModel.unpack.compare y.toModel.unpack == some .eq) := rfl
      have hnan : ∀ z : Float, z.isNaN = z.toModel.unpack.isNaN := fun _ => rfl
      simp only [sameValue, comparand, Bool.or_eq_true, Bool.and_eq_true, hbeq, hnan, beq_iff_eq,
        compare_eq_iff, isNaN_iff]
      grind

end Number

namespace Yaml

namespace Value

/-- Induction over a value: over the items of a sequence, the keys and values of a mapping, and the
value behind a tag. -/
@[elab_as_elim]
theorem induction {P : Value → Prop} (null : P .null) (bool : ∀ b, P (.bool b))
    (number : ∀ n, P (.number n)) (string : ∀ s, P (.string s))
    (sequence : ∀ items, (∀ x ∈ items, P x) → P (.sequence items))
    (mapping : ∀ es : Entries, (∀ e ∈ es, P e.1 ∧ P e.2) → P (.mapping es))
    (tagged : ∀ tag v, P v → P (.tagged tag v)) (v : Value) : P v :=
  @Value.rec P (fun items => ∀ x ∈ items, P x) (fun es => ∀ e ∈ es, P e.1 ∧ P e.2)
    (fun e => P e.1 ∧ P e.2) null bool number string sequence mapping tagged
    (fun _ h => nomatch h) (fun _ _ hx hitems => List.forall_mem_cons.2 ⟨hx, hitems⟩)
    (fun _ h => nomatch h) (fun _ _ he hes => List.forall_mem_cons.2 ⟨he, hes⟩)
    (fun _ _ hk hx => ⟨hk, hx⟩) v

/-! ## The values that are the same as a given one -/

section

variable {v : Value}

theorem same_null_iff : Value.null.same v = true ↔ v = .null := by
  cases v <;> simp [same]

theorem same_bool_iff {b : Bool} : (Value.bool b).same v = true ↔ v = .bool b := by
  cases v with
  | bool c =>
    rw [same, beq_iff_eq, bool.injEq]
    exact eq_comm
  | null | number | string | sequence | mapping | tagged => simp [same]

theorem same_number_iff {m : Number} :
    (Value.number m).same v = true ↔ ∃ n, v = .number n ∧ m.comparand = n.comparand := by
  cases v <;> simp [same, Number.sameValue_iff]

theorem same_string_iff {s : String} : (Value.string s).same v = true ↔ v = .string s := by
  cases v with
  | string t =>
    rw [same, beq_iff_eq, string.injEq]
    exact eq_comm
  | null | bool | number | sequence | mapping | tagged => simp [same]

/-- Nothing else is the same as a string, from the other side as well. -/
theorem same_string_right_iff {s : String} : v.same (.string s) = true ↔ v = .string s := by
  cases v <;> simp [same]

/-- Values that are the same are the same string, if any. -/
theorem same_string_eq_of_same {w : Value} {s : String} (h : v.same w = true) :
    v.same (.string s) = w.same (.string s) := by
  rw [Bool.eq_iff_iff, same_string_right_iff, same_string_right_iff]
  constructor
  · rintro rfl
    exact same_string_iff.1 h
  · rintro rfl
    exact same_string_right_iff.1 h

theorem sameItems_iff {xs ys : List Value} :
    sameItems xs ys = true ↔ List.Forall₂ (fun x y => x.same y = true) xs ys := by
  induction xs generalizing ys with
  | nil => cases ys <;> simp [sameItems]
  | cons x xs ih => cases ys <;> simp [sameItems, ih]

theorem same_sequence_iff {xs : List Value} :
    (Value.sequence xs).same v = true ↔
      ∃ ys, v = .sequence ys ∧ List.Forall₂ (fun x y => x.same y = true) xs ys := by
  cases v <;> simp [same, sameItems_iff]

theorem sameEntries_iff {es fs : Entries} :
    sameEntries es fs = true ↔ ∀ e ∈ es, ∃ f ∈ fs, e.1.same f.1 = true ∧ e.2.same f.2 = true := by
  induction es with
  | nil => simp [sameEntries]
  | cons e es ih => simp [sameEntries, ih]

theorem same_mapping_iff {es : Entries} :
    (Value.mapping es).same v = true ↔
      ∃ fs, v = .mapping fs ∧ es.length = fs.length ∧
        ∀ e ∈ es, ∃ f ∈ fs, e.1.same f.1 = true ∧ e.2.same f.2 = true := by
  cases v <;> simp [same, sameEntries_iff]

theorem same_tagged_iff {tag : String} {x : Value} :
    (Value.tagged tag x).same v = true ↔
      ∃ tag' y, v = .tagged tag' y ∧ tagName tag.toList = tagName tag'.toList ∧
        x.same y = true := by
  cases v with
  | tagged tag' y =>
    rw [same, Bool.and_eq_true, beq_iff_eq]
    exact ⟨fun h => ⟨tag', y, rfl, h⟩, fun ⟨_, _, heq, h⟩ => by cases heq; exact h⟩
  | null | bool | number | string | sequence | mapping => simp [same]

end

/-! ## Reflexivity and transitivity -/

theorem same_refl (v : Value) : v.same v = true := by
  induction v using Value.induction with
  | null => exact same_null_iff.2 rfl
  | bool b => exact same_bool_iff.2 rfl
  | number n => exact same_number_iff.2 ⟨n, rfl, rfl⟩
  | string s => exact same_string_iff.2 rfl
  | sequence items ih => exact same_sequence_iff.2 ⟨items, rfl, List.forall₂_same.2 ih⟩
  | mapping es ih => exact same_mapping_iff.2 ⟨es, rfl, rfl, fun e he => ⟨e, he, ih e he⟩⟩
  | tagged tag v ih => exact same_tagged_iff.2 ⟨tag, v, rfl, rfl, ih⟩

theorem same_trans {u v w : Value} (huv : u.same v = true) (hvw : v.same w = true) :
    u.same w = true := by
  induction u using Value.induction generalizing v w with
  | null =>
    obtain rfl := same_null_iff.1 huv
    exact hvw
  | bool b =>
    obtain rfl := same_bool_iff.1 huv
    exact hvw
  | number m =>
    obtain ⟨n, rfl, hmn⟩ := same_number_iff.1 huv
    obtain ⟨k, rfl, hnk⟩ := same_number_iff.1 hvw
    exact same_number_iff.2 ⟨k, rfl, hmn.trans hnk⟩
  | string s =>
    obtain rfl := same_string_iff.1 huv
    exact hvw
  | sequence xs ih =>
    obtain ⟨ys, rfl, hxy⟩ := same_sequence_iff.1 huv
    obtain ⟨zs, rfl, hyz⟩ := same_sequence_iff.1 hvw
    refine same_sequence_iff.2 ⟨zs, rfl, ?_⟩
    clear huv hvw
    induction hxy generalizing zs with
    | nil =>
      cases hyz
      exact .nil
    | cons hxy _ ihxs =>
      cases hyz with
      | cons hyz hrest =>
        obtain ⟨hx, hxs⟩ := List.forall_mem_cons.1 ih
        exact .cons (hx hxy hyz) (ihxs hxs _ hrest)
  | mapping es ih =>
    obtain ⟨fs, rfl, hlen, hes⟩ := same_mapping_iff.1 huv
    obtain ⟨gs, rfl, hlen', hfs⟩ := same_mapping_iff.1 hvw
    refine same_mapping_iff.2 ⟨gs, rfl, hlen.trans hlen', fun e he => ?_⟩
    obtain ⟨f, hf, hkey, hvalue⟩ := hes e he
    obtain ⟨g, hg, hkey', hvalue'⟩ := hfs f hf
    exact ⟨g, hg, (ih e he).1 hkey hkey', (ih e he).2 hvalue hvalue'⟩
  | tagged tag x ih =>
    obtain ⟨tag', y, rfl, htag, hxy⟩ := same_tagged_iff.1 huv
    obtain ⟨tag'', z, rfl, htag', hyz⟩ := same_tagged_iff.1 hvw
    exact same_tagged_iff.2 ⟨tag'', z, rfl, htag.trans htag', ih hxy hyz⟩

end Value

/-! ## Distinct keys -/

namespace Entries

/-- Two entries have different keys. -/
def Apart (e f : Value × Value) : Prop := e.1.same f.1 = false ∧ f.1.same e.1 = false

instance : Std.Symm Apart := ⟨fun _ _ h => ⟨h.2, h.1⟩⟩

/-- No two entries have the same key. -/
def Distinct (es : Entries) : Prop := es.Pairwise Apart

end Entries

namespace Value

/-- The keys of every mapping in the value are distinct, also in the keys themselves. -/
inductive IsProper : Value → Prop where
  | null : IsProper .null
  | bool (b : Bool) : IsProper (.bool b)
  | number (n : Number) : IsProper (.number n)
  | string (s : String) : IsProper (.string s)
  | sequence {items : List Value} (items_proper : ∀ x ∈ items, IsProper x) :
    IsProper (.sequence items)
  | mapping {es : Entries} (distinct : es.Distinct) (keys_proper : ∀ e ∈ es, IsProper e.1)
    (values_proper : ∀ e ∈ es, IsProper e.2) : IsProper (.mapping es)
  | tagged (tag : String) {v : Value} (value_proper : IsProper v) : IsProper (.tagged tag v)

end Value

/-! ## Symmetry -/

/-- Two lists of one length are related in both directions if every member of the first is related
to one of the second, and no two of the first to the same one. -/
theorem exists_of_length_eq {α β : Type} {r : α → β → Prop} {as : List α} {bs : List β}
    (hlen : as.length = bs.length) (hmem : ∀ a ∈ as, ∃ b ∈ bs, r a b)
    (hinj : as.Pairwise fun a a' => ∀ b, r a b → ¬r a' b) : ∀ b ∈ bs, ∃ a ∈ as, r a b := by
  induction as generalizing bs with
  | nil =>
    obtain rfl := List.length_eq_zero_iff.1 hlen.symm
    simp
  | cons a as ih =>
    obtain ⟨hfirst, hrest⟩ := List.pairwise_cons.1 hinj
    obtain ⟨b, hb, hab⟩ := hmem a (by simp)
    obtain ⟨front, back, rfl⟩ := List.append_of_mem hb
    have hlen' : as.length = (front ++ back).length := by simp at hlen ⊢; omega
    have hmem' : ∀ a' ∈ as, ∃ c ∈ front ++ back, r a' c := by
      intro a' ha'
      obtain ⟨c, hc, hac⟩ := hmem a' (List.mem_cons_of_mem _ ha')
      refine ⟨c, ?_, hac⟩
      have hne : c ≠ b := fun heq => hfirst a' ha' b hab (heq ▸ hac)
      simp_all
    intro c hc
    by_cases hcb : c = b
    · exact ⟨a, by simp, hcb ▸ hab⟩
    · obtain ⟨a', ha', hac⟩ := ih hlen' hmem' hrest c (by simp_all)
      exact ⟨a', List.mem_cons_of_mem _ ha', hac⟩

theorem Value.same_symm {v w : Value} (hv : v.IsProper) (h : v.same w = true) :
    w.same v = true := by
  induction v using Value.induction generalizing w with
  | null =>
    obtain rfl := same_null_iff.1 h
    exact h
  | bool b =>
    obtain rfl := same_bool_iff.1 h
    exact h
  | number m =>
    obtain ⟨n, rfl, hmn⟩ := same_number_iff.1 h
    exact same_number_iff.2 ⟨m, rfl, hmn.symm⟩
  | string s =>
    obtain rfl := same_string_iff.1 h
    exact h
  | sequence xs ih =>
    obtain ⟨ys, rfl, hxy⟩ := same_sequence_iff.1 h
    cases hv with
    | sequence hxs =>
    have hitems : List.Forall₂ (fun x y => x ∈ xs ∧ x.same y = true) xs ys :=
      (List.forall₂_and_left _ _).2 ⟨fun _ hx => hx, hxy⟩
    have hback : List.Forall₂ (flip fun y x => y.same x = true) xs ys :=
      hitems.imp fun x y ⟨hx, hsame⟩ => ih x hx (hxs x hx) hsame
    exact same_sequence_iff.2 ⟨xs, rfl, hback.flip⟩
  | mapping es ih =>
    obtain ⟨fs, rfl, hlen, hes⟩ := same_mapping_iff.1 h
    cases hv with
    | mapping hdistinct hkeys hvalues =>
    -- an entry of the second mapping is the same as one entry of the first only
    have hinj : es.Pairwise fun e e' => ∀ f : Value × Value,
        e.1.same f.1 = true ∧ e.2.same f.2 = true →
          ¬(e'.1.same f.1 = true ∧ e'.2.same f.2 = true) := by
      refine hdistinct.imp_of_mem fun _ he' hapart f hf hf' => ?_
      have hsame := same_trans hf.1 ((ih _ he').1 (hkeys _ he') hf'.1)
      simp [hapart.1] at hsame
    refine same_mapping_iff.2 ⟨es, rfl, hlen.symm, fun f hf => ?_⟩
    obtain ⟨e, he, hkey, hvalue⟩ := exists_of_length_eq hlen hes hinj f hf
    exact ⟨e, he, (ih e he).1 (hkeys e he) hkey, (ih e he).2 (hvalues e he) hvalue⟩
  | tagged tag x ih =>
    obtain ⟨tag', y, rfl, htag, hxy⟩ := same_tagged_iff.1 h
    cases hv with
    | tagged _ hx => exact same_tagged_iff.2 ⟨tag, x, rfl, htag.symm, ih hx hxy⟩

end Yaml

end RouteDocs
