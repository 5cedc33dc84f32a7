import RouteDocs.Text.Lines

/-!
# Texts by their bytes

An offset into a text counts bytes. A text can be cut at an offset only where a character starts or
the text ends.

## Main definitions

* `Text.splitBytes?`: what stands in front of an offset and behind it.
* `Text.slice?`: what stands between two offsets.

## Main statements

* `Text.splitBytes?_eq_some_iff`, `Text.slice?_eq_some_iff`: where a text can be cut.
* `Text.isValid_byteLength`: such an offset is a valid position of the text.
-/

namespace RouteDocs.Text

variable {n i j : Nat} {s t a b : List Char}

/-! ## Lengths -/

@[simp] theorem byteLength_append (s t : List Char) :
    byteLength (s ++ t) = byteLength s + byteLength t := by
  induction s with
  | nil => simp [byteLength]
  | cons c s ih =>
    simp only [List.cons_append, byteLength, ih]
    omega

theorem length_le_byteLength (s : List Char) : s.length ≤ byteLength s := by
  induction s with
  | nil => exact Nat.le_refl _
  | cons c s ih =>
    have hpos := c.utf8Size_pos
    simp only [byteLength, List.length_cons]
    omega

theorem byteLength_pos (h : s ≠ []) : 0 < byteLength s :=
  Nat.lt_of_lt_of_le (List.length_pos_iff.2 h) (length_le_byteLength s)

theorem byteLength_eq_utf8ByteSize (s : List Char) :
    byteLength s = (String.ofList s).utf8ByteSize := by
  induction s with
  | nil => rfl
  | cons c s ih =>
    rw [String.ofList_cons, String.utf8ByteSize_append, String.utf8ByteSize_singleton, ← ih,
      byteLength]

/-- Behind a part of a text is a valid position. -/
theorem isValid_byteLength (a b : List Char) :
    (String.Pos.Raw.mk (byteLength a)).IsValid (String.ofList (a ++ b)) := by
  refine String.Pos.Raw.isValid_iff_exists_append.2
    ⟨String.ofList a, String.ofList b, String.ofList_append, ?_⟩
  rw [String.rawEndPos, ← byteLength_eq_utf8ByteSize]

/-! ## Cutting -/

theorem dropBytes?_byteLength_add (a s : List Char) (n : Nat) :
    dropBytes? (byteLength a + n) (a ++ s) = dropBytes? n s := by
  induction a with
  | nil => simp [byteLength]
  | cons c a ih =>
    have hpos := c.utf8Size_pos
    obtain ⟨k, hk⟩ : ∃ k, byteLength (c :: a) + n = k + 1 :=
      Nat.exists_eq_add_one.2 (by simp only [byteLength]; omega)
    have hrest : k + 1 - c.utf8Size = byteLength a + n := by
      simp only [byteLength] at hk
      omega
    have hfits : c.utf8Size ≤ k + 1 := by
      simp only [byteLength] at hk
      omega
    rw [hk, List.cons_append, dropBytes?, if_pos hfits, hrest, ih]

theorem dropBytes?_eq_some_iff :
    dropBytes? n s = some t ↔ ∃ a, s = a ++ t ∧ byteLength a = n := by
  constructor
  · intro h
    fun_induction dropBytes? n s with
    | case1 s =>
      cases h
      exact ⟨[], rfl, rfl⟩
    | case2 => cases h
    | case3 n c s hfits ih =>
      obtain ⟨a, rfl, ha⟩ := ih h
      exact ⟨c :: a, rfl, by simp only [byteLength]; omega⟩
    | case4 => cases h
  · rintro ⟨a, rfl, rfl⟩
    have h := dropBytes?_byteLength_add a t 0
    rwa [dropBytes?] at h

/-- What stands in front of an offset and behind it, if the text can be cut there. -/
def splitBytes? (n : Nat) (s : List Char) : Option (List Char × List Char) :=
  (dropBytes? n s).map fun rest => (s.take (s.length - rest.length), rest)

theorem splitBytes?_eq_some_iff :
    splitBytes? n s = some (a, b) ↔ s = a ++ b ∧ byteLength a = n := by
  simp only [splitBytes?, Option.map_eq_some_iff, dropBytes?_eq_some_iff, Prod.mk.injEq]
  constructor
  · rintro ⟨_, ⟨x, rfl, rfl⟩, rfl, rfl⟩
    simp
  · rintro ⟨rfl, rfl⟩
    exact ⟨b, ⟨a, rfl, rfl⟩, by simp, rfl⟩

/-- What stands between two offsets, if the first is not behind the second and the text can be cut
at both. -/
def slice? (i j : Nat) (s : List Char) : Option (List Char) :=
  if i ≤ j then
    (splitBytes? i s).bind fun (_, rest) => (splitBytes? (j - i) rest).map Prod.fst
  else none

theorem slice?_eq_some_iff :
    slice? i j s = some t ↔
      ∃ a b, s = a ++ (t ++ b) ∧ byteLength a = i ∧ i + byteLength t = j := by
  unfold slice?
  constructor
  · intro h
    split at h
    case isTrue hle =>
      obtain ⟨⟨a, rest⟩, ha, h⟩ := Option.bind_eq_some_iff.1 h
      obtain ⟨⟨part, b⟩, hpart, rfl⟩ := Option.map_eq_some_iff.1 h
      obtain ⟨rfl, rfl⟩ := splitBytes?_eq_some_iff.1 ha
      obtain ⟨rfl, hlen⟩ := splitBytes?_eq_some_iff.1 hpart
      refine ⟨a, b, rfl, rfl, ?_⟩
      dsimp only
      omega
    case isFalse => cases h
  · rintro ⟨a, b, rfl, rfl, rfl⟩
    have ha : splitBytes? (byteLength a) (a ++ (t ++ b)) = some (a, t ++ b) :=
      splitBytes?_eq_some_iff.2 ⟨rfl, rfl⟩
    have ht : splitBytes? (byteLength t) (t ++ b) = some (t, b) :=
      splitBytes?_eq_some_iff.2 ⟨rfl, rfl⟩
    simp [ha, ht]

end RouteDocs.Text
