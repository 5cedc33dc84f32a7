/-!
# Looking for a fixed text

## Main definitions

* `Text.strip?`: what follows a text that has to stand in front.
* `Text.splitAtFirst?`: what stands before and after the first occurrence of a text.
* `Text.splitOn`: the pieces between the occurrences of a separating character.
-/

namespace RouteDocs.Text

/-- The text after `p`, if the text starts with `p`. -/
def strip? : (p : List Char) → List Char → Option (List Char)
  | [], s => some s
  | _ :: _, [] => none
  | x :: p, c :: s => if x = c then strip? p s else none

theorem strip?_eq_some_iff {p s t : List Char} : strip? p s = some t ↔ s = p ++ t := by
  induction p generalizing s with
  | nil => simp [strip?]
  | cons x p ih =>
    cases s with
    | nil => simp [strip?]
    | cons c s => by_cases h : x = c <;> simp [strip?, h, ih, eq_comm]

/-- What stands before and after the first occurrence of `p`. -/
def splitAtFirst? (p : List Char) : List Char → Option (List Char × List Char)
  | [] => (strip? p []).map ([], ·)
  | c :: s =>
    match strip? p (c :: s) with
    | some t => some ([], t)
    | none => (splitAtFirst? p s).map fun (before, after) => (c :: before, after)

/-- Nothing is lost: the text is what stands before, the occurrence, and what stands after. -/
theorem append_of_splitAtFirst? {p s a b : List Char} (h : splitAtFirst? p s = some (a, b)) :
    s = a ++ p ++ b := by
  induction s generalizing a with
  | nil =>
    obtain ⟨t, ht, h⟩ := Option.map_eq_some_iff.1 h
    cases h
    simpa using strip?_eq_some_iff.1 ht
  | cons c s ih =>
    rw [splitAtFirst?] at h
    split at h
    · rename_i ht
      cases h
      simpa using strip?_eq_some_iff.1 ht
    · obtain ⟨⟨x, y⟩, hs, h⟩ := Option.map_eq_some_iff.1 h
      cases h
      simp [ih hs]

/-- The text ends with `p`: what stands before it. -/
def stripEnd? (p s : List Char) : Option (List Char) :=
  (strip? p.reverse s.reverse).map List.reverse

/-- The pieces between the occurrences of `sep`; one more than there are occurrences. -/
def splitOn (sep : Char) : List Char → List (List Char)
  | [] => [[]]
  | c :: s =>
    if c = sep then [] :: splitOn sep s
    else
      match splitOn sep s with
      | [] => [[c]]
      | piece :: pieces => (c :: piece) :: pieces

end RouteDocs.Text
