import RouteDocs.Proofs.Source.Components

/-!
# The first components comment counts

A text may hold more than one components comment, and marks that belong to none. What is parsed is
the first comment that is complete, from its mark to the first closing mark behind its key. What
stands in front of it matters only if it opens a components comment as well, and what stands behind
it does not matter at all.

## Main definitions

* `Source.OpensComponents`: the mark and the key of a components comment.
* `Source.IsComponentsComment`: a components comment with nothing around it.

## Main statement

* `Components.parse_append_comment`: only the first comment is parsed.
-/

namespace RouteDocs

namespace Source

open Text

/-- The mark of a components comment, with the key behind it. -/
def OpensComponents (x : List Char) : Prop :=
  ∃ space, (∀ c ∈ space, isBlank c = true ∨ c = '\r' ∨ c = '\n') ∧
    x = openMark ++ (space ++ componentsKey)

/-- A components comment that ends with the first closing mark behind its key. -/
def IsComponentsComment (x : List Char) : Prop :=
  ∃ opening body, OpensComponents opening ∧ ¬closeMark <:+: body ∧ x = opening ++ (body ++ closeMark)

variable {x a s text body rest : List Char}

/-- If there is no closing mark in a text, then the first one in it and behind it is the one that
follows it. -/
theorem not_closeMark_prefix_drop (h : ¬closeMark <:+: text) {q : Nat} (hq : q < text.length)
    (rest : List Char) : ¬closeMark <+: (text ++ (closeMark ++ rest)).drop q := by
  rw [List.drop_append_of_le_length (Nat.le_of_lt hq)]
  intro hpre
  have hne : text.drop q ≠ [] := by simpa using hq
  by_cases hlong : closeMark.length ≤ (text.drop q).length
  · have hin := List.prefix_of_prefix_length_le hpre (List.prefix_append _ _) hlong
    exact h (hin.isInfix.trans (List.drop_suffix q text).isInfix)
  · -- the start of a mark at the end of the text does not go on with the mark behind it
    match hdrop : text.drop q with
    | [] => exact hne hdrop
    | [_] | [_, _] | [_, _, _] => simp [hdrop, closeMark] at hpre
    | _ :: _ :: _ :: _ :: _ => simp [hdrop, closeMark] at hlong

/-- A text is cut at its first closing mark. -/
theorem splitAtFirst?_closeMark_iff :
    splitAtFirst? closeMark s = some (body, rest) ↔
      s = body ++ (closeMark ++ rest) ∧ ¬closeMark <:+: body := by
  rw [splitAtFirst?_eq_some_iff, List.append_assoc]
  constructor
  · rintro ⟨rfl, hfirst⟩
    refine ⟨rfl, ?_⟩
    rintro ⟨u, v, rfl⟩
    exact hfirst u.length (by simp [closeMark]) (by simp)
  · rintro ⟨rfl, hclose⟩
    exact ⟨rfl, fun q hq => not_closeMark_prefix_drop hclose hq rest⟩

theorem IsComponentsComment.exists_isRegion (h : IsComponentsComment x) :
    ∃ text, ∀ rest, IsRegion (x ++ rest) text rest := by
  obtain ⟨_, body, ⟨space, hspace, rfl⟩, hclose, rfl⟩ := h
  refine ⟨space ++ (componentsKey ++ body), fun rest => isRegion_iff.2 ?_⟩
  exact ⟨space, body ++ (closeMark ++ rest), body, hspace, by simp,
    splitAtFirst?_closeMark_iff.2 ⟨rfl, hclose⟩, rfl⟩

theorem IsRegion.exists_isComponentsComment {t : List Char} (h : IsRegion t text rest) :
    ∃ x, IsComponentsComment x ∧ x <+: t := by
  obtain ⟨space, s, tail, hspace, rfl, hs, -⟩ := isRegion_iff.1 h
  obtain ⟨rfl, hclose⟩ := splitAtFirst?_closeMark_iff.1 hs
  exact ⟨_, ⟨_, tail, ⟨space, hspace, rfl⟩, hclose, rfl⟩, rest, by simp⟩

/-- No opening starts in front of a mark and ends behind the start of the mark. -/
theorem OpensComponents.prefix_of_prefix_append (h : OpensComponents x) (ha : a ≠ [])
    (hx : x <+: a ++ (openMark ++ s)) : x <+: a := by
  obtain ⟨space, hspace, rfl⟩ := h
  match a with
  | [] => exact absurd rfl ha
  | [c] => simp [openMark] at hx
  | c :: d :: a =>
    simp only [openMark, List.cons_append, List.nil_append, List.cons_prefix_cons] at hx ⊢
    obtain ⟨rfl, rfl, hx⟩ := hx
    -- there is no dash in the rest of the opening
    refine ⟨rfl, rfl, prefix_of_prefix_append_cons ?_ hx⟩
    simpa using dash_not_mem_of_space hspace

/-- Every components comment begins with an opening. -/
theorem IsRegion.exists_opensComponents {t : List Char} (h : IsRegion t text rest) :
    ∃ x, OpensComponents x ∧ x <+: t := by
  obtain ⟨space, s, tail, hspace, rfl, -, -⟩ := isRegion_iff.1 h
  exact ⟨_, ⟨space, hspace, rfl⟩, s, by simp⟩

theorem firstRegion_zero (h : IsRegion s text rest) : FirstRegion s 0 text where
  region := ⟨[], s, rest, rfl, rfl, h⟩
  first _ _ _ _ _ hlt := absurd hlt (Nat.not_lt_zero _)

/-- Where no opening is in front of it, a components comment is the first one. -/
theorem firstRegion_append {pre : List Char} (hpre : ∀ x, OpensComponents x → ¬x <:+: pre)
    (h : IsRegion s text rest) : FirstRegion (pre ++ s) pre.length text where
  region := ⟨pre, s, rest, rfl, rfl, h⟩
  first past t text' rest' heq hlt hother := by
    obtain ⟨x, hx, hxt⟩ := hother.exists_opensComponents
    rcases List.append_eq_append_iff.1 heq with ⟨a, rfl, rfl⟩ | ⟨a, rfl, rfl⟩
    · rw [List.length_append] at hlt
      omega
    · -- the other comment would open in the text in front
      rw [h.cut] at hxt
      have ha : a ≠ [] := by
        rintro rfl
        simp at hlt
      exact hpre x hx ((hx.prefix_of_prefix_append ha hxt).isInfix.trans
        (List.suffix_append past a).isInfix)

end Source

open Source

namespace Components

/-- Only the first components comment is parsed. In front of it may stand anything that does not
open such a comment, and behind it anything at all. Where there is no components comment, nothing is
parsed and no warning is given. -/
theorem parse_append_comment :
    (∀ pre comment post : String, (∀ x, OpensComponents x → ¬x <:+: pre.toList) →
      IsComponentsComment comment.toList → parse (pre ++ comment ++ post) = parse comment) ∧
    ∀ source : String, (∀ x, IsComponentsComment x → ¬x <:+: source.toList) →
      parse source = { result := .emptyObject } := by
  constructor
  · intro pre comment post hpre hcomment
    obtain ⟨text, htext⟩ := hcomment.exists_isRegion
    have hwhole : region? (pre ++ comment ++ post) = some text := by
      refine exists_firstRegion_iff.2 ⟨pre.toList.length, ?_⟩
      rw [String.toList_append, String.toList_append, List.append_assoc]
      exact firstRegion_append hpre (htext post.toList)
    have halone : region? comment = some text :=
      exists_firstRegion_iff.2 ⟨0, firstRegion_zero (List.append_nil comment.toList ▸ htext [])⟩
    simp only [parse, hwhole, halone]
  · intro source hnone
    have hregion : region? source = none := by
      refine Option.eq_none_iff_forall_ne_some.2 fun text htext => ?_
      obtain ⟨p, ⟨past, t, rest, hsource, -, hregion⟩, -⟩ := exists_firstRegion_iff.1 htext
      obtain ⟨x, hx, hxt⟩ := hregion.exists_isComponentsComment
      exact hnone x hx (hsource ▸ hxt.isInfix.trans (List.suffix_append past t).isInfix)
    simp only [parse, hregion]

theorem parse_append_comment_surrounded :
    parse ("--[[ notes --]] components ---[" ++ "--[[\ncomponents: {a: 1}\n--]]" ++
        " --]] --[[components: {b: 2}--]]") = parse "--[[\ncomponents: {a: 1}\n--]]" ∧
      parse "--[[ notes --]] components" = { result := .emptyObject } := by
  have hcolon : ∀ x y, OpensComponents x → x <+: y → ':' ∈ y := by
    rintro _ y ⟨space, -, rfl⟩ hxy
    exact hxy.subset (by simp [componentsKey])
  refine ⟨parse_append_comment.1 _ _ _ (fun x hx hin => ?_) ?_,
    parse_append_comment.2 _ fun x hx hin => ?_⟩
  · exact absurd (hin.subset (hcolon x x hx (List.prefix_refl x))) (by decide)
  · exact ⟨_, " {a: 1}\n".toList, ⟨['\n'], by simp, rfl⟩, by simp [List.infix_cons_iff, closeMark],
      by decide⟩
  · obtain ⟨_, body, hopening, -, rfl⟩ := hx
    exact absurd (hin.subset (hcolon _ _ hopening (List.prefix_append _ _))) (by decide)

end Components

end RouteDocs
