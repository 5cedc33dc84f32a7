import RouteDocs.Proofs.Components
import RouteDocs.Proofs.Components.First
import RouteDocs.Proofs.Text.Dedent
import RouteDocs.Proofs.Yaml.LastValue
import RouteDocs.Proofs.Yaml.Value.Conversion

/-!
# Components that are written as YAML

The YAML text of components is put between the marks of a comment, and they are parsed from it. When
the text is dedented, the line feed in front of the closing mark is lost. That only matters to a
string at the end of the components that is written as a literal block: it loses a line feed at its
own end. Everything else is passed through as it is.

## Main definitions

* `Components.commented`: the comment with a text in it.
* `Components.text`: the YAML text of components.

## Main statement

* `Components.parse_commented`: what is parsed from the YAML text of components, and when it is what
  was written.
-/

namespace RouteDocs

open Yaml Source

namespace Components

/-! ## The comment -/

/-- A text between the marks of a comment, on lines of its own. -/
def commented (y : String) : String := "--[[\n" ++ y ++ "--]]"

theorem region?_commented {y : String} (hkey : componentsKey <+: y.toList)
    (hclose : ¬closeMark <:+: y.toList) : region? (commented y) = some ('\n' :: y.toList) := by
  obtain ⟨tail, htail⟩ := hkey
  rw [← htail] at hclose
  have hregion : IsRegion (commented y).toList ('\n' :: y.toList) [] := by
    refine isRegion_iff.2 ⟨['\n'], tail ++ (closeMark ++ []), tail, by simp, ?_, ?_, ?_⟩
    · simp [commented, openMark, closeMark, ← htail]
    · refine splitAtFirst?_closeMark_iff.2 ⟨rfl, fun hin => hclose ?_⟩
      exact hin.trans (List.suffix_append componentsKey tail).isInfix
    · simp [← htail]
  exact exists_firstRegion_iff.2 ⟨0, firstRegion_zero hregion⟩

end Components

/-! ## The value -/

namespace Yaml

open Value

/-- A string is read as it is at the end of a text, unless it ends with a line feed and is written
as a literal block. -/
theorem clipped_eq_self_iff {s : String} :
    clipped s = s ↔ (Written.ofString s.toList = .literal → s.toList.getLast? ≠ some '\n') := by
  have hlist : clipped s = s ↔ clipString s.toList = s.toList := by
    rw [← String.toList_inj, clipped, String.toList_ofList]
  rw [hlist, clipString]
  split <;> simp [*, Text.dropFeed_eq_self_iff]

end Yaml

theorem Json.hasNoMergeKey_mapLast {f : String → String} {j : Json} (h : j.HasNoMergeKey) :
    (j.mapLast f).HasNoMergeKey := by
  refine everywhere_mapLast (fun _ => trivial) (fun _ _ _ => trivial) ?_ h
  intro members members' hkeys hmembers
  have hlacks : ∀ k ∈ members.map Prod.fst, k ≠ "<<" := List.forall_mem_map.2 hmembers
  rw [hkeys] at hlacks
  exact fun m hm => hlacks m.1 (List.mem_map_of_mem hm)

namespace Components

variable {c : Json}

/-- The YAML text of components: of a mapping that has nothing but them. -/
def text (c : Json) : String :=
  String.ofList (Value.entryLines 0 true (Value.membersOfJson [("components", c)]))

theorem print?_eq_text (c : Json) :
    (Value.ofJson (.object [("components", c)])).print? = some (text c) :=
  print?_object (List.cons_ne_nil _ _)

/-- The text begins with the key. -/
theorem componentsKey_prefix_text (c : Json) : componentsKey <+: (text c).toList := by
  have hsimple : Value.isSimpleKey (.string "components") = true := by decide
  have hkey : keyText "components".toList ++ [':'] = componentsKey := by decide
  refine ⟨Value.body 0 false true (Value.ofJson c), ?_⟩
  rw [text, String.toList_ofList, entryLines_eq, ← hkey]
  simp [linesAt, memberLine, hsimple]

/-- The text is not indented and has no carriage return, so only the line feed at its end is lost
when it is dedented. -/
theorem dedent_text (hfree : c.IsFloatFree) :
    Text.dedent ('\n' :: (text c).toList) = '\n' :: Text.dropFeed (text c).toList := by
  have hprintable : Printable (text c).toList := by
    rw [text, String.toList_ofList]
    exact printable_members (by simpa [Json.isFloatFree_object_iff] using hfree) 0
  obtain ⟨tail, htail⟩ := componentsKey_prefix_text c
  rw [← htail] at hprintable ⊢
  exact Text.dedent_lineFeed_cons (fun h => absurd (hprintable _ h) (by decide)) (by decide)

/-- What is read from the text, without the line feed at its end. -/
theorem read?_text (hfree : c.IsFloatFree) (hordered : c.IsOrdered)
    (hdepth : c.depth < Tree.depthLimit) :
    Value.read? ('\n' :: Text.dropFeed (text c).toList) =
      some (Value.ofJson (.object [("components", c.mapLast clipped)])) := by
  rw [text, String.toList_ofList]
  exact read?_dropFeed (List.cons_ne_nil _ _) (by simpa [Json.isFloatFree_object_iff] using hfree)
    (by simpa [Json.isOrdered_object_iff] using hordered)
    (Json.depth_object_le_iff.2 ⟨_, rfl, by simpa using Nat.le_of_lt_succ hdepth⟩)

/-- In the comment around their text the components are declared as they are, except for the string
at their end. -/
theorem declared_commented_text (hfree : c.IsFloatFree) (hordered : c.IsOrdered)
    (hmerge : c.HasNoMergeKey) (hdepth : c.depth < Tree.depthLimit)
    (hclose : ¬closeMark <:+: (text c).toList) :
    Declared (commented (text c)) (Value.ofJson (c.mapLast clipped)) := by
  have hmerged : (Json.object [("components", c.mapLast clipped)]).HasNoMergeKey := by
    simpa [Json.hasNoMergeKey_object_iff] using Json.hasNoMergeKey_mapLast hmerge
  refine ⟨_, _, _, region?_commented (componentsKey_prefix_text c) hclose, ?_,
    Value.merge?_ofJson hmerged, ?_⟩
  · rw [dedent_text hfree]
    exact read?_text hfree hordered hdepth
  · rfl

/-- Components are written as YAML, and they are parsed from a comment with the text in it, unless
the text has the closing mark in it. No warning is given. What is parsed is what was written exactly
if there is no string at the end of the components that ends with a line feed and is written as a
literal block; such a string loses this line feed. -/
theorem parse_commented (hnull : c ≠ .null) (hfree : c.IsFloatFree) (hordered : c.IsOrdered)
    (hmerge : c.HasNoMergeKey) (hdepth : c.depth < Tree.depthLimit) :
    ∃ y, (Value.ofJson (.object [("components", c)])).print? = some y ∧
      (¬closeMark <:+: y.toList →
        parse (commented y) = { result := c.mapLast clipped } ∧
        (parse (commented y) = { result := c } ↔ ∀ s ∈ c.lastString?,
          Written.ofString s.toList = .literal → s.toList.getLast? ≠ some '\n')) := by
  refine ⟨text c, print?_eq_text c, fun hclose => ?_⟩
  have hvalue : (Value.ofJson (c.mapLast clipped)).isNull = false := by
    cases c with
    | null => exact absurd rfl hnull
    | _ => rfl
  have hparse : parse (commented (text c)) = { result := c.mapLast clipped } := by
    rw [parse_of_declared (declared_commented_text hfree hordered hmerge hdepth hclose), hvalue,
      Value.toJson_ofJson (Json.isFloatFree_mapLast hfree) (Json.isOrdered_mapLast hordered)]
    rfl
  refine ⟨hparse, ?_⟩
  rw [hparse, Logged.mk.injEq, and_iff_left rfl, Json.mapLast_eq_self_iff]
  exact forall₂_congr fun s _ => clipped_eq_self_iff

/-- Components with a string that has two lines, but not at their end. -/
def described : Json :=
  .object [("schemas", .object [("Id", .object [("description", .string "A number\nto count with\n"),
    ("type", .string "integer")])])]

theorem parse_commented_described :
    ∃ y, (Value.ofJson (.object [("components", described)])).print? = some y ∧
      (¬closeMark <:+: y.toList →
        parse (commented y) = { result := described.mapLast clipped } ∧
        (parse (commented y) = { result := described } ↔ ∀ s ∈ described.lastString?,
          Written.ofString s.toList = .literal → s.toList.getLast? ≠ some '\n')) :=
  parse_commented (by simp [described]) (by decide) (by decide) (by decide) (by decide)

/-- A string that ends with a line feed is parsed without it. -/
theorem parse_commented_ne :
    ∃ y, (Value.ofJson (.object [("components", .string "abc\n")])).print? = some y ∧
      ¬closeMark <:+: y.toList ∧ parse (commented y) ≠ { result := .string "abc\n" } := by
  have hprint : (Value.ofJson (.object [("components", .string "abc\n")])).print? =
      some "components: |\n  abc\n" := by decide +kernel
  refine ⟨_, hprint, by simp [List.infix_cons_iff, closeMark], fun hparse => ?_⟩
  have hsource : commented "components: |\n  abc\n" = "--[[\ncomponents: |\n  abc\n--]]" := rfl
  have hresult : (parse "--[[\ncomponents: |\n  abc\n--]]").result.lastString? = some "abc" := by
    decide +kernel
  rw [← hsource, hparse] at hresult
  exact absurd hresult (by decide)

end Components

end RouteDocs
