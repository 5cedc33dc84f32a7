import Mathlib.Logic.Function.Basic
import RouteDocs.Command.Arguments
import RouteDocs.Proofs.Gives

/-!
# What items give

An item is an option with its value, or a flag. Items can be given exactly if each option has at
most one value, which it allows, and the only flag is raised at most once.

## Main definitions

* `Item`: an option with its value, or a flag.
* `valuesOf`, `flagsOf`: what items say.
* `Given.Extends`: what is given after items.

## Main statement

* `Given.foldlM_add_eq_ok_iff`: when items can be given, and what is given then.
-/

namespace RouteDocs.Command

/-- An option with its value, or a flag. -/
inductive Item where
  | option (o : Opt) (value : String)
  | flag (f : Flag)

/-- The values of an option. -/
def valuesOf (o : Opt) (items : List Item) : List String :=
  items.filterMap fun
    | .option o' v => if o' = o then some v else none
    | .flag _ => none

/-- The flags. -/
def flagsOf (items : List Item) : List Flag :=
  items.filterMap fun
    | .option _ _ => none
    | .flag f => some f

theorem valuesOf_cons (o : Opt) (item : Item) (items : List Item) :
    valuesOf o (item :: items) = valuesOf o [item] ++ valuesOf o items :=
  List.filterMap_append (l := [item])

theorem valuesOf_option (o o' : Opt) (v : String) :
    valuesOf o' [.option o v] = if o = o' then [v] else [] := by
  by_cases h : o = o' <;> simp [valuesOf, h]

theorem flagsOf_cons (item : Item) (items : List Item) :
    flagsOf (item :: items) = flagsOf [item] ++ flagsOf items :=
  List.filterMap_append (l := [item])

/-- The name of a format, as a value. -/
def Format.word : Format → String
  | .json => "json"
  | .yaml => "yaml"

theorem Format.word_injective : Function.Injective Format.word := by
  intro f f' h
  cases f <;> cases f' <;> first | rfl | exact absurd h (by decide)

/-- The values that an option may have. -/
def Opt.Allows : Opt → String → Prop
  | .input, v | .output, v | .config, v => v ≠ ""
  | .format, v => ∃ f : Format, f.word = v
  | .title, _ | .description, _ => True

/-- Adds what an item gives. -/
def Given.add (g : Given) : Item → Except UsageError Given
  | .option o v => g.set o v
  | .flag f => g.raise f

namespace Given

/-- The value of an option. -/
def value? (g : Given) : Opt → Option String
  | .input => g.input
  | .output => g.output
  | .format => g.format.map Format.word
  | .config => g.config
  | .title => g.title
  | .description => g.description

/-- The flags that are raised. -/
def flags (g : Given) : List Flag := if g.verbose then [.verbose] else []

/-- The items add what they spell to what is given before them, and nothing else. -/
structure Extends (g : Given) (items : List Item) (g' : Given) : Prop where
  values : ∀ o, (g'.value? o).toList = (g.value? o).toList ++ valuesOf o items
  allowed : ∀ o, ∀ v ∈ valuesOf o items, o.Allows v
  flags : g'.flags = g.flags ++ flagsOf items

variable {g g' : Given} {o : Opt} {v : String} {items : List Item}

theorem path_eq_ok_iff {w : String} : path v = .ok w ↔ v ≠ "" ∧ v = w := by
  unfold path
  split <;> simp_all

theorem formatOf_eq_ok_iff {f : Format} : formatOf v = .ok f ↔ f.word = v := by
  constructor
  · intro h
    unfold formatOf at h
    split at h <;> cases h <;> rfl
  · rintro rfl
    cases f <;> rfl

theorem has_eq_isSome : g.has o = (g.value? o).isSome := by
  cases o <;> simp [has, value?]

theorem eq_of_value? (hvalue : ∀ o, g.value? o = g'.value? o) (hflags : g.flags = g'.flags) :
    g = g' := by
  have hformat : g.format = g'.format :=
    Option.map_injective Format.word_injective (hvalue .format)
  have hverbose : g.verbose = g'.verbose := by
    unfold flags at hflags
    split at hflags <;> split at hflags <;> simp_all
  obtain ⟨input, output, format, config, title, description, verbose⟩ := g
  cases hvalue .input
  cases hvalue .output
  cases hformat
  cases hvalue .config
  cases hvalue .title
  cases hvalue .description
  cases hverbose
  rfl

theorem checks_of_set (h : g.set o v = .ok g') : g.value? o = none ∧ o.Allows v := by
  unfold set at h
  rw [has_eq_isSome] at h
  split at h
  · cases h
  · rename_i hvalue
    refine ⟨Option.not_isSome_iff_eq_none.1 hvalue, ?_⟩
    cases o with
    | input | output | config =>
      obtain ⟨w, hw, -⟩ := map_eq_ok_iff.1 h
      exact (path_eq_ok_iff.1 hw).1
    | format =>
      obtain ⟨f, hf, -⟩ := map_eq_ok_iff.1 h
      exact ⟨f, formatOf_eq_ok_iff.1 hf⟩
    | title | description => trivial

theorem extends_option (h : g.value? o = none) (hv : o.Allows v)
    (hvalue : ∀ o', g'.value? o' = if o = o' then some v else g.value? o')
    (hflags : g'.flags = g.flags) : g.Extends [.option o v] g' := by
  refine ⟨fun o' => ?_, fun o' v' hv' => ?_, ?_⟩
  · rw [hvalue, valuesOf_option]
    split
    · subst o'
      simp [h]
    · simp
  · rw [valuesOf_option] at hv'
    split at hv'
    · subst o'
      rwa [List.mem_singleton.1 hv']
    · cases hv'
  · simp [hflags, flagsOf]

/-- An option without a value can have any value that it allows. -/
theorem exists_set (h : g.value? o = none) (hv : o.Allows v) :
    ∃ g', g.set o v = .ok g' ∧ g.Extends [.option o v] g' := by
  have hhas : g.has o = false := by rw [has_eq_isSome, h]; rfl
  unfold set
  rw [hhas]
  cases o with
  | input | output | config =>
    refine ⟨_, map_eq_ok_iff.2 ⟨v, path_eq_ok_iff.2 ⟨hv, rfl⟩, rfl⟩, extends_option h hv ?_ rfl⟩
    intro o'
    cases o' <;> rfl
  | format =>
    obtain ⟨f, rfl⟩ := hv
    refine ⟨_, map_eq_ok_iff.2 ⟨f, formatOf_eq_ok_iff.2 rfl, rfl⟩,
      extends_option h ⟨f, rfl⟩ ?_ rfl⟩
    intro o'
    cases o' <;> rfl
  | title | description =>
    refine ⟨_, rfl, extends_option h hv ?_ rfl⟩
    intro o'
    cases o' <;> rfl

theorem extends_of_add {item : Item} (h : g.add item = .ok g') : g.Extends [item] g' := by
  cases item with
  | option o v =>
    obtain ⟨hvalue, hv⟩ := checks_of_set h
    obtain ⟨g₁, hset, hextends⟩ := exists_set hvalue hv
    cases h.symm.trans hset
    exact hextends
  | flag f =>
    cases f with
    | verbose =>
      simp only [add, raise] at h
      split at h <;> cases h
      rename_i hverbose
      exact ⟨fun o => by cases o <;> simp [value?, valuesOf],
        fun o v hv => by simp [valuesOf] at hv, by simp [flags, hverbose, flagsOf]⟩
    | help | version => cases h

theorem Extends.exists_add {item : Item} (h : g.Extends (item :: items) g') :
    ∃ g₁, g.add item = .ok g₁ := by
  cases item with
  | option o v =>
    have hvalues := h.values o
    rw [valuesOf_cons, valuesOf_option, if_pos rfl] at hvalues
    -- a value in front of this one would be too many
    have hvalue : g.value? o = none := by
      cases hg : g.value? o with
      | none => rfl
      | some w => cases hg' : g'.value? o <;> simp [hg, hg'] at hvalues
    have hv : v ∈ valuesOf o (.option o v :: items) := by
      rw [valuesOf_cons, valuesOf_option, if_pos rfl]
      exact List.mem_cons_self
    obtain ⟨g₁, hset, -⟩ := exists_set hvalue (h.allowed o v hv)
    exact ⟨g₁, hset⟩
  | flag f =>
    have hflags : g'.flags = g.flags ++ f :: flagsOf items := h.flags
    cases hg : g.verbose <;> cases hg' : g'.verbose <;> simp [Given.flags, hg, hg'] at hflags
    obtain ⟨rfl, -⟩ := hflags
    exact ⟨{ g with verbose := true }, by simp [add, raise, hg]⟩

theorem extends_cons_iff {item : Item} {g₁ : Given} (h : g.Extends [item] g₁) :
    g.Extends (item :: items) g' ↔ g₁.Extends items g' := by
  constructor
  · intro hitems
    refine ⟨fun o => ?_, fun o v hv => ?_, ?_⟩
    · rw [hitems.values, h.values, valuesOf_cons, List.append_assoc]
    · exact hitems.allowed o v (by rw [valuesOf_cons]; exact List.mem_append_right _ hv)
    · rw [hitems.flags, h.flags, flagsOf_cons, List.append_assoc]
  · intro hitems
    refine ⟨fun o => ?_, fun o v hv => ?_, ?_⟩
    · rw [hitems.values, h.values, valuesOf_cons o item items, List.append_assoc]
    · rw [valuesOf_cons] at hv
      exact (List.mem_append.1 hv).elim (h.allowed o v) (hitems.allowed o v)
    · rw [hitems.flags, h.flags, flagsOf_cons item items, List.append_assoc]

/-- Items can be given exactly if each option has at most one value, which it allows, and the only
flag is raised at most once. -/
theorem foldlM_add_eq_ok_iff : items.foldlM Given.add g = .ok g' ↔ g.Extends items g' := by
  induction items generalizing g with
  | nil =>
    rw [List.foldlM_nil, pure_eq_ok_iff]
    constructor
    · rintro rfl
      exact ⟨fun o => by simp [valuesOf], fun o v hv => by simp [valuesOf] at hv,
        by simp [flagsOf]⟩
    · rintro ⟨hvalues, -, hflags⟩
      refine eq_of_value? (fun o => ?_) (by simpa [flagsOf] using hflags.symm)
      have hvalue := hvalues o
      cases hg : g.value? o <;> cases hg' : g'.value? o <;> simp_all [valuesOf]
  | cons item items ih =>
    rw [List.foldlM_cons, bind_eq_ok_iff]
    constructor
    · rintro ⟨g₁, hadd, hitems⟩
      exact (extends_cons_iff (extends_of_add hadd)).2 (ih.1 hitems)
    · intro h
      obtain ⟨g₁, hadd⟩ := h.exists_add
      exact ⟨g₁, hadd, ih.2 ((extends_cons_iff (extends_of_add hadd)).1 h)⟩

end Given

end RouteDocs.Command
