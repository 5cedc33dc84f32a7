import RouteDocs.Proofs.Yaml.Layout

/-!
# What is written

## Main definition

* `Printable`: characters that may be written as they are.

## Main statements

* `isWritable_ofJson`: every JSON value can be written.
* `printable_members`: the text of an object has printable characters only.
* `exists_print?_object`: an object is written, and its text is cut into its tokens.
-/

namespace RouteDocs.Yaml

open Value

/-! ## Characters -/

theorem isAllowed_of_isPrintable {c : Char} (h : isPrintable c = true) : isAllowed c = true := by
  simp only [isPrintable, isAllowed, Bool.or_eq_true, Bool.and_eq_true] at h ⊢
  grind

/-- These characters may all be written as they are. -/
def Printable (s : List Char) : Prop := ∀ c ∈ s, isPrintable c = true

@[simp] theorem printable_nil : Printable [] := fun _ h => nomatch h

@[simp] theorem printable_cons_iff {c : Char} {s : List Char} :
    Printable (c :: s) ↔ isPrintable c = true ∧ Printable s := List.forall_mem_cons

@[simp] theorem printable_append_iff {s t : List Char} :
    Printable (s ++ t) ↔ Printable s ∧ Printable t := List.forall_mem_append

@[simp] theorem printable_spaces (n : Nat) : Printable (spaces n) := by
  intro c hc
  rw [eq_space_of_mem_spaces hc]
  rfl

theorem printable_singleBody {s : List Char} (h : Printable s) (n : Nat) (fresh : Bool) :
    Printable (singleBody n fresh s) := by
  induction s generalizing fresh with
  | nil => cases fresh <;> simp [singleBody]
  | cons c s ih =>
    obtain ⟨hc, hs⟩ := printable_cons_iff.1 h
    by_cases hbreak : isBreak c = true
    · simp [singleBody, hbreak, hc, ih hs]
    · have hquote : Printable (if c = '\'' then ['\'', '\''] else [c]) := by
        split
        · simp [isPrintable]
        · simp [hc]
      cases fresh <;> simp [singleBody, hbreak, hquote, ih hs]

theorem printable_literalBody {s : List Char} (h : Printable s) (n : Nat) (fresh : Bool) :
    Printable (literalBody n fresh s) := by
  induction s generalizing fresh with
  | nil => cases fresh <;> simp [literalBody, isPrintable]
  | cons c s ih =>
    obtain ⟨hc, hs⟩ := printable_cons_iff.1 h
    by_cases hbreak : isBreak c = true
    · simp [literalBody, hbreak, hc, ih hs]
    · cases fresh <;> simp [literalBody, hbreak, hc, ih hs]

theorem printable_hexDigits (n code : Nat) : Printable (hexDigits n code) := by
  have hall : ∀ d < 16, isPrintable (Char.ofNat (if d < 10 then 48 + d else 55 + d)) = true := by
    decide
  induction n generalizing code with
  | zero => exact printable_nil
  | succ n ih =>
    exact printable_append_iff.2
      ⟨ih _, printable_cons_iff.2 ⟨hall _ (Nat.mod_lt _ (by decide)), printable_nil⟩⟩

theorem printable_escapeDouble (c : Char) : Printable (escapeDouble c) := by
  unfold escapeDouble
  split
  · rename_i h
    simp only [Bool.and_eq_true] at h
    simpa using h.1.1.1
  · refine printable_cons_iff.2 ⟨rfl, ?_⟩
    split <;> try exact printable_cons_iff.2 ⟨rfl, printable_nil⟩
    split <;> exact printable_cons_iff.2 ⟨rfl, printable_hexDigits _ _⟩

theorem printable_escapes (s : List Char) : Printable (s.flatMap escapeDouble) := by
  intro c hc
  obtain ⟨d, -, hd⟩ := List.mem_flatMap.1 hc
  exact printable_escapeDouble d c hd

theorem printable_stringLine (n : Nat) (s : List Char) : Printable (stringLine n s) := by
  have hfeed : isPrintable '\n' = true := by decide
  unfold stringLine
  cases hwritten : Written.ofString s with
  | plain =>
    have hs : Printable s := fun c hc =>
      (isPrintable_of_plainAllowed (ofString_eq_plain hwritten).2 c hc).1
    simp [hs, hfeed]
  | singleQuoted =>
    have hs : Printable s := fun c hc =>
      ((ofString_eq_singleQuoted hwritten).printable c hc).1
    simp [printable_singleBody hs, isPrintable]
  | doubleQuoted => simp [printable_escapes, isPrintable]
  | literal =>
    have hs : Printable s := (ofString_eq_literal hwritten).2
    have hindentation : Printable (indentationHint s) := by
      unfold indentationHint
      split <;> simp [isPrintable]
    have hchomping : Printable (chompingHint s) := by
      unfold chompingHint
      split <;> (try split) <;> (try split) <;> simp [isPrintable]
    simp [printable_literalBody hs, hindentation, hchomping, isPrintable]

theorem printable_keyText (s : List Char) : Printable (keyText s) := by
  unfold keyText
  cases hwritten : Written.ofString s with
  | plain =>
    exact fun c hc => (isPrintable_of_plainAllowed (ofString_eq_plain hwritten).2 c hc).1
  | singleQuoted =>
    have hs : Printable s := fun c hc =>
      ((ofString_eq_singleQuoted hwritten).printable c hc).1
    simp [printable_singleBody hs, isPrintable]
  | _ => simp [printable_escapes, isPrintable]

theorem printable_linesAt {column : Nat} {l : List (List Char)} (h : ∀ a ∈ l, Printable a) :
    Printable (linesAt column l) := by
  induction l with
  | nil => exact printable_nil
  | cons a l ih =>
    obtain ⟨ha, hl⟩ := List.forall_mem_cons.1 h
    cases l with
    | nil => simpa [linesAt] using ha
    | cons b l => simpa [linesAt, ha] using ih hl

theorem printable_lead (compact : Bool) (n : Nat) : Printable (lead compact n) := by
  cases compact <;> simp [lead, isPrintable]

/-- Wherever the value stands, its text has characters only that may be written as they are. -/
def IsPrintable (j : Json) : Prop :=
  ∀ indent compact inMapping, Printable (body indent compact inMapping (ofJson j))

theorem printable_itemLines {items : List Json} (h : ∀ x ∈ items, IsPrintable x) (column : Nat) :
    Printable (itemLines column true (itemsOfJson items)) := by
  rw [itemLines_eq]
  apply printable_linesAt
  intro a ha
  obtain ⟨x, hx, rfl⟩ := List.mem_map.1 ha
  exact printable_cons_iff.2 ⟨rfl, h x hx column true false⟩

theorem printable_entryLines {members : List (String × Json)} (h : ∀ m ∈ members, IsPrintable m.2)
    (column : Nat) : Printable (entryLines column true (membersOfJson members)) := by
  rw [entryLines_eq]
  apply printable_linesAt
  intro a ha
  obtain ⟨m, hm, rfl⟩ := List.mem_map.1 ha
  have hvalue := h m hm column
  rw [memberLine]
  split
  · simp [printable_keyText, hvalue, isPrintable]
  · simp [body, printable_stringLine, hvalue, isPrintable]

theorem isPrintable_of_isFloatFree {j : Json} (hfree : j.IsFloatFree) : IsPrintable j := by
  induction j using Json.induction with
  | null => simp [IsPrintable, ofJson, body, isPrintable]
  | bool b => cases b <;> simp [IsPrintable, ofJson, body, isPrintable]
  | number n =>
    cases n with
    | whole n =>
      have hdigits : Printable (Decimal.integer n.val) := fun c hc =>
        (isNumeral_of_mem_integer hc).printable
      simp [IsPrintable, ofJson, body, Number.text, hdigits, isPrintable]
    | float x => exact absurd hfree id
  | string s => simp [IsPrintable, ofJson, body, printable_stringLine, isPrintable]
  | array items ih =>
    have hlines := printable_itemLines fun x hx => ih x hx (Json.isFloatFree_array_iff.1 hfree x hx)
    intro indent compact inMapping
    cases items with
    | nil => simp [ofJson, itemsOfJson, body, isPrintable]
    | cons x items =>
      refine printable_append_iff.2 ⟨printable_lead _ _, ?_⟩
      exact hlines _
  | object members ih =>
    have hlines := printable_entryLines fun m hm =>
      ih m hm (Json.isFloatFree_object_iff.1 hfree m hm)
    intro indent compact inMapping
    cases members with
    | nil => simp [ofJson, membersOfJson, body, isPrintable]
    | cons m members =>
      refine printable_append_iff.2 ⟨printable_lead _ _, ?_⟩
      exact hlines _

/-- The text of an object has printable characters only. -/
theorem printable_members {members : List (String × Json)}
    (hfree : (Json.object members).IsFloatFree) (column : Nat) :
    Printable (entryLines column true (membersOfJson members)) :=
  printable_entryLines (fun m hm =>
    isPrintable_of_isFloatFree (Json.isFloatFree_object_iff.1 hfree m hm)) column

/-! ## Values that can be written -/

/-- Every JSON value can be written. -/
theorem isWritable_ofJson (j : Json) : isWritable false (ofJson j) = true := by
  induction j using Json.induction with
  | null | bool | number | string => rfl
  | array items ih =>
    rw [ofJson, isWritable]
    induction items with
    | nil => rfl
    | cons x items ihItems =>
      obtain ⟨hx, hitems⟩ := List.forall_mem_cons.1 ih
      simp [itemsOfJson, itemsWritable, hx, ihItems hitems]
  | object members ih =>
    have hentries : entriesWritable (membersOfJson members) = true := by
      induction members with
      | nil => rfl
      | cons m members ihMembers =>
        obtain ⟨hm, hmembers⟩ := List.forall_mem_cons.1 ih
        simp [membersOfJson, entriesWritable, isWritable, hm, ihMembers hmembers]
    rw [ofJson]
    cases members with
    | nil => rfl
    | cons m members =>
      cases members with
      | nil => simp [membersOfJson, isWritable, isOpenKey, ih m List.mem_cons_self]
      | cons n members => simpa [membersOfJson, isWritable] using hentries

/-- What is written for an object. -/
theorem print?_object {members : List (String × Json)} (hne : members ≠ []) :
    (ofJson (.object members)).print? =
      some (String.ofList (entryLines 0 true (membersOfJson members))) := by
  rw [print?, isWritable_ofJson]
  obtain ⟨m, members, rfl⟩ := List.exists_cons_of_ne_nil hne
  rfl

/-! ## The tokens of a text -/

/-- An object is written, and its text is cut into its tokens. -/
theorem exists_print?_object {members : List (String × Json)} (hne : members ≠ [])
    (hfree : (Json.object members).IsFloatFree) :
    ∃ text : String, (ofJson (.object members)).print? = some text ∧
      tokens? text.toList = some (tokensOf false (.object members)) := by
  have hmember := Json.isFloatFree_object_iff.1 hfree
  refine ⟨_, print?_object hne, ?_⟩
  rw [String.toList_ofList]
  have hallowed : (entryLines 0 true (membersOfJson members)).all isAllowed = true :=
    List.all_eq_true.2 fun c hc => isAllowed_of_isPrintable (printable_members hfree 0 c hc)
  have hline := readsLine_members hne (fun m hm => readsBack (hmember m hm)) 0
  generalize entryLines 0 true (membersOfJson members) = text at hallowed hline
  -- the scan starts outside of all collections
  have hstart : StartsToken text := by simpa using hline.startsToken []
  have hadvance := Blocks.advance?_scan (b := ⟨[], -1, []⟩)
    (Place.skipToToken_of_startsToken (p := .start text) hstart false true) (Blocks.refresh?_none _)
  obtain ⟨q, hsteps, hrest, hcolumn⟩ := hline.reached (b := ⟨[], -1, []⟩) (p := .start text)
    (r := []) rfl (by decide) (Nat.le_refl 0) (by simp [StartsToken]) (by simp [Place.start, spaces])
  have htokens : tokensOf false (.object members) =
      .blockMappingStart :: memberTokens members ++ [.blockEnd] := by
    obtain ⟨m, members, rfl⟩ := List.exists_cons_of_ne_nil hne
    rfl
  rw [tokens?, if_pos hallowed, htokens]
  apply Scan.run?_of_steps hadvance hsteps hrest
  have houtside : ∀ ts, (Blocks.emits ⟨[], -1, []⟩ ts).indent ≤ -1 := fun _ => Int.le_refl _
  rw [Blocks.finish?_scan, unroll_roll_self (by decide), Blocks.unroll_roll (by decide) (by decide),
    Blocks.unroll_of_le (houtside _)]
  simp [Blocks.emits]

end RouteDocs.Yaml
