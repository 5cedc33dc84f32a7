import RouteDocs.Proofs.Yaml.Layout
import RouteDocs.Proofs.Yaml.Token.Last

/-!
# The last line of a text

A value at the end of a text that lacks its last line feed is read as it is elsewhere, up to its
last line. Of a collection all lines but the last lead to the next one; the last one leads to the
end of the text.

## Main definitions

* `LastLine`: up to its end a text is read as given tokens where a line of a collection starts.
* `LastValue`: a value at the end of a text is read as given tokens.

## Main statements

* `lastValue_array`, `lastValue_object`: a collection at the end of a text.
* `LastLine.tokens?_eq`: the tokens of a text that is one collection.
-/

namespace RouteDocs.Yaml

open Blocks Value
open Text (dropFeed)

/-! ## Lines -/

/-- Where a line of a collection starts, the text up to its end is read as these tokens. The token
`t` opens the collection, unless that is open. -/
structure LastLine (column : Nat) (t : Token) (a : List Char) (ts : List Token) : Prop where
  startsToken : StartsToken a
  finishes : ∀ {b : Blocks} {p : Place}, p.column = column → b.indent ≤ column → p.rest = a →
    Finishes (b.scan p true none) ((b.roll column t).emits ts)

variable {column : Nat} {t : Token}

theorem ReadsLine.appendLast {a a' : List Char} {ts ts' : List Token}
    (h : ReadsLine column t a ts) (h' : LastLine column t a' ts') :
    LastLine column t (a ++ (spaces column ++ a')) (ts ++ ts') where
  startsToken := h.startsToken _
  finishes {b p} hp hindent hrest := by
    apply (h.reached hp hindent (Nat.le_refl _) h'.startsToken hrest).finishes
    intro q hq hcolumn
    have hnext := h'.finishes (b := (b.roll column t).emits ts) hcolumn
      (Int.le_of_eq (indent_roll hindent t)) hq
    rw [roll_roll hindent, emits_emits] at hnext
    rwa [unroll_roll_self hindent]

theorem linesAt_cons (a : List Char) {as : List (List Char)} (h : as ≠ []) :
    linesAt column (a :: as) = a ++ (spaces column ++ linesAt column as) := by
  obtain ⟨b, as, rfl⟩ := List.exists_cons_of_ne_nil h
  rfl

theorem linesAt_ne_nil {a : List Char} {l : List (List Char)} (ha : a ∈ l) (hne : a ≠ []) :
    linesAt column l ≠ [] := by
  induction l with
  | nil => cases ha
  | cons b l ih =>
    rcases List.mem_cons.1 ha with rfl | ha
    · cases l <;> simp [linesAt, hne]
    · simp [linesAt_cons b (List.ne_nil_of_mem ha), ih ha]

/-- Lines that are read one by one lead to the last line. -/
theorem lastLine_linesAt {α : Type} {line : α → List Char} {tokens : α → List Token} {l : List α}
    {a : List Char} {ts : List Token} (h : ∀ x ∈ l, ReadsLine column t (line x) (tokens x))
    (hlast : LastLine column t a ts) :
    LastLine column t (linesAt column (l.map line ++ [a])) (l.flatMap tokens ++ ts) := by
  induction l with
  | nil => exact hlast
  | cons x l ih =>
    obtain ⟨hx, hl⟩ := List.forall_mem_cons.1 h
    rw [List.map_cons, List.cons_append, linesAt_cons _ (by simp), List.flatMap_cons,
      List.append_assoc]
    exact hx.appendLast (ih hl)

/-- Only the last line lacks the line feed at the end of the text. -/
theorem dropFeed_linesAt {a : List Char} (ha : a ≠ []) (l : List (List Char)) :
    dropFeed (linesAt column (l ++ [a])) = linesAt column (l ++ [dropFeed a]) := by
  induction l with
  | nil => rfl
  | cons b l ih =>
    have hne : linesAt column (l ++ [a]) ≠ [] := linesAt_ne_nil (by simp) ha
    rw [List.cons_append, List.cons_append, linesAt_cons _ (by simp), linesAt_cons _ (by simp),
      ← ih, ← List.append_assoc, Text.dropFeed_append _ hne, List.append_assoc]

/-! ## Values -/

/-- Wherever the value may stand at the end of a text, it is read as these tokens. For a sequence
they may lack a start and an end. -/
def LastValue (j : Json) (tokens : Bool → List Token) : Prop :=
  ∀ {b : Blocks} {p : Place} {indent : Nat} {compact inMapping keyAllowed : Bool},
    b.indent = indent → indent < p.column →
      (compact = true → p.column = indent + 1 ∧ keyAllowed = true) →
        p.rest = dropFeed (body indent compact inMapping (ofJson j)) →
          b.ReadsLast p keyAllowed (tokens (inMapping && !compact))

theorem atBlankOrEnd_of_prefix {s s' : List Char} (h : s' <+: s) (hs : atBlankOrEnd s = true) :
    atBlankOrEnd s' = true := by
  obtain ⟨t, rfl⟩ := h
  cases s' with
  | nil => rfl
  | cons c s' => exact hs

theorem atBlankOrEnd_dropFeed_body (indent : Nat) (compact inMapping : Bool) (j : Json) :
    atBlankOrEnd (dropFeed (body indent compact inMapping (ofJson j))) = true := by
  have hbody := atBlankOrEnd_body indent compact inMapping j []
  rw [List.append_nil] at hbody
  exact atBlankOrEnd_of_prefix (Text.dropFeed_prefix _) hbody

theorem body_ne_nil (indent : Nat) (compact inMapping : Bool) (j : Json) :
    body indent compact inMapping (ofJson j) ≠ [] := by
  obtain ⟨c, s, hbody, -⟩ := exists_body_eq_cons indent compact inMapping j
  simp [hbody]

/-! ### Items and members -/

theorem lastLine_itemLine {x : Json} {tokens : Bool → List Token} (hx : LastValue x tokens)
    (column : Nat) :
    LastLine column .blockSequenceStart (dropFeed (itemLine column x))
      (.blockEntry :: tokens false) where
  startsToken := by
    rw [itemLine, Text.dropFeed_cons _ (body_ne_nil _ _ _ _)]
    exact startsToken_cons (by decide) _
  finishes {b p} hp hindent hrest := by
    subst hp
    rw [itemLine, Text.dropFeed_cons _ (body_ne_nil _ _ _ _)] at hrest
    have hafter : (p.skip 1).rest = dropFeed (body p.column true false (ofJson x)) := by
      rw [Place.rest_skip, hrest]
      rfl
    have hvalue := hx (b := (b.roll p.column .blockSequenceStart).emits [.blockEntry])
      (indent_roll hindent _) (Nat.lt_succ_self _) (fun _ => ⟨rfl, rfl⟩) hafter
    have hfinishes := hvalue.finishes hrest
      (token?_hyphen hrest (atBlankOrEnd_dropFeed_body _ _ _ _)) (Nat.le_of_eq (congrArg _ hafter))
    rwa [emits_emits] at hfinishes

/-- The value of a key is the last one of the text. -/
theorem Blocks.ReadsKey.finishes {b : Blocks} {p : Place} {token : Token} {n : Nat} {a : List Char}
    {ts : List Token} (h : b.ReadsKey p token n a) (hindent : b.indent ≤ p.column)
    (ha : atBlankOrEnd a = true)
    (hvalue : ((b.roll p.column .blockMappingStart).emits [.key, token, .value]).ReadsLast
      ((p.skip n).skip 1) false ts) :
    Finishes (b.scan p true none)
      ((b.roll p.column .blockMappingStart).emits (.key :: token :: .value :: ts)) := by
  have hlength : ((p.skip n).skip 1).rest.length ≤ a.length := by
    rw [Place.rest_skip, h.colon]
    exact Nat.le_refl _
  have hfinishes : Finishes ((b.emits [token]).scan (p.skip n) false (some (b.candidate p)))
      (((b.roll p.column .blockMappingStart).emits [.key, token, .value]).emits ts) :=
    hvalue.finishes h.colon (token?_colon_key h.colon ha) hlength
  exact .of_steps (h.steps hindent) (by simpa using hfinishes)

theorem lastLine_simpleKey {key : String} {x : Json} {tokens : Bool → List Token}
    (hx : LastValue x tokens) (hkey : isSimpleKey (.string key) = true) (column : Nat) :
    LastLine column .blockMappingStart
      (keyText key.toList ++ ':' :: dropFeed (body column false true (ofJson x)))
      (.key :: stringToken key.toList :: .value :: tokens true) where
  startsToken := startsToken_keyText _ _
  finishes {b p} hp hindent hrest := by
    subst hp
    obtain ⟨hbreak, hlength⟩ := isSimpleKey_string_iff.1 hkey
    have hblank := atBlankOrEnd_dropFeed_body p.column false true x
    have hread := readsKey_string (b := b) hbreak hlength hrest hblank hindent
    have hafter : ((p.skip (keyText key.toList).length).skip 1).rest =
        dropFeed (body p.column false true (ofJson x)) := by
      rw [Place.rest_skip, hread.colon]
      rfl
    have hvalue : ((b.roll p.column .blockMappingStart).emits
        [.key, stringToken key.toList, .value]).ReadsLast
          ((p.skip (keyText key.toList).length).skip 1) false (tokens (true && !false)) :=
      hx (indent_roll hindent _) (by simp) (by simp) hafter
    exact hread.finishes hindent hblank hvalue

theorem lastLine_complexKey {key : String} {x : Json} {tokens : Bool → List Token}
    (hx : LastValue x tokens) (column : Nat) :
    LastLine column .blockMappingStart
      ('?' :: (body column true true (.string key) ++ spaces column ++
        ':' :: dropFeed (body column true true (ofJson x))))
      (.key :: stringToken key.toList :: .value :: tokens false) where
  startsToken := startsToken_cons (by decide) _
  finishes {b p} hp hindent hrest := by
    subst hp
    have hblank := atBlankOrEnd_dropFeed_body p.column true true x
    have hrest : p.rest = '?' :: ' ' :: (stringLine (p.column + 2) key.toList ++
        (spaces p.column ++ ':' :: dropFeed (body p.column true true (ofJson x)))) := by
      have hbody : body p.column true true (.string key) =
          ' ' :: stringLine (p.column + 2) key.toList := rfl
      rw [hbody] at hrest
      simpa only [List.cons_append, List.append_assoc] using hrest
    apply (reached_complexKey hindent hrest).finishes
    intro q hq hcolumn
    have hafter : (q.skip 1).rest = dropFeed (body p.column true true (ofJson x)) := by
      rw [Place.rest_skip, hq]
      rfl
    have hvalue : ((b.roll p.column .blockMappingStart).emits
        [.key, stringToken key.toList, .value]).ReadsLast (q.skip 1) true
          (tokens (true && !true)) :=
      hx (indent_roll hindent _) (by simp [hcolumn])
        (fun _ => ⟨by rw [Place.column_skip, hcolumn], rfl⟩) hafter
    have hlast := hvalue.finishes hq (token?_complexColon hindent hq hcolumn hblank)
      (Nat.le_of_eq (congrArg _ hafter))
    rw [unroll_roll_self hindent]
    simpa using hlast

theorem lastLine_memberLine {m : String × Json} {tokens : Bool → List Token}
    (hx : LastValue m.2 tokens) (column : Nat) :
    LastLine column .blockMappingStart (dropFeed (memberLine column m))
      (.key :: stringToken m.1.toList :: .value :: tokens (isSimpleKey (.string m.1))) := by
  unfold memberLine
  by_cases hkey : isSimpleKey (.string m.1) = true
  · have hbody := body_ne_nil column false true m.2
    rw [if_pos hkey, hkey, Text.dropFeed_append _ (by simp), Text.dropFeed_cons _ hbody]
    exact lastLine_simpleKey hx hkey column
  · have hbody := body_ne_nil column true true m.2
    rw [if_neg hkey, Bool.eq_false_iff.2 hkey, Text.dropFeed_cons _ (by simp),
      Text.dropFeed_append _ (by simp), Text.dropFeed_cons _ hbody]
    exact lastLine_complexKey hx column

/-! ### Collections -/

theorem lastLine_items {init : List Json} {x : Json} {tokens : Bool → List Token}
    (h : ∀ y ∈ init, ReadsBack y) (hx : LastValue x tokens) (column : Nat) :
    LastLine column .blockSequenceStart
      (dropFeed (itemLines column true (itemsOfJson (init ++ [x]))))
      (itemTokens init ++ .blockEntry :: tokens false) := by
  rw [itemLines_eq, List.map_append, List.map_singleton, dropFeed_linesAt (by simp [itemLine]),
    itemTokens_eq]
  exact lastLine_linesAt (fun y hy => readsLine_itemLine (h y hy) column)
    (lastLine_itemLine hx column)

theorem memberLine_ne_nil (column : Nat) (m : String × Json) : memberLine column m ≠ [] := by
  unfold memberLine
  split <;> simp

theorem lastLine_members {init : List (String × Json)} {m : String × Json}
    {tokens : Bool → List Token} (h : ∀ n ∈ init, ReadsBack n.2) (hx : LastValue m.2 tokens)
    (column : Nat) :
    LastLine column .blockMappingStart
      (dropFeed (entryLines column true (membersOfJson (init ++ [m]))))
      (memberTokens init ++ .key :: stringToken m.1.toList :: .value ::
        tokens (isSimpleKey (.string m.1))) := by
  rw [entryLines_eq, List.map_append, List.map_singleton,
    dropFeed_linesAt (memberLine_ne_nil column m), memberTokens_eq]
  exact lastLine_linesAt (fun n hn => readsLine_memberLine (h n hn) column)
    (lastLine_memberLine hx column)

/-- A collection that is further in than the one around it. -/
theorem readsLast_block {b : Blocks} {p : Place} {indent : Nat} {text : List Char}
    {compact keyAllowed : Bool} {ts : List Token} (hindent : b.indent = indent)
    (hline : LastLine (indent + 2) t text ts)
    (hcompact : compact = true → p.column = indent + 1 ∧ keyAllowed = true)
    (hp : p.rest = lead compact (indent + 2) ++ text) :
    b.ReadsLast p keyAllowed (t :: ts ++ [.blockEnd]) := by
  have hopen : b.indent ≤ (indent + 2 : Nat) := by omega
  have hcolumn : compact = true → indent + 2 = p.column + 1 ∧ keyAllowed = true := by
    intro hc
    obtain ⟨hp, hkey⟩ := hcompact hc
    exact ⟨by omega, hkey⟩
  obtain ⟨q, hadvance, hq, hqcolumn⟩ := exists_advance?_lead hopen hline.startsToken hcolumn hp
  obtain ⟨s, hsteps, hs⟩ := hline.finishes hqcolumn hopen hq
  rw [unroll_roll (by omega) (by omega)] at hs
  exact ⟨_, hadvance, s, hsteps, hs⟩

theorem lastValue_array {init : List Json} {x : Json} {tokens : Bool → List Token}
    (h : ∀ y ∈ init, ReadsBack y) (hx : LastValue x tokens) :
    LastValue (.array (init ++ [x])) (arrayTokens init tokens) := by
  intro b p indent compact inMapping keyAllowed hindent hcolumn hcompact hp
  have hline := lastLine_items h hx
  obtain ⟨y, items, hitems⟩ := List.exists_cons_of_ne_nil (show init ++ [x] ≠ [] by simp)
  rw [hitems] at hp hline
  have hlines : ∀ column, itemLines column true (itemsOfJson (y :: items)) ≠ [] := by
    simp [itemsOfJson, itemLines]
  by_cases hindentless : (inMapping && !compact) = true
  · -- the items stand at the column of the key
    obtain ⟨rfl, rfl⟩ : inMapping = true ∧ compact = false := by simpa using hindentless
    have hrest : p.rest = lead false indent ++
        dropFeed (itemLines indent true (itemsOfJson (y :: items))) := by
      rw [← Text.dropFeed_append _ (hlines indent)]
      simpa [ofJson, body, itemsOfJson] using hp
    obtain ⟨q, hadvance, hq, hqcolumn⟩ := exists_advance?_lead (Int.le_of_eq hindent)
      (hline indent).startsToken (by simp) hrest
    have hfinishes := (hline indent).finishes hqcolumn (Int.le_of_eq hindent) hq
    rw [roll_of_le (Int.le_of_eq hindent.symm)] at hfinishes
    exact ⟨_, hadvance, hfinishes⟩
  · have hrest : p.rest = lead compact (indent + 2) ++
        dropFeed (itemLines (indent + 2) true (itemsOfJson (y :: items))) := by
      rw [← Text.dropFeed_append _ (hlines (indent + 2))]
      simpa [ofJson, body, itemsOfJson, hindentless] using hp
    have hread := readsLast_block hindent (hline (indent + 2)) hcompact hrest
    simpa [arrayTokens, hindentless] using hread

theorem lastValue_object {init : List (String × Json)} {m : String × Json}
    {tokens : Bool → List Token} (h : ∀ n ∈ init, ReadsBack n.2) (hx : LastValue m.2 tokens) :
    LastValue (.object (init ++ [m])) (fun _ => objectTokens init m.1 tokens) := by
  intro b p indent compact inMapping keyAllowed hindent hcolumn hcompact hp
  have hline := lastLine_members h hx (indent + 2)
  obtain ⟨n, members, hmembers⟩ := List.exists_cons_of_ne_nil (show init ++ [m] ≠ [] by simp)
  rw [hmembers] at hp hline
  have hlines : entryLines (indent + 2) true (membersOfJson (n :: members)) ≠ [] := by
    rw [entryLines_eq]
    exact linesAt_ne_nil List.mem_cons_self (memberLine_ne_nil _ n)
  have hrest : p.rest = lead compact (indent + 2) ++
      dropFeed (entryLines (indent + 2) true (membersOfJson (n :: members))) := by
    rw [← Text.dropFeed_append _ hlines]
    simpa [ofJson, body, membersOfJson] using hp
  exact readsLast_block hindent hline hcompact hrest

/-! ### Other values -/

theorem lastValue_plain {j : Json} {w : List Char} (hw : plainAllowed w = true)
    (hbody : ∀ indent compact inMapping, body indent compact inMapping (ofJson j) =
      ' ' :: (w ++ ['\n'])) :
    LastValue j fun _ => [.scalar .plain (String.ofList w)] := by
  intro b p indent compact inMapping keyAllowed hindent hcolumn hcompact hp
  rw [hbody] at hp
  exact readsLast_plain (by omega) hw (hp.trans (Text.dropFeed_append_lineFeed (' ' :: w))) _

theorem lastValue_string (s : String) :
    LastValue (.string s) fun _ => [lastToken s.toList] :=
  fun hindent hcolumn _ hp => readsLast_string hindent hcolumn hp _

theorem lastValue_nil : LastValue (.array []) fun _ => [.flowSequenceStart, .flowSequenceEnd] :=
  fun hindent hcolumn _ hp => readsLast_empty (by omega) .sequence hp _

theorem lastValue_empty : LastValue (.object []) fun _ => [.flowMappingStart, .flowMappingEnd] :=
  fun hindent hcolumn _ hp => readsLast_empty (by omega) .mapping hp _

/-! ## The text -/

/-- The tokens of a text that is one collection, with a line feed in front. -/
theorem LastLine.tokens?_eq {text : List Char} {ts : List Token} (h : LastLine 0 t text ts)
    (hallowed : ('\n' :: text).all isAllowed = true) :
    tokens? ('\n' :: text) = some (t :: ts ++ [.blockEnd]) := by
  -- the scan starts outside of all collections, in front of the line feed
  have hskip : (Place.start ('\n' :: text)).skipToToken false true = (⟨text, 1, 0, 1⟩, true) :=
    Place.skipToToken_lineFeed rfl h.startsToken true
  have hadvance := Blocks.advance?_scan (b := ⟨[], -1, []⟩) hskip (Blocks.refresh?_none _)
  obtain ⟨s, hsteps, hend, hfinish⟩ := h.finishes (b := ⟨[], -1, []⟩)
    (p := ⟨text, 1, 0, 1⟩) rfl (by decide) rfl
  rw [tokens?, if_pos hallowed]
  refine Scan.run?_of_steps hadvance hsteps hend (hfinish.trans ?_)
  have houtside : ∀ ts, (Blocks.emits ⟨[], -1, []⟩ ts).indent ≤ -1 := fun _ => Int.le_refl _
  rw [Blocks.unroll_roll (by decide) (by decide), Blocks.unroll_of_le (houtside _)]
  simp [Blocks.emits]

end RouteDocs.Yaml
