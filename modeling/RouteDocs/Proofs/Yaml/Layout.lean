import RouteDocs.Proofs.Json.Basic
import RouteDocs.Proofs.Yaml.Plain
import RouteDocs.Proofs.Yaml.Token.Key
import RouteDocs.Yaml.Value.Json

/-!
# Values read back as tokens

The lines of a collection stand at one column. The scan reads them one after the other; each of them
leads to the next one, and the last one leads to what comes after the collection.

## Main definitions

* `tokensOf`: the tokens of a JSON value.
* `arrayTokens`, `objectTokens`: the tokens of a collection around those of its last value.
* `ReadsLine`: a text is read as given tokens where a line of a collection starts.
* `ReadsBack`: a value is read as its tokens wherever it may stand.

## Main statements

* `readsLine_linesAt`: lines that are read one by one are read together.
* `readsBack`: every value without doubles is read back.
-/

namespace RouteDocs.Yaml

open Blocks Value

/-! ## Tokens -/

mutual

/-- The tokens of a value. A sequence that is `indentless` has neither a start nor an end. -/
def tokensOf (indentless : Bool) : Json → List Token
  | .null => [.scalar .plain "null"]
  | .bool b => [.scalar .plain (boolString b)]
  | .number n => [.scalar .plain (String.ofList (n.text numberLayout))]
  | .string s => [stringToken s.toList]
  | .array items =>
    if items.isEmpty then [.flowSequenceStart, .flowSequenceEnd]
    else if indentless then itemTokens items
    else .blockSequenceStart :: itemTokens items ++ [.blockEnd]
  | .object members =>
    if members.isEmpty then [.flowMappingStart, .flowMappingEnd]
    else .blockMappingStart :: memberTokens members ++ [.blockEnd]

def itemTokens : List Json → List Token
  | [] => []
  | x :: items => .blockEntry :: tokensOf false x ++ itemTokens items

def memberTokens : List (String × Json) → List Token
  | [] => []
  | (k, x) :: members =>
    .key :: stringToken k.toList :: .value :: tokensOf (isSimpleKey (.string k)) x ++
      memberTokens members

end

/-- The tokens of an item, with its hyphen. -/
def itemToken (x : Json) : List Token := .blockEntry :: tokensOf false x

/-- The tokens of a member. -/
def memberToken (m : String × Json) : List Token :=
  .key :: stringToken m.1.toList :: .value :: tokensOf (isSimpleKey (.string m.1)) m.2

theorem itemTokens_eq (items : List Json) : itemTokens items = items.flatMap itemToken := by
  induction items with
  | nil => rfl
  | cons x items ih => rw [itemTokens, ih, List.flatMap_cons, itemToken]

theorem memberTokens_eq (members : List (String × Json)) :
    memberTokens members = members.flatMap memberToken := by
  induction members with
  | nil => rfl
  | cons m members ih => rw [memberTokens, ih, List.flatMap_cons, memberToken]

/-- The tokens of an array whose last item has the given tokens. -/
def arrayTokens (init : List Json) (tokens : Bool → List Token) (indentless : Bool) : List Token :=
  if indentless then itemTokens init ++ .blockEntry :: tokens false
  else .blockSequenceStart :: (itemTokens init ++ .blockEntry :: tokens false) ++ [.blockEnd]

/-- The tokens of an object whose last value is at `key` and has the given tokens. -/
def objectTokens (init : List (String × Json)) (key : String) (tokens : Bool → List Token) :
    List Token :=
  .blockMappingStart :: (memberTokens init ++ .key :: stringToken key.toList :: .value ::
    tokens (isSimpleKey (.string key))) ++ [.blockEnd]

theorem tokensOf_array (init : List Json) (x : Json) (indentless : Bool) :
    tokensOf indentless (.array (init ++ [x])) =
      arrayTokens init (fun indentless => tokensOf indentless x) indentless := by
  simp [tokensOf, arrayTokens, itemTokens_eq, itemToken]

theorem tokensOf_object (init : List (String × Json)) (m : String × Json) (indentless : Bool) :
    tokensOf indentless (.object (init ++ [m])) =
      objectTokens init m.1 fun indentless => tokensOf indentless m.2 := by
  simp [tokensOf, objectTokens, memberTokens_eq, memberToken]

/-! ## Lines -/

/-- Texts at one column, the first of which stands there already. -/
def linesAt (column : Nat) : List (List Char) → List Char
  | [] => []
  | [a] => a
  | a :: b :: as => a ++ (spaces column ++ linesAt column (b :: as))

/-- The line of an item. -/
def itemLine (column : Nat) (x : Json) : List Char := '-' :: body column true false (ofJson x)

/-- The lines of a member. -/
def memberLine (column : Nat) (m : String × Json) : List Char :=
  if isSimpleKey (.string m.1) then
    keyText m.1.toList ++ ':' :: body column false true (ofJson m.2)
  else
    '?' :: (body column true true (.string m.1) ++ spaces column ++
      ':' :: body column true true (ofJson m.2))

theorem itemLines_eq (column : Nat) (items : List Json) :
    itemLines column true (itemsOfJson items) = linesAt column (items.map (itemLine column)) := by
  induction items with
  | nil => rfl
  | cons x items ih =>
    cases items with
    | nil => simp [itemsOfJson, itemLines, linesAt, itemLine]
    | cons y items =>
      rw [List.map_cons, List.map_cons, linesAt, ← List.map_cons, ← ih]
      simp [itemsOfJson, itemLines, itemLine]

theorem entryLines_eq (column : Nat) (members : List (String × Json)) :
    entryLines column true (membersOfJson members) =
      linesAt column (members.map (memberLine column)) := by
  induction members with
  | nil => rfl
  | cons m members ih =>
    cases members with
    | nil => simp [membersOfJson, entryLines, linesAt, memberLine, simpleKey]
    | cons n members =>
      rw [List.map_cons, List.map_cons, linesAt, ← List.map_cons, ← ih]
      simp [membersOfJson, entryLines, memberLine, simpleKey]

/-- Where a line of a collection starts, the text is read as these tokens. The token `t` opens the
collection, unless that is open. -/
structure ReadsLine (column : Nat) (t : Token) (a : List Char) (ts : List Token) : Prop where
  startsToken : ∀ s, StartsToken (a ++ s)
  reached : ∀ {b : Blocks} {p : Place} {k : Nat} {r : List Char}, p.column = column →
    b.indent ≤ column → k ≤ column → StartsToken r → p.rest = a ++ (spaces k ++ r) →
      Reached (b.scan p true none) ((b.roll column t).emits ts) k r

theorem ReadsLine.append {column : Nat} {t : Token} {a a' : List Char} {ts ts' : List Token}
    (h : ReadsLine column t a ts) (h' : ReadsLine column t a' ts') :
    ReadsLine column t (a ++ (spaces column ++ a')) (ts ++ ts') where
  startsToken s := by
    rw [List.append_assoc]
    exact h.startsToken _
  reached {b p k r} hp hindent hk hr hrest := by
    have hopen := indent_roll hindent t
    simp only [List.append_assoc] at hrest
    apply (h.reached hp hindent (Nat.le_refl _) (h'.startsToken _) hrest).trans
    intro q hq hcolumn
    have hnext := h'.reached (b := (b.roll column t).emits ts) hcolumn (Int.le_of_eq hopen) hk hr hq
    have hroll : ((b.roll column t).emits ts).roll column t = (b.roll column t).emits ts :=
      roll_of_le (b := (b.roll column t).emits ts) (Int.le_of_eq hopen.symm) t
    have hunroll : ((b.roll column t).emits ts).unroll column = (b.roll column t).emits ts :=
      unroll_of_le (Int.le_of_eq hopen)
    rw [hroll, emits_emits] at hnext
    rwa [hunroll]

/-- Lines that are read one by one are read together. -/
theorem readsLine_linesAt {α : Type} {column : Nat} {t : Token} {line : α → List Char}
    {tokens : α → List Token} {l : List α} (hne : l ≠ [])
    (h : ∀ x ∈ l, ReadsLine column t (line x) (tokens x)) :
    ReadsLine column t (linesAt column (l.map line)) (l.flatMap tokens) := by
  induction l with
  | nil => exact absurd rfl hne
  | cons x l ih =>
    obtain ⟨hx, hl⟩ := List.forall_mem_cons.1 h
    cases l with
    | nil => simpa [linesAt] using hx
    | cons y l => exact hx.append (ih (by simp) hl)

/-! ## Values -/

/-- Wherever the value may stand it is read as its tokens. -/
def ReadsBack (j : Json) : Prop :=
  ∀ {b : Blocks} {p : Place} {indent k : Nat} {r : List Char} {compact inMapping keyAllowed : Bool},
    b.Fits p indent k r → (compact = true → p.column = indent + 1 ∧ keyAllowed = true) →
      p.rest = body indent compact inMapping (ofJson j) ++ (spaces k ++ r) →
        b.Reads p keyAllowed (tokensOf (inMapping && !compact) j) k r

/-- The scan goes on to the lines of a collection, on the line of its indicator or on new ones. -/
theorem exists_advance?_lead {b : Blocks} {p : Place} {column : Nat} {text : List Char}
    {compact keyAllowed : Bool} (hopen : b.indent ≤ column) (hstart : StartsToken text)
    (hcompact : compact = true → column = p.column + 1 ∧ keyAllowed = true)
    (hp : p.rest = lead compact column ++ text) :
    ∃ q : Place, (b.scan p keyAllowed none).advance? = some (b.scan q true none) ∧
      q.rest = text ∧ q.column = column := by
  obtain ⟨q, hskip, hq, hqcolumn⟩ : ∃ q, p.skipToToken false keyAllowed = (q, true) ∧
      q.rest = text ∧ q.column = column := by
    cases compact with
    | true =>
      obtain ⟨rfl, rfl⟩ := hcompact rfl
      refine ⟨p.skip 1, skipToToken_space hp hstart true, ?_, rfl⟩
      rw [Place.rest_skip, hp]
      rfl
    | false => exact ⟨_, Place.skipToToken_lineFeed hp hstart keyAllowed, rfl, rfl⟩
  have hadvance := advance?_scan (b := b) hskip (refresh?_none _)
  rw [hqcolumn, unroll_of_le hopen] at hadvance
  exact ⟨q, hadvance, hq, hqcolumn⟩

/-- A collection is read as its lines are. -/
theorem reached_lead {b : Blocks} {p : Place} {indent k column : Nat} {r text : List Char}
    {compact keyAllowed : Bool} {t : Token} {ts : List Token} (h : b.Fits p indent k r)
    (hline : ReadsLine column t text ts) (hcolumn : indent ≤ column)
    (hcompact : compact = true → column = p.column + 1 ∧ keyAllowed = true)
    (hp : p.rest = lead compact column ++ (text ++ (spaces k ++ r))) :
    ∃ s, (b.scan p keyAllowed none).advance? = some s ∧
      Reached s ((b.roll column t).emits ts) k r := by
  obtain ⟨hindent, -, hk, hr⟩ := h
  have hopen : b.indent ≤ column := by omega
  obtain ⟨q, hadvance, hq, hqcolumn⟩ :=
    exists_advance?_lead hopen (hline.startsToken (spaces k ++ r)) hcompact hp
  exact ⟨_, hadvance, hline.reached hqcolumn hopen (Nat.le_trans hk hcolumn) hr hq⟩

theorem exists_body_eq_cons (indent : Nat) (compact inMapping : Bool) (j : Json) :
    ∃ c s, body indent compact inMapping (ofJson j) = c :: s ∧ (c = ' ' ∨ c = '\n') := by
  have hlead : ∀ (column : Nat) (s : List Char),
      ∃ c t, lead compact column ++ s = c :: t ∧ (c = ' ' ∨ c = '\n') := by
    intro column s
    cases compact with
    | true => exact ⟨' ', _, rfl, .inl rfl⟩
    | false => exact ⟨'\n', _, rfl, .inr rfl⟩
  cases j with
  | null | number | string => exact ⟨' ', _, rfl, .inl rfl⟩
  | bool b => cases b <;> exact ⟨' ', _, rfl, .inl rfl⟩
  | array items =>
    cases items with
    | nil => exact ⟨' ', _, rfl, .inl rfl⟩
    | cons x items => exact hlead _ _
  | object members =>
    cases members with
    | nil => exact ⟨' ', _, rfl, .inl rfl⟩
    | cons m members => exact hlead _ _

theorem atBlankOrEnd_body (indent : Nat) (compact inMapping : Bool) (j : Json) (s : List Char) :
    atBlankOrEnd (body indent compact inMapping (ofJson j) ++ s) = true := by
  obtain ⟨c, t, hbody, hc⟩ := exists_body_eq_cons indent compact inMapping j
  rw [hbody]
  rcases hc with rfl | rfl <;> rfl

/-! ## Items and members -/

section

variable {b : Blocks} {column k : Nat} {r : List Char}

/-- A value after the indicator of a line fits the collection of that line. -/
theorem fits_roll {q : Place} (hindent : b.indent ≤ column) (hcolumn : column < q.column)
    (hk : k ≤ column) (hr : StartsToken r) (t : Token) (ts : List Token) :
    ((b.roll column t).emits ts).Fits q column k r :=
  ⟨indent_roll hindent t, hcolumn, hk, hr⟩

theorem roll_roll (hindent : b.indent ≤ column) (t : Token) (ts : List Token) :
    ((b.roll column t).emits ts).roll column t = (b.roll column t).emits ts :=
  roll_of_le (b := (b.roll column t).emits ts) (Int.le_of_eq (indent_roll hindent t).symm) t

theorem unroll_roll_self (hindent : b.indent ≤ column) (t : Token) (ts : List Token) :
    ((b.roll column t).emits ts).unroll column = (b.roll column t).emits ts :=
  unroll_of_le (b := (b.roll column t).emits ts) (Int.le_of_eq (indent_roll hindent t))

end

theorem readsLine_itemLine {x : Json} (hx : ReadsBack x) (column : Nat) :
    ReadsLine column .blockSequenceStart (itemLine column x) (itemToken x) where
  startsToken _ := startsToken_cons (by decide) _
  reached {b p k r} hp hindent hk hr hrest := by
    subst hp
    have hblank := atBlankOrEnd_body p.column true false x (spaces k ++ r)
    have hrest : p.rest = '-' :: (body p.column true false (ofJson x) ++ (spaces k ++ r)) := hrest
    have hafter : (p.skip 1).rest = body p.column true false (ofJson x) ++ (spaces k ++ r) := by
      rw [Place.rest_skip, hrest]
      rfl
    have hvalue := hx (fits_roll hindent (Nat.lt_succ_self _) hk hr .blockSequenceStart
      [.blockEntry]) (fun _ => ⟨rfl, rfl⟩) hafter
    have hreached := hvalue.reached hrest (token?_hyphen hrest hblank)
      (Nat.le_of_eq (congrArg _ hafter))
    rwa [emits_emits] at hreached

theorem startsToken_keyText (s t : List Char) : StartsToken (keyText s ++ t) := by
  unfold keyText
  cases hwritten : Written.ofString s with
  | plain => exact startsToken_plain (ofString_eq_plain hwritten).2 t
  | _ => exact startsToken_cons (by decide) _

theorem isSimpleKey_string_iff {key : String} :
    isSimpleKey (.string key) = true ↔
      hasBreak key.toList = false ∧ Text.byteLength key.toList ≤ 128 := by
  cases h : hasBreak key.toList <;> simp [isSimpleKey, keyLength?, h]

theorem readsLine_simpleKey {key : String} {x : Json} (hx : ReadsBack x)
    (hkey : isSimpleKey (.string key) = true) (column : Nat) :
    ReadsLine column .blockMappingStart
      (keyText key.toList ++ ':' :: body column false true (ofJson x))
      (.key :: stringToken key.toList :: .value :: tokensOf true x) where
  startsToken s := by
    rw [List.append_assoc]
    exact startsToken_keyText _ _
  reached {b p k r} hp hindent hk hr hrest := by
    subst hp
    obtain ⟨hbreak, hlength⟩ := isSimpleKey_string_iff.1 hkey
    have hblank := atBlankOrEnd_body p.column false true x (spaces k ++ r)
    rw [List.append_assoc] at hrest
    have hread := readsKey_string (b := b) hbreak hlength hrest hblank hindent
    have hafter : ((p.skip (keyText key.toList).length).skip 1).rest =
        body p.column false true (ofJson x) ++ (spaces k ++ r) := by
      rw [Place.rest_skip, hread.colon]
      rfl
    have hcolumn : p.column < ((p.skip (keyText key.toList).length).skip 1).column := by
      simp
    have hvalue : Reads _ _ false _ k r := hx (fits_roll hindent hcolumn hk hr .blockMappingStart
      [.key, stringToken key.toList, .value]) (by simp) hafter
    exact hread.reached hindent hblank hvalue

/-- A key with a question mark is read up to the colon of its value. -/
theorem reached_complexKey {b : Blocks} {p : Place} {key t : List Char}
    (hindent : b.indent ≤ p.column)
    (hp : p.rest = '?' :: ' ' :: (stringLine (p.column + 2) key ++ (spaces p.column ++ ':' :: t))) :
    Reached (b.scan p true none)
      ((b.roll p.column .blockMappingStart).emits [.key, stringToken key]) p.column (':' :: t) := by
  have hafter : (p.skip 1).rest = ' ' :: (stringLine (p.column + 2) key ++
      (spaces p.column ++ ':' :: t)) := by
    rw [Place.rest_skip, hp]
    rfl
  have hkey := reads_string (fits_roll hindent (Nat.lt_succ_self _) (Nat.le_refl _)
    (startsToken_cons (by decide) t) .blockMappingStart [.key]) hafter true
  exact hkey.reached hp (token?_question hp rfl) (Nat.le_of_eq (congrArg _ hafter))

/-- The colon of a value after a key with a question mark. -/
theorem token?_complexColon {b : Blocks} {q : Place} {column : Nat} {key t : List Char}
    (hindent : b.indent ≤ column) (hq : q.rest = ':' :: t) (hcolumn : q.column = column)
    (ht : atBlankOrEnd t = true) :
    (((b.roll column .blockMappingStart).emits [.key, stringToken key]).scan q true none).token?
        ':' t =
      some (((b.roll column .blockMappingStart).emits [.key, stringToken key, .value]).scan
        (q.skip 1) true none) := by
  have hcolon := token?_colon (b := (b.roll column .blockMappingStart).emits
    [.key, stringToken key]) hq ht
  rwa [hcolumn, roll_roll hindent, emits_emits] at hcolon

theorem readsLine_complexKey {key : String} {x : Json} (hx : ReadsBack x) (column : Nat) :
    ReadsLine column .blockMappingStart
      ('?' :: (body column true true (.string key) ++ spaces column ++
        ':' :: body column true true (ofJson x)))
      (.key :: stringToken key.toList :: .value :: tokensOf false x) where
  startsToken _ := startsToken_cons (by decide) _
  reached {b p k r} hp hindent hk hr hrest := by
    subst hp
    have hblank := atBlankOrEnd_body p.column true true x (spaces k ++ r)
    have hrest : p.rest = '?' :: ' ' :: (stringLine (p.column + 2) key.toList ++
        (spaces p.column ++ ':' :: (body p.column true true (ofJson x) ++ (spaces k ++ r)))) := by
      have hbody : body p.column true true (.string key) =
          ' ' :: stringLine (p.column + 2) key.toList := rfl
      rw [hbody] at hrest
      simpa only [List.cons_append, List.append_assoc] using hrest
    apply (reached_complexKey hindent hrest).trans
    intro q hq hcolumn
    have hafter : (q.skip 1).rest = body p.column true true (ofJson x) ++ (spaces k ++ r) := by
      rw [Place.rest_skip, hq]
      rfl
    have hvalue := hx (fits_roll hindent (by simp [hcolumn]) hk hr .blockMappingStart
      [.key, stringToken key.toList, .value])
      (fun _ => ⟨by rw [Place.column_skip, hcolumn], rfl⟩) hafter
    have hlast := hvalue.reached hq (token?_complexColon hindent hq hcolumn hblank)
      (Nat.le_of_eq (congrArg _ hafter))
    rw [unroll_roll_self hindent]
    simpa using hlast

theorem readsLine_memberLine {m : String × Json} (hx : ReadsBack m.2) (column : Nat) :
    ReadsLine column .blockMappingStart (memberLine column m) (memberToken m) := by
  unfold memberLine memberToken
  by_cases hkey : isSimpleKey (.string m.1) = true
  · rw [if_pos hkey, hkey]
    exact readsLine_simpleKey hx hkey column
  · rw [if_neg hkey, Bool.eq_false_iff.2 hkey]
    exact readsLine_complexKey hx column

/-! ## All values -/

theorem readsLine_items {items : List Json} (hne : items ≠ []) (h : ∀ x ∈ items, ReadsBack x)
    (column : Nat) :
    ReadsLine column .blockSequenceStart (itemLines column true (itemsOfJson items))
      (itemTokens items) := by
  rw [itemLines_eq, itemTokens_eq]
  exact readsLine_linesAt hne fun x hx => readsLine_itemLine (h x hx) column

theorem readsLine_members {members : List (String × Json)} (hne : members ≠ [])
    (h : ∀ m ∈ members, ReadsBack m.2) (column : Nat) :
    ReadsLine column .blockMappingStart (entryLines column true (membersOfJson members))
      (memberTokens members) := by
  rw [entryLines_eq, memberTokens_eq]
  exact readsLine_linesAt hne fun m hm => readsLine_memberLine (h m hm) column

/-- A collection that is further in than the one around it. -/
theorem reads_block {b : Blocks} {p : Place} {indent k : Nat} {r text : List Char}
    {compact keyAllowed : Bool} {t : Token} {ts : List Token} (h : b.Fits p indent k r)
    (hline : ReadsLine (indent + 2) t text ts)
    (hcompact : compact = true → p.column = indent + 1 ∧ keyAllowed = true)
    (hp : p.rest = lead compact (indent + 2) ++ (text ++ (spaces k ++ r))) :
    b.Reads p keyAllowed (t :: ts ++ [.blockEnd]) k r := by
  have hindent := h.indent_eq
  have hk := h.le_indent
  have hcolumn : compact = true → indent + 2 = p.column + 1 ∧ keyAllowed = true := by
    intro hc
    obtain ⟨hp, hkey⟩ := hcompact hc
    exact ⟨by omega, hkey⟩
  obtain ⟨s, hadvance, q, hsteps, hq⟩ := reached_lead h hline (by omega) hcolumn hp
  rw [unroll_roll (by omega) (by omega)] at hsteps
  exact ⟨s, hadvance, q, hsteps, hq⟩

theorem readsBack_array {items : List Json} (h : ∀ x ∈ items, ReadsBack x) :
    ReadsBack (.array items) := by
  intro b p indent k r compact inMapping keyAllowed hfits hcompact hp
  cases items with
  | nil => exact reads_empty hfits .sequence hp keyAllowed
  | cons x items =>
    have hline := readsLine_items (List.cons_ne_nil x items) h
    by_cases hindentless : (inMapping && !compact) = true
    · -- the items stand at the column of the key
      obtain ⟨rfl, rfl⟩ : inMapping = true ∧ compact = false := by simpa using hindentless
      have hrest : p.rest = lead false indent ++ (itemLines indent true (itemsOfJson (x :: items)) ++
          (spaces k ++ r)) := by
        simpa [ofJson, body, itemsOfJson] using hp
      obtain ⟨s, hadvance, hreached⟩ := reached_lead hfits (hline indent) (Nat.le_refl _)
        (by simp) hrest
      rw [roll_of_le (Int.le_of_eq hfits.indent_eq.symm)] at hreached
      exact ⟨s, hadvance, hreached⟩
    · have hrest : p.rest = lead compact (indent + 2) ++
          (itemLines (indent + 2) true (itemsOfJson (x :: items)) ++ (spaces k ++ r)) := by
        simpa [ofJson, body, itemsOfJson, hindentless] using hp
      have hread := reads_block hfits (hline (indent + 2)) hcompact hrest
      simpa [tokensOf, hindentless] using hread

theorem readsBack_object {members : List (String × Json)} (h : ∀ m ∈ members, ReadsBack m.2) :
    ReadsBack (.object members) := by
  intro b p indent k r compact inMapping keyAllowed hfits hcompact hp
  cases members with
  | nil => exact reads_empty hfits .mapping hp keyAllowed
  | cons m members =>
    have hline := readsLine_members (List.cons_ne_nil m members) h (indent + 2)
    exact reads_block hfits hline hcompact (by simpa [ofJson, body, membersOfJson] using hp)

/-- Every value without doubles is read back. -/
theorem readsBack {j : Json} (hfree : j.IsFloatFree) : ReadsBack j := by
  induction j using Json.induction with
  | null => exact fun hfits _ hp => reads_plain hfits (w := "null".toList) (by decide) hp _
  | bool b =>
    cases b with
    | false => exact fun hfits _ hp => reads_plain hfits (w := "false".toList) (by decide) hp _
    | true => exact fun hfits _ hp => reads_plain hfits (w := "true".toList) (by decide) hp _
  | number n =>
    cases n with
    | whole n =>
      exact fun hfits _ hp => reads_plain hfits (plainAllowed_integer n.val)
        (by simpa [ofJson, body, Number.text] using hp) _
    | float x => exact absurd hfree id
  | string s => exact fun hfits _ hp => reads_string hfits hp _
  | array items ih =>
    exact readsBack_array fun x hx => ih x hx (Json.isFloatFree_array_iff.1 hfree x hx)
  | object members ih =>
    exact readsBack_object fun m hm => ih m hm (Json.isFloatFree_object_iff.1 hfree m hm)

end RouteDocs.Yaml
