import RouteDocs.Proofs.Source.Blocks

/-!
# The scan, opening by opening

The scan goes from one opening to the next: behind the comment of an opening that is closed, and
behind the bracket of one that is not. Where it is does not matter for what comes next, as long as
no opening is passed.

## Main definitions

* `Cursor.Precedes`: a place lies behind another in the same text.
* `Cursor.openings`: the openings that the scan meets.
* `BeginsDeclaration`: a line begins like a declaration.

## Main statements

* `Cursor.precedes_of_opening?`, `Opening.precedes_of_block?`: the scan moves forward.
* `Cursor.blocks_eq_filterMap_openings`: the blocks are those of the openings that are closed.
* `Cursor.opening?_eq_some_of_first`: the scan meets the first opening after a place.
* `Cursor.blocks_skip`: text without openings may be passed over.
-/

namespace RouteDocs.Source

open Text

variable {c d e : Cursor} {o : Opening} {b : Block}

/-! ## Moving forward -/

/-- The place `d` lies behind `c` in the same text. -/
def Cursor.Precedes (c d : Cursor) : Prop :=
  ∃ text, text ≠ [] ∧ c.rest = text ++ d.rest ∧ d = c.moveTo text d.rest

namespace Cursor.Precedes

theorem append_eq (h : c.Precedes d) : d.past ++ d.rest = c.past ++ c.rest := by
  obtain ⟨text, -, hrest, hd⟩ := h
  rw [hd, hrest]
  simp [moveTo]

theorem rest_suffix (h : c.Precedes d) : d.rest <:+ c.rest := by
  obtain ⟨text, -, hrest, -⟩ := h
  exact ⟨text, hrest.symm⟩

theorem trans (h : c.Precedes d) (h' : d.Precedes e) : c.Precedes e := by
  obtain ⟨text, hne, hrest, hd⟩ := h
  obtain ⟨text', -, hrest', he⟩ := h'
  refine ⟨text ++ text', by simp [hne], by rw [hrest, hrest', List.append_assoc], ?_⟩
  rw [he, hd]
  simp [moveTo]

end Cursor.Precedes

theorem Cursor.precedes_of_opening? (h : c.opening? = some o) : c.Precedes o.body := by
  obtain ⟨⟨skipped, m⟩, hm, rfl⟩ := Option.map_eq_some_iff.1 h
  have hne : m.text ≠ [] := Pattern.ne_nil_of_search? hm rfl
  exact ⟨skipped ++ m.text, by simp [hne], Pattern.append_of_search? hm, rfl⟩

theorem Opening.precedes_of_block? (h : o.block? = some (b, d)) : o.body.Precedes d := by
  obtain ⟨⟨before, after⟩, hs, h⟩ := Option.map_eq_some_iff.1 h
  cases h
  exact ⟨before ++ closingBracket o.level, by simp [closingBracket], append_of_splitAtFirst? hs,
    rfl⟩

namespace Cursor

theorem precedes_of_next (h : c.next = (some b, d)) : c.Precedes d := by
  fun_induction next c with
  | case1 => simp at h
  | case2 c o ho b' d' hb =>
    cases h
    exact (precedes_of_opening? ho).trans (Opening.precedes_of_block? hb)
  | case3 c o ho hb ih => exact (precedes_of_opening? ho).trans (ih h)

/-! ## One opening -/

theorem next_eq (c : Cursor) : c.next =
    match c.opening? with
    | none => (none, c)
    | some o =>
      match o.block? with
      | some (b, d) => (some b, d)
      | none => o.body.next := by
  rw [next]
  split
  case h_1 ho => rw [ho]
  case h_2 o ho => cases hb : o.block? <;> simp only [ho, hb]

theorem blocks_eq (c : Cursor) : c.blocks =
    match c.next with
    | (none, _) => []
    | (some b, d) => b :: d.blocks := by
  rw [blocks]
  split <;> simp_all

theorem blocks_of_opening?_eq_none (h : c.opening? = none) : c.blocks = [] := by
  rw [blocks_eq, next_eq, h]

theorem blocks_of_block?_eq_some (ho : c.opening? = some o) (hb : o.block? = some (b, d)) :
    c.blocks = b :: d.blocks := by
  rw [blocks_eq, next_eq, ho]
  simp only [hb]

theorem blocks_of_block?_eq_none (ho : c.opening? = some o) (hb : o.block? = none) :
    c.blocks = o.body.blocks := by
  rw [blocks_eq, next_eq, ho, blocks_eq o.body]
  simp only [hb]

/-! ## All openings -/

/-- The openings that the scan meets at or after a place. After one whose comment is closed it goes
on behind the comment, after one that is not behind the opening itself. -/
def openings (c : Cursor) : List Opening :=
  match _h : c.opening? with
  | none => []
  | some o =>
    match _hb : o.block? with
    | some (_, d) => o :: openings d
    | none => o :: openings o.body
termination_by c.rest.length
decreasing_by
  · exact Nat.lt_trans (Opening.length_lt_of_block? _hb) (length_lt_of_opening? _h)
  · exact length_lt_of_opening? _h

theorem openings_of_opening?_eq_none (h : c.opening? = none) : c.openings = [] := by
  rw [openings]
  split
  case h_1 => rfl
  case h_2 o ho => cases h.symm.trans ho

theorem openings_of_block?_eq_some (ho : c.opening? = some o) (hb : o.block? = some (b, d)) :
    c.openings = o :: d.openings := by
  rw [openings]
  split
  case h_1 h => cases h.symm.trans ho
  case h_2 o' ho' =>
    cases ho.symm.trans ho'
    split <;> simp_all

/-- The blocks are those of the openings that are closed. -/
theorem blocks_eq_filterMap_openings (c : Cursor) :
    c.blocks = c.openings.filterMap fun o => o.block?.map Prod.fst := by
  fun_induction openings c with
  | case1 c h => rw [blocks_of_opening?_eq_none h, List.filterMap_nil]
  | case2 c o ho b d hb ih =>
    rw [blocks_of_block?_eq_some ho hb, ih, List.filterMap_cons]
    simp only [hb, Option.map_some]
  | case3 c o ho hb ih =>
    rw [blocks_of_block?_eq_none ho hb, ih, List.filterMap_cons]
    simp only [hb, Option.map_none]

/-! ## The first opening after a place -/

/-- The opening that the scan meets, with the texts in front of it and behind it. -/
theorem exists_eq_of_opening? (h : c.opening? = some o) :
    ∃ past t rest, c.past ++ c.rest = past ++ (t ++ rest) ∧ c.past.length ≤ past.length ∧
      AtLineStart past ∧ IsOpening t o.declaration o.level ∧ o.body = ⟨past ++ t, rest⟩ ∧
      ∀ q decl level e, c.past.length ≤ q → OpeningAt (c.past ++ c.rest) q decl level e →
        past.length ≤ q := by
  obtain ⟨hbody, p, hp, ⟨past, t, rest, hcut, rfl, hstart, ht, hlen⟩, hmin⟩ := exists_openingAt h
  rw [hcut, ← List.append_assoc] at hbody
  obtain ⟨hpast, hrest⟩ := List.append_inj hbody (by simpa using hlen)
  exact ⟨past, t, rest, hcut, hp, hstart, ht, by rw [← hpast, ← hrest], hmin⟩

/-- The scan meets an opening that no other one starts in front of. -/
theorem opening?_eq_some_of_first {past t rest decl : List Char} {level : Nat}
    (hs : c.past ++ c.rest = past ++ (t ++ rest)) (hle : c.past.length ≤ past.length)
    (hstart : AtLineStart past) (ht : IsOpening t decl level)
    (hfirst : ∀ q decl' level' e, c.past.length ≤ q → q < past.length →
      ¬OpeningAt (c.past ++ c.rest) q decl' level' e) :
    c.opening? = some ⟨decl, level, ⟨past ++ t, rest⟩⟩ := by
  have hopening : OpeningAt (c.past ++ c.rest) past.length decl level (past.length + t.length) :=
    ⟨past, t, rest, hs, rfl, hstart, ht, rfl⟩
  cases ho : c.opening? with
  | none => exact absurd hopening (not_openingAt_of_none ho _ hle _ _ _)
  | some o =>
    obtain ⟨past', t', rest', hs', hle', hstart', ht', hbody, hmin⟩ := exists_eq_of_opening? ho
    have hfound : OpeningAt (c.past ++ c.rest) past'.length o.declaration o.level
        (past'.length + t'.length) := ⟨past', t', rest', hs', rfl, hstart', ht', rfl⟩
    have hlen : past'.length = past.length := Nat.le_antisymm (hmin _ _ _ _ hle hopening)
      (Nat.not_lt.1 fun hlt => hfirst _ _ _ _ hle' hlt hfound)
    obtain ⟨hdecl, hlevel, hend⟩ := (hlen ▸ hfound).eq_of_eq hopening
    obtain ⟨hpast, htail⟩ := List.append_inj (hs'.symm.trans hs) hlen
    obtain ⟨htext, hrest⟩ := List.append_inj htail (Nat.add_left_cancel hend)
    rw [← hdecl, ← hlevel, ← hpast, ← htext, ← hrest, ← hbody]

/-- The scan meets nothing if no opening starts in what is left. -/
theorem opening?_eq_none (h : ∀ q decl level e, c.past.length ≤ q →
    ¬OpeningAt (c.past ++ c.rest) q decl level e) : c.opening? = none := by
  cases ho : c.opening? with
  | none => rfl
  | some o =>
    obtain ⟨-, p, hp, hfound, -⟩ := exists_openingAt ho
    exact absurd hfound (h p _ _ _ hp)

/-- Between two places without an opening, the scan meets the same from both. -/
theorem opening?_skip (hs : c.past ++ c.rest = d.past ++ d.rest)
    (hle : c.past.length ≤ d.past.length)
    (hnone : ∀ q decl level e, c.past.length ≤ q → q < d.past.length →
      ¬OpeningAt (c.past ++ c.rest) q decl level e) :
    c.opening? = d.opening? := by
  cases hd : d.opening? with
  | none =>
    refine opening?_eq_none fun p _ _ _ hp hfound => ?_
    have hlater : d.past.length ≤ p := Nat.not_lt.1 fun hlt => hnone p _ _ _ hp hlt hfound
    exact not_openingAt_of_none hd p hlater _ _ _ (hs ▸ hfound)
  | some o =>
    obtain ⟨past, t, rest, hcut, hpast, hstart, ht, hbody, hmin⟩ := exists_eq_of_opening? hd
    have hfirst : ∀ q decl level e, c.past.length ≤ q → q < past.length →
        ¬OpeningAt (c.past ++ c.rest) q decl level e := by
      intro q decl level e hq hlt hother
      have hlater : d.past.length ≤ q := Nat.not_lt.1 fun h => hnone q _ _ _ hq h hother
      exact absurd (hmin q _ _ _ hlater (hs ▸ hother)) (Nat.not_le.2 hlt)
    rw [opening?_eq_some_of_first (hs.trans hcut) (Nat.le_trans hle hpast) hstart ht hfirst,
      ← hbody]

theorem blocks_congr (h : c.opening? = d.opening?) : c.blocks = d.blocks := by
  cases ho : d.opening? with
  | none =>
    rw [ho] at h
    rw [blocks_of_opening?_eq_none h, blocks_of_opening?_eq_none ho]
  | some o =>
    rw [ho] at h
    cases hb : o.block? with
    | none => rw [blocks_of_block?_eq_none h hb, blocks_of_block?_eq_none ho hb]
    | some bd => rw [blocks_of_block?_eq_some h hb, blocks_of_block?_eq_some ho hb]

/-- Text in which no opening starts may be passed over. -/
theorem blocks_skip (hs : c.past ++ c.rest = d.past ++ d.rest)
    (hle : c.past.length ≤ d.past.length)
    (hnone : ∀ q decl level e, c.past.length ≤ q → q < d.past.length →
      ¬OpeningAt (c.past ++ c.rest) q decl level e) :
    c.blocks = d.blocks :=
  blocks_congr (opening?_skip hs hle hnone)

end Cursor

/-! ## Lines that begin like a declaration -/

/-- A line, or a text from the start of a line, begins like a declaration. -/
def BeginsDeclaration (line : List Char) : Prop := declarationWord <+: line.dropWhile isBlank

instance : DecidablePred BeginsDeclaration := fun line =>
  inferInstanceAs (Decidable (declarationWord <+: line.dropWhile isBlank))

theorem beginsDeclaration_iff {line : List Char} :
    BeginsDeclaration line ↔
      ∃ indent, (∀ c ∈ indent, isBlank c = true) ∧ indent ++ declarationWord <+: line := by
  constructor
  · intro h
    refine ⟨line.takeWhile isBlank, fun c hc => List.all_eq_true.1 List.all_takeWhile c hc, ?_⟩
    have hline := (List.prefix_append_right_inj (line.takeWhile isBlank)).2 h
    rwa [List.takeWhile_append_dropWhile] at hline
  · rintro ⟨indent, hindent, rest, rfl⟩
    rw [BeginsDeclaration, List.append_assoc,
      dropWhile_append_of_all hindent (by simp [declarationWord, isBlank])]
    exact List.prefix_append _ _

/-- Only the first line of a text counts. -/
theorem beginsDeclaration_append_iff {line s : List Char} :
    BeginsDeclaration (line ++ '\n' :: s) ↔ BeginsDeclaration line := by
  simp only [beginsDeclaration_iff]
  refine exists_congr fun indent => and_congr_right fun hindent => ⟨fun h => ?_, fun h => ?_⟩
  · have hfree : '\n' ∉ indent ++ declarationWord := by
      simp [lineFeed_not_mem_of_blank hindent, declarationWord]
    exact prefix_of_prefix_append_cons hfree h
  · exact h.trans (List.prefix_append _ _)

/-- An opening begins like a declaration. -/
theorem IsOpening.beginsDeclaration {t decl : List Char} {level : Nat} (h : IsOpening t decl level)
    (rest : List Char) : BeginsDeclaration (t ++ rest) := by
  obtain ⟨indent, line, cr, indent', hindent, -, -, -, rfl, rfl⟩ := h
  exact beginsDeclaration_iff.2 ⟨indent, hindent, by simp [List.append_assoc]⟩

/-- The first line of a text is its first piece. -/
theorem BeginsDeclaration.exists_mem_splitOn {s : List Char} (h : BeginsDeclaration s) :
    ∃ line ∈ splitOn '\n' s, BeginsDeclaration line := by
  by_cases hmem : '\n' ∈ s
  · obtain ⟨line, rest, rfl, hfree⟩ := List.eq_append_cons_of_mem hmem
    exact ⟨line, by simp [splitOn_append_cons, splitOn_of_not_mem hfree],
      beginsDeclaration_append_iff.1 h⟩
  · exact ⟨s, by simp [splitOn_of_not_mem hmem], h⟩

end RouteDocs.Source
