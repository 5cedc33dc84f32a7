import RouteDocs.Proofs.Source.Scan

/-!
# Source texts one after the other

If every opening that the scan meets in a source text is closed there, and the last line of the text
does not begin like a declaration, then the scan of a text that goes on with a new line finds the
blocks of the first part, and after them those of what was added. Nothing leaks across the seam: what
is found in a text is found in a longer one, and a text behind the end of a line is scanned as if it
stood alone.

## Main definitions

* `Cursor.append`, `Cursor.behind`: a place when text is added at the end or at the front.
* `AllClosed`, `lastLine`: what the first text has to satisfy.

## Main statements

* `Cursor.opening?_append`, `Opening.block?_append`: what is found in a text is found in a longer
  one.
* `Cursor.blocks_behind`: the scan behind the end of a line.
* `blocks_append_lineFeed`: the blocks of two texts with a line feed between them.
-/

namespace RouteDocs.Source

open Text

/-! ## A text that goes on -/

/-- The same place, in a text that goes on. -/
def Cursor.append (c : Cursor) (tail : List Char) : Cursor := ⟨c.past, c.rest ++ tail⟩

/-- The same opening, in a text that goes on. -/
def Opening.append (o : Opening) (tail : List Char) : Opening :=
  { o with body := o.body.append tail }

namespace OpeningAt

variable {s tail decl : List Char} {p level e : Nat}

theorem append (h : OpeningAt s p decl level e) (tail : List Char) :
    OpeningAt (s ++ tail) p decl level e := by
  obtain ⟨past, t, rest, rfl, hp, hstart, ht, he⟩ := h
  exact ⟨past, t, rest ++ tail, by simp, hp, hstart, ht, he⟩

/-- An opening that ends in the first part of a text is one of that part. -/
theorem of_append (h : OpeningAt (s ++ tail) p decl level e) (he : e ≤ s.length) :
    OpeningAt s p decl level e := by
  obtain ⟨past, t, rest, hs, rfl, hstart, ht, rfl⟩ := h
  obtain ⟨u, rfl, -⟩ := exists_append_of_append_eq (a := past ++ t) (b := rest) (c := s) (d := tail)
    (by simpa using hs.symm) (by simpa using he)
  exact ⟨past, t, u, by simp, rfl, hstart, ht, rfl⟩

end OpeningAt

/-- The opening that the scan meets is the same in a text that goes on. -/
theorem Cursor.opening?_append {c : Cursor} {o : Opening} (h : c.opening? = some o)
    (tail : List Char) : (c.append tail).opening? = some (o.append tail) := by
  obtain ⟨past, t, rest, hs, hle, hstart, ht, hbody, hmin⟩ := exists_eq_of_opening? h
  have hs' : (c.append tail).past ++ (c.append tail).rest = past ++ (t ++ (rest ++ tail)) := by
    simp only [append, ← List.append_assoc] at hs ⊢
    rw [hs]
  have hopening : OpeningAt (c.past ++ c.rest) past.length o.declaration o.level
      (past.length + t.length) := ⟨past, t, rest, hs, rfl, hstart, ht, rfl⟩
  have hlen : past.length ≤ (c.past ++ c.rest).length := by
    rw [hs]
    simp
  rw [opening?_eq_some_of_first hs' hle hstart ht, Opening.append, hbody]
  · rfl
  · intro q decl' level' e hq hlt hother
    -- one in front would end in front, and so would have been met before
    have hother' : OpeningAt (c.past ++ c.rest ++ tail) q decl' level' e := by
      simpa [append] using hother
    have hend := hother'.le_of_lt (hopening.append tail) hlt
    exact absurd (hmin q _ _ _ hq (hother'.of_append (Nat.le_trans hend hlen))) (Nat.not_le.2 hlt)

theorem Opening.block?_append {o : Opening} {b : Block} {d : Cursor} (h : o.block? = some (b, d))
    (tail : List Char) : (o.append tail).block? = some (b, d.append tail) := by
  obtain ⟨⟨body, rest⟩, hs, h⟩ := Option.map_eq_some_iff.1 h
  cases h
  exact Option.map_eq_some_iff.2 ⟨_, splitAtFirst?_append hs tail, rfl⟩

/-! ## A text behind the end of a line -/

/-- The same place, in a text with another one in front. -/
def Cursor.behind (c : Cursor) (front : List Char) : Cursor := ⟨front ++ c.past, c.rest⟩

/-- The same opening, in a text with another one in front. -/
def Opening.behind (o : Opening) (front : List Char) : Opening :=
  { o with body := o.body.behind front }

/-- The start of a line is as good as the start of the text. -/
theorem search?_opening_lineFeed (s : List Char) :
    Pattern.opening.search? (some '\n') s = Pattern.opening.search? none s := by
  cases s <;> rfl

theorem Cursor.opening?_behind (c : Cursor) {front : List Char} (hfront : AtLineStart front) :
    (c.behind front).opening? = c.opening?.map (·.behind front) := by
  have hsearch : Pattern.opening.search? (front ++ c.past).getLast? c.rest =
      Pattern.opening.search? c.past.getLast? c.rest := by
    rw [List.getLast?_append]
    cases hpast : c.past.getLast? with
    | some x => rfl
    | none =>
      cases hlast : front.getLast? with
      | none => rfl
      | some x =>
        rw [hfront x hlast]
        exact search?_opening_lineFeed c.rest
  rw [opening?, opening?, behind, hsearch, Option.map_map]
  simp [Function.comp_def, Opening.behind, behind, moveTo]

theorem Opening.block?_behind (o : Opening) (front : List Char) :
    (o.behind front).block? = o.block?.map fun (b, d) => (b, d.behind front) := by
  simp [block?, behind, Cursor.behind, Cursor.moveTo, Function.comp_def]

/-- Behind the end of a line, the scan finds the same blocks. -/
theorem Cursor.blocks_behind (c : Cursor) {front : List Char} (hfront : AtLineStart front) :
    (c.behind front).blocks = c.blocks := by
  fun_induction openings c with
  | case1 c h =>
    rw [blocks_of_opening?_eq_none h, blocks_of_opening?_eq_none]
    rw [opening?_behind c hfront, h, Option.map_none]
  | case2 c o ho b d hb ih =>
    have ho' : (c.behind front).opening? = some (o.behind front) := by
      rw [opening?_behind c hfront, ho, Option.map_some]
    have hb' : (o.behind front).block? = some (b, d.behind front) := by
      rw [o.block?_behind, hb, Option.map_some]
    rw [blocks_of_block?_eq_some ho hb, blocks_of_block?_eq_some ho' hb', ih]
  | case3 c o ho hb ih =>
    have ho' : (c.behind front).opening? = some (o.behind front) := by
      rw [opening?_behind c hfront, ho, Option.map_some]
    have hb' : (o.behind front).block? = none := by
      rw [o.block?_behind, hb, Option.map_none]
    rw [blocks_of_block?_eq_none ho hb, blocks_of_block?_eq_none ho' hb', ← ih]
    rfl

/-! ## The seam -/

/-- Every opening that the scan meets in a source text has a bracket that closes its comment. -/
def AllClosed (source : String) : Prop :=
  ∀ o ∈ (Cursor.start source.toList).openings, o.block?.isSome

/-- What follows the last line feed of a text. -/
def lastLine (s : List Char) : List Char := (splitOn '\n' s).getLast (splitOn_ne_nil '\n' s)

theorem lastLine_append {past line : List Char} (hstart : AtLineStart past) (hline : '\n' ∉ line) :
    lastLine (past ++ line) = line := by
  by_cases hpast : past = []
  · simp [hpast, lastLine, splitOn_of_not_mem hline]
  · have hnil : AtLineStart ([] ++ past) := hstart
    obtain ⟨w, rfl⟩ := hnil.exists_eq_append hpast
    simp [lastLine, splitOn_append_cons, splitOn_of_not_mem hline]

/-- Across the seam of two lines, an opening starts in the first part only if it is one of that part
or the last line of that part begins like a declaration. -/
theorem not_openingAt_append_lineFeed {front : List Char} (tail : List Char) {q : Nat}
    (hlast : ¬BeginsDeclaration (lastLine front))
    (hfront : ∀ decl level e, ¬OpeningAt front q decl level e) (hq : q ≤ front.length)
    (decl : List Char) (level e : Nat) : ¬OpeningAt (front ++ '\n' :: tail) q decl level e := by
  rintro ⟨past, t, rest, hs, rfl, hstart, ht, rfl⟩
  obtain ⟨v, rfl, hv⟩ := exists_append_of_append_eq hs.symm hq
  rcases Nat.lt_or_ge v.length t.length with hlen | hlen
  · -- the seam is the line feed of the opening
    obtain ⟨u, rfl, hu⟩ := exists_append_of_append_eq hv.symm (Nat.le_of_lt hlen)
    obtain ⟨x, w, rfl⟩ := List.exists_cons_of_length_pos (l := u) (by simpa using hlen)
    obtain ⟨rfl, -⟩ : '\n' = x ∧ tail = w ++ rest := by simpa using hu
    obtain ⟨a, indent, b, hsplit, -, ha, hb⟩ := ht.split
    obtain ⟨rfl, -⟩ := append_lineFeed_inj hsplit.symm ha hb
    have hbegins := ht.beginsDeclaration rest
    rw [List.append_assoc, List.cons_append, beginsDeclaration_append_iff] at hbegins
    exact hlast (by rwa [lastLine_append hstart ha])
  · obtain ⟨u, rfl, -⟩ := exists_append_of_append_eq hv hlen
    exact hfront _ _ _ ⟨past, t, u, rfl, rfl, hstart, ht, rfl⟩

/-- Where nothing is left to be found in the first text, the scan goes on with the second one. -/
theorem Cursor.blocks_append_of_opening?_eq_none {c : Cursor} (tail : List Char)
    (h : c.opening? = none) (hlast : ¬BeginsDeclaration (lastLine (c.past ++ c.rest))) :
    (c.append ('\n' :: tail)).blocks = (start tail).blocks := by
  let front := c.past ++ c.rest ++ ['\n']
  let d : Cursor := (start tail).behind front
  have hfront : d.past.length = (c.past ++ c.rest).length + 1 := by
    simp only [d, front, behind, start, List.append_nil, List.length_append, List.length_singleton]
  have hle : c.past.length ≤ (c.past ++ c.rest).length := by simp
  have hskip : (c.append ('\n' :: tail)).blocks = d.blocks := by
    refine blocks_skip (by simp [append, d, front, behind, start])
      (Nat.le_trans hle (hfront ▸ Nat.le_succ _)) fun q _ _ _ hq hlt => ?_
    have hnot := not_openingAt_append_lineFeed tail hlast (not_openingAt_of_none h q hq) (by omega)
    simpa [append] using hnot _ _ _
  rw [hskip]
  exact blocks_behind _ (by simp [AtLineStart, front])

/-- From a place in the first text, the scan finds what it finds there, and then the blocks of the
second text. -/
theorem Cursor.blocks_append_lineFeed (c : Cursor) (tail : List Char)
    (hclosed : ∀ o ∈ c.openings, o.block?.isSome)
    (hlast : ¬BeginsDeclaration (lastLine (c.past ++ c.rest))) :
    (c.append ('\n' :: tail)).blocks = c.blocks ++ (start tail).blocks := by
  -- from opening to opening of the first text, each of which is closed there
  fun_induction openings c with
  | case1 c h =>
    rw [blocks_append_of_opening?_eq_none tail h hlast, blocks_of_opening?_eq_none h,
      List.nil_append]
  | case2 c o ho b d hb ih =>
    have hd : d.past ++ d.rest = c.past ++ c.rest :=
      (Opening.exists_close hb).1.trans (exists_openingAt ho).1
    have hrest := ih (fun o' ho' => hclosed o' (List.mem_cons_of_mem _ ho')) (by rwa [hd])
    rw [blocks_of_block?_eq_some (opening?_append ho _) (Opening.block?_append hb _),
      blocks_of_block?_eq_some ho hb, List.cons_append, hrest]
  | case3 c o ho hb ih =>
    have hsome := hclosed o (by simp)
    simp [hb] at hsome

/-- The blocks of two texts with a line feed between them. -/
theorem blocks_append_lineFeed {first : String} (second : String) (hclosed : AllClosed first)
    (hlast : ¬BeginsDeclaration (lastLine first.toList)) :
    blocks (first ++ "\n" ++ second) = blocks first ++ blocks second := by
  have h := Cursor.blocks_append_lineFeed (.start first.toList) second.toList hclosed hlast
  simpa [blocks, Cursor.append, Cursor.start] using h

end RouteDocs.Source
