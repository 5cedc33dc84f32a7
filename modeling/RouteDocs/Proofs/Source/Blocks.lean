import RouteDocs.Proofs.Source.Opening

/-!
# The blocks of a source text

Which blocks a text has is said without a scan: the openings whose comment is closed are selected
from left to right, and one that starts inside a selected block is passed over. The scan finds just
these.

## Main definitions

* `IsCommentText`: the text of a comment, cut out of what stands between its brackets.
* `Site`, `Site.IsIn`: a closed block and its place in a text.
* `Selected`: the sites of a text that are its blocks.

## Main statement

* `blocks_eq_iff_selected`: the blocks of a text are those of the selected sites.
-/

namespace RouteDocs.Source

open Text

/-! ## The text of a comment -/

/-- `comment` is `body` without the white space at its end, and then without one line comment mark
there. -/
def IsCommentText (body comment : List Char) : Prop :=
  ∃ kept space, body = kept ++ space ∧ (∀ c ∈ space, isSpace c = true) ∧ EndsSolid kept ∧
    (kept = comment ++ ['-', '-'] ∨ kept = comment ∧ ¬['-', '-'] <:+ kept)

theorem commentText_eq_iff {body comment : List Char} :
    commentText body = comment ↔ IsCommentText body comment := by
  have htrim : ∀ kept, trimEnd body = kept ↔
      ∃ space, body = kept ++ space ∧ (∀ c ∈ space, isSpace c = true) ∧ EndsSolid kept :=
    fun kept => trimEnd_eq_iff
  simp only [commentText]
  constructor
  · rintro rfl
    obtain ⟨space, hbody, hspace, hsolid⟩ := (htrim _).1 rfl
    refine ⟨trimEnd body, space, hbody, hspace, hsolid, ?_⟩
    cases hmark : stripEnd? ['-', '-'] (trimEnd body) with
    | some t => exact .inl (stripEnd?_eq_some_iff.1 hmark)
    | none => exact .inr ⟨rfl, stripEnd?_eq_none_iff.1 hmark⟩
  · rintro ⟨kept, space, hbody, hspace, hsolid, hmark⟩
    rw [(htrim kept).2 ⟨space, hbody, hspace, hsolid⟩]
    rcases hmark with hmark | ⟨rfl, hmark⟩
    · rw [stripEnd?_eq_some_iff.2 hmark]
      rfl
    · rw [stripEnd?_eq_none_iff.2 hmark]
      rfl

/-! ## Sites -/

/-- A block and its place: the offsets where its opening starts, where its comment starts, and where
the bracket that closes the comment starts. -/
structure Site where
  start : Nat
  declaration : List Char
  level : Nat
  body : Nat
  close : Nat
  comment : List Char

namespace Site

/-- The offset after the closing bracket. -/
def stop (b : Site) : Nat := b.close + (closingBracket b.level).length

/-- The block at a site. -/
def block (b : Site) : Block := ⟨String.ofList b.declaration, String.ofList b.comment⟩

/-- The site is one of the text: an opening, and the first bracket of its level that closes its
comment. -/
structure IsIn (s : List Char) (b : Site) : Prop where
  opening : OpeningAt s b.start b.declaration b.level b.body
  body_le : b.body ≤ b.close
  closed : closingBracket b.level <+: s.drop b.close
  first : ∀ q, b.body ≤ q → q < b.close → ¬closingBracket b.level <+: s.drop q
  comment : IsCommentText ((s.drop b.body).take (b.close - b.body)) b.comment

end Site

/-- The sites that start at or after an offset of a text, from left to right, and not inside one
that was selected before. -/
def Selected (s : List Char) (pos : Nat) (bs : List Site) : Prop :=
  bs.Pairwise (·.start < ·.start) ∧
    ∀ b, b ∈ bs ↔ b.IsIn s ∧ pos ≤ b.start ∧ ∀ k ∈ bs, k.start < b.start → k.stop ≤ b.start

namespace OpeningAt

variable {s decl : List Char} {p level e : Nat}

theorem start_lt (h : OpeningAt s p decl level e) : p < e := by
  obtain ⟨past, t, rest, -, -, -, ht, rfl⟩ := h
  obtain ⟨a, indent, b, rfl, -⟩ := ht.split
  simp only [List.length_append, List.length_cons]
  omega

/-- An opening that starts in the part of a text that is left. -/
theorem exists_rest {past rest : List Char} (h : OpeningAt (past ++ rest) p decl level e)
    (hp : past.length ≤ p) :
    ∃ u t r, rest = u ++ (t ++ r) ∧ p = past.length + u.length ∧ AtLineStart (past ++ u) ∧
      IsOpening t decl level ∧ e = p + t.length := by
  obtain ⟨past', t, r, hs, hlen, hstart, ht, he⟩ := h
  obtain ⟨u, rfl, hu⟩ := exists_append_of_append_eq hs (hlen ▸ hp)
  exact ⟨u, t, r, hu, by simp [← hlen], hstart, ht, he⟩

end OpeningAt

namespace Site.IsIn

variable {s : List Char} {b c : Site}

theorem start_lt_stop (h : b.IsIn s) : b.start < b.stop := by
  have := h.opening.start_lt
  have := h.body_le
  simp only [stop]
  omega

/-- A text has at most one site at an offset. -/
theorem eq_of_start_eq (hb : b.IsIn s) (hc : c.IsIn s) (h : b.start = c.start) : b = c := by
  have hopen := hb.opening
  rw [h] at hopen
  obtain ⟨hdecl, hlevel, hbody⟩ := hopen.eq_of_eq hc.opening
  have hclose : b.close = c.close := by
    rcases Nat.lt_trichotomy b.close c.close with hlt | heq | hlt
    · exact absurd (hlevel ▸ hb.closed) (hc.first b.close (hbody ▸ hb.body_le) hlt)
    · exact heq
    · exact absurd (hlevel ▸ hc.closed) (hb.first c.close (hbody ▸ hc.body_le) hlt)
  have hcomment : b.comment = c.comment := by
    have hb' := commentText_eq_iff.2 hb.comment
    have hc' := commentText_eq_iff.2 hc.comment
    rw [← hb', ← hc', hbody, hclose]
  cases b
  cases c
  simp_all

end Site.IsIn

/-! ## The next opening -/

/-- The opening that is found is the first one after the place. -/
theorem Cursor.exists_openingAt {c : Cursor} {o : Opening} (h : c.opening? = some o) :
    o.body.past ++ o.body.rest = c.past ++ c.rest ∧
      ∃ p, c.past.length ≤ p ∧
        OpeningAt (c.past ++ c.rest) p o.declaration o.level o.body.past.length ∧
        ∀ q decl level e, c.past.length ≤ q → OpeningAt (c.past ++ c.rest) q decl level e →
          p ≤ q := by
  obtain ⟨⟨skipped, m⟩, hm, rfl⟩ := Option.map_eq_some_iff.1 h
  obtain ⟨⟨t, hrest, hmatch⟩, hleft⟩ := Pattern.search?_eq_some_iff.1 hm
  obtain ⟨hb, hopen⟩ := opening_of_matchAt? hmatch
  have ht : t = m.text ++ m.rest := Pattern.append_of_matchAt? hmatch
  refine ⟨by simp [Cursor.moveTo, hrest, ht], c.past.length + skipped.length, by omega,
    ⟨c.past ++ skipped, m.text, m.rest, by simp [hrest, ht], by simp, ?_, hopen,
      by simp [Cursor.moveTo, Nat.add_assoc]⟩, ?_⟩
  · rw [atLineStart_iff, List.getLast?_append]
    exact hb
  · intro q decl level e hq hopening
    obtain ⟨u, t', r, hu, rfl, hstart, ht', -⟩ := hopening.exists_rest hq
    -- an opening in front of the match would have been matched
    refine Nat.add_le_add_left (Nat.not_lt.1 fun hlt => ?_) _
    rw [atLineStart_iff, List.getLast?_append] at hstart
    obtain ⟨m', hm', -⟩ := exists_matchAt?_of_isOpening r hstart ht'
    simp [hleft u _ hu hlt] at hm'

theorem Cursor.not_openingAt_of_none {c : Cursor} (h : c.opening? = none) (q : Nat)
    (hq : c.past.length ≤ q) (decl : List Char) (level e : Nat) :
    ¬OpeningAt (c.past ++ c.rest) q decl level e := by
  intro hopening
  obtain ⟨u, t, r, hu, -, hstart, ht, -⟩ := hopening.exists_rest hq
  rw [atLineStart_iff, List.getLast?_append] at hstart
  obtain ⟨m, hm, -⟩ := exists_matchAt?_of_isOpening r hstart ht
  have hnone := Pattern.search?_eq_none_iff.1 (Option.map_eq_none_iff.1 h) u _ hu
  simp [hnone] at hm

/-! ## The comment of an opening -/

/-- A closed comment ends at the first bracket of its level. -/
theorem Opening.exists_close {o : Opening} {b : Block} {d : Cursor} (h : o.block? = some (b, d)) :
    d.past ++ d.rest = o.body.past ++ o.body.rest ∧
      ∃ close comment, o.body.past.length ≤ close ∧
        closingBracket o.level <+: (o.body.past ++ o.body.rest).drop close ∧
        (∀ q, o.body.past.length ≤ q → q < close →
          ¬closingBracket o.level <+: (o.body.past ++ o.body.rest).drop q) ∧
        IsCommentText (((o.body.past ++ o.body.rest).drop o.body.past.length).take
          (close - o.body.past.length)) comment ∧
        d.past.length = close + (closingBracket o.level).length ∧
        b = ⟨String.ofList o.declaration, String.ofList comment⟩ := by
  obtain ⟨⟨body, rest⟩, hs, h⟩ := Option.map_eq_some_iff.1 h
  cases h
  obtain ⟨hrest, hfirst⟩ := splitAtFirst?_eq_some_iff.1 hs
  refine ⟨by simp [Cursor.moveTo, hrest], o.body.past.length + body.length, commentText body,
    by omega, ?_, ?_, ?_, by simp [Cursor.moveTo, Nat.add_assoc], rfl⟩
  · rw [List.drop_length_add_append, hrest, List.append_assoc, List.drop_left]
    exact List.prefix_append _ _
  · intro q hq hlt
    obtain ⟨n, rfl⟩ := Nat.exists_eq_add_of_le hq
    rw [List.drop_length_add_append]
    exact hfirst n (by omega)
  · rw [List.drop_left, Nat.add_sub_cancel_left, hrest, List.append_assoc, List.take_left]
    exact commentText_eq_iff.1 rfl

theorem Opening.not_closed_of_none {o : Opening} (h : o.block? = none) (q : Nat)
    (hq : o.body.past.length ≤ q) :
    ¬closingBracket o.level <+: (o.body.past ++ o.body.rest).drop q := by
  obtain ⟨n, rfl⟩ := Nat.exists_eq_add_of_le hq
  have hnone := splitAtFirst?_eq_none_iff.1 (Option.map_eq_none_iff.1 h)
  rw [List.drop_length_add_append]
  rcases Nat.lt_or_ge o.body.rest.length n with hlen | hlen
  · rw [List.drop_eq_nil_of_le (by omega)]
    simp [closingBracket]
  · exact hnone n hlen

theorem OpeningAt.le_length {s decl : List Char} {p level e : Nat}
    (h : OpeningAt s p decl level e) : e ≤ s.length := by
  obtain ⟨past, t, rest, rfl, rfl, -, -, rfl⟩ := h
  simp only [List.length_append]
  omega

/-- An opening is the start of a site exactly if a bracket of its level comes after it. -/
theorem OpeningAt.exists_closing_iff {s decl : List Char} {p level e : Nat}
    (h : OpeningAt s p decl level e) :
    (∃ q, e ≤ q ∧ closingBracket level <+: s.drop q) ↔ ∃ b : Site, b.IsIn s ∧ b.start = p := by
  constructor
  · rintro ⟨q, hq, hclosed⟩
    let o : Opening := ⟨decl, level, ⟨s.take e, s.drop e⟩⟩
    have hlen : o.body.past.length = e := by simp [o, h.le_length]
    have hs : o.body.past ++ o.body.rest = s := List.take_append_drop e s
    cases hb : o.block? with
    | none => exact absurd hclosed (hs ▸ Opening.not_closed_of_none hb q (by omega))
    | some bd =>
      obtain ⟨-, close, comment, hle, hclosed, hnot, hcomment, -⟩ := Opening.exists_close hb
      rw [hs, hlen] at hcomment
      rw [hs] at hclosed hnot
      rw [hlen] at hle hnot
      exact ⟨⟨p, decl, level, e, close, comment⟩, ⟨h, hle, hclosed, hnot, hcomment⟩, rfl⟩
  · rintro ⟨b, hb, rfl⟩
    obtain ⟨-, rfl, rfl⟩ := h.eq_of_eq hb.opening
    exact ⟨b.close, hb.body_le, hb.closed⟩

/-! ## The scan -/

/-- What one call of the scan gives: the first site after the place, and the place after it. -/
theorem Cursor.exists_site_of_next {c d : Cursor} {b : Block} (h : c.next = (some b, d)) :
    d.past ++ d.rest = c.past ++ c.rest ∧
      ∃ k : Site, k.IsIn (c.past ++ c.rest) ∧ c.past.length ≤ k.start ∧ d.past.length = k.stop ∧
        b = k.block ∧
        ∀ l : Site, l.IsIn (c.past ++ c.rest) → c.past.length ≤ l.start → k.start ≤ l.start := by
  fun_induction Cursor.next c with
  | case1 => simp at h
  | case2 c o ho b' d' hb =>
    cases h
    obtain ⟨hbody, p, hp, hopening, hfirst⟩ := Cursor.exists_openingAt ho
    obtain ⟨hd, close, comment, hle, hclosed, hnot, hcomment, hlen, rfl⟩ := Opening.exists_close hb
    rw [hbody] at hd hclosed hnot hcomment
    exact ⟨hd, ⟨p, o.declaration, o.level, o.body.past.length, close, comment⟩,
      ⟨hopening, hle, hclosed, hnot, hcomment⟩, hp, hlen, rfl,
      fun l hl hle => hfirst _ _ _ _ hle hl.opening⟩
  | case3 c o ho hb ih =>
    obtain ⟨hbody, p, hp, hopening, hfirst⟩ := Cursor.exists_openingAt ho
    obtain ⟨hd, k, hk, hstart, hstop, hblock, hmin⟩ := ih h
    rw [hbody] at hd hk hmin
    refine ⟨hd, k, hk, ?_, hstop, hblock, fun l hl hle => ?_⟩
    · have := hopening.start_lt
      omega
    · -- the skipped opening has no site, and hides none that starts later
      have hpl := hfirst _ _ _ _ hle hl.opening
      rcases Nat.eq_or_lt_of_le hpl with rfl | hlt
      · obtain ⟨-, hlevel, hbodyEq⟩ := hopening.eq_of_eq hl.opening
        have hnot := Opening.not_closed_of_none hb l.close (hbodyEq ▸ hl.body_le)
        rw [hbody, hlevel] at hnot
        exact absurd hl.closed hnot
      · exact hmin l hl (hopening.le_of_lt hl.opening hlt)

/-- Where the scan finds nothing, there is no site. -/
theorem Cursor.not_isIn_of_next {c d : Cursor} (h : c.next = (none, d)) {l : Site}
    (hl : l.IsIn (c.past ++ c.rest)) : l.start < c.past.length := by
  fun_induction Cursor.next c with
  | case1 c ho =>
    exact Nat.not_le.1 fun hle => Cursor.not_openingAt_of_none ho _ hle _ _ _ hl.opening
  | case2 => simp at h
  | case3 c o ho hb ih =>
    obtain ⟨hbody, p, hp, hopening, hfirst⟩ := Cursor.exists_openingAt ho
    have hlt := ih h (hbody ▸ hl)
    apply Nat.not_le.1
    intro hle
    rcases Nat.eq_or_lt_of_le (hfirst _ _ _ _ hle hl.opening) with rfl | hpl
    · obtain ⟨-, hlevel, hbodyEq⟩ := hopening.eq_of_eq hl.opening
      have hnot := Opening.not_closed_of_none hb l.close (hbodyEq ▸ hl.body_le)
      rw [hbody, hlevel] at hnot
      exact hnot hl.closed
    · have := hopening.le_of_lt hl.opening hpl
      omega

/-- The first site and those selected after it are selected. -/
theorem Selected.cons {s : List Char} {pos : Nat} {k : Site} {bs : List Site}
    (h : Selected s k.stop bs) (hk : k.IsIn s) (hpos : pos ≤ k.start)
    (hmin : ∀ l : Site, l.IsIn s → pos ≤ l.start → k.start ≤ l.start) :
    Selected s pos (k :: bs) := by
  obtain ⟨hsorted, hmem⟩ := h
  have hlt := hk.start_lt_stop
  have hafter : ∀ l ∈ bs, k.stop ≤ l.start := fun l hl => ((hmem l).1 hl).2.1
  refine ⟨List.pairwise_cons.2 ⟨fun l hl => Nat.lt_of_lt_of_le hlt (hafter l hl), hsorted⟩,
    fun l => ⟨fun hl => ?_, fun ⟨hl, hle, hnot⟩ => ?_⟩⟩
  · rcases List.mem_cons.1 hl with rfl | hl
    · refine ⟨hk, hpos, fun j hj hjl => ?_⟩
      rcases List.mem_cons.1 hj with rfl | hj
      · omega
      · have := hafter j hj
        omega
    · obtain ⟨hin, hle, hnot⟩ := (hmem l).1 hl
      refine ⟨hin, by omega, fun j hj hjl => ?_⟩
      rcases List.mem_cons.1 hj with rfl | hj
      · exact hle
      · exact hnot j hj hjl
  · rcases Nat.eq_or_lt_of_le (hmin l hl hle) with heq | hkl
    · exact List.mem_cons.2 (.inl (hl.eq_of_start_eq hk heq.symm))
    · exact List.mem_cons_of_mem _ ((hmem l).2
        ⟨hl, hnot k (by simp) hkl, fun j hj => hnot j (List.mem_cons_of_mem _ hj)⟩)

/-- The scan from a place gives the blocks of the sites selected there. -/
theorem Cursor.exists_selected (c : Cursor) :
    ∃ bs, Selected (c.past ++ c.rest) c.past.length bs ∧ c.blocks = bs.map Site.block := by
  fun_induction Cursor.blocks c with
  | case1 c d h =>
    refine ⟨[], ⟨.nil, fun b => ⟨by simp, fun ⟨hb, hle, _⟩ => ?_⟩⟩, rfl⟩
    exact absurd hle (Nat.not_le.2 (Cursor.not_isIn_of_next h hb))
  | case2 c b d h ih =>
    obtain ⟨hd, k, hk, hpos, hstop, rfl, hmin⟩ := Cursor.exists_site_of_next h
    obtain ⟨bs, hbs, hblocks⟩ := ih
    rw [hd, hstop] at hbs
    exact ⟨k :: bs, hbs.cons hk hpos hmin, by simp [hblocks]⟩

/-! ## Uniqueness -/

/-- Two selections agree on the sites in front of an offset. -/
theorem Selected.mem_iff_mem {s : List Char} {pos : Nat} {as bs : List Site}
    (ha : Selected s pos as) (hb : Selected s pos bs) (n : Nat) :
    ∀ k : Site, k.start < n → (k ∈ as ↔ k ∈ bs) := by
  induction n with
  | zero => simp
  | succ n ih =>
    intro k hk
    rw [ha.2, hb.2]
    have hagree : ∀ l : Site, l.start < k.start → (l ∈ as ↔ l ∈ bs) := fun l hl => ih l (by omega)
    constructor
    · rintro ⟨hin, hle, hnot⟩
      exact ⟨hin, hle, fun l hl hlt => hnot l ((hagree l hlt).2 hl) hlt⟩
    · rintro ⟨hin, hle, hnot⟩
      exact ⟨hin, hle, fun l hl hlt => hnot l ((hagree l hlt).1 hl) hlt⟩

/-- A text has only one selection. -/
theorem Selected.unique {s : List Char} {pos : Nat} {as bs : List Site} (ha : Selected s pos as)
    (hb : Selected s pos bs) : as = bs := by
  have hmem : ∀ k, k ∈ as ↔ k ∈ bs := fun k => ha.mem_iff_mem hb (k.start + 1) k (by omega)
  have hnodup : ∀ {cs : List Site}, cs.Pairwise (·.start < ·.start) → cs.Nodup := fun h =>
    h.imp fun hlt heq => by simp [heq] at hlt
  have hperm : as.Perm bs := (List.perm_ext_iff_of_nodup (hnodup ha.1) (hnodup hb.1)).2 hmem
  exact hperm.eq_of_pairwise (fun a b _ _ hab hba => absurd hab (by omega)) ha.1 hb.1

/-- No two openings of a text overlap, those with a closing bracket behind them are its sites, and
its blocks are those of the selected sites. -/
theorem blocks_eq_iff_selected (source : String) :
    (∀ p q decl decl' level level' e e', OpeningAt source.toList p decl level e →
      OpeningAt source.toList q decl' level' e' → p < q → e ≤ q) ∧
    (∀ p decl level e, OpeningAt source.toList p decl level e →
      ((∃ q, e ≤ q ∧ closingBracket level <+: source.toList.drop q) ↔
        ∃ b : Site, b.IsIn source.toList ∧ b.start = p)) ∧
    ∀ bs, blocks source = bs ↔
      ∃ sites, Selected source.toList 0 sites ∧ bs = sites.map Site.block := by
  refine ⟨fun p q _ _ _ _ _ _ h h' hlt => h.le_of_lt h' hlt, fun p _ _ _ h => h.exists_closing_iff,
    fun bs => ?_⟩
  obtain ⟨sites, hsites, hblocks⟩ := Cursor.exists_selected (Cursor.start source.toList)
  constructor
  · rintro rfl
    exact ⟨sites, hsites, hblocks⟩
  · rintro ⟨sites', hsites', rfl⟩
    exact (hsites.unique hsites') ▸ hblocks

end RouteDocs.Source
