import RouteDocs.Proofs.Source.Scan
import RouteDocs.Proofs.Text.LineEnding

/-!
# Line endings in a source text

The patterns that a source text is searched for treat a line feed and a carriage return in front of
one alike. So what is found in a text is found in the text with carriage returns, at the same
places, and with carriage returns itself.

## Main definitions

* `IgnoresReturns`: pieces in which line feeds with and without a carriage return are alike.
* `Pattern.IgnoresReturns`: a pattern of such parts, which never starts inside a line ending.
* `Block.withReturns`: a block whose comment has a carriage return in front of every line feed.

## Main statements

* `Pattern.search?_withReturns`: the leftmost match.
* `blocks_withReturns`: the blocks of a source text.
-/

namespace RouteDocs.Source

open Text

/-! ## Patterns -/

/-- Pieces in which line feeds with and without a carriage return are alike: either no piece takes
one character of a line ending without the other, or a line ending is taken as a whole. -/
inductive IgnoresReturns : List Piece → Prop where
  | nil : IgnoresReturns []
  | lineStart {pieces : List Piece} (h : IgnoresReturns pieces) :
    IgnoresReturns (.lineStart :: pieces)
  | text {t : List Char} {pieces : List Piece} (ht : IsInline t) (h : IgnoresReturns pieces) :
    IgnoresReturns (.text t :: pieces)
  | run {p : Char → Bool} {pieces : List Piece} (hp : p '\r' = p '\n')
    (h : IgnoresReturns pieces) : IgnoresReturns (.run p :: pieces)
  | upTo {t : List Char} {pieces : List Piece} (ht : IsInline t) (hne : t ≠ [])
    (h : IgnoresReturns pieces) : IgnoresReturns (.upTo t :: pieces)
  | lineEnd {pieces : List Piece} (h : IgnoresReturns pieces) :
    IgnoresReturns (.optional '\r' :: .text ['\n'] :: pieces)

variable {before : Option Char} {s : List Char}

/-- A piece that takes the same from a text with carriage returns goes in front of such pieces. -/
theorem takeAll?_cons_withReturns {piece : Piece} {pieces : List Piece}
    (hpiece : piece.take? before (withReturns s) =
      (piece.take? before s).map fun (a, r) => (withReturns a, withReturns r))
    (ih : ∀ r, '\r' ∉ r → takeAll? before pieces (withReturns r) =
      (takeAll? before pieces r).map fun (a, r) => (withReturns a, withReturns r))
    (hs : '\r' ∉ s) :
    takeAll? before (piece :: pieces) (withReturns s) =
      (takeAll? before (piece :: pieces) s).map fun (a, r) => (withReturns a, withReturns r) := by
  rw [takeAll?, takeAll?, hpiece]
  cases htake : piece.take? before s with
  | none => rfl
  | some ar =>
    obtain ⟨a, r⟩ := ar
    have hr : '\r' ∉ r := by
      rw [Piece.append_of_take? htake] at hs
      exact fun hmem => hs (List.mem_append_right _ hmem)
    simp only [Option.map_some, bind, Option.bind_some, ih r hr]
    cases takeAll? before pieces r <;> simp

theorem takeAll?_return_lineFeed {pieces : List Piece} :
    takeAll? before (.optional '\r' :: .text ['\n'] :: pieces) ('\r' :: '\n' :: s) =
      (takeAll? before pieces s).map fun (a, r) => ('\r' :: '\n' :: a, r) := by
  cases h : takeAll? before pieces s <;> simp [takeAll?, Piece.take?, strip?, h]

theorem takeAll?_lineFeed {pieces : List Piece} :
    takeAll? before (.optional '\r' :: .text ['\n'] :: pieces) ('\n' :: s) =
      (takeAll? before pieces s).map fun (a, r) => ('\n' :: a, r) := by
  cases h : takeAll? before pieces s <;> simp [takeAll?, Piece.take?, strip?, h]

theorem takeAll?_withReturns {pieces : List Piece} (h : IgnoresReturns pieces) (hs : '\r' ∉ s) :
    takeAll? before pieces (withReturns s) =
      (takeAll? before pieces s).map fun (a, r) => (withReturns a, withReturns r) := by
  induction h generalizing s with
  | nil => rfl
  | lineStart _ ih =>
    refine takeAll?_cons_withReturns ?_ (fun _ => ih) hs
    simp only [Piece.take?]
    split <;> rfl
  | text ht _ ih =>
    refine takeAll?_cons_withReturns ?_ (fun _ => ih) hs
    simp only [Piece.take?, strip?_withReturns ht, Option.map_map]
    simp [Function.comp_def, withReturns_eq_self ht.2]
  | run hp _ ih =>
    refine takeAll?_cons_withReturns ?_ (fun _ => ih) hs
    simp [Piece.take?, takeWhile_withReturns hp, dropWhile_withReturns hp]
  | upTo ht hne _ ih =>
    refine takeAll?_cons_withReturns ?_ (fun _ => ih) hs
    simp only [Piece.take?, splitAtFirst?_withReturns ht hne, Option.map_map]
    simp [Function.comp_def, withReturns_eq_self ht.2]
  | lineEnd _ ih =>
    cases s with
    | nil => rfl
    | cons c s =>
      have hc := List.ne_of_not_mem_cons hs
      have hrest := List.not_mem_of_not_mem_cons hs
      by_cases hlf : c = '\n'
      · subst hlf
        rw [withReturns_lineFeed, takeAll?_return_lineFeed, takeAll?_lineFeed, ih hrest]
        simp [Option.map_map, Function.comp_def]
      · simp [hlf, takeAll?, Piece.take?, strip?, hc.symm, Ne.symm hlf]

/-- A group is part of its match. -/
theorem Match.group_subset (m : Match) (i : Nat) : m.group i ⊆ m.text := by
  rw [group, List.getD_eq_getElem?_getD]
  cases hg : m.groups[i]? with
  | none => exact List.nil_subset _
  | some g =>
    obtain ⟨part, hpart, rfl⟩ := List.mem_map.1 (List.mem_of_getElem? hg)
    intro c hc
    exact List.mem_flatten.2 ⟨_, List.mem_map_of_mem (List.mem_filter.1 hpart).1, hc⟩

/-- A match of the text with carriage returns. -/
def Match.withReturns (m : Match) : Match :=
  ⟨m.parts.map fun (captured, a) => (captured, Text.withReturns a), Text.withReturns m.rest⟩

namespace Match

theorem text_withReturns (m : Match) : m.withReturns.text = Text.withReturns m.text := by
  simp only [text, withReturns]
  induction m.parts with
  | nil => rfl
  | cons part parts ih => simpa using ih

theorem groups_withReturns (m : Match) : m.withReturns.groups = m.groups.map Text.withReturns := by
  simp only [groups, withReturns]
  induction m.parts with
  | nil => rfl
  | cons part parts ih =>
    obtain ⟨captured, a⟩ := part
    cases captured <;> simpa using ih

theorem group_withReturns (m : Match) (i : Nat) :
    m.withReturns.group i = Text.withReturns (m.group i) := by
  rw [group, group, groups_withReturns, List.getD_eq_getElem?_getD, List.getD_eq_getElem?_getD,
    List.getElem?_map]
  cases m.groups[i]? <;> rfl

end Match

namespace Pattern

/-- A pattern whose parts ignore carriage returns in front of line feeds. It never matches between
the two. -/
structure IgnoresReturns (p : Pattern) : Prop where
  parts : ∀ part ∈ p, Source.IgnoresReturns part.pieces
  between : ∀ s, p.matchAt? (some '\r') ('\n' :: s) = none

theorem matchAt?_withReturns {p : Pattern} (h : ∀ part ∈ p, Source.IgnoresReturns part.pieces)
    (hs : '\r' ∉ s) :
    p.matchAt? before (withReturns s) = (p.matchAt? before s).map Match.withReturns := by
  induction p generalizing s with
  | nil => rfl
  | cons part parts ih =>
    obtain ⟨hpart, hparts⟩ := List.forall_mem_cons.1 h
    rw [matchAt?, matchAt?, takeAll?_withReturns hpart hs]
    cases htake : takeAll? before part.pieces s with
    | none => rfl
    | some ar =>
      obtain ⟨a, r⟩ := ar
      have hr : '\r' ∉ r := by
        rw [append_of_takeAll? htake] at hs
        exact fun hmem => hs (List.mem_append_right _ hmem)
      simp only [Option.map_some, bind, Option.bind_some, ih hparts hr]
      cases matchAt? before parts r <;> rfl

/-- The leftmost match of the text with carriage returns is that of the text, with carriage
returns. -/
theorem search?_withReturns {p : Pattern} (h : p.IgnoresReturns) (hs : '\r' ∉ s) :
    p.search? before (withReturns s) =
      (p.search? before s).map fun (skipped, m) => (withReturns skipped, m.withReturns) := by
  induction s generalizing before with
  | nil =>
    have hself : p.matchAt? before [] = (p.matchAt? before []).map Match.withReturns :=
      matchAt?_withReturns h.parts hs
    rw [withReturns_nil, search?]
    cases hmatch : p.matchAt? before [] with
    | none => rfl
    | some m =>
      rw [hmatch, Option.map_some] at hself
      simp only [Option.map_some, withReturns_nil, ← Option.some.inj hself]
  | cons c s ih =>
    have hmatch : p.matchAt? before (withReturns (c :: s)) =
        (p.matchAt? before (c :: s)).map Match.withReturns := matchAt?_withReturns h.parts hs
    have hrest := List.not_mem_of_not_mem_cons hs
    by_cases hlf : c = '\n'
    · subst hlf
      rw [withReturns_lineFeed] at hmatch ⊢
      rw [search?, search?, search?, hmatch, h.between, ih hrest]
      cases p.matchAt? before ('\n' :: s) <;> simp [Function.comp_def]
    · rw [withReturns_cons hlf] at hmatch ⊢
      rw [search?, search?, hmatch, ih hrest]
      cases p.matchAt? before (c :: s) <;> simp [hlf, Function.comp_def]

/-- The opening of a comment below a declaration, where the line of the declaration ends. -/
theorem ignoresReturns_opening : opening.IgnoresReturns where
  parts := by
    simp only [opening, Part.plain, Part.group, List.forall_mem_cons]
    refine ⟨.lineStart (.run rfl .nil), .text ?_ (.run rfl .nil), .lineEnd (.run rfl (.text ?_ .nil)),
      .run rfl .nil, .text ?_ .nil, by simp⟩
    all_goals exact ⟨by decide, by decide⟩
  between _ := rfl

/-- The components region, which may have lines in front of its key and inside. -/
theorem ignoresReturns_componentsRegion : componentsRegion.IgnoresReturns where
  parts := by
    simp only [componentsRegion, Part.plain, Part.group, List.forall_mem_cons]
    refine ⟨.text ?_ .nil, .run rfl (.text ?_ (.upTo ?_ (by simp) .nil)), .text ?_ .nil, by simp⟩
    all_goals exact ⟨by decide, by decide⟩
  between _ := rfl

/-- The groups of an opening are inside their lines. -/
theorem lineFeed_not_mem_group {m : Match} (h : opening.matchAt? before s = some m) :
    '\n' ∉ m.group 0 ∧ '\n' ∉ m.group 1 := by
  simp only [opening, Part.plain, Part.group, matchAt?_cons_iff, matchAt?_nil_iff] at h
  obtain ⟨indent, _, _, -, ⟨decl, _, _, hdecl, ⟨bracket, _, _, -, ⟨equals, _, _, hlevel,
    ⟨last, rest, _, -, rfl, rfl⟩, rfl⟩, rfl⟩, rfl⟩, rfl⟩ := h
  obtain ⟨line, rfl, -, hline, -⟩ := takeAll?_declaration_iff.1 hdecl
  obtain ⟨level, rfl, -⟩ := takeAll?_level_iff.1 hlevel
  have hfree : '\n' ∉ line := fun hmem => (hline _ hmem).2 rfl
  constructor
  · simpa [Match.group, Match.groups, declarationWord] using hfree
  · simp [Match.group, Match.groups, List.mem_replicate]

end Pattern

/-! ## Blocks -/

/-- The text of a comment is cut out of what stands between its brackets. -/
theorem commentText_subset (body : List Char) : commentText body ⊆ body := by
  obtain ⟨kept, space, hbody, -, -, hkept⟩ :=
    commentText_eq_iff.1 (Eq.refl (commentText body))
  refine List.Subset.trans ?_ (hbody ▸ List.subset_append_left kept space)
  rcases hkept with hkept | ⟨hkept, -⟩
  · exact hkept ▸ List.subset_append_left _ _
  · exact hkept ▸ List.Subset.refl _

theorem commentText_withReturns {body : List Char} (h : '\r' ∉ body) :
    commentText (withReturns body) = withReturns (commentText body) := by
  obtain ⟨t, hbody, -⟩ := exists_append_trimEnd body
  have htrim : '\r' ∉ trimEnd body := fun hmem => h (hbody ▸ List.mem_append_left _ hmem)
  simp only [commentText, trimEnd_withReturns]
  rw [stripEnd?_withReturns ⟨by decide, by decide⟩ htrim]
  cases stripEnd? ['-', '-'] (trimEnd body) <;> rfl

/-- The comment of a block with a carriage return in front of every line feed. -/
def Block.withReturns (b : Block) : Block :=
  { b with comment := String.ofList (Text.withReturns b.comment.toList) }

namespace Cursor

/-- The same place in the text with carriage returns. -/
def withReturns (c : Cursor) : Cursor := ⟨Text.withReturns c.past, Text.withReturns c.rest⟩

theorem moveTo_withReturns (c : Cursor) (text rest : List Char) :
    c.withReturns.moveTo (Text.withReturns text) (Text.withReturns rest) =
      (c.moveTo text rest).withReturns := by
  simp [moveTo, withReturns]

end Cursor

namespace Opening

/-- The same opening in the text with carriage returns. -/
def withReturns (o : Opening) : Opening := { o with body := o.body.withReturns }

theorem comment_subset_of_block? {o : Opening} {b : Block} {d : Cursor}
    (h : o.block? = some (b, d)) : b.comment.toList ⊆ o.body.rest := by
  obtain ⟨⟨body, rest⟩, hs, h⟩ := Option.map_eq_some_iff.1 h
  cases h
  rw [append_of_splitAtFirst? hs, String.toList_ofList]
  intro c hc
  simp [commentText_subset body hc]

theorem block?_withReturns {o : Opening} (h : '\r' ∉ o.body.rest) :
    o.withReturns.block? = o.block?.map fun (b, d) => (b.withReturns, d.withReturns) := by
  have hinline : IsInline (closingBracket o.level) := by
    constructor <;> simp [closingBracket, List.mem_replicate]
  have hsplit := splitAtFirst?_withReturns hinline (List.cons_ne_nil _ _) o.body.rest
  simp only [block?, withReturns, Cursor.withReturns, hsplit]
  cases hs : splitAtFirst? (closingBracket o.level) o.body.rest with
  | none => rfl
  | some found =>
    obtain ⟨body, rest⟩ := found
    have hbody : '\r' ∉ body := fun hmem => h (by
      rw [append_of_splitAtFirst? hs]
      simp [hmem])
    simp [commentText_withReturns hbody, Block.withReturns, Cursor.moveTo,
      withReturns_eq_self hinline.2]

end Opening

namespace Cursor

/-- The next opening is at the same place. -/
theorem opening?_withReturns {c : Cursor} (h : '\r' ∉ c.rest) :
    c.withReturns.opening? = c.opening?.map Opening.withReturns := by
  simp only [opening?, withReturns, getLast?_withReturns,
    Pattern.search?_withReturns Pattern.ignoresReturns_opening h]
  cases hm : Pattern.opening.search? c.past.getLast? c.rest with
  | none => rfl
  | some found =>
    obtain ⟨skipped, m⟩ := found
    obtain ⟨⟨t, -, hmatch⟩, -⟩ := Pattern.search?_eq_some_iff.1 hm
    obtain ⟨hdecl, hlevel⟩ := Pattern.lineFeed_not_mem_group hmatch
    simp only [Option.map_some, Opening.withReturns, Match.group_withReturns,
      withReturns_eq_self hdecl, withReturns_eq_self hlevel, Match.text_withReturns,
      ← withReturns_append, ← moveTo_withReturns]
    rfl

/-- What the next block is cut out of. -/
theorem comment_subset_of_next {c d : Cursor} {b : Block} (h : c.next = (some b, d)) :
    b.comment.toList ⊆ c.rest := by
  fun_induction next c with
  | case1 => simp at h
  | case2 c o ho b' d' hb =>
    cases h
    exact List.Subset.trans (Opening.comment_subset_of_block? hb)
      (precedes_of_opening? ho).rest_suffix.subset
  | case3 c o ho hb ih =>
    exact List.Subset.trans (ih h) (precedes_of_opening? ho).rest_suffix.subset

/-- One call of the scan. -/
theorem next_withReturns {c : Cursor} (h : '\r' ∉ c.rest) :
    c.withReturns.next = (c.next.1.map Block.withReturns, c.next.2.withReturns) := by
  fun_induction next c with
  | case1 c ho =>
    rw [next_eq, opening?_withReturns h, ho]
    rfl
  | case2 c o ho b d hb =>
    have hrest : '\r' ∉ o.body.rest := fun hmem =>
      h ((precedes_of_opening? ho).rest_suffix.subset hmem)
    rw [next_eq, opening?_withReturns h, ho]
    simp only [Option.map_some, Opening.block?_withReturns hrest, hb]
  | case3 c o ho hb ih =>
    have hrest : '\r' ∉ o.body.rest := fun hmem =>
      h ((precedes_of_opening? ho).rest_suffix.subset hmem)
    rw [next_eq, opening?_withReturns h, ho]
    simp only [Option.map_some, Opening.block?_withReturns hrest, hb, Option.map_none]
    exact ih hrest

/-- The whole scan. -/
theorem blocks_withReturns {c : Cursor} (h : '\r' ∉ c.rest) :
    c.withReturns.blocks = c.blocks.map Block.withReturns := by
  fun_induction blocks c with
  | case1 c d hnext =>
    rw [blocks_eq, next_withReturns h, hnext]
    rfl
  | case2 c b d hnext ih =>
    have hrest : '\r' ∉ d.rest := fun hmem =>
      h ((precedes_of_next hnext).rest_suffix.subset hmem)
    rw [blocks_eq, next_withReturns h, hnext, List.map_cons, ← ih hrest]
    rfl

/-- What the blocks are cut out of. -/
theorem comment_subset_of_mem_blocks {c : Cursor} {b : Block} (h : b ∈ c.blocks) :
    b.comment.toList ⊆ c.rest := by
  fun_induction blocks c with
  | case1 => simp at h
  | case2 c b' d hnext ih =>
    rcases List.mem_cons.1 h with rfl | h
    · exact comment_subset_of_next hnext
    · exact List.Subset.trans (ih h) (precedes_of_next hnext).rest_suffix.subset

end Cursor

/-- A comment consists of characters of the source text. -/
theorem comment_subset_of_mem_blocks {source : String} {b : Block} (h : b ∈ blocks source) :
    b.comment.toList ⊆ source.toList :=
  Cursor.comment_subset_of_mem_blocks h

/-- The blocks of a source text with carriage returns are its blocks, with carriage returns in their
comments. -/
theorem blocks_withReturns {source : String} (h : '\r' ∉ source.toList) :
    blocks (String.ofList (withReturns source.toList)) =
      (blocks source).map Block.withReturns := by
  rw [blocks, String.toList_ofList]
  exact Cursor.blocks_withReturns (c := .start source.toList) h

end RouteDocs.Source
