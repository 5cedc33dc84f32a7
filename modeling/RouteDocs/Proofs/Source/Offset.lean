import RouteDocs.Proofs.Source.Scan
import RouteDocs.Proofs.Text.Bytes

/-!
# The scan by offsets

The scan once more, with an offset in bytes in place of a place in the text. Here a search may fail:
the offset may lie behind the end of the text or inside a character, and so may the ends of what is
cut out of it. It never does. Each search that finds an opening moves the offset forward, and each
block that is found lies behind a line feed of its own.

## Main definitions

* `round?`: one search, which comes to a `Round`.
* `Visited`: the offsets that searches start from.
* `Call`, `Calls`: what one call and several calls of the scan give.

## Main statements

* `round?_offset`: a search by offsets succeeds, and comes to what the scan finds.
* `Call.unique`, `call_next`: a call gives the next block of the scan.
* `Cursor.length_blocks_le`: there are no more blocks than line feeds.
* `scan_progresses`: the scan goes forward within the text, and its calls give the blocks one by
  one and then nothing.
-/

namespace RouteDocs.Source

open Text

variable {source : List Char} {c d : Cursor} {o : Opening} {b : Block} {i j : Nat}

/-! ## Offsets of places -/

@[simp] theorem Cursor.offset_moveTo (c : Cursor) (text rest : List Char) :
    (c.moveTo text rest).offset = c.offset + byteLength text := by
  simp [offset, moveTo]

theorem Cursor.Precedes.offset_lt (h : c.Precedes d) : c.offset < d.offset := by
  obtain ⟨text, hne, -, hd⟩ := h
  have hpos := byteLength_pos hne
  rw [hd, offset_moveTo]
  omega

/-! ## One search -/

/-- The place at an offset, if the text can be cut there. -/
def Cursor.ofOffset? (source : List Char) (i : Nat) : Option Cursor :=
  (splitBytes? i source).map fun (past, rest) => ⟨past, rest⟩

/-- What one search comes to: there is no opening, its comment is not closed, or it starts a block.
The offset is where the next search starts. -/
inductive Round where
  | finished
  | skipped (offset : Nat)
  | found (block : Block) (offset : Nat)

/-- Where the next search starts, if something was found. -/
def Round.offset? : Round → Option Nat
  | .finished => none
  | .skipped i => some i
  | .found _ i => some i

/-- One search from an offset. It fails if that offset, or one that the text is cut at, lies behind
its end or inside a character. -/
def round? (source : List Char) (i : Nat) : Option Round := do
  let c ← Cursor.ofOffset? source i
  match c.opening? with
  | none => return .finished
  | some o =>
    let start := o.body.offset
    let rest ← slice? start (byteLength source) source
    match splitAtFirst? (closingBracket o.level) rest with
    | none => return .skipped start
    | some (before, _) =>
      let stop := start + byteLength before
      let body ← slice? start stop source
      return .found
        { declaration := String.ofList o.declaration, comment := String.ofList (commentText body) }
        (stop + byteLength (closingBracket o.level))

theorem Cursor.ofOffset?_offset (h : c.past ++ c.rest = source) :
    Cursor.ofOffset? source c.offset = some c := by
  have hsplit : splitBytes? c.offset source = some (c.past, c.rest) :=
    splitBytes?_eq_some_iff.2 ⟨h.symm, rfl⟩
  simp [ofOffset?, hsplit]

/-- What the scan finds at a place, by offsets. -/
def Cursor.round (c : Cursor) : Round :=
  match c.opening? with
  | none => .finished
  | some o =>
    match o.block? with
    | none => .skipped o.body.offset
    | some (b, d) => .found b d.offset

/-- A search by offsets succeeds, and comes to what the scan finds. -/
theorem round?_offset (h : c.past ++ c.rest = source) : round? source c.offset = some c.round := by
  have hplace := Cursor.ofOffset?_offset h
  cases ho : c.opening? with
  | none => simp [round?, Cursor.round, hplace, ho]
  | some o =>
    have hbody : source = o.body.past ++ o.body.rest :=
      h.symm.trans (Cursor.precedes_of_opening? ho).append_eq.symm
    have hrest : slice? o.body.offset (byteLength source) source = some o.body.rest :=
      slice?_eq_some_iff.2 ⟨o.body.past, [], by simp [hbody], rfl, by
        rw [hbody, byteLength_append, Cursor.offset]⟩
    cases hs : splitAtFirst? (closingBracket o.level) o.body.rest with
    | none => simp [round?, Cursor.round, hplace, ho, hrest, hs, Opening.block?]
    | some cut =>
      obtain ⟨before, after⟩ := cut
      have hcut : slice? o.body.offset (o.body.offset + byteLength before) source = some before :=
        slice?_eq_some_iff.2 ⟨o.body.past, closingBracket o.level ++ after, by
          rw [hbody, append_of_splitAtFirst? hs, List.append_assoc], rfl, rfl⟩
      simp [round?, Cursor.round, hplace, ho, hrest, hs, hcut, Opening.block?, Nat.add_assoc]

/-- The next search starts further on, at a place of the same text. -/
theorem Cursor.exists_precedes_of_round (h : j ∈ c.round.offset?) :
    ∃ d, c.Precedes d ∧ d.offset = j := by
  unfold round at h
  cases ho : c.opening? with
  | none => simp [ho, Round.offset?] at h
  | some o =>
    have hopening := precedes_of_opening? ho
    cases hb : o.block? with
    | none =>
      obtain rfl : o.body.offset = j := by simpa [ho, hb, Round.offset?] using h
      exact ⟨o.body, hopening, rfl⟩
    | some bd =>
      obtain ⟨b, d⟩ := bd
      obtain rfl : d.offset = j := by simpa [ho, hb, Round.offset?] using h
      exact ⟨d, hopening.trans (Opening.precedes_of_block? hb), rfl⟩

/-- The offsets that a search starts from, in whatever number of calls. -/
inductive Visited (source : List Char) : Nat → Prop
  | start : Visited source 0
  | step {i j : Nat} {r : Round} (hi : Visited source i) (hr : round? source i = some r)
      (hj : j ∈ r.offset?) : Visited source j

/-- Every search starts at a place of the text. -/
theorem Visited.exists_cursor (h : Visited source i) :
    ∃ c : Cursor, c.past ++ c.rest = source ∧ c.offset = i := by
  induction h with
  | start => exact ⟨Cursor.start source, rfl, rfl⟩
  | step _ hr hj ih =>
    obtain ⟨c, hc, rfl⟩ := ih
    rw [round?_offset hc] at hr
    cases hr
    obtain ⟨d, hd, hj⟩ := Cursor.exists_precedes_of_round hj
    exact ⟨d, hd.append_eq.trans hc, hj⟩

/-! ## Calls -/

/-- One call of the scan from an offset: searches, up to the first block. It gives the block, or
nothing, and the offset from which the next call goes on. -/
inductive Call (source : List Char) : Nat → Option Block → Nat → Prop
  | finished {i : Nat} (h : round? source i = some .finished) : Call source i none i
  | found {i j : Nat} {b : Block} (h : round? source i = some (.found b j)) :
      Call source i (some b) j
  | skipped {i j k : Nat} {r : Option Block} (h : round? source i = some (.skipped k))
      (hcall : Call source k r j) : Call source i r j

/-- Calls one after the other, and what they give. -/
inductive Calls (source : List Char) : Nat → List (Option Block) → Nat → Prop
  | nil {i : Nat} : Calls source i [] i
  | cons {i j k : Nat} {r : Option Block} {rs : List (Option Block)} (hcall : Call source i r k)
      (h : Calls source k rs j) : Calls source i (r :: rs) j

theorem Call.visited {r : Option Block} (h : Call source i r j) (hi : Visited source i) :
    Visited source j := by
  induction h with
  | finished => exact hi
  | found h => exact .step hi h rfl
  | skipped h hcall ih => exact ih (.step hi h rfl)

/-- Calls leave the scan at an offset that the next search starts from. -/
theorem Calls.visited {rs : List (Option Block)} (h : Calls source i rs j) (hi : Visited source i) :
    Visited source j := by
  induction h with
  | nil => exact hi
  | cons hcall h ih => exact ih (hcall.visited hi)

theorem Call.unique {r r' : Option Block} {j' : Nat} (h : Call source i r j)
    (h' : Call source i r' j') : r = r' ∧ j = j' := by
  induction h generalizing r' j' with
  | finished h => cases h' <;> simp_all
  | found h => cases h' <;> simp_all
  | skipped h hcall ih =>
    cases h' with
    | finished h' => simp [h] at h'
    | found h' => simp [h] at h'
    | skipped h' hcall' =>
      cases h.symm.trans h'
      exact ih hcall'

/-- A call gives what the scan finds next. -/
theorem call_next (c : Cursor) :
    Call (c.past ++ c.rest) c.offset c.next.1 c.next.2.offset := by
  fun_induction Cursor.next c with
  | case1 c ho => exact .finished (by rw [round?_offset rfl, Cursor.round, ho])
  | case2 c o ho b d hb =>
    refine .found ?_
    rw [round?_offset rfl, Cursor.round, ho]
    simp only [hb]
  | case3 c o ho hb ih =>
    rw [(Cursor.precedes_of_opening? ho).append_eq] at ih
    refine .skipped ?_ ih
    rw [round?_offset rfl, Cursor.round, ho]
    simp only [hb]

/-- The scan stays in its text. -/
theorem Cursor.append_next (c : Cursor) : c.next.2.past ++ c.next.2.rest = c.past ++ c.rest := by
  fun_induction Cursor.next c with
  | case1 => rfl
  | case2 c o ho b d hb =>
    exact ((precedes_of_opening? ho).trans (Opening.precedes_of_block? hb)).append_eq
  | case3 c o ho hb ih => exact ih.trans (precedes_of_opening? ho).append_eq

/-- Where the scan has found nothing, it finds nothing again. -/
theorem Cursor.next_of_next_eq_none (h : c.next = (none, d)) : d.next = (none, d) := by
  fun_induction Cursor.next c with
  | case1 c ho =>
    cases h
    rw [next_eq, ho]
  | case2 => simp at h
  | case3 c o ho hb ih => exact ih h

theorem Cursor.getElem?_blocks_zero (c : Cursor) : c.blocks[0]? = c.next.1 := by
  rw [blocks_eq]
  split <;> simp_all

theorem Cursor.getElem?_blocks_succ (c : Cursor) (k : Nat) :
    c.blocks[k + 1]? = c.next.2.blocks[k]? := by
  rw [blocks_eq]
  cases h : c.next with
  | mk r d =>
    cases r with
    | some b => simp
    | none => simp [blocks_eq d, next_of_next_eq_none h]

/-- The calls from a place give its blocks, and then nothing. -/
theorem Cursor.exists_calls (c : Cursor) (n : Nat) :
    ∃ j, Calls (c.past ++ c.rest) c.offset ((List.range n).map fun k => c.blocks[k]?) j := by
  induction n generalizing c with
  | zero => exact ⟨c.offset, .nil⟩
  | succ n ih =>
    obtain ⟨j, hj⟩ := ih c.next.2
    rw [append_next] at hj
    refine ⟨j, ?_⟩
    rw [List.range_succ_eq_map, List.map_cons, List.map_map, getElem?_blocks_zero]
    refine .cons (call_next c) ?_
    simpa only [Function.comp_def, Nat.succ_eq_add_one, getElem?_blocks_succ] using hj

theorem Calls.unique {rs rs' : List (Option Block)} {j' : Nat} (h : Calls source i rs j)
    (h' : Calls source i rs' j') (hlen : rs.length = rs'.length) : rs = rs' := by
  induction h generalizing rs' with
  | nil => exact (List.length_eq_zero_iff.1 hlen.symm).symm
  | cons hcall h ih =>
    cases h' with
    | nil => simp at hlen
    | cons hcall' h' =>
      obtain ⟨rfl, rfl⟩ := hcall.unique hcall'
      rw [ih h' (by simpa using hlen)]

/-! ## Line feeds -/

/-- The part of the text that an opening takes up holds a line feed. -/
theorem Cursor.count_lt_of_opening? (h : c.opening? = some o) :
    o.body.rest.count '\n' < c.rest.count '\n' := by
  obtain ⟨⟨skipped, m⟩, hm, rfl⟩ := Option.map_eq_some_iff.1 h
  obtain ⟨⟨t, -, hmatch⟩, -⟩ := Pattern.search?_eq_some_iff.1 hm
  obtain ⟨a, indent, b, htext, -⟩ := (opening_of_matchAt? hmatch).2.split
  rw [Pattern.append_of_search? hm, htext]
  simp only [moveTo, List.count_append, List.count_cons_self]
  omega

theorem Cursor.count_lt_of_next (h : c.next = (some b, d)) :
    d.rest.count '\n' < c.rest.count '\n' := by
  fun_induction Cursor.next c with
  | case1 => simp at h
  | case2 c o ho b' d' hb =>
    cases h
    have hrest := (Opening.precedes_of_block? hb).rest_suffix.sublist.count_le '\n'
    exact Nat.lt_of_le_of_lt hrest (count_lt_of_opening? ho)
  | case3 c o ho hb ih => exact Nat.lt_trans (ih h) (count_lt_of_opening? ho)

/-- There are no more blocks than line feeds. -/
theorem Cursor.length_blocks_le (c : Cursor) : c.blocks.length ≤ c.rest.count '\n' := by
  fun_induction Cursor.blocks c with
  | case1 => simp
  | case2 c b d h ih =>
    have := count_lt_of_next h
    simp only [List.length_cons]
    omega

/-! ## The scan -/

/-- Every search starts at a valid position of the text and succeeds, and if it finds an opening the
next one starts further on; the calls of the scan, however many, leave it at such a position. They
give the blocks one by one and then nothing, and there are no more blocks than line feeds. -/
theorem scan_progresses (source : String) :
    (∀ i, Visited source.toList i →
      (String.Pos.Raw.mk i).IsValid source ∧
      ∃ r, round? source.toList i = some r ∧ ∀ j ∈ r.offset?, i < j) ∧
    (∀ results i, Calls source.toList 0 results i → Visited source.toList i) ∧
    (∀ n results, (results.length = n ∧ ∃ j, Calls source.toList 0 results j) ↔
      results = (List.range n).map fun k => (blocks source)[k]?) ∧
    (blocks source).length ≤ source.toList.count '\n' := by
  refine ⟨fun i hi => ?_, fun results i h => h.visited .start, fun n results => ?_,
    Cursor.length_blocks_le (Cursor.start source.toList)⟩
  · obtain ⟨c, hc, rfl⟩ := hi.exists_cursor
    refine ⟨?_, c.round, round?_offset hc, fun j hj => ?_⟩
    · have hvalid := isValid_byteLength c.past c.rest
      rwa [hc, String.ofList_toList] at hvalid
    · obtain ⟨d, hd, rfl⟩ := Cursor.exists_precedes_of_round hj
      exact hd.offset_lt
  · obtain ⟨j, hj⟩ := Cursor.exists_calls (Cursor.start source.toList) n
    constructor
    · rintro ⟨rfl, j', hj'⟩
      exact hj'.unique hj (by simp)
    · rintro rfl
      exact ⟨by simp, j, hj⟩

end RouteDocs.Source
