import RouteDocs.Proofs.Source.Scan

/-!
# Writing route blocks and finding them again

Route blocks can be written into a source text between arbitrary texts, with any comment that does
not close its own bracket. The scan finds exactly these blocks, however much the comments look like
the dialect themselves: it never looks for a declaration inside a comment, and a comment ends at the
first bracket of its own level.

## Main definitions

* `WrittenBlock`: a block and how it is written.
* `Layout`: blocks with fillers before, between and after them.

## Main statement

* `Layout.blocks_text`: the blocks of a written text are the blocks that were written.
-/

namespace RouteDocs.Source

open Text

/-! ## Written blocks -/

/-- A block, and the blanks and the bracket level that it is written with. -/
structure WrittenBlock where
  declaration : List Char
  comment : List Char
  /-- The blanks in front of the declaration. -/
  indent : List Char
  /-- The blanks in front of the opening bracket. -/
  bracketIndent : List Char
  level : Nat
  declares : declarationWord <+: declaration
  oneLine : ∀ c ∈ declaration, c ≠ '\r' ∧ c ≠ '\n'
  blank_indent : ∀ c ∈ indent, isBlank c = true
  blank_bracketIndent : ∀ c ∈ bracketIndent, isBlank c = true
  /-- The comment does not close itself. -/
  unclosed : ¬closingBracket level <:+: comment

namespace WrittenBlock

/-- The declaration line, and the next one up to the comment. -/
def opening (w : WrittenBlock) : List Char :=
  w.indent ++ w.declaration ++ '\n' :: w.bracketIndent ++ ['-', '-', '['] ++
    List.replicate w.level '=' ++ ['[']

/-- The closing line mark and bracket. -/
def closing (w : WrittenBlock) : List Char := ['-', '-'] ++ closingBracket w.level

def text (w : WrittenBlock) : List Char := w.opening ++ (w.comment ++ w.closing)

def block (w : WrittenBlock) : Block := ⟨String.ofList w.declaration, String.ofList w.comment⟩

theorem isOpening (w : WrittenBlock) : IsOpening w.opening w.declaration w.level := by
  obtain ⟨line, hline⟩ := w.declares
  refine ⟨w.indent, line, [], w.bracketIndent, w.blank_indent, fun c hc => w.oneLine c ?_,
    .inl rfl, w.blank_bracketIndent, hline.symm, by simp [opening]⟩
  simp [← hline, hc]

theorem not_atLineStart_text (w : WrittenBlock) (past : List Char) :
    ¬AtLineStart (past ++ w.text) := by
  simp [AtLineStart, text, closing, closingBracket, List.getLast?_append, List.getLast?_cons]

/-- White space in front of the line mark stays. -/
theorem commentText_append_mark (comment : List Char) :
    commentText (comment ++ ['-', '-']) = comment := by
  have hsolid : EndsSolid (comment ++ ['-', '-']) := by simp [EndsSolid, isSpace]
  have htrim : trimEnd (comment ++ ['-', '-']) = comment ++ ['-', '-'] := by
    simpa using trimEnd_append_of_all (t := []) (by simp) hsolid
  rw [commentText, htrim, stripEnd?_eq_some_iff.2 rfl, Option.getD_some]

/-- The comment ends at the bracket that was written to close it. -/
theorem splitAtFirst?_closing (w : WrittenBlock) (rest : List Char) :
    splitAtFirst? (closingBracket w.level) (w.comment ++ w.closing ++ rest) =
      some (w.comment ++ ['-', '-'], rest) := by
  have hne : closingBracket w.level ≠ [] := by simp [closingBracket]
  have hmark : '-' ∉ closingBracket w.level := by simp [closingBracket, List.mem_replicate]
  -- a hyphen is no part of the bracket, so none starts in front of one and ends behind it
  have hlast : splitAtFirst? (closingBracket w.level) ('-' :: (closingBracket w.level ++ rest)) =
      some (['-'], rest) := by
    have h := splitAtFirst?_append_cons (a := []) (s := closingBracket w.level ++ rest) hne hmark
      (by simpa using hne)
    simpa [splitAtFirst?_self_append] using h
  have h := splitAtFirst?_append_cons (s := '-' :: (closingBracket w.level ++ rest)) hne hmark
    w.unclosed
  rw [hlast] at h
  simpa [closing] using h

/-- The opening of a written block gives the block, and the place behind it. -/
theorem block?_opening (w : WrittenBlock) (past rest : List Char) :
    Opening.block? ⟨w.declaration, w.level, ⟨past, w.comment ++ w.closing ++ rest⟩⟩ =
      some (w.block, ⟨past ++ (w.comment ++ w.closing), rest⟩) := by
  refine Option.map_eq_some_iff.2 ⟨_, w.splitAtFirst?_closing rest, ?_⟩
  simp [commentText_append_mark, block, Cursor.moveTo, closing]

end WrittenBlock

/-! ## Fillers -/

/-- No line that starts in a filler, which stands behind `past`, begins like a declaration. -/
def Quiet (past filler : List Char) : Prop :=
  ∀ u v, filler = u ++ v → AtLineStart (past ++ u) → ¬BeginsDeclaration v

/-- A line of a filler that begins like a declaration is one of its pieces, and a later one unless
the filler starts with it. -/
theorem exists_piece_of_beginsDeclaration {past u v : List Char} (hstart : AtLineStart (past ++ u))
    (hv : BeginsDeclaration v) :
    ∃ line ∈ splitOn '\n' (u ++ v), BeginsDeclaration line ∧
      (u ≠ [] → line ∈ (splitOn '\n' (u ++ v)).tail) := by
  obtain ⟨line, hline, hbegins⟩ := hv.exists_mem_splitOn
  by_cases hu : u = []
  · subst hu
    exact ⟨line, hline, hbegins, absurd rfl⟩
  · obtain ⟨w, rfl⟩ := hstart.exists_eq_append hu
    have hlater : line ∈ (splitOn '\n' (w ++ ['\n'] ++ v)).tail := by
      rw [List.append_assoc, List.singleton_append, splitOn_append_cons,
        List.tail_append_of_ne_nil (splitOn_ne_nil '\n' w)]
      exact List.mem_append_right _ hline
    exact ⟨line, List.mem_of_mem_tail hlater, hbegins, fun _ => hlater⟩

theorem quiet_of_lines {past filler : List Char}
    (h : ∀ line ∈ splitOn '\n' filler, ¬BeginsDeclaration line) : Quiet past filler := by
  rintro u v rfl hstart hv
  obtain ⟨line, hline, hbegins, -⟩ := exists_piece_of_beginsDeclaration hstart hv
  exact h line hline hbegins

/-- Behind the middle of a line, no line starts in front of the first line feed. -/
theorem quiet_of_laterLines {past filler : List Char} (hpast : ¬AtLineStart past)
    (h : ∀ line ∈ (splitOn '\n' filler).tail, ¬BeginsDeclaration line) : Quiet past filler := by
  rintro u v rfl hstart hv
  obtain ⟨line, -, hbegins, hlater⟩ := exists_piece_of_beginsDeclaration hstart hv
  refine h line (hlater fun hu => hpast ?_) hbegins
  simpa [hu] using hstart

/-- No opening starts in a quiet filler that ends with the text or with a line. -/
theorem Quiet.not_openingAt {past filler rest : List Char} (h : Quiet past filler)
    (hrest : rest = [] ∨ AtLineStart (past ++ filler)) {q level e : Nat} {decl : List Char}
    (hq : past.length ≤ q) (hlt : q < (past ++ filler).length) :
    ¬OpeningAt (past ++ (filler ++ rest)) q decl level e := by
  intro hopening
  obtain ⟨u, t, r, hcut, rfl, hstart, ht, -⟩ := hopening.exists_rest hq
  obtain ⟨v, rfl, hv⟩ := exists_append_of_append_eq hcut.symm
    (by simp only [List.length_append] at hlt; omega)
  have hne : v ≠ [] := fun heq => by simp [heq] at hlt
  have hbegins := ht.beginsDeclaration r
  rw [hv] at hbegins
  rcases hrest with rfl | hend
  · exact h u v rfl hstart (by simpa using hbegins)
  · obtain ⟨w, rfl⟩ := (List.append_assoc past u v ▸ hend).exists_eq_append hne
    rw [List.append_assoc, List.singleton_append, beginsDeclaration_append_iff] at hbegins
    exact h u _ rfl hstart (beginsDeclaration_append_iff.2 hbegins)

/-- The scan passes over a filler, finds the block that was written behind it, and goes on behind
that. -/
theorem Cursor.blocks_filler_text {past filler : List Char} (w : WrittenBlock) (rest : List Char)
    (hquiet : Quiet past filler) (hstart : AtLineStart (past ++ filler)) :
    Cursor.blocks ⟨past, filler ++ (w.text ++ rest)⟩ =
      w.block :: Cursor.blocks ⟨past ++ filler ++ w.text, rest⟩ := by
  have hopening : Cursor.opening? ⟨past, filler ++ (w.text ++ rest)⟩ =
      some ⟨w.declaration, w.level, ⟨past ++ filler ++ w.opening,
        w.comment ++ w.closing ++ rest⟩⟩ := by
    refine opening?_eq_some_of_first ?_ ?_ hstart w.isOpening fun q _ _ _ hq hlt => ?_
    · simp [WrittenBlock.text]
    · simp
    · exact hquiet.not_openingAt (.inr hstart) hq hlt
  rw [blocks_of_block?_eq_some hopening (w.block?_opening _ rest)]
  simp [WrittenBlock.text]

/-! ## Written texts -/

/-- Blocks with fillers before, between and after them. A block starts a line, and no line that
starts in a filler begins like a declaration. -/
structure Layout where
  /-- The filler before the first block. -/
  front : List Char
  /-- The blocks, each with the filler that follows it. -/
  entries : List (WrittenBlock × List Char)
  front_ends : entries ≠ [] → front = [] ∨ front.getLast? = some '\n'
  front_quiet : ∀ line ∈ splitOn '\n' front, ¬BeginsDeclaration line
  filler_ends : ∀ filler ∈ (entries.map Prod.snd).dropLast, filler.getLast? = some '\n'
  filler_quiet : ∀ filler ∈ entries.map Prod.snd, ∀ line ∈ (splitOn '\n' filler).tail,
    ¬BeginsDeclaration line

/-- The text of blocks, each with the filler that follows it. -/
def entriesText (entries : List (WrittenBlock × List Char)) : List Char :=
  entries.flatMap fun (w, filler) => w.text ++ filler

namespace Layout

def text (l : Layout) : List Char := l.front ++ entriesText l.entries

/-- The blocks of entries behind a filler. -/
theorem blocks_entriesText {past filler : List Char} {entries : List (WrittenBlock × List Char)}
    (hstart : entries ≠ [] → AtLineStart (past ++ filler)) (hquiet : Quiet past filler)
    (hends : ∀ f ∈ (entries.map Prod.snd).dropLast, f.getLast? = some '\n')
    (hlines : ∀ f ∈ entries.map Prod.snd, ∀ line ∈ (splitOn '\n' f).tail,
      ¬BeginsDeclaration line) :
    Cursor.blocks ⟨past, filler ++ entriesText entries⟩ = entries.map fun e => e.1.block := by
  induction entries generalizing past filler with
  | nil =>
    refine Cursor.blocks_of_opening?_eq_none (Cursor.opening?_eq_none fun q _ _ _ hq hopening => ?_)
    have hlt := Nat.lt_of_lt_of_le hopening.start_lt hopening.le_length
    exact hquiet.not_openingAt (.inl rfl) hq (by simpa [entriesText] using hlt) hopening
  | cons entry entries ih =>
    obtain ⟨w, next⟩ := entry
    have htext : entriesText ((w, next) :: entries) = w.text ++ (next ++ entriesText entries) := by
      simp [entriesText]
    have hstart' : entries ≠ [] → AtLineStart (past ++ filler ++ w.text ++ next) := by
      intro hne
      have hlast := hends next (by cases entries <;> simp_all)
      simp [AtLineStart, List.getLast?_append, hlast]
    have hquiet' : Quiet (past ++ filler ++ w.text) next :=
      quiet_of_laterLines (w.not_atLineStart_text _) (hlines next (by simp))
    have hends' : ∀ f ∈ (entries.map Prod.snd).dropLast, f.getLast? = some '\n' := fun f hf =>
      hends f (by cases entries <;> simp_all)
    rw [htext, Cursor.blocks_filler_text w _ hquiet (hstart (by simp)),
      ih hstart' hquiet' hends' fun f hf => hlines f (List.mem_cons_of_mem _ hf)]
    rfl

/-- The blocks of a written text are the blocks that were written, in their order. -/
theorem blocks_text (l : Layout) :
    blocks (String.ofList l.text) = l.entries.map fun e => e.1.block := by
  have hstart : l.entries ≠ [] → AtLineStart ([] ++ l.front) := by
    intro hne
    rcases l.front_ends hne with h | h <;> simp [AtLineStart, h]
  have h := blocks_entriesText hstart (quiet_of_lines l.front_quiet) l.filler_ends l.filler_quiet
  simpa [blocks, Cursor.start, text] using h

/-- A block whose comment holds another block, with a hyphen and a blank at its end. -/
def quotingBlock : WrittenBlock where
  declaration := declarationWord ++ ['x']
  comment := '\n' :: (declarationWord ++ ['y', '\n', '-', '-', '[', '[', ']', ']', '-', ' '])
  indent := [' ']
  bracketIndent := ['\t']
  level := 1
  declares := by decide
  oneLine := by simp [declarationWord]
  blank_indent := by simp [isBlank]
  blank_bracketIndent := by simp [isBlank]
  unclosed := by decide

/-- The block twice, each time followed by what would be a declaration at the start of a line. -/
def quotingLayout : Layout where
  front := ['x', '\n']
  entries := [(quotingBlock, declarationWord ++ ['\n']), (quotingBlock, declarationWord)]
  front_ends := by decide
  front_quiet := by decide
  filler_ends := by decide
  filler_quiet := by decide

theorem blocks_text_quoting :
    blocks (String.ofList quotingLayout.text) = [quotingBlock.block, quotingBlock.block] :=
  quotingLayout.blocks_text

end Layout

end RouteDocs.Source
