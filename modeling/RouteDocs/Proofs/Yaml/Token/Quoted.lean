import Mathlib.Data.Option.Basic
import RouteDocs.Proofs.Decimal
import RouteDocs.Proofs.Yaml.Place
import RouteDocs.Yaml.Token.Quoted

/-!
# Quoted scalars read back

A quoted scalar is read character by character: each lemma here says what one more character in
front does to the scalar.

## Main statements

* `escape?_escapeDouble`: an escape stands for the character it was written for.
* `quotedScalar?_double`, `quotedScalar?_single`: a quoted string is read up to its closing quote.
-/

namespace RouteDocs.Yaml

open Text (isBlank)
open Decimal (ofDigits? digitValue?)

/-! ## Escapes -/

theorem digitValue?_upper {d : Nat} (h : d < 16) :
    digitValue? (Char.ofNat (if d < 10 then 48 + d else 55 + d)) = some d :=
  (by decide : ∀ d < 16, digitValue? (Char.ofNat (if d < 10 then 48 + d else 55 + d)) = some d) d h

theorem ofDigits?_hexDigits {n code : Nat} (h : code < Nat.pow 16 n) :
    ofDigits? 16 (hexDigits n code) = some code := by
  induction n generalizing code with
  | zero =>
    obtain rfl : code = 0 := by simpa using h
    rfl
  | succ n ih =>
    have hd : code % 16 < 16 := Nat.mod_lt _ (by omega)
    have hhigh : code / 16 < Nat.pow 16 n := Nat.div_lt_of_lt_mul (Nat.mul_comm _ _ ▸ h)
    rw [hexDigits, Decimal.ofDigits?_append_singleton (ih hhigh) (digitValue?_upper hd) hd]
    congr 1
    omega

theorem length_hexDigits (n code : Nat) : (hexDigits n code).length = n := by
  induction n generalizing code with
  | zero => rfl
  | succ n ih => simp [hexDigits, ih]

theorem hexEscape?_hexDigits {n : Nat} {c : Char} (h : c.toNat < Nat.pow 16 n) (rest : List Char) :
    hexEscape? n (hexDigits n c.toNat ++ rest) = some c := by
  have htake : (hexDigits n c.toNat ++ rest).take n = hexDigits n c.toNat :=
    List.take_left' (length_hexDigits _ _)
  have hvalid : c.toNat < 0xD800 ∨ 0xDFFF < c.toNat ∧ c.toNat ≤ 0x10FFFF := by
    have := c.valid
    simp only [UInt32.isValidChar, Nat.isValidChar] at this
    simp only [Char.toNat]
    omega
  simp [hexEscape?, htake, length_hexDigits, ofDigits?_hexDigits h, guard, hvalid]

/-- The characters that are escaped by a letter. -/
def lettered : List Char :=
  ['\x00', '\x07', '\x08', '\t', '\n', '\x0b', '\x0c', '\r', '\x1b', '"', '\\', '\u0085', '\u2028',
    '\u2029']

/-- The character stands for itself between double quotes. -/
def IsDirect (c : Char) : Prop :=
  isPrintable c = true ∧ isBreak c = false ∧ c ≠ '"' ∧ c ≠ '\\'

theorem escapeDouble_of_isDirect {c : Char} (h : IsDirect c) : escapeDouble c = [c] := by
  obtain ⟨hprint, hbreak, hquote, hslash⟩ := h
  simp [escapeDouble, hprint, hbreak, hquote, hslash]

/-- An escape stands for its character, and no break follows the backslash. -/
theorem escape?_escapeDouble {c : Char} (h : ¬IsDirect c) :
    ∃ e, escapeDouble c = '\\' :: e ∧ (∀ d ∈ e.head?, isBreak d = false) ∧ e ≠ [] ∧
      ∀ rest, escape? (e ++ rest) = some (c, e.length) := by
  by_cases hletter : c ∈ lettered
  · simp only [lettered, List.mem_cons, List.not_mem_nil, or_false] at hletter
    rcases hletter with rfl | rfl | rfl | rfl | rfl | rfl | rfl | rfl | rfl | rfl | rfl | rfl |
      rfl | rfl <;> exact ⟨_, rfl, by simp [isBreak], by simp, fun _ => rfl⟩
  · have hprint : isPrintable c = false := by
      refine Bool.eq_false_iff.2 fun hprint => h ⟨hprint, ?_, ?_, ?_⟩
      · refine Bool.eq_false_iff.2 fun hbreak => hletter ?_
        simp only [isBreak, Bool.or_eq_true, beq_iff_eq] at hbreak
        rcases hbreak with (((rfl | rfl) | rfl) | rfl) | rfl <;> decide
      · rintro rfl
        exact hletter (by decide)
      · rintro rfl
        exact hletter (by decide)
    have hlt : c.toNat < 0x10000 := by
      simp only [isPrintable, Bool.or_eq_false_iff, decide_eq_false_iff_not] at hprint
      omega
    have hescape : escapeDouble c =
        '\\' :: if c.toNat ≤ 0xFF then 'x' :: hexDigits 2 c.toNat else 'u' :: hexDigits 4 c.toNat := by
      simp only [lettered, List.mem_cons, List.not_mem_nil, or_false, not_or] at hletter
      simp [escapeDouble, hprint]
      split <;> simp_all
    rw [hescape]
    split
    · rename_i hle
      refine ⟨_, rfl, by simp [isBreak], by simp, fun rest => ?_⟩
      have hbyte : c.toNat < 0x100 := by omega
      have hhex : hexEscape? 2 (hexDigits 2 c.toNat ++ rest) = some c :=
        hexEscape?_hexDigits hbyte rest
      simp [escape?, hhex, length_hexDigits]
    · refine ⟨_, rfl, by simp [isBreak], by simp, fun rest => ?_⟩
      have hhex : hexEscape? 4 (hexDigits 4 c.toNat ++ rest) = some c :=
        hexEscape?_hexDigits hlt rest
      simp [escape?, hhex, length_hexDigits]

/-! ## One more character -/

/-- The word in front of a text inside quotes, and its length in the text. -/
def quotedWord? (single : Bool) (s : List Char) : Option (List Char × Nat) :=
  if single then singleWord? s else doubleWord? s

/-- What the white space between two words inside quotes stands for, and the place after it. The
first character is `c`. -/
def quotedGap? (c : Char) (q : Place) : Option (List Char × Place) :=
  if c == '\\' then (q.skip 1).nextLine.breaksAfter? 0
  else (q.gap? 0).map fun x => (x.1.folded, x.2)

/-- What stands after a word inside quotes that ends at `q`: the closing quote, or white space and
then the rest. -/
def quotedRest? (single : Bool) (size : Nat) (word : List Char) (q : Place) :
    Option (List Char × Place) :=
  match q.rest with
  | [] => none
  | c :: _ =>
    if c == quoteOf single then some (word, q.skip 1)
    else
      (quotedGap? c q).bind fun x =>
        if x.2.rest.length < size then
          (quotedScalar? single x.2).bind fun y => some (word ++ x.1 ++ y.1, y.2)
        else none

theorem quotedScalar?_eq (single : Bool) (p : Place) :
    quotedScalar? single p =
      if p.atDocumentMark then none
      else (quotedWord? single p.rest).bind fun x =>
        quotedRest? single p.rest.length x.1 (p.skip x.2) := by
  rw [quotedScalar?]
  split
  · rfl
  cases single <;>
  · refine congrArg (Option.bind _) (funext fun ⟨w, n⟩ => ?_)
    unfold quotedRest? quotedGap?
    dsimp only
    cases (p.skip n).rest with
    | nil => rfl
    | cons c r =>
      dsimp only
      split
      · rfl
      · split
        · cases ((p.skip n).skip 1).nextLine.breaksAfter? 0 <;> rfl
        · cases (p.skip n).gap? 0 <;> rfl

/-- The characters `a` are read as `c`, and the word goes on after them. -/
def Spells (single : Bool) (a : List Char) (c : Char) : Prop :=
  ∀ s, quotedWord? single (a ++ s) =
    (quotedWord? single s).map fun x => (c :: x.1, x.2 + a.length)

theorem quotedRest?_cons {single : Bool} {size size' : Nat} {word t : List Char} {q e : Place}
    (hsize : size ≤ size') (h : quotedRest? single size word q = some (t, e)) (c : Char) :
    quotedRest? single size' (c :: word) q = some (c :: t, e) := by
  unfold quotedRest? at h ⊢
  split at h
  · cases h
  · split at h
    · rename_i hclose
      cases h
      rw [if_pos hclose]
    · rename_i hclose
      obtain ⟨⟨g, r⟩, hgap, h⟩ := Option.bind_eq_some_iff.1 h
      split at h
      · rename_i hlt
        obtain ⟨⟨u, f⟩, hread, h⟩ := Option.bind_eq_some_iff.1 h
        cases h
        rw [if_neg hclose, hgap]
        simp [Nat.lt_of_lt_of_le hlt hsize, hread]
      · cases h

theorem quotedScalar?_spells {single : Bool} {a s t : List Char} {c : Char} {p e : Place}
    (ha : Spells single a c) (hp : p.rest = a ++ s) (hmark : p.atDocumentMark = false)
    (h : quotedScalar? single (p.skip a.length) = some (t, e)) :
    quotedScalar? single p = some (c :: t, e) := by
  have hrest : (p.skip a.length).rest = s := by simp [hp]
  rw [quotedScalar?_eq] at h ⊢
  rw [hmark]
  split at h
  · cases h
  · obtain ⟨⟨w, n⟩, hword, hafter⟩ := Option.bind_eq_some_iff.1 h
    rw [hrest] at hword hafter
    have hsize : s.length ≤ p.rest.length := by simp [hp]
    have hcons := quotedRest?_cons hsize hafter c
    rw [hp, ha, hword]
    simpa [hp, Nat.add_comm] using hcons

/-- A character that is no white space is read as itself. -/
theorem spells_single {c : Char} (hblank : isBlank c = false) (hbreak : isBreak c = false)
    (hquote : c ≠ '\'') : Spells true [c] c := by
  intro s
  have hword : singleWord? (c :: s) = (singleWord? s).map fun x => (c :: x.1, x.2 + 1) := by
    rw [singleWord?]
    · simp [hblank, hbreak, hquote]
    · simp [hquote]
  simpa [quotedWord?] using hword

theorem spells_quote : Spells true ['\'', '\''] '\'' := by
  intro s
  simp [quotedWord?, singleWord?]

theorem spells_direct {c : Char} (h : IsDirect c) (hc : c ≠ ' ') : Spells false [c] c := by
  obtain ⟨hprint, hbreak, hquote, hslash⟩ := h
  have hblank := isBlank_eq_false_of_ne hprint hc
  intro s
  simp [quotedWord?, doubleWord?, hblank, hbreak, hquote, hslash]

theorem spells_escape {c : Char} (h : ¬IsDirect c) : Spells false (escapeDouble c) c := by
  obtain ⟨e, hescape, hbreak, hne, hread⟩ := escape?_escapeDouble h
  intro s
  have hhead : (e ++ s).head?.any isBreak = false := by
    obtain ⟨d, e, rfl⟩ := List.exists_cons_of_ne_nil hne
    simpa using hbreak d rfl
  have hword : doubleWord? ('\\' :: (e ++ s)) =
      (doubleWord? s).bind fun x => some (c :: x.1, x.2 + e.length + 1) := by
    rw [doubleWord?, hhead, hread]
    simp [isBlank, isBreak]
  simp only [quotedWord?, Bool.false_eq_true, if_false, hescape, List.cons_append, hword]
  cases doubleWord? s <;> simp [Nat.add_assoc]

/-- White space in front of a word. -/
theorem quotedScalar?_gap {single : Bool} {c : Char} {s : List Char} {g : Gap} {p r : Place}
    (hp : p.rest = c :: s) (hc : isBlank c = true ∨ isBreak c = true)
    (hgap : p.gap? 0 = some (g, r)) (hlength : r.rest.length ≤ s.length) :
    quotedScalar? single p =
      (quotedScalar? single r).map fun x => (g.folded ++ x.1, x.2) := by
  have hne : c ≠ '-' ∧ c ≠ '.' ∧ c ≠ '\\' ∧ c ≠ '\'' ∧ c ≠ '"' := by
    refine ⟨?_, ?_, ?_, ?_, ?_⟩ <;>
    · rintro rfl
      simp [isBlank, isBreak] at hc
  have hmark : p.atDocumentMark = false := by
    unfold Place.atDocumentMark
    split
    · simp_all
    · simp
  have hword : quotedWord? single p.rest = some ([], 0) := by
    rw [hp]
    cases single
    · simp [quotedWord?, doubleWord?, hc]
    · simp only [quotedWord?, if_true]
      rw [singleWord?]
      · rcases hc with hc | hc <;> simp [hc]
      · intro s hquote
        exact absurd hquote hne.2.2.2.1
  have hclose : ¬(c == quoteOf single) = true := by
    rw [beq_iff_eq]
    cases single
    · exact hne.2.2.2.2
    · exact hne.2.2.2.1
  have hfold : quotedGap? c p = some (g.folded, r) := by simp [quotedGap?, hne, hgap]
  have hafter : quotedRest? single (s.length + 1) [] p =
      (quotedScalar? single r).bind fun x => some (g.folded ++ x.1, x.2) := by
    unfold quotedRest?
    rw [hp]
    show (if c == quoteOf single then _ else (quotedGap? c p).bind _) = _
    rw [if_neg hclose, hfold]
    exact if_pos (Nat.lt_succ_of_le hlength)
  rw [quotedScalar?_eq, hmark, hword, hp]
  show quotedRest? single (s.length + 1) [] p = _
  rw [hafter]
  cases quotedScalar? single r <;> rfl

theorem quotedScalar?_spaces {single : Bool} {n : Nat} {s : List Char} {p : Place}
    (hp : p.rest = spaces (n + 1) ++ s) (hs : StartsSolid s) :
    quotedScalar? single p =
      (quotedScalar? single (p.skip (n + 1))).map fun x => (spaces (n + 1) ++ x.1, x.2) := by
  have hrest : p.rest = ' ' :: (spaces n ++ s) := by simp [hp, spaces, List.replicate_succ]
  have hlength : (p.skip (n + 1)).rest.length ≤ (spaces n ++ s).length := by simp [hrest]
  exact quotedScalar?_gap hrest (.inl rfl) (Place.gap?_spaces hp hs 0) hlength

/-- A space in front of other spaces or of a word. -/
theorem quotedScalar?_space {single : Bool} {n : Nat} {s t : List Char} {p e : Place}
    (hp : p.rest = ' ' :: (spaces n ++ s)) (hs : StartsSolid s)
    (h : quotedScalar? single (p.skip 1) = some (t, e)) :
    quotedScalar? single p = some (' ' :: t, e) := by
  have hrest : p.rest = spaces (n + 1) ++ s := by simp [hp, spaces, List.replicate_succ]
  rw [quotedScalar?_spaces hrest hs]
  cases n with
  | zero => simpa [spaces] using h
  | succ n =>
    have hnext : (p.skip 1).rest = spaces (n + 1) ++ s := by simp [hp]
    rw [quotedScalar?_spaces hnext hs, Place.skip_skip] at h
    obtain ⟨⟨u, f⟩, hread, h⟩ := Option.map_eq_some_iff.1 h
    cases h
    rw [Nat.add_comm 1] at hread
    simp [hread, spaces, List.replicate_succ]

/-- The closing quote. -/
theorem quotedScalar?_close {single : Bool} {s : List Char} {p : Place}
    (hp : p.rest = quoteOf single :: s) (hs : s.head? ≠ some '\'') (hcolumn : p.column ≠ 0) :
    quotedScalar? single p = some ([], p.skip 1) := by
  have hword : quotedWord? single p.rest = some ([], 0) := by
    rw [hp]
    cases single
    · simp [quotedWord?, doubleWord?, quoteOf]
    · simp only [quotedWord?, if_true, quoteOf]
      rw [singleWord?]
      · simp
      · rintro t - rfl
        exact hs rfl
  rw [quotedScalar?_eq, Place.atDocumentMark_of_column_ne hcolumn, hword]
  simp [quotedRest?, hp]

/-! ## Strings between double quotes -/

theorem exists_spaces_escapes (s rest : List Char) :
    ∃ n r, s.flatMap escapeDouble ++ '"' :: rest = spaces n ++ r ∧ StartsSolid r := by
  induction s with
  | nil => exact ⟨0, _, rfl, by simp [StartsSolid, isBlank, isBreak]⟩
  | cons c s ih =>
    by_cases hc : c = ' '
    · obtain ⟨n, r, hn, hr⟩ := ih
      subst hc
      refine ⟨n + 1, r, ?_, hr⟩
      have hspace : escapeDouble ' ' = [' '] := rfl
      simp [hspace, hn, spaces, List.replicate_succ]
    · refine ⟨0, _, rfl, ?_⟩
      by_cases hdirect : IsDirect c
      · have hblank := isBlank_eq_false_of_ne hdirect.1 hc
        simp [StartsSolid, escapeDouble_of_isDirect hdirect, hblank, hdirect.2.1]
      · obtain ⟨e, he, -⟩ := escape?_escapeDouble hdirect
        simp [StartsSolid, he, isBlank, isBreak]

/-- A string between double quotes is read up to the closing quote. -/
theorem quotedScalar?_double {s rest : List Char} {p : Place}
    (hp : p.rest = s.flatMap escapeDouble ++ '"' :: rest) (hrest : rest.head? ≠ some '\'')
    (hcolumn : p.column ≠ 0) :
    quotedScalar? false p = some (s, p.skip ((s.flatMap escapeDouble).length + 1)) := by
  induction s generalizing p with
  | nil => exact quotedScalar?_close hp hrest hcolumn
  | cons c s ih =>
    rw [List.flatMap_cons, List.append_assoc] at hp
    have hnext := ih (p := p.skip (escapeDouble c).length) (by simp [hp]) (by simp; omega)
    rw [Place.skip_skip] at hnext
    rw [List.flatMap_cons, List.length_append, Nat.add_assoc]
    by_cases hc : c = ' '
    · subst hc
      obtain ⟨n, r, hn, hr⟩ := exists_spaces_escapes s rest
      exact quotedScalar?_space (hp.trans (congrArg _ hn)) hr hnext
    · refine quotedScalar?_spells ?_ hp (Place.atDocumentMark_of_column_ne hcolumn) hnext
      by_cases hdirect : IsDirect c
      · rw [escapeDouble_of_isDirect hdirect]
        exact spells_direct hdirect hc
      · exact spells_escape hdirect

/-! ## Strings between single quotes -/

/-- What may stand between single quotes: characters that are written as they are, no line feeds,
and no space next to a break. -/
structure IsSingle (s : List Char) : Prop where
  printable : ∀ c ∈ s, isPrintable c = true ∧ c ≠ '\n'
  noSpaceBreak : hasSpaceBreak s = false
  noBreakSpace : hasBreakSpace s = false

theorem IsSingle.tail {c : Char} {s : List Char} (h : IsSingle (c :: s)) : IsSingle s where
  printable d hd := h.printable d (List.mem_cons_of_mem _ hd)
  noSpaceBreak := by
    have := h.noSpaceBreak
    cases s <;> simp_all [hasSpaceBreak]
  noBreakSpace := by
    have := h.noBreakSpace
    cases s <;> simp_all [hasBreakSpace]

theorem exists_spaces_singleBody {n : Nat} {s : List Char} (h : IsSingle (' ' :: s))
    (rest : List Char) : ∃ m r, singleBody n false s ++ '\'' :: rest = spaces m ++ r ∧ StartsSolid r := by
  induction s with
  | nil => exact ⟨0, _, rfl, by simp [StartsSolid, isBlank, isBreak]⟩
  | cons c s ih =>
    by_cases hc : c = ' '
    · subst hc
      obtain ⟨m, r, hm, hr⟩ := ih h.tail
      refine ⟨m + 1, r, ?_, hr⟩
      have hbreak : isBreak ' ' = false := rfl
      simp [singleBody, hbreak, hm, spaces, List.replicate_succ]
    · have hprint := h.tail.printable c List.mem_cons_self
      have hbreak : isBreak c = false := by
        have := h.noSpaceBreak
        simp_all [hasSpaceBreak]
      have hblank := isBlank_eq_false_of_ne hprint.1 hc
      refine ⟨0, _, rfl, ?_⟩
      by_cases hquote : c = '\''
      · simp [singleBody, hquote, StartsSolid, isBlank, isBreak]
      · simp [singleBody, hbreak, hquote, StartsSolid, hblank]

/-- Where the scan ends that reads `s` from `p` on: after the closing quote, and on the same line if
there are no breaks in `s`. -/
structure SingleEnd (n : Nat) (rest s : List Char) (p e : Place) : Prop where
  rest_eq : e.rest = rest
  line_le : p.line ≤ e.line
  eq_skip : hasBreak s = false → e = p.skip ((singleBody n false s).length + 1)

/-- The string `s` is read inside the quotes, at its start or on the line of a character of it. -/
def ReadsInside (n : Nat) (rest s : List Char) : Prop :=
  ∀ p : Place, p.rest = singleBody n false s ++ '\'' :: rest → p.column ≠ 0 →
    (hasBreak s = true → 0 < n) →
      ∃ e, quotedScalar? true p = some (s, e) ∧ SingleEnd n rest s p e

/-- The string `s` is read after a break: first the breaks it starts with, then the rest. -/
def ReadsAfterBreak (n : Nat) (rest s : List Char) : Prop :=
  ∀ p : Place, p.rest = singleBody n true s ++ '\'' :: rest → p.column = 0 →
    ∃ bs r t e, p.breaksAfter? 0 = some (bs, r) ∧ r.rest.length ≤ p.rest.length ∧
      quotedScalar? true r = some (t, e) ∧ s = bs ++ t ∧ e.rest = rest ∧ p.line ≤ e.line

/-- A break in front of more breaks, or of the rest of the string. -/
theorem exists_of_readsAfterBreak {n : Nat} {rest s : List Char} {c : Char} (hs : IsSingle (c :: s))
    (hc : isBreak c = true) (h : ReadsAfterBreak n rest s) {p : Place}
    (hp : p.rest = c :: (singleBody n true s ++ '\'' :: rest)) :
    ∃ bs r t e, p.breaksAfter? 0 = some (c :: bs, r) ∧
      r.rest.length ≤ (singleBody n true s ++ '\'' :: rest).length ∧
      quotedScalar? true r = some (t, e) ∧ s = bs ++ t ∧ e.rest = rest ∧ p.line ≤ e.line := by
  have hvalue := breakValue_of_isPrintable (hs.printable c List.mem_cons_self).1 hc
  obtain ⟨bs, r, t, e, hbreaks, hlength, hread, hst, hrest, hline⟩ :=
    h ⟨singleBody n true s ++ '\'' :: rest, p.line + 1, 0, p.index + 1⟩ rfl rfl
  refine ⟨bs, r, t, e, ?_, hlength, hread, hst, hrest, Nat.le_of_succ_le hline⟩
  rw [Place.breaksAfter?_break hp hc hvalue.2, hbreaks, hvalue.1]
  rfl

theorem readsInside_break {n : Nat} {rest s : List Char} {c : Char} (hs : IsSingle (c :: s))
    (hc : isBreak c = true) (h : 0 < n → ReadsAfterBreak n rest s) :
    ReadsInside n rest (c :: s) := by
  intro p hp _ hn
  have hpos : 0 < n := hn (by simp [hasBreak, hc])
  have hp : p.rest = c :: (singleBody n true s ++ '\'' :: rest) := by simp [hp, singleBody, hc]
  obtain ⟨bs, r, t, e, hbreaks, hlength, hread, hst, hrest, hline⟩ :=
    exists_of_readsAfterBreak hs hc (h hpos) hp
  have hgap : p.gap? 0 = some ({ breaks := c :: bs }, r) := by
    rw [Place.gap?_break hp hc, hbreaks]
    rfl
  have hfold : Gap.folded { breaks := c :: bs } = c :: bs := by
    have hfeed := (hs.printable c List.mem_cons_self).2
    cases bs <;> simp [Gap.folded, hfeed]
  refine ⟨e, ?_, hrest, hline, fun hno => ?_⟩
  · rw [quotedScalar?_gap hp (.inr hc) hgap hlength, hread, hfold, hst]
    rfl
  · simp [hasBreak, hc] at hno

/-- How a character is written that is no break, and what it does in front of a text. -/
theorem exists_singleBody_cons {n : Nat} {s : List Char} {c : Char} (hs : IsSingle (c :: s))
    (hc : isBreak c = false) :
    ∃ a, singleBody n false (c :: s) = a ++ singleBody n false s ∧
      (a = [' '] ∧ c = ' ' ∨ Spells true a c) := by
  by_cases hquote : c = '\''
  · subst hquote
    exact ⟨['\'', '\''], by simp [singleBody, isBreak], .inr spells_quote⟩
  · refine ⟨[c], by simp [singleBody, hc, hquote], ?_⟩
    by_cases hspace : c = ' '
    · exact .inl ⟨by rw [hspace], hspace⟩
    · have hblank := isBlank_eq_false_of_ne (hs.printable c List.mem_cons_self).1 hspace
      exact .inr (spells_single hblank hc hquote)

theorem readsInside_cons {n : Nat} {rest s : List Char} {c : Char} (hs : IsSingle (c :: s))
    (hc : isBreak c = false) (h : ReadsInside n rest s) : ReadsInside n rest (c :: s) := by
  intro p hp hcolumn hn
  have hbreak : hasBreak (c :: s) = hasBreak s := by simp [hasBreak, hc]
  rw [hbreak] at hn
  obtain ⟨a, hbody, ha⟩ := exists_singleBody_cons (n := n) hs hc
  rw [hbody, List.append_assoc] at hp
  obtain ⟨e, hread, hend⟩ := h (p.skip a.length) (by simp [hp]) (by simp; omega) hn
  refine ⟨e, ?_, hend.rest_eq, hend.line_le, fun hno => ?_⟩
  · rcases ha with ⟨rfl, rfl⟩ | ha
    · obtain ⟨m, r, hm, hr⟩ := exists_spaces_singleBody (n := n) hs rest
      exact quotedScalar?_space (hp.trans (congrArg _ hm)) hr hread
    · exact quotedScalar?_spells ha hp (Place.atDocumentMark_of_column_ne hcolumn) hread
  · rw [hend.eq_skip (hbreak ▸ hno), hbody, Place.skip_skip, List.length_append, Nat.add_assoc]

theorem readsAfterBreak_break {n : Nat} {rest s : List Char} {c : Char} (hs : IsSingle (c :: s))
    (hc : isBreak c = true) (h : ReadsAfterBreak n rest s) : ReadsAfterBreak n rest (c :: s) := by
  intro p hp _
  have hp : p.rest = c :: (singleBody n true s ++ '\'' :: rest) := by simp [hp, singleBody, hc]
  obtain ⟨bs, r, t, e, hbreaks, hlength, hread, hst, hend⟩ := exists_of_readsAfterBreak hs hc h hp
  refine ⟨c :: bs, r, t, e, hbreaks, ?_, hread, by rw [hst, List.cons_append], hend⟩
  rw [hp, List.length_cons]
  omega

/-- After a break the rest of the string is indented, unless another break follows. -/
theorem readsAfterBreak_of_readsInside {n : Nat} {rest s : List Char} (hs : IsSingle s)
    (hhead : ∀ c ∈ s.head?, isBreak c = false ∧ c ≠ ' ') (hn : 0 < n) (h : ReadsInside n rest s) :
    ReadsAfterBreak n rest s := by
  intro p hp hcolumn
  have hbody : singleBody n true s = spaces n ++ singleBody n false s := by
    cases s with
    | nil => simp [singleBody]
    | cons c s => simp [singleBody, hhead c rfl]
  have hsolid : StartsSolid (singleBody n false s ++ '\'' :: rest) := by
    cases s with
    | nil => simp [singleBody, StartsSolid, isBlank, isBreak]
    | cons c s =>
      obtain ⟨hbreak, hspace⟩ := hhead c rfl
      have hblank := isBlank_eq_false_of_ne (hs.printable c List.mem_cons_self).1 hspace
      by_cases hquote : c = '\''
      · simp [singleBody, hquote, StartsSolid, isBlank, isBreak]
      · simp [singleBody, hbreak, hquote, StartsSolid, hblank]
  rw [hbody, List.append_assoc] at hp
  obtain ⟨e, hread, hend⟩ := h (p.skip n) (by simp [hp]) (by simp; omega) (fun _ => hn)
  exact ⟨[], p.skip n, s, e, Place.breaksAfter?_spaces hp hsolid 0, by simp, hread, rfl,
    hend.rest_eq, hend.line_le⟩

theorem readsInside_and_readsAfterBreak {n : Nat} {rest s : List Char} (hs : IsSingle s)
    (hrest : rest.head? ≠ some '\'') :
    ReadsInside n rest s ∧ (0 < n → s.head? ≠ some ' ' → ReadsAfterBreak n rest s) := by
  induction s with
  | nil =>
    have hinside : ReadsInside n rest [] := by
      intro p hp hcolumn _
      refine ⟨_, quotedScalar?_close hp hrest hcolumn, ?_, by simp, fun _ => rfl⟩
      simp [hp, singleBody]
    exact ⟨hinside, fun hn _ => readsAfterBreak_of_readsInside hs (by simp) hn hinside⟩
  | cons c s ih =>
    obtain ⟨hinside, hafter⟩ := ih hs.tail
    by_cases hc : isBreak c = true
    · have hhead : s.head? ≠ some ' ' := by
        have := hs.noBreakSpace
        cases s <;> simp_all [hasBreakSpace]
      refine ⟨readsInside_break hs hc fun hn => hafter hn hhead, fun hn _ => ?_⟩
      exact readsAfterBreak_break hs hc (hafter hn hhead)
    · have hc : isBreak c = false := by simpa using hc
      have hinside := readsInside_cons hs hc hinside
      refine ⟨hinside, fun hn hhead => readsAfterBreak_of_readsInside hs ?_ hn hinside⟩
      rintro _ ⟨⟩
      exact ⟨hc, by simpa using hhead⟩

/-- A string between single quotes is read up to the closing quote. -/
theorem quotedScalar?_single {n : Nat} {s rest : List Char} {p : Place} (hs : IsSingle s)
    (hp : p.rest = singleBody n false s ++ '\'' :: rest) (hrest : rest.head? ≠ some '\'')
    (hcolumn : p.column ≠ 0) (hn : hasBreak s = true → 0 < n) :
    ∃ e, quotedScalar? true p = some (s, e) ∧ SingleEnd n rest s p e :=
  (readsInside_and_readsAfterBreak hs hrest).1 p hp hcolumn hn

end RouteDocs.Yaml
