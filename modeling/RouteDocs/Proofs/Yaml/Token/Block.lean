import RouteDocs.Proofs.Yaml.Place
import RouteDocs.Yaml.Token.Block

/-!
# Literal block scalars read back

## Main definitions

* `chompOf`: what the header of a literal block says about the breaks at its end.
* `Chomp.Fits`: whether that is right for a string.

## Main statements

* `blockScalar?_literal`: a string is read back from the literal block it is written as.
-/

namespace RouteDocs.Yaml

open Text (isBlank)

/-! ## The header -/

/-- What the chomping indicator of a string says. -/
def chompOf (s : List Char) : Chomp :=
  match chompingHint s with
  | ['+'] => .keep
  | ['-'] => .strip
  | _ => .clip

/-- The indentation that the header of a string says, zero if it says nothing. -/
def hintOf (s : List Char) : Nat := if s.head?.any (fun c => c == ' ' || isBreak c) then 2 else 0

theorem chompingHint_cases (s : List Char) :
    chompingHint s = ['-'] ∨ chompingHint s = ['+'] ∨ chompingHint s = [] := by
  unfold chompingHint
  split
  · exact .inl rfl
  · split <;> simp
  · split
    · exact .inl rfl
    · split <;> simp

/-- The header is read up to the start of the next line. -/
theorem blockHeader?_hints {s r : List Char} {p : Place}
    (hp : p.rest = indentationHint s ++ (chompingHint s ++ '\n' :: r)) :
    ∃ q, blockHeader? p = some (⟨chompOf s, hintOf s⟩, q) ∧ q.rest = r ∧ q.column = 0 := by
  obtain ⟨rest, line, column, index⟩ := p
  obtain rfl : rest = _ := hp
  unfold indentationHint hintOf chompOf
  split <;> rcases chompingHint_cases s with hchomp | hchomp | hchomp <;> rw [hchomp] <;>
    exact ⟨_, rfl, rfl, rfl⟩

/-! ## Breaks between lines -/

/-- The lines of `s` are over, and the text goes on at column `k`; or the next line starts at column
`n`. -/
def AtLine (n k : Nat) (r s : List Char) (p : Place) : Prop :=
  match s with
  | [] => p.rest = r ∧ p.column = k
  | c :: _ =>
    isBreak c = false ∧ p.column = n ∧ p.rest = literalBody n false s ++ (spaces k ++ r)

theorem takeWhile_take_spaces {m n : Nat} {t : List Char} (hm : m ≤ n)
    (ht : m = n ∨ t.head? ≠ some ' ') :
    ((spaces m ++ t).take n).takeWhile (· == ' ') = spaces m := by
  have htake : (spaces m ++ t).take n = spaces m ++ t.take (n - m) := by
    rw [List.take_append, length_spaces, List.take_of_length_le (by simpa using hm)]
  rw [htake]
  apply Text.takeWhile_append_of_all (fun c hc => by simp [eq_space_of_mem_spaces hc])
  intro c hc
  rcases ht with rfl | ht
  · simp at hc
  · have hc : c ∈ t.head? := by
      cases t with
      | nil => simp at hc
      | cons d t =>
        cases hn : n - m with
        | zero => simp [hn] at hc
        | succ j => simpa [hn] using hc
    simp only [beq_eq_false_iff_ne, ne_eq]
    rintro rfl
    exact ht hc

/-- Spaces in front of a line or of the next token. -/
theorem blockBreaks?_of_room {m n : Nat} {t : List Char} {p : Place} (hcolumn : p.column = 0)
    (hp : p.rest = spaces m ++ t)
    (hroom : (p.rest.take (if n = 0 then p.rest.length else n)).takeWhile (· == ' ') = spaces m)
    (htab : 0 < n ∧ m = n ∨ t.head? ≠ some '\t') (hbreak : ∀ c ∈ t.head?, isBreak c = false)
    (widest : Nat) : blockBreaks? n widest p = some ([], max widest m, p.skip m) := by
  have hnotTab : ¬((n = 0 ∨ m < n) ∧ t.head? = some '\t') := by
    rintro ⟨hlt, hhead⟩
    rcases htab with hfull | htab
    · omega
    · exact htab hhead
  have hrest : (p.skip m).rest = t := by simp [hp]
  have hnoBreak : (p.skip m).takeBreak? = none := by
    rw [Place.takeBreak?, hrest]
    cases t with
    | nil => rfl
    | cons c t => simp [hbreak c rfl]
  rw [blockBreaks?]
  simp only [hcolumn, Nat.sub_zero, hroom, length_spaces, hnoBreak]
  simp [hcolumn, hp, hnotTab]

/-- The indentation of a line, or what there is of it in front of the next token. -/
theorem blockBreaks?_spaces {m n : Nat} {t : List Char} {p : Place} (hcolumn : p.column = 0)
    (hp : p.rest = spaces m ++ t) (hn : 0 < n) (hm : m ≤ n) (hspace : m = n ∨ t.head? ≠ some ' ')
    (htab : m = n ∨ t.head? ≠ some '\t') (hbreak : ∀ c ∈ t.head?, isBreak c = false)
    (widest : Nat) : blockBreaks? n widest p = some ([], max widest m, p.skip m) := by
  refine blockBreaks?_of_room hcolumn hp ?_ (htab.imp_left fun h => ⟨hn, h⟩) hbreak widest
  rw [if_neg (by omega), hp, takeWhile_take_spaces hm hspace]

/-- Without an indicator the indentation is found out from the first line. -/
theorem blockBreaks?_detect {m : Nat} {t : List Char} {p : Place} (hcolumn : p.column = 0)
    (hp : p.rest = spaces m ++ t) (hsolid : StartsSolid t) :
    blockBreaks? 0 0 p = some ([], m, p.skip m) := by
  have hspace : t.head? ≠ some ' ' ∧ t.head? ≠ some '\t' := by
    refine ⟨fun h => ?_, fun h => ?_⟩
    · cases (hsolid _ h).1
    · cases (hsolid _ h).1
  have hroom : (p.rest.take (if 0 = 0 then p.rest.length else 0)).takeWhile (· == ' ') =
      spaces m := by
    rw [if_pos rfl, hp]
    exact takeWhile_take_spaces (by simp) (.inr hspace.1)
  rw [blockBreaks?_of_room hcolumn hp hroom (.inr hspace.2) (fun c hc => (hsolid c hc).2),
    Nat.zero_max]

/-- A break in front of the next line. -/
theorem blockBreaks?_break {n : Nat} {c : Char} {t : List Char} {p : Place} (hcolumn : p.column = 0)
    (hp : p.rest = c :: t) (hc : isBreak c = true) (hprint : isPrintable c = true) (widest : Nat) :
    blockBreaks? n widest p =
      (blockBreaks? n widest ⟨t, p.line + 1, 0, p.index + 1⟩).map
        fun x => (c :: x.1, x.2.1, x.2.2) := by
  have hspace : c ≠ ' ' ∧ c ≠ '\t' := by
    refine ⟨?_, ?_⟩ <;>
    · rintro rfl
      cases hc
  have hroom : ∀ m, (p.rest.take m).takeWhile (· == ' ') = [] := by
    intro m
    cases m <;> simp [hp, hspace.1]
  obtain ⟨hvalue, hreturn⟩ := breakValue_of_isPrintable hprint hc
  have htake : p.takeBreak? = some (c, ⟨t, p.line + 1, 0, p.index + 1⟩) := by
    simp [Place.takeBreak?, hp, hc, hvalue, Place.nextLine_of_ne hp hreturn]
  have hhead : p.rest.head? ≠ some '\t' := by simp [hp, hspace.2]
  have hlength : t.length < p.rest.length := by simp [hp]
  rw [blockBreaks?]
  simp only [hroom, List.length_nil, Place.skip_zero, htake, hcolumn, Nat.max_zero]
  simp [hhead, hlength]

/-- The text `r` may stand at column `k` behind lines at column `n`: further left what comes next,
and at that column one more line. -/
structure StartsLine (n k : Nat) (r : List Char) : Prop where
  le : k ≤ n
  blank : k = n ∨ ∀ c ∈ r.head?, isBlank c = false
  noBreak : ∀ c ∈ r.head?, isBreak c = false

theorem StartsSolid.startsLine {n k : Nat} {r : List Char} (h : StartsSolid r) (hk : k < n) :
    StartsLine n k r :=
  ⟨Nat.le_of_lt hk, .inr fun c hc => (h c hc).1, fun c hc => (h c hc).2⟩

/-- The breaks in front of the next line are read, and its indentation. -/
theorem exists_blockBreaks? {n k : Nat} {r s : List Char} (hn : 0 < n) (hr : StartsLine n k r)
    (hs : ∀ c ∈ s, isPrintable c = true) (widest : Nat) {p : Place} (hcolumn : p.column = 0)
    (hp : p.rest = literalBody n true s ++ (spaces k ++ r)) :
    ∃ bs s' w q, s = bs ++ s' ∧ (∀ b ∈ bs, isBreak b = true) ∧
      blockBreaks? n widest p = some (bs, w, q) ∧ q.rest.length ≤ p.rest.length ∧
      AtLine n k r s' q := by
  induction s generalizing p widest with
  | nil =>
    have hp : p.rest = spaces k ++ r := by simpa [literalBody] using hp
    have hspace : k = n ∨ r.head? ≠ some ' ' :=
      hr.blank.imp_right fun h hhead => by cases h _ hhead
    have htab : k = n ∨ r.head? ≠ some '\t' :=
      hr.blank.imp_right fun h hhead => by cases h _ hhead
    have hread := blockBreaks?_spaces hcolumn hp hn hr.le hspace htab hr.noBreak widest
    exact ⟨[], [], _, _, rfl, by simp, hread, by simp, by simp [AtLine, hp, hcolumn]⟩
  | cons c s ih =>
    obtain ⟨hprint, hs⟩ := List.forall_mem_cons.1 hs
    by_cases hc : isBreak c = true
    · have hp : p.rest = c :: (literalBody n true s ++ (spaces k ++ r)) := by
        simp [hp, literalBody, hc]
      obtain ⟨bs, s', w, q, hsplit, hbreaks, hread, hlength, hline⟩ :=
        ih hs widest (p := ⟨_, p.line + 1, 0, p.index + 1⟩) rfl rfl
      refine ⟨c :: bs, s', w, q, by rw [hsplit, List.cons_append],
        List.forall_mem_cons.2 ⟨hc, hbreaks⟩, ?_, ?_, hline⟩
      · rw [blockBreaks?_break hcolumn hp hc hprint, hread]
        rfl
      · rw [hp, List.length_cons]
        exact Nat.le_succ_of_le hlength
    · have hc : isBreak c = false := by simpa using hc
      have hp : p.rest = spaces n ++ (literalBody n false (c :: s) ++ (spaces k ++ r)) := by
        simp [hp, literalBody, hc]
      have hbreak : ∀ d ∈ (literalBody n false (c :: s) ++ (spaces k ++ r)).head?,
          isBreak d = false := by
        intro d hd
        simp only [literalBody, hc] at hd
        cases hd
        exact hc
      have hread := blockBreaks?_spaces hcolumn hp hn (Nat.le_refl n) (.inl rfl) (.inl rfl) hbreak
        widest
      refine ⟨[], c :: s, _, _, rfl, by simp, hread, by simp, hc, ?_, ?_⟩
      · simp [hcolumn]
      · simp [hp]

/-! ## Lines -/

/-- The breaks at the end of a string, given last character first, are those that the chomping
indicator leaves: none, one after another character, or any number. -/
def Chomp.Fits : Chomp → List Char → Prop
  | .strip, c :: _ => isBreak c = false
  | .strip, [] => True
  | .clip, b :: c :: _ => isBreak b = true ∧ isBreak c = false
  | .clip, _ => False
  | .keep, b :: _ => isBreak b = true
  | .keep, [] => False

theorem fits_chompOf (s : List Char) : (chompOf s).Fits s.reverse := by
  unfold chompOf chompingHint
  cases s.reverse with
  | nil => simp [Chomp.Fits]
  | cons c t =>
    cases t with
    | nil => cases hc : isBreak c <;> simp [Chomp.Fits, hc]
    | cons d t => cases hc : isBreak c <;> cases hd : isBreak d <;> simp [Chomp.Fits, hc, hd]

/-- Only the end of the string counts, from the start of its last line on. -/
theorem Chomp.Fits.suffix {chomp : Chomp} {s x : List Char} {c : Char} (hc : isBreak c = false)
    (h : chomp.Fits (s ++ c :: x)) : chomp.Fits (s ++ [c]) := by
  cases s with
  | nil => cases chomp <;> cases x <;> simp_all [Fits]
  | cons d s => cases s <;> cases chomp <;> simp_all [Fits]

/-- If there are no breaks, none are left. -/
theorem Chomp.Fits.noBreaks {chomp : Chomp} {s : List Char} (hs : ∀ c ∈ s, isBreak c = false)
    (h : chomp.Fits s) : chomp = .strip := by
  cases s with
  | nil => cases chomp <;> simp_all [Fits]
  | cons c s => cases s <;> cases chomp <;> simp_all [Fits]

/-- If the last line ends with a break, breaks are left. -/
theorem Chomp.Fits.breaks {chomp : Chomp} {bs x : List Char} {b : Char} (hb : isBreak b = true)
    (hbs : ∀ d ∈ bs, isBreak d = true) (h : chomp.Fits (bs ++ b :: x)) :
    chomp = .keep ∨ (chomp = .clip ∧ bs = []) := by
  cases bs with
  | nil => cases chomp <;> simp_all [Fits]
  | cons d s => cases s <;> cases chomp <;> simp_all [Fits]

theorem blockLines?_line {chomp : Chomp} {n : Nat} {lead breaks line t : List Char} {b : Char}
    {above : Bool} {p : Place} (hcolumn : p.column = n) (hp : p.rest = line ++ b :: t)
    (hline : ∀ c ∈ line, isBreak c = false) (hb : isBreak b = true) (hprint : isPrintable b = true) :
    blockLines? false chomp n lead breaks above p =
      (blockBreaks? n 0 ⟨t, p.line + 1, 0, p.index + line.length + 1⟩).bind fun x =>
        if x.2.2.rest.length < p.rest.length then
          (blockLines? false chomp n [b] x.1 (p.rest.head?.any isBlank) x.2.2).bind fun y =>
            some (lead ++ breaks ++ line ++ y.1, y.2)
        else none := by
  have htake : p.rest.takeWhile (!isBreak ·) = line := by
    rw [hp]
    apply Text.takeWhile_append_of_all (fun c hc => by simp [hline c hc])
    rintro _ ⟨⟩
    simp [hb]
  have hrest : (p.skip line.length).rest = b :: t := by simp [hp]
  obtain ⟨hvalue, hreturn⟩ := breakValue_of_isPrintable hprint hb
  have hbreak : (p.skip line.length).takeBreak? =
      some (b, ⟨t, p.line + 1, 0, p.index + line.length + 1⟩) := by
    rw [Place.takeBreak?, Place.nextLine_of_ne hrest hreturn, hrest]
    simp [hb, hvalue]
  have hne : p.rest.isEmpty = false := by simp [hp]
  rw [blockLines?.eq_def]
  simp only [hcolumn, hne, htake, hbreak]
  simp [joinLines]

/-- What the scalar ends with, when its lines are over. -/
theorem blockLines?_end {chomp : Chomp} {n : Nat} {lead breaks : List Char} {above : Bool}
    {p : Place} (hcolumn : p.column ≠ n) :
    blockLines? false chomp n lead breaks above p =
      some (match chomp with | .strip => [] | .clip => lead | .keep => lead ++ breaks, p) := by
  rw [blockLines?.eq_def]
  cases chomp <;> simp [hcolumn]

/-- A string that does not start with a break is a line and what comes after its break. Without a
break it is ended by a line feed. -/
theorem exists_line (n : Nat) {s : List Char} (hs : ∀ c ∈ s, isPrintable c = true) :
    ∃ line b u, literalBody n false s = line ++ b :: literalBody n true u ∧
      (∀ c ∈ line, isBreak c = false) ∧ isBreak b = true ∧ isPrintable b = true ∧
      (∀ c ∈ u, isPrintable c = true) ∧ (s = line ∧ u = [] ∨ s = line ++ b :: u) := by
  induction s with
  | nil => exact ⟨[], '\n', [], rfl, by simp, rfl, rfl, by simp, .inl ⟨rfl, rfl⟩⟩
  | cons c s ih =>
    obtain ⟨hprint, hs⟩ := List.forall_mem_cons.1 hs
    by_cases hc : isBreak c = true
    · exact ⟨[], c, s, by simp [literalBody, hc], by simp, hc, hprint, hs, .inr rfl⟩
    · have hc : isBreak c = false := by simpa using hc
      obtain ⟨line, b, u, hbody, hline, hb, hprintb, hu, hsplit⟩ := ih hs
      refine ⟨c :: line, b, u, by simp [literalBody, hc, hbody],
        List.forall_mem_cons.2 ⟨hc, hline⟩, hb, hprintb, hu, ?_⟩
      rcases hsplit with ⟨rfl, rfl⟩ | rfl
      · exact .inl ⟨rfl, rfl⟩
      · exact .inr rfl

theorem exists_blockLines? {n k : Nat} {r : List Char} {chomp : Chomp} (hr : StartsSolid r)
    (hk : k < n) {s lead breaks : List Char} {above : Bool} {p : Place}
    (hs : ∀ c ∈ s, isPrintable c = true) (hne : s ≠ []) (hfits : chomp.Fits s.reverse)
    (hline : AtLine n k r s p) :
    ∃ e, blockLines? false chomp n lead breaks above p = some (lead ++ breaks ++ s, e) ∧
      e.rest = r ∧ e.column = k := by
  induction hsize : s.length using Nat.strongRecOn generalizing s lead breaks above p with
  | _ size ih =>
    obtain ⟨c, t, rfl⟩ := List.exists_cons_of_ne_nil hne
    obtain ⟨hc, hcolumn, hp⟩ := hline
    obtain ⟨line, b, u, hbody, hsolid, hb, hprint, hu, hsplit⟩ := exists_line n hs
    rw [hbody, List.append_assoc, List.cons_append] at hp
    obtain ⟨bs, s', w, q, rfl, hbs, hread, hlength, hnext⟩ :=
      exists_blockBreaks? (Nat.zero_lt_of_lt hk) (hr.startsLine hk) hu 0
        (p := ⟨_, p.line + 1, 0, p.index + line.length + 1⟩) rfl rfl
    have hshort : q.rest.length < p.rest.length := by
      rw [hp, List.length_append, List.length_cons]
      simp only at hlength
      omega
    rw [blockLines?_line hcolumn hp hsolid hb hprint, hread, Option.bind_some, if_pos hshort]
    cases s' with
    | nil =>
      obtain ⟨hrest, hk'⟩ := hnext
      have hend : q.column ≠ n := by omega
      refine ⟨q, ?_, hrest, hk'⟩
      rw [List.append_nil] at hsplit
      simp only [blockLines?_end hend, Option.bind_some]
      rcases hsplit with ⟨hsplit, rfl⟩ | hsplit <;> rw [hsplit] at hfits ⊢
      · have hstrip : chomp = .strip := hfits.noBreaks fun c hc => hsolid c (List.mem_reverse.1 hc)
        simp [hstrip]
      · have hends : chomp = .keep ∨ (chomp = .clip ∧ bs.reverse = []) :=
          Chomp.Fits.breaks hb (fun d hd => hbs d (List.mem_reverse.1 hd)) (by simpa using hfits)
        rcases hends with rfl | ⟨rfl, hnil⟩
        · simp
        · simp [List.reverse_eq_nil_iff.1 hnil]
    | cons d s' =>
      have hsplit : c :: t = line ++ b :: (bs ++ d :: s') := by
        rcases hsplit with ⟨-, hnil⟩ | hsplit
        · simp at hnil
        · exact hsplit
      have hfits' : chomp.Fits (d :: s').reverse := by
        rw [hsplit] at hfits
        rw [List.reverse_cons]
        exact Chomp.Fits.suffix hnext.1 (by simpa using hfits)
      have hsmall : (d :: s').length < size := by
        rw [← hsize, hsplit]
        simp
        omega
      obtain ⟨e, hlines, hrest, hk'⟩ : ∃ e, blockLines? false chomp n [b] bs
          (p.rest.head?.any isBlank) q = some ([b] ++ bs ++ d :: s', e) ∧ e.rest = r ∧ e.column = k :=
        ih _ hsmall (fun x hx => hu x (List.mem_append_right _ hx)) (by simp) hfits' hnext rfl
      refine ⟨e, ?_, hrest, hk'⟩
      simp [hlines, hsplit]

/-- A string of breaks needs all of them. -/
theorem Chomp.Fits.allBreaks {chomp : Chomp} {s : List Char} (hne : s ≠ [])
    (hs : ∀ c ∈ s, isBreak c = true) (h : chomp.Fits s) : chomp = .keep := by
  cases s with
  | nil => exact absurd rfl hne
  | cons c s => cases s <;> cases chomp <;> simp_all [Fits]

/-- The lines of a string, after the breaks in front of them. -/
theorem exists_blockLines?_append {n k : Nat} {r bs s : List Char} {chomp : Chomp} {p : Place}
    (hr : StartsSolid r) (hk : k < n) (hs : ∀ c ∈ s, isPrintable c = true)
    (hbs : ∀ c ∈ bs, isBreak c = true) (hfits : bs ++ s ≠ [] → chomp.Fits (bs ++ s).reverse)
    (hline : AtLine n k r s p) :
    ∃ e, blockLines? false chomp n [] bs false p = some (bs ++ s, e) ∧
      e.rest = r ∧ e.column = k := by
  cases s with
  | nil =>
    obtain ⟨hrest, hcolumn⟩ := hline
    have hend : p.column ≠ n := by omega
    refine ⟨p, ?_, hrest, hcolumn⟩
    rw [blockLines?_end hend]
    by_cases hne : bs = []
    · subst hne
      cases chomp <;> rfl
    · have hkeep : chomp = .keep := by
        refine (hfits (by simpa using hne)).allBreaks (by simpa using hne) fun c hc => hbs c ?_
        simpa using hc
      simp [hkeep]
  | cons c t =>
    have hfits := hfits (by simp)
    have hlast : chomp.Fits (c :: t).reverse := by
      rw [List.reverse_append, List.reverse_cons, List.append_assoc] at hfits
      rw [List.reverse_cons]
      exact hfits.suffix hline.1
    exact exists_blockLines? hr hk hs (by simp) hlast hline

/-! ## The scalar -/

/-- Lines that start with a word start with their indentation. -/
theorem exists_spaces_atLine {n k : Nat} {w r : List Char} (hleft : w = [] → k = n)
    (hsolid : StartsSolid (w ++ r)) :
    ∃ a, literalBody n true w ++ (spaces k ++ r) = spaces n ++ a ∧ StartsSolid a ∧
      ∀ l : Place, l.column = n → l.rest = a → AtLine n k r w l := by
  cases w with
  | nil =>
    obtain rfl := hleft rfl
    exact ⟨r, by simp [literalBody], hsolid, fun l hcolumn hrest => ⟨hrest, hcolumn⟩⟩
  | cons c t =>
    obtain ⟨hblank, hbreak⟩ := hsolid c rfl
    refine ⟨literalBody n false (c :: t) ++ (spaces k ++ r), ?_, ?_, ?_⟩
    · simp [literalBody, hbreak]
    · simp [StartsSolid, literalBody, hbreak, hblank]
    · exact fun l hcolumn hrest => ⟨hbreak, hcolumn, hrest⟩

/-- Where a block is found to start whose header is that of `s`: with breaks, or with a word. -/
theorem exists_blockScalar? {m k : Nat} {s w r v : List Char} {p : Place} {E : Place → Prop}
    (hr : StartsLine (m + 2) k r) (hw : ∀ c ∈ w, isPrintable c = true)
    (hfirst : hintOf s = 0 → (w = [] → k = m + 2) ∧ StartsSolid (w ++ r))
    (hp : p.rest = indentationHint s ++ (chompingHint s ++ '\n' ::
      (literalBody (m + 2) true w ++ (spaces k ++ r))))
    (hlines : ∀ {bs w' q}, w = bs ++ w' → (∀ b ∈ bs, isBreak b = true) →
      AtLine (m + 2) k r w' q →
        ∃ e, blockLines? false (chompOf s) (m + 2) [] bs false q = some (v, e) ∧ E e) :
    ∃ e, blockScalar? false m p = some (v, e) ∧ E e := by
  obtain ⟨q, hheader, hq, hstart⟩ := blockHeader?_hints hp
  by_cases hhint : hintOf s = 0
  · -- the indentation is found out from the first line
    obtain ⟨hleft, hsolid⟩ := hfirst hhint
    obtain ⟨a, ha, hword, hline⟩ := exists_spaces_atLine hleft hsolid
    rw [ha] at hq
    have hread := blockBreaks?_detect hstart hq hword
    obtain ⟨e, hscalar, he⟩ := hlines (List.nil_append w).symm (fun _ h => nomatch h)
      (hline (q.skip (m + 2)) (by simp [hstart]) (by simp [hq]))
    have hindent : max (m + 2) (max ((m : Int) + 1).toNat 1) = m + 2 := by omega
    refine ⟨e, ?_, he⟩
    rw [blockScalar?, hheader]
    simp only [hhint, hread, if_true, Option.bind_eq_bind, Option.bind_some, hindent]
    exact hscalar
  · -- the indentation is given, and there may be breaks in front of the first line
    have hhint : hintOf s = 2 := by
      unfold hintOf at hhint ⊢
      split at hhint
      · exact if_pos ‹_›
      · exact absurd rfl hhint
    obtain ⟨bs, w', _, l, hsplit, hbs, hread, -, hline⟩ :=
      exists_blockBreaks? (Nat.succ_pos (m + 1)) hr hw 0 hstart hq
    obtain ⟨e, hscalar, he⟩ := hlines hsplit hbs hline
    refine ⟨e, ?_, he⟩
    rw [blockScalar?, hheader]
    simp [hhint, hread, hscalar]

/-- Without an indicator for the indentation a string starts with a word. -/
theorem startsSolid_of_hintOf {s : List Char} (hs : ∀ c ∈ s, isPrintable c = true)
    (h : hintOf s = 0) : StartsSolid s := by
  intro c hc
  obtain ⟨t, rfl⟩ := List.head?_eq_some_iff.1 hc
  obtain ⟨hspace, hbreak⟩ : c ≠ ' ' ∧ isBreak c = false := by simpa [hintOf] using h
  exact ⟨isBlank_eq_false_of_ne (hs c List.mem_cons_self) hspace, hbreak⟩

/-- A string is read back from the literal block that it is written as in a collection at column
`m`. What comes next stands at column `k`. -/
theorem blockScalar?_literal {m k : Nat} {s r : List Char} {p : Place} (hr : StartsSolid r)
    (hk : k ≤ m) (hs : ∀ c ∈ s, isPrintable c = true) (hne : s ≠ [])
    (hp : p.rest = indentationHint s ++ (chompingHint s ++ '\n' ::
      (literalBody (m + 2) true s ++ (spaces k ++ r)))) :
    ∃ e, blockScalar? false m p = some (s, e) ∧ e.rest = r ∧ e.column = k := by
  refine exists_blockScalar? (hr.startsLine (by omega)) hs ?_ hp ?_
  · intro hhint
    obtain ⟨c, t, rfl⟩ := List.exists_cons_of_ne_nil hne
    exact ⟨fun h => absurd h hne, fun d hd => startsSolid_of_hintOf hs hhint d hd⟩
  · rintro bs s' q rfl hbs hline
    exact exists_blockLines?_append hr (by omega) (fun c hc => hs c (List.mem_append_right _ hc))
      hbs (fun _ => fits_chompOf _) hline

end RouteDocs.Yaml
