import RouteDocs.Proofs.Text.Dedent
import RouteDocs.Proofs.Yaml.Token.Block

/-!
# Literal block scalars at the end of a text

A text may lack the line feed at its end. In a literal block that is the end of a string, if the
string ends with a line feed; otherwise it is only what ends the last line.

## Main definition

* `Ended`: whether there is a break at the end of a string.

## Main statements

* `exists_blockLines?_open`: lines whose last one is not ended.
* `exists_blockScalar?_dropFeed`: a string is read back without its last line feed.
-/

namespace RouteDocs.Yaml

open Text (isBlank dropFeed eq_dropFeed_or_append)

/-! ## Ended lines -/

/-- The string is empty or ends with a break. -/
def Ended (s : List Char) : Prop := ∀ c ∈ s.getLast?, isBreak c = true

theorem Ended.of_append {u s : List Char} (h : Ended (u ++ s)) : Ended s := by
  intro c hc
  apply h
  simp only [Option.mem_def] at hc ⊢
  simp [List.getLast?_append, hc]

theorem ended_cons_iff {c : Char} {s : List Char} (hs : s ≠ []) : Ended (c :: s) ↔ Ended s := by
  rw [Ended, Ended, List.getLast?_cons_of_ne_nil hs]

theorem not_ended {line : List Char} (hne : line ≠ []) (hline : ∀ c ∈ line, isBreak c = false) :
    ¬Ended line := by
  intro h
  have hlast := List.getLast?_eq_some_getLast hne
  have hbreak := h _ hlast
  rw [hline _ (List.getLast_mem hne)] at hbreak
  cases hbreak

/-- A string is ended, or it ends with a line of its own. -/
theorem ended_or_exists_line (s : List Char) :
    Ended s ∨ ∃ u line, s = u ++ line ∧ Ended u ∧ line ≠ [] ∧ ∀ c ∈ line, isBreak c = false := by
  induction s with
  | nil => exact .inl (by simp [Ended])
  | cons c s ih =>
    by_cases hs : s = []
    · subst hs
      by_cases hc : isBreak c = true
      · exact .inl (by simpa [Ended] using hc)
      · exact .inr ⟨[], [c], rfl, by simp [Ended], by simp, by simpa using hc⟩
    · rcases ih with hended | ⟨u, line, rfl, hu, hne, hline⟩
      · exact .inl ((ended_cons_iff hs).2 hended)
      · by_cases hnil : u = []
        · subst hnil
          by_cases hc : isBreak c = true
          · exact .inr ⟨[c], line, rfl, by simpa [Ended] using hc, hne, hline⟩
          · exact .inr ⟨[], c :: line, rfl, hu, by simp,
              List.forall_mem_cons.2 ⟨by simpa using hc, hline⟩⟩
        · exact .inr ⟨c :: u, line, rfl, (ended_cons_iff hnil).2 hu, hne, hline⟩

/-! ## The text of a literal block -/

section

variable {n : Nat} {fresh : Bool} {u line : List Char}

/-- What follows ended lines starts a line of its own. -/
theorem literalBody_append (hu : Ended u) (hfresh : u = [] → fresh = true) (t : List Char) :
    literalBody n fresh (u ++ t) = literalBody n fresh u ++ literalBody n true t := by
  induction u generalizing fresh with
  | nil => simp [hfresh rfl, literalBody]
  | cons c u ih =>
    have htail : Ended u := Ended.of_append (u := [c]) hu
    by_cases hc : isBreak c = true
    · simp [literalBody, hc, ih htail]
    · have hne : u ≠ [] := by
        rintro rfl
        exact hc (hu c rfl)
      simp [literalBody, hc, ih htail (fun h => absurd h hne)]

theorem literalBody_false_append (hline : ∀ c ∈ line, isBreak c = false) (t : List Char) :
    literalBody n false (line ++ t) = line ++ literalBody n false t := by
  induction line with
  | nil => rfl
  | cons c line ih =>
    obtain ⟨hc, hline⟩ := List.forall_mem_cons.1 hline
    simp [literalBody, hc, ih hline]

/-- A line is indented. -/
theorem literalBody_line (hne : line ≠ []) (hline : ∀ c ∈ line, isBreak c = false)
    (t : List Char) :
    literalBody n true (line ++ t) = spaces n ++ (line ++ literalBody n false t) := by
  obtain ⟨c, line, rfl⟩ := List.exists_cons_of_ne_nil hne
  obtain ⟨hc, hline⟩ := List.forall_mem_cons.1 hline
  simp [literalBody, hc, literalBody_false_append hline]

/-- The text of an ended string ends as the string does. -/
theorem getLast?_literalBody (hu : Ended u) (hne : u ≠ []) :
    (literalBody n fresh u).getLast? = u.getLast? := by
  induction u generalizing fresh with
  | nil => exact absurd rfl hne
  | cons c u ih =>
    by_cases hnil : u = []
    · subst hnil
      have hc : isBreak c = true := hu c rfl
      simp [literalBody, hc]
    · have htail : ∀ fresh, (literalBody n fresh u).getLast? = u.getLast? := fun fresh =>
        ih ((ended_cons_iff hnil).1 hu) hnil
      have hfilled : ∀ fresh, literalBody n fresh u ≠ [] := by
        intro fresh h
        have hlast := htail fresh
        rw [h] at hlast
        exact hnil (List.getLast?_eq_none_iff.1 hlast.symm)
      rw [List.getLast?_cons_of_ne_nil hnil, literalBody]
      split
      · rw [List.getLast?_cons_of_ne_nil (hfilled true), htail]
      · rw [List.getLast?_append, List.getLast?_cons_of_ne_nil (hfilled false), htail,
          List.getLast?_eq_some_getLast hnil]
        rfl

/-- The text of an ended string without its line feed. -/
theorem dropFeed_literalBody_of_ended {s : List Char} (hne : s ≠ []) (h : Ended (dropFeed s)) :
    dropFeed (literalBody n true s) = literalBody n true (dropFeed s) := by
  rcases eq_dropFeed_or_append s with ⟨heq, hlast⟩ | heq
  · rw [← heq] at h ⊢
    exact Text.dropFeed_of_getLast?_ne (by rwa [getLast?_literalBody h hne])
  · have hbody : literalBody n true s = literalBody n true (dropFeed s) ++ ['\n'] :=
      (congrArg _ heq).trans (literalBody_append h (fun _ => rfl) ['\n'])
    rw [hbody, Text.dropFeed_append_lineFeed]

/-- The text of a string without its line feed ends with the last line, if that is not ended. -/
theorem dropFeed_literalBody_of_line {s : List Char} (h : dropFeed s = u ++ line) (hu : Ended u)
    (hne : line ≠ []) (hline : ∀ c ∈ line, isBreak c = false) :
    dropFeed (literalBody n true s) = literalBody n true u ++ (spaces n ++ line) := by
  have hbody : literalBody n true s = literalBody n true u ++ (spaces n ++ line) ++ ['\n'] := by
    rcases eq_dropFeed_or_append s with ⟨heq, -⟩ | heq
    · rw [heq, h, literalBody_append hu (fun _ => rfl), ← List.append_nil line,
        literalBody_line hne hline]
      simp [literalBody]
    · rw [heq, h, List.append_assoc, literalBody_append hu (fun _ => rfl),
        literalBody_line hne hline]
      simp [literalBody, isBreak]
  rw [hbody, Text.dropFeed_append_lineFeed]

end

/-! ## Lines -/

theorem blockBreaks?_nil {p : Place} (hp : p.rest = []) (n widest : Nat) :
    blockBreaks? n widest p = some ([], max widest p.column, p) := by
  obtain ⟨rest, line, column, index⟩ := p
  obtain rfl : rest = [] := hp
  rw [blockBreaks?]
  simp [Place.skip, Place.takeBreak?]

theorem blockLines?_nil {p : Place} (hp : p.rest = []) (chomp : Chomp) (n : Nat) (above : Bool) :
    blockLines? false chomp n [] [] above p = some ([], p) := by
  rw [blockLines?.eq_def]
  cases chomp <;> simp [hp]

/-- A line that is not ended. -/
theorem exists_blockLines?_last {n : Nat} {chomp : Chomp} {line lead breaks : List Char}
    {above : Bool} {p : Place} (hcolumn : p.column = n) (hp : p.rest = line) (hne : line ≠ [])
    (hline : ∀ c ∈ line, isBreak c = false) :
    ∃ e, blockLines? false chomp n lead breaks above p = some (lead ++ breaks ++ line, e) ∧
      e.rest = [] := by
  subst hp
  have htake : p.rest.takeWhile (!isBreak ·) = p.rest := by
    simpa using Text.takeWhile_append_of_all (p := (!isBreak ·)) (s := [])
      (fun c hc => by simp [hline c hc]) (by simp)
  have hrest : (p.skip p.rest.length).rest = [] := by simp
  have hbreak : (p.skip p.rest.length).takeBreak? = none := by rw [Place.takeBreak?, hrest]
  have hempty : p.rest.isEmpty = false := by simp [hne]
  have hpos : 0 < p.rest.length := List.length_pos_iff.2 hne
  refine ⟨p.skip p.rest.length, ?_, hrest⟩
  rw [blockLines?.eq_def]
  simp only [hcolumn, hempty, htake, hbreak, blockBreaks?_nil hrest]
  simp [blockLines?_nil hrest, hpos, joinLines]

/-- Lines whose last one is not ended. Those in front of it are `u`. -/
theorem exists_blockLines?_open {n : Nat} {chomp : Chomp} {line : List Char} (hn : 0 < n)
    (hne : line ≠ []) (hline : ∀ c ∈ line, isBreak c = false) {u lead breaks : List Char}
    {above : Bool} {p : Place} (hu : ∀ c ∈ u, isPrintable c = true) (hended : Ended u)
    (hp : AtLine n n line u p) :
    ∃ e, blockLines? false chomp n lead breaks above p = some (lead ++ breaks ++ (u ++ line), e) ∧
      e.rest = [] := by
  induction hsize : u.length using Nat.strongRecOn generalizing u lead breaks above p with
  | _ size ih =>
    cases u with
    | nil => exact exists_blockLines?_last hp.2 hp.1 hne hline
    | cons c t =>
      obtain ⟨hc, hcolumn, hp⟩ := hp
      obtain ⟨first, b, u', hbody, hsolid, hb, hprint, hu', hsplit⟩ := exists_line n hu
      have hsplit : c :: t = first ++ b :: u' := by
        refine hsplit.resolve_left fun h => ?_
        exact not_ended (h.1 ▸ List.cons_ne_nil c t) hsolid (h.1 ▸ hended)
      rw [hbody, List.append_assoc, List.cons_append] at hp
      have hr : StartsLine n n line :=
        ⟨Nat.le_refl n, .inl rfl, fun d hd => hline d (List.mem_of_head? hd)⟩
      obtain ⟨bs, s', w, q, rfl, hbs, hread, hlength, hnext⟩ := exists_blockBreaks? hn hr hu' 0
        (p := ⟨_, p.line + 1, 0, p.index + first.length + 1⟩) rfl rfl
      have hshort : q.rest.length < p.rest.length := by
        rw [hp, List.length_append, List.length_cons]
        simp only at hlength
        omega
      have hsmall : s'.length < size := by
        rw [← hsize, hsplit]
        simp
        omega
      have hended' : Ended s' :=
        Ended.of_append (u := first ++ b :: bs) (by simpa [hsplit] using hended)
      obtain ⟨e, hlines, hrest⟩ : ∃ e, blockLines? false chomp n [b] bs
          (p.rest.head?.any isBlank) q = some ([b] ++ bs ++ (s' ++ line), e) ∧ e.rest = [] :=
        ih _ hsmall (fun d hd => hu' d (List.mem_append_right _ hd)) hended' hnext rfl
      refine ⟨e, ?_, hrest⟩
      rw [blockLines?_line hcolumn hp hsolid hb hprint, hread, Option.bind_some, if_pos hshort]
      simp [hlines, hsplit]

/-! ## The scalar -/

/-- The chomping indicator of a string is right for what is left of it without its line feed. -/
theorem fits_chompOf_dropFeed {s : List Char} (h : Ended (dropFeed s)) (hne : dropFeed s ≠ []) :
    (chompOf s).Fits (dropFeed s).reverse := by
  rcases eq_dropFeed_or_append s with ⟨heq, -⟩ | heq
  · rw [← heq]
    exact fits_chompOf s
  · obtain ⟨t, b, ht⟩ := List.eq_nil_or_concat (dropFeed s) |>.resolve_left hne
    have hb : isBreak b = true := h b (by simp [ht])
    have hkeep : chompOf s = .keep := by
      have hfeed : isBreak '\n' = true := rfl
      rw [heq, ht]
      simp [chompOf, chompingHint, hb, hfeed]
    rw [hkeep, ht]
    simpa [Chomp.Fits] using hb

/-- Without an indicator for the indentation a string still starts with a word. -/
theorem startsSolid_dropFeed {s : List Char} (hs : ∀ c ∈ s, isPrintable c = true)
    (hhint : hintOf s = 0) : StartsSolid (dropFeed s) := by
  intro c hc
  obtain ⟨t, ht⟩ := Text.dropFeed_prefix s
  have hhead : s.head? = some c := by
    rw [← congrArg List.head? ht, List.head?_append, Option.mem_def.1 hc, Option.some_or]
  exact startsSolid_of_hintOf hs hhint c hhead

theorem dropFeed_ne_nil {s : List Char} (hne : s ≠ []) (hhint : hintOf s = 0) :
    dropFeed s ≠ [] := by
  intro hnil
  rcases eq_dropFeed_or_append s with ⟨heq, -⟩ | heq
  · exact hne (heq.trans hnil)
  · rw [heq, hnil] at hhint
    cases hhint

/-- A string with a line feed in it is written as a literal block in a collection at column `m`, and
the text ends there without a line feed. Then the string is read back without one at its end. -/
theorem exists_blockScalar?_dropFeed {m : Nat} {s : List Char} {p : Place}
    (hs : ∀ c ∈ s, isPrintable c = true) (hfeed : '\n' ∈ s)
    (hp : p.rest = indentationHint s ++ (chompingHint s ++ '\n' ::
      dropFeed (literalBody (m + 2) true s))) :
    ∃ e, blockScalar? false m p = some (dropFeed s, e) ∧ e.rest = [] := by
  have hne := List.ne_nil_of_mem hfeed
  have hprint : ∀ c ∈ dropFeed s, isPrintable c = true := fun c hc =>
    hs c ((Text.dropFeed_prefix s).subset hc)
  rcases ended_or_exists_line (dropFeed s) with hended | ⟨u, line, hu⟩
  · rw [dropFeed_literalBody_of_ended hne hended] at hp
    refine exists_blockScalar? (k := 0) (r := []) ⟨by simp, .inr (by simp), by simp⟩ hprint ?_
      (by simpa [spaces] using hp) ?_
    · intro hhint
      exact ⟨fun h => absurd h (dropFeed_ne_nil hne hhint),
        by simpa using startsSolid_dropFeed hs hhint⟩
    · intro bs w' q hsplit hbs hline
      obtain ⟨e, hlines, hrest, -⟩ := exists_blockLines?_append
        (by simp [StartsSolid]) (Nat.succ_pos (m + 1))
        (fun c hc => hprint c (hsplit ▸ List.mem_append_right _ hc)) hbs
        (fun hfilled => hsplit ▸ fits_chompOf_dropFeed hended (hsplit ▸ hfilled)) hline
      exact ⟨e, hsplit ▸ hlines, hrest⟩
  · obtain ⟨hsplit, hended, hlast, hline⟩ := hu
    rw [dropFeed_literalBody_of_line hsplit hended hlast hline] at hp
    refine exists_blockScalar? (k := m + 2) (r := line)
      ⟨Nat.le_refl _, .inl rfl, fun c hc => hline c (List.mem_of_head? hc)⟩
      (fun c hc => hprint c (hsplit ▸ List.mem_append_left _ hc)) ?_ hp ?_
    · exact fun hhint => ⟨fun _ => rfl, hsplit ▸ startsSolid_dropFeed hs hhint⟩
    · rintro bs w' q rfl hbs hstart
      obtain ⟨e, hlines, hrest⟩ : ∃ e, blockLines? false (chompOf s) (m + 2) [] bs false q =
          some ([] ++ bs ++ (w' ++ line), e) ∧ e.rest = [] :=
        exists_blockLines?_open (Nat.succ_pos (m + 1)) hlast hline
          (fun c hc => hprint c (hsplit ▸ by simp [hc])) hended.of_append hstart
      exact ⟨e, by simpa [hsplit] using hlines, hrest⟩

end RouteDocs.Yaml
