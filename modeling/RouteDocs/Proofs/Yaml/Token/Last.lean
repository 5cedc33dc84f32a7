import RouteDocs.Proofs.Yaml.Token.BlockEnd
import RouteDocs.Proofs.Yaml.Token.Written

/-!
# The last token of a text

The text ends with a value, without a line feed. The scan reads it, comes to the end and closes the
block collections that are open. A string is read in the way it is written; only a literal block has
lost a line feed, if there was one at the end of the string.

## Main definitions

* `Blocks.Finishes`: the scan comes to the end of the text.
* `Blocks.ReadsLast`: what is left of the text is read as given tokens.
* `lastToken`: the token of the last string.

## Main statements

* `Blocks.readsLast_string`: a string at the end of a text.
-/

namespace RouteDocs.Yaml

open Text (dropFeed)

/-! ## Closing -/

/-- The collections to the right of a column may be closed up to a column between first. -/
theorem Scan.close_close {k k' : Int} (hk : -1 ≤ k) (h : k ≤ k') (indent : Int) (outer : List Int) :
    close k indent outer =
      let (m, indent', outer') := close k' indent outer
      let (n, rest) := close k indent' outer'
      (m + n, rest) := by
  induction outer generalizing indent with
  | nil =>
    by_cases hi : indent ≤ k'
    · simp [close, hi]
    · have hik : ¬indent ≤ k := fun hle => hi (Int.le_trans hle h)
      simp [close, hi, hik, hk]
  | cons i outer ih =>
    by_cases hi : indent ≤ k'
    · simp [close, hi]
    · have hik : ¬indent ≤ k := fun hle => hi (Int.le_trans hle h)
      rw [close, if_neg hik, ih i, close, if_neg hi]
      simp [Nat.add_right_comm]

namespace Blocks

variable {b : Blocks} {p e : Place} {keyAllowed fresh : Bool} {candidate? : Option Candidate}

theorem unroll_unroll {k k' : Int} (hk : -1 ≤ k) (h : k ≤ k') :
    (b.unroll k').unroll k = b.unroll k := by
  simp only [unroll, Scan.close_close hk h b.indent b.outer]
  simp [← List.append_assoc, List.replicate_append_replicate, Nat.add_comm]

/-! ## The end of the text -/

/-- The scan comes to the end of the text. There it has found `b`. -/
def Finishes (s : Scan) (b : Blocks) : Prop :=
  ∃ t, s.Steps t ∧ t.place.rest = [] ∧ t.finish? = some (b.unroll (-1)).tokens.reverse

/-- From a place on the scan finds tokens and comes to the end of the text. -/
def ReadsLast (b : Blocks) (p : Place) (keyAllowed : Bool) (ts : List Token) : Prop :=
  ∃ s, (b.scan p keyAllowed none).advance? = some s ∧ Finishes s (b.emits ts)

theorem Finishes.of_steps {s t : Scan} (hsteps : s.Steps t) (h : Finishes t b) : Finishes s b := by
  obtain ⟨u, htu, hu⟩ := h
  exact ⟨u, hsteps.trans htu, hu⟩

/-- On the way to the end of the text the scan comes to the start of a line. -/
theorem Reached.finishes {s : Scan} {b' : Blocks} {k : Nat} {r : List Char} (h : Reached s b k r)
    (h' : ∀ q : Place, q.rest = r → q.column = k → Finishes ((b.unroll k).scan q true none) b') :
    Finishes s b' := by
  obtain ⟨q, hsteps, hrest, hcolumn⟩ := h
  exact (h' q hrest hcolumn).of_steps hsteps

/-- The way from a token to the next one starts the way to the end of the text. -/
theorem ReadsLast.finishes {b' : Blocks} {c : Char} {s : List Char} {ts : List Token}
    (h : b'.ReadsLast e fresh ts) (hrest : p.rest = c :: s)
    (htoken : (b.scan p keyAllowed candidate?).token? c s = some (b'.scan e fresh none))
    (hlength : e.rest.length ≤ s.length) :
    Finishes (b.scan p keyAllowed candidate?) (b'.emits ts) := by
  obtain ⟨t, hadvance, hfinishes⟩ := h
  exact hfinishes.of_steps (Scan.Step.intro hrest htoken hlength hadvance).steps

/-- At the end of the text the block collections are closed. What may have been a key is none. -/
theorem exists_advance?_of_end (he : e.rest = []) (h : ∀ c ∈ candidate?, c.required = false) :
    ∃ t, (b.scan e fresh candidate?).advance? = some t ∧ t.place.rest = [] ∧
      t.finish? = some (b.unroll (-1)).tokens.reverse := by
  have hskip : e.skipToToken false fresh = (e, fresh) :=
    Place.skipToToken_of_startsToken (by simp [he, StartsToken]) false fresh
  obtain ⟨kept, hrefresh, hkept⟩ : ∃ kept, (b.scan e fresh candidate?).refresh? candidate? =
      some kept ∧ ∀ c ∈ kept, c.required = false := by
    cases candidate? with
    | none => exact ⟨none, rfl, by simp⟩
    | some c =>
      have hc := h c rfl
      rw [Scan.refresh?]
      split
      · exact ⟨none, by simp [hc], by simp⟩
      · exact ⟨some c, rfl, h⟩
  have hdrop : kept.any (·.required) = false := by
    cases kept with
    | none => rfl
    | some c => exact hkept c rfl
  have hcolumn : (-1 : Int) ≤ e.column := by omega
  refine ⟨_, advance?_scan hskip hrefresh, he, ?_⟩
  rw [Scan.finish?, unroll_scan, unroll_unroll (Int.le_refl _) hcolumn, Scan.dropCandidate?]
  simp [scan, hdrop]

/-- Tokens at the end of the text are all that is read. -/
theorem Takes.readsLast {ts : List Token} (h : b.Takes p keyAllowed ts e fresh candidate?)
    (he : e.rest = []) (hcandidate : ∀ c ∈ candidate?, c.required = false) :
    b.ReadsLast p keyAllowed ts := by
  obtain ⟨s, t, c, r, hfirst, hsteps, hrest, htoken, hlength⟩ := h
  obtain ⟨u, hadvance, hu⟩ :=
    exists_advance?_of_end he hcandidate
  have hstep := Scan.Step.intro hrest htoken hlength hadvance
  exact ⟨s, hfirst, u, hsteps.trans hstep.steps, hu⟩

/-- What stands further in than its collection is no key of it. -/
theorem required_of_mem_saved (h : b.indent < p.column) {c : Candidate}
    (hc : c ∈ b.saved p keyAllowed) : c.required = false := by
  have hne : b.indent ≠ p.column := Int.ne_of_lt h
  cases keyAllowed with
  | false => cases hc
  | true =>
    cases hc
    simp [candidate, hne]

/-! ## Values -/

theorem readsLast_plain {w : List Char} (hindent : b.indent < p.column)
    (hw : plainAllowed w = true) (hp : p.rest = ' ' :: w) (keyAllowed : Bool) :
    b.ReadsLast p keyAllowed [.scalar .plain (String.ofList w)] := by
  have hend : (p.skip (w.length + 1)).rest = [] := by simp [hp]
  have htakes := takes_plain (t := []) hindent hw (by simpa using hp) (.text hend) keyAllowed
  exact htakes.readsLast hend fun c hc => required_of_mem_saved (by simp; omega) hc

theorem readsLast_quoted (single : Bool) {s t : List Char} (hindent : b.indent < p.column)
    (hp : p.rest = ' ' :: quoteOf single :: t)
    (hread : quotedScalar? single (p.skip 2) = some (s, e)) (he : e.rest = []) (keyAllowed : Bool) :
    b.ReadsLast p keyAllowed [.scalar (if single then .singleQuoted else .doubleQuoted)
      (String.ofList s)] :=
  (takes_quoted single hindent hp hread (by simp [he]) keyAllowed).readsLast he fun c hc =>
    required_of_mem_saved (by simp; omega) hc

theorem readsLast_empty {o c : Char} {t u : Token} (hindent : b.indent < p.column)
    (hflow : Brackets o c t u) (hp : p.rest = [' ', o, c]) (keyAllowed : Bool) :
    b.ReadsLast p keyAllowed [t, u] :=
  (takes_empty hindent hflow hp keyAllowed).readsLast (by simp [hp]) fun c hc =>
    required_of_mem_saved (by simp; omega) hc

end Blocks

/-- What is left of a string at the end of a text. -/
def clipString (s : List Char) : List Char :=
  if Written.ofString s = .literal then dropFeed s else s

/-- The token of a string at the end of a text. -/
def lastToken (s : List Char) : Token :=
  .scalar (Written.ofString s).style (String.ofList (clipString s))

theorem literalBody_ne_nil (n : Nat) {s : List Char} (hs : s ≠ []) : literalBody n true s ≠ [] := by
  obtain ⟨c, s, rfl⟩ := List.exists_cons_of_ne_nil hs
  rw [literalBody]
  split <;> simp

theorem Blocks.readsLast_literal {b : Blocks} {p : Place} {indent : Nat} {s : List Char}
    (hindent : b.indent = indent) (hcolumn : indent < p.column)
    (hs : ∀ c ∈ s, isPrintable c = true) (hfeed : '\n' ∈ s)
    (hp : p.rest = ' ' :: '|' :: (indentationHint s ++ (chompingHint s ++ '\n' ::
      dropFeed (literalBody (indent + 2) true s)))) (keyAllowed : Bool) :
    b.ReadsLast p keyAllowed [.scalar .literal (String.ofList (dropFeed s))] := by
  obtain ⟨e, hread, he⟩ := exists_blockScalar?_dropFeed (p := p.skip 2) hs hfeed
    (by rw [Place.rest_skip, hp]; rfl)
  rw [← hindent] at hread
  have htakes := takes_literal (by omega) hp hread (by simp [he]) keyAllowed
  exact htakes.readsLast he (by simp)

/-- A string is read back at the end of a text. -/
theorem Blocks.readsLast_string {b : Blocks} {p : Place} {indent : Nat} {s : List Char}
    (hindent : b.indent = indent) (hcolumn : indent < p.column)
    (hp : p.rest = dropFeed (' ' :: stringLine (indent + 2) s)) (keyAllowed : Bool) :
    b.ReadsLast p keyAllowed [lastToken s] := by
  have hlt : b.indent < p.column := by omega
  have hquoted : (p.skip 2).column ≠ 0 := Nat.succ_ne_zero _
  unfold stringLine at hp
  rw [lastToken, clipString]
  cases hwritten : Written.ofString s with
  | plain =>
    rw [hwritten] at hp
    have hp : p.rest = ' ' :: s := hp.trans (Text.dropFeed_append_lineFeed (' ' :: s))
    exact readsLast_plain hlt (ofString_eq_plain hwritten).2 hp keyAllowed
  | singleQuoted =>
    rw [hwritten] at hp
    have hp : p.rest = ' ' :: '\'' :: (singleBody (indent + 2) false s ++ ['\'']) := by
      have hdrop := Text.dropFeed_append_lineFeed
        (' ' :: '\'' :: (singleBody (indent + 2) false s ++ ['\'']))
      simpa [hp] using hdrop
    have hbody : (p.skip 2).rest = singleBody (indent + 2) false s ++ '\'' :: [] := by simp [hp]
    obtain ⟨e, hread, hend⟩ := quotedScalar?_single (ofString_eq_singleQuoted hwritten) hbody
      (by simp) hquoted (by simp)
    exact readsLast_quoted true hlt hp hread hend.rest_eq keyAllowed
  | doubleQuoted =>
    rw [hwritten] at hp
    have hp : p.rest = ' ' :: '"' :: (s.flatMap escapeDouble ++ ['"']) := by
      have hdrop := Text.dropFeed_append_lineFeed
        (' ' :: '"' :: (s.flatMap escapeDouble ++ ['"']))
      simpa [hp] using hdrop
    have hbody : (p.skip 2).rest = s.flatMap escapeDouble ++ '"' :: [] := by simp [hp]
    have hread := quotedScalar?_double hbody (by simp) hquoted
    exact readsLast_quoted false hlt hp hread (by simp [hp]; omega) keyAllowed
  | literal =>
    rw [hwritten] at hp
    obtain ⟨hfeed, hprint⟩ := ofString_eq_literal hwritten
    have hbody := literalBody_ne_nil (indent + 2) (List.ne_nil_of_mem hfeed)
    have hp : p.rest = ' ' :: '|' :: (indentationHint s ++ (chompingHint s ++ '\n' ::
        dropFeed (literalBody (indent + 2) true s))) := by
      have hdrop := Text.dropFeed_append
        (' ' :: '|' :: (indentationHint s ++ (chompingHint s ++ ['\n']))) hbody
      simpa [hp] using hdrop
    exact readsLast_literal hindent hcolumn hprint hfeed hp keyAllowed

end RouteDocs.Yaml
