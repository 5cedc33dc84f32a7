import RouteDocs.Proofs.Text.Bytes
import RouteDocs.Proofs.Yaml.Token.Written
import RouteDocs.Yaml.Printer

/-!
# Keys read back

A key in front of its colon is short: of at most 128 bytes, and of at most 1024 characters as it is
written. So it is still a candidate at the colon.

## Main statements

* `Blocks.readsKey_string`: a string as a key in front of its colon.
-/

namespace RouteDocs.Yaml

open Text (isBlank byteLength length_le_byteLength)

/-! ## Lengths -/

theorem length_escapeDouble_le (c : Char) : (escapeDouble c).length ≤ 6 := by
  unfold escapeDouble
  split
  · simp
  · split <;> try simp
    split <;> simp [length_hexDigits]

theorem length_escapes_le (s : List Char) : (s.flatMap escapeDouble).length ≤ 6 * s.length := by
  induction s with
  | nil => exact Nat.le_refl _
  | cons c s ih =>
    have hc := length_escapeDouble_le c
    rw [List.flatMap_cons, List.length_append, List.length_cons]
    omega

theorem length_singleBody_le {n : Nat} {s : List Char} (hs : hasBreak s = false) :
    (singleBody n false s).length ≤ 2 * s.length := by
  induction s with
  | nil => exact Nat.le_refl _
  | cons c s ih =>
    obtain ⟨hc, hs⟩ : isBreak c = false ∧ hasBreak s = false := by simpa [hasBreak] using hs
    have htail := ih hs
    by_cases hquote : c = '\''
    · simp [singleBody, hquote, isBreak]
      omega
    · simp [singleBody, hc, hquote]
      omega

namespace Blocks

variable {b : Blocks} {p : Place}

/-! ## Keys -/

/-- The scan reads a scalar and goes on to the colon that makes it a key. -/
structure ReadsKey (b : Blocks) (p : Place) (token : Token) (n : Nat) (t : List Char) : Prop where
  colon : (p.skip n).rest = ':' :: t
  pos : 0 < n
  short : n ≤ 1024
  token : ∃ c s, p.rest = c :: s ∧ (b.scan p true none).token? c s =
    some ((b.emits [token]).scan (p.skip n) false (b.saved p true))

/-- After the scalar the scan stands at the colon, and the scalar is still a candidate. -/
theorem ReadsKey.steps {token : Token} {n : Nat} {t : List Char} (h : b.ReadsKey p token n t)
    (hindent : b.indent ≤ p.column) :
    (b.scan p true none).Steps
      ((b.emits [token]).scan (p.skip n) false (some (b.candidate p))) := by
  obtain ⟨hcolon, hpos, hshort, c, s, hrest, htoken⟩ := h
  have hlength : (p.skip n).rest.length ≤ s.length := by
    rw [Place.rest_skip, List.length_drop, hrest, List.length_cons]
    omega
  have hright : (b.emits [token]).indent ≤ (p.skip n).column :=
    Int.le_trans hindent (Int.ofNat_le.2 (Nat.le_add_right _ _))
  have hstart : StartsToken (p.skip n).rest := by
    rw [hcolon]
    exact startsToken_cons (by decide) t
  have hkey := refresh?_near (s := (b.emits [token]).scan (p.skip n) false (b.saved p true))
    (c := b.candidate p) (Nat.le_refl _) (Nat.add_le_add_left hshort _)
  have hadvance := advance?_scan (Place.skipToToken_of_startsToken hstart false false) hkey
  rw [unroll_of_le hright] at hadvance
  exact (Scan.Step.intro hrest htoken hlength hadvance).steps

theorem ReadsKey.reached {token : Token} {ts : List Token} {n k : Nat} {t r : List Char}
    (h : b.ReadsKey p token n t) (hindent : b.indent ≤ p.column) (ht : atBlankOrEnd t = true)
    (hvalue : ((b.roll p.column .blockMappingStart).emits [.key, token, .value]).Reads
      ((p.skip n).skip 1) false ts k r) :
    Reached (b.scan p true none)
      ((b.roll p.column .blockMappingStart).emits (.key :: token :: .value :: ts)) k r := by
  have hlength : ((p.skip n).skip 1).rest.length ≤ t.length := by
    rw [Place.rest_skip, h.colon]
    exact Nat.le_refl _
  obtain ⟨q, hsteps, hq⟩ := hvalue.reached h.colon (token?_colon_key h.colon ht) hlength
  exact ⟨q, (h.steps hindent).trans (by simpa using hsteps), hq⟩

theorem readsKey_plain {w t : List Char} (hw : plainAllowed w = true) (hlength : w.length ≤ 1024)
    (hp : p.rest = w ++ ':' :: t) (ht : atBlankOrEnd t = true) (hindent : b.indent ≤ p.column) :
    b.ReadsKey p (.scalar .plain (String.ofList w)) w.length t := by
  obtain ⟨-, c, r, rfl, hstart⟩ := words_of_plainAllowed hw
  have hcolon : (p.skip (c :: r).length).rest = ':' :: t := by
    rw [Place.rest_skip, hp, List.drop_left]
  have hmark : p.atDocumentMark = false := hstart.atDocumentMark hp
  exact ⟨hcolon, Nat.succ_pos _, hlength, c, _, hp,
    token?_plain hw hp hmark (by omega) (.key hcolon ht) true⟩

theorem readsKey_quoted (single : Bool) {s t u : List Char}
    (hp : p.rest = quoteOf single :: (u ++ ':' :: t)) (hlength : u.length < 1024)
    (hread : quotedScalar? single (p.skip 1) = some (s, (p.skip 1).skip u.length)) :
    b.ReadsKey p (.scalar (if single then .singleQuoted else .doubleQuoted) (String.ofList s))
      (u.length + 1) t := by
  have hcolon : (p.skip (u.length + 1)).rest = ':' :: t := by
    rw [Place.rest_skip, hp, List.drop_succ_cons, List.drop_left]
  rw [Place.skip_skip, Nat.add_comm] at hread
  exact ⟨hcolon, Nat.succ_pos _, hlength, _, _, hp, token?_quoted single hp hread true⟩

/-- A string is read back as a key in front of its colon. -/
theorem readsKey_string {s t : List Char} (hs : hasBreak s = false) (hlength : byteLength s ≤ 128)
    (hp : p.rest = keyText s ++ ':' :: t) (ht : atBlankOrEnd t = true)
    (hindent : b.indent ≤ p.column) :
    b.ReadsKey p (stringToken s) (keyText s).length t := by
  have hshort := Nat.le_trans (length_le_byteLength s) hlength
  have hquoted : (p.skip 1).column ≠ 0 := Nat.succ_ne_zero _
  unfold keyText at hp ⊢
  rw [stringToken]
  cases hwritten : Written.ofString s with
  | plain =>
    rw [hwritten] at hp
    exact readsKey_plain (ofString_eq_plain hwritten).2 (by omega) hp ht hindent
  | singleQuoted =>
    rw [hwritten] at hp
    have hlong := length_singleBody_le (n := 0) hs
    have hrest : (p.skip 1).rest = singleBody 0 false s ++ '\'' :: ':' :: t := by simp [hp]
    obtain ⟨e, hread, hend⟩ := quotedScalar?_single (ofString_eq_singleQuoted hwritten) hrest
      (by simp) hquoted (by simp [hs])
    rw [hend.eq_skip hs] at hread
    have hkey := readsKey_quoted true (b := b) (u := singleBody 0 false s ++ ['\''])
      (by simpa [quoteOf] using hp) (by simp; omega) (by simpa using hread)
    simpa [Written.style] using hkey
  | doubleQuoted =>
    rw [hwritten] at hp
    have hlong := length_escapes_le s
    have hrest : (p.skip 1).rest = s.flatMap escapeDouble ++ '"' :: ':' :: t := by simp [hp]
    have hread := quotedScalar?_double hrest (by simp) hquoted
    have hkey := readsKey_quoted false (b := b) (u := s.flatMap escapeDouble ++ ['"'])
      (by simpa [quoteOf] using hp) (by simp only [List.length_append, List.length_singleton]; omega)
      (by simpa only [List.length_append, List.length_singleton] using hread)
    exact hkey
  | literal =>
    have hfeed := (ofString_eq_literal hwritten).1
    have hbreak := List.any_eq_false.1 hs _ hfeed
    simp [isBreak] at hbreak

end Blocks

end RouteDocs.Yaml
