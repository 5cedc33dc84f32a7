import RouteDocs.Proofs.Source.Opening
import RouteDocs.Route.Signature

/-!
# Placeholders of a URL

Where a URL is cut at its typed placeholders is said without a pattern: from left to right, in front
of a colon with a lower-case letter behind it and behind the last of the letters that follow. The
template has a name in braces in place of each placeholder that has one; all other text stays.

## Main definitions

* `rawUrl?`: the URL in a line, as it is written there.
* `CutAt`: the placeholders of a URL and the text behind the last of them.

## Main statements

* `firstGroup?_url`: the pattern finds the URL of a line.
* `exists_cutAt`, `CutAt.unique`: a URL is cut in exactly one way, where a scan finds matches.
* `urlTemplate_of_parse`: the template, the parameters and the warnings of a declaration.
-/

namespace RouteDocs.Signature

open Text Source

/-! ## The URL of a line -/

/-- The text from the slash of the first quoted at sign with a slash up to the next quote. -/
def rawUrl? (line : List Char) : Option (List Char) :=
  (splitAtFirst? ['"', '@', '/'] line).bind fun (_, s) =>
    (splitAtFirst? ['"'] s).map fun (path, _) => '/' :: path

theorem matchAt?_url_iff {before : Option Char} {s : List Char} {m : Match} :
    Pattern.url.matchAt? before s = some m ↔
      ∃ path rest, s = ['"', '@', '/'] ++ (path ++ '"' :: rest) ∧ '"' ∉ path ∧
        m = ⟨[(false, ['"', '@']), (true, '/' :: path), (false, ['"'])], rest⟩ := by
  simp only [Pattern.url, Part.plain, Part.group, Pattern.matchAt?_cons_iff,
    Pattern.matchAt?_nil_iff, takeAll?_cons_iff, takeAll?_nil_iff, Piece.take?_text_iff,
    Piece.take?_run_iff]
  constructor
  · rintro ⟨_, _, _, ⟨_, _, _, ⟨rfl, rfl⟩, ⟨rfl, rfl⟩, rfl⟩, ⟨_, _, _, ⟨_, _, _, ⟨rfl, rfl⟩,
      ⟨path, _, _, ⟨rfl, hpath, -⟩, ⟨rfl, rfl⟩, rfl⟩, rfl⟩, ⟨_, _, _, ⟨_, rest, _, ⟨rfl, rfl⟩,
      ⟨rfl, rfl⟩, rfl⟩, rfl, rfl⟩, rfl⟩, rfl⟩
    refine ⟨path, rest, by simp, fun hquote => ?_, by simp⟩
    simpa using hpath _ hquote
  · rintro ⟨path, rest, rfl, hpath, rfl⟩
    refine ⟨_, _, _, ⟨_, _, [], ⟨rfl, rfl⟩, ⟨rfl, rfl⟩, rfl⟩, ⟨'/' :: path, _, _, ⟨_, _, path,
      ⟨rfl, rfl⟩, ⟨path, _, [], ⟨rfl, fun c hc => ?_, ?_⟩, ⟨rfl, rfl⟩, by simp⟩, rfl⟩, ⟨_, rest, _,
      ⟨_, _, [], ⟨rfl, rfl⟩, ⟨rfl, rfl⟩, rfl⟩, rfl, rfl⟩, rfl⟩, rfl⟩
    · have hne : c ≠ '"' := fun h => hpath (h ▸ hc)
      simpa using hne
    · simp

/-- Where a quoted at sign with a slash stands, a quote behind it makes a match. -/
theorem exists_matchAt?_url (before : Option Char) {s : List Char} (h : '"' ∈ s) :
    ∃ m, Pattern.url.matchAt? before (['"', '@', '/'] ++ s) = some m := by
  obtain ⟨path, rest, rfl, hpath⟩ := List.eq_append_cons_of_mem h
  exact ⟨_, matchAt?_url_iff.2 ⟨path, rest, rfl, hpath, rfl⟩⟩

/-- The quote that starts one URL stands behind the start of every other one in front of it. -/
theorem quote_mem_of_append_eq {a s t : List Char} (hne : a ≠ [])
    (h : a ++ '"' :: s = ['"', '@', '/'] ++ t) : '"' ∈ t := by
  match a, hne with
  | [_], _ => simp at h
  | [_, _], _ => simp at h
  | _ :: _ :: _ :: a, _ =>
    obtain ⟨-, -, -, rfl⟩ : _ ∧ _ ∧ _ ∧ a ++ '"' :: s = t := by simpa using h
    simp

/-- The first occurrence of a character ends the text that does not hold it. -/
theorem splitAtFirst?_singleton {c : Char} {a : List Char} (h : c ∉ a) (b : List Char) :
    splitAtFirst? [c] (a ++ c :: b) = some (a, b) := by
  induction a with
  | nil => exact splitAtFirst?_self_append [c] b
  | cons x a ih =>
    have hx : c ≠ x := List.ne_of_not_mem_cons h
    rw [List.cons_append, splitAtFirst?, ih (List.not_mem_of_not_mem_cons h)]
    simp [strip?, hx]

/-- The pattern finds the URL of a line. -/
theorem firstGroup?_url (line : List Char) : firstGroup? Pattern.url line = rawUrl? line := by
  unfold firstGroup? rawUrl?
  cases hsearch : Pattern.url.search? none line with
  | some x =>
    obtain ⟨skipped, m⟩ := x
    obtain ⟨⟨t, rfl, hm⟩, hleft⟩ := Pattern.search?_eq_some_iff.1 hsearch
    obtain ⟨path, rest, rfl, hpath, rfl⟩ := matchAt?_url_iff.1 hm
    have hstart : splitAtFirst? ['"', '@', '/'] (skipped ++ (['"', '@', '/'] ++
        (path ++ '"' :: rest))) = some (skipped, path ++ '"' :: rest) := by
      refine splitAtFirst?_eq_some_iff.2 ⟨by simp, fun q hq hpre => ?_⟩
      -- an earlier start has the quote of this URL behind it, and would have been matched
      obtain ⟨front, back, rfl, rfl⟩ : ∃ front back, skipped = front ++ back ∧ front.length = q :=
        ⟨_, _, (List.take_append_drop q skipped).symm, List.length_take_of_le (Nat.le_of_lt hq)⟩
      obtain ⟨u, hu⟩ := hpre
      rw [List.append_assoc, List.drop_left] at hu
      have hquote := quote_mem_of_append_eq (by rintro rfl; simp at hq) hu.symm
      obtain ⟨n, hn⟩ := exists_matchAt?_url (front.getLast?.or none) hquote
      rw [hu] at hn
      cases (hleft front _ (List.append_assoc _ _ _) hq).symm.trans hn
    simp only [hstart, Option.bind_some, splitAtFirst?_singleton hpath]
    rfl
  | none =>
    have hnot := Pattern.search?_eq_none_iff.1 hsearch
    cases hstart : splitAtFirst? ['"', '@', '/'] line with
    | none => rfl
    | some x =>
      obtain ⟨skipped, s⟩ := x
      cases hstop : splitAtFirst? ['"'] s with
      | none => simp [hstop]
      | some y =>
        have hquote : '"' ∈ s := by
          rw [append_of_splitAtFirst? hstop]
          simp
        have hline := append_of_splitAtFirst? hstart
        rw [List.append_assoc] at hline
        obtain ⟨m, hm⟩ := exists_matchAt?_url (skipped.getLast?.or none) hquote
        cases (hnot skipped _ hline).symm.trans hm

/-! ## Cutting a URL -/

/-- A typed placeholder, with the text between the one before it and itself. -/
structure Placeholder where
  before : List Char
  type : List Char

/-- The placeholder as it stands in the URL, with the text in front of it. -/
def Placeholder.text (p : Placeholder) : List Char := p.before ++ ':' :: p.type

/-- The placeholder with a name in braces in its place. -/
def Placeholder.named (p : Placeholder) (name : String) : List Char :=
  p.before ++ '{' :: (name.toList ++ ['}'])

/-- Somewhere in the text a lower-case letter stands behind a colon. -/
def HasPlaceholder (s : List Char) : Prop :=
  ∃ a c b, s = a ++ ':' :: c :: b ∧ Pattern.isLower c = true

/-- The URL is cut at its placeholders, from left to right. Each takes all the letters that there
are, and nothing between two of them is a placeholder. -/
inductive CutAt : (url : List Char) → List Placeholder → (last : List Char) → Prop
  | done {url : List Char} (h : ¬HasPlaceholder url) : CutAt url [] url
  | next {before type rest last : List Char} {ps : List Placeholder}
      (hbefore : ¬HasPlaceholder before) (hne : type ≠ [])
      (htype : ∀ c ∈ type, Pattern.isLower c = true)
      (hrest : ∀ c ∈ rest.head?, Pattern.isLower c = false) (h : CutAt rest ps last) :
      CutAt (before ++ ':' :: (type ++ rest)) (⟨before, type⟩ :: ps) last

theorem take?_one_iff {p : Char → Bool} {before : Option Char} {s a r : List Char} :
    Piece.take? before s (.one p) = some (a, r) ↔ ∃ c, p c = true ∧ a = [c] ∧ s = c :: r := by
  cases s with
  | nil => simp [Piece.take?]
  | cons c s => by_cases hc : p c = true <;> grind [Piece.take?]

theorem matchAt?_placeholder_iff {before : Option Char} {s : List Char} {m : Match} :
    Pattern.placeholder.matchAt? before s = some m ↔
      ∃ type rest, s = ':' :: (type ++ rest) ∧ type ≠ [] ∧
        (∀ c ∈ type, Pattern.isLower c = true) ∧ (∀ c ∈ rest.head?, Pattern.isLower c = false) ∧
        m = ⟨[(false, [':']), (true, type)], rest⟩ := by
  simp only [Pattern.placeholder, Part.plain, Part.group, Pattern.matchAt?_cons_iff,
    Pattern.matchAt?_nil_iff, takeAll?_cons_iff, takeAll?_nil_iff, Piece.take?_text_iff,
    take?_one_iff, Piece.take?_run_iff]
  constructor
  · rintro ⟨_, _, _, ⟨_, _, _, ⟨rfl, rfl⟩, ⟨rfl, rfl⟩, rfl⟩, ⟨_, _, _, ⟨_, _, _, ⟨c, hc, rfl, rfl⟩,
      ⟨cs, _, _, ⟨rfl, hcs, hrest⟩, ⟨rfl, rfl⟩, rfl⟩, rfl⟩, rfl, rfl⟩, rfl⟩
    refine ⟨c :: cs, _, by simp, by simp, ?_, hrest, by simp⟩
    exact List.forall_mem_cons.2 ⟨hc, hcs⟩
  · rintro ⟨type, rest, rfl, hne, htype, hrest, rfl⟩
    obtain ⟨c, cs, rfl⟩ := List.exists_cons_of_ne_nil hne
    obtain ⟨hc, hcs⟩ := List.forall_mem_cons.1 htype
    exact ⟨_, _, _, ⟨_, _, [], ⟨rfl, rfl⟩, ⟨rfl, rfl⟩, rfl⟩, ⟨c :: cs, rest, _, ⟨_, _, cs,
      ⟨c, hc, rfl, rfl⟩, ⟨cs, rest, [], ⟨rfl, hcs, hrest⟩, ⟨rfl, rfl⟩, by simp⟩, rfl⟩, rfl, rfl⟩,
      rfl⟩

/-- Behind a colon a letter makes a match. -/
theorem exists_matchAt?_placeholder (before : Option Char) {c : Char}
    (hc : Pattern.isLower c = true) (s : List Char) :
    ∃ m, Pattern.placeholder.matchAt? before (':' :: c :: s) = some m := by
  refine ⟨_, matchAt?_placeholder_iff.2 ⟨c :: s.takeWhile Pattern.isLower,
    s.dropWhile Pattern.isLower, ?_, List.cons_ne_nil _ _, ?_, ?_, rfl⟩⟩
  · rw [List.cons_append, List.takeWhile_append_dropWhile]
  · exact List.forall_mem_cons.2 ⟨hc, fun d hd => List.all_eq_true.1 List.all_takeWhile d hd⟩
  · intro d hd
    have hnot := List.head?_dropWhile_not Pattern.isLower s
    rw [hd] at hnot
    simpa using hnot

/-- A place of the scan at which a placeholder of the URL is found. -/
theorem search?_placeholder {before : Option Char} {url skipped : List Char} {m : Match}
    (h : Pattern.placeholder.search? before url = some (skipped, m)) :
    ∃ type, url = skipped ++ ':' :: (type ++ m.rest) ∧ ¬HasPlaceholder skipped ∧ type ≠ [] ∧
      (∀ c ∈ type, Pattern.isLower c = true) ∧ (∀ c ∈ m.rest.head?, Pattern.isLower c = false) ∧
      m.group 0 = type := by
  obtain ⟨⟨t, rfl, hm⟩, hleft⟩ := Pattern.search?_eq_some_iff.1 h
  obtain ⟨type, rest, rfl, hne, htype, hrest, rfl⟩ := matchAt?_placeholder_iff.1 hm
  refine ⟨type, rfl, ?_, hne, htype, hrest, rfl⟩
  rintro ⟨a, c, b, rfl, hc⟩
  obtain ⟨n, hn⟩ := exists_matchAt?_placeholder (a.getLast?.or before) hc
    (b ++ ':' :: (type ++ rest))
  have hnone := hleft a (':' :: c :: (b ++ ':' :: (type ++ rest))) (by simp) (by simp)
  cases hnone.symm.trans hn

theorem not_hasPlaceholder_of_search? {before : Option Char} {url : List Char}
    (h : Pattern.placeholder.search? before url = none) : ¬HasPlaceholder url := by
  rintro ⟨a, c, b, rfl, hc⟩
  obtain ⟨m, hm⟩ := exists_matchAt?_placeholder (a.getLast?.or before) hc b
  cases (Pattern.search?_eq_none_iff.1 h a _ rfl).symm.trans hm

/-- The placeholders that the matches of a scan stand for. -/
def ofMatches (ms : List (List Char × Match)) : List Placeholder :=
  ms.map fun (skipped, m) => ⟨skipped, m.group 0⟩

theorem exists_cutAt (before : Option Char) (url : List Char) :
    ∃ last, CutAt url (ofMatches (Pattern.placeholder.allMatches before url)) last := by
  fun_induction Pattern.allMatches Pattern.placeholder before url with
  | case1 before url h => exact ⟨url, .done (not_hasPlaceholder_of_search? h)⟩
  | case2 before url skipped m h hlt ih =>
    obtain ⟨last, hcut⟩ := ih
    obtain ⟨_, rfl, hbefore, hne, htype, hrest, rfl⟩ := search?_placeholder h
    exact ⟨last, .next hbefore hne htype hrest hcut⟩
  | case3 before url skipped m h hlt =>
    obtain ⟨type, hurl, -⟩ := search?_placeholder h
    exact absurd (by simp [hurl]; omega) hlt

theorem hasPlaceholder_append {before type rest : List Char} (hne : type ≠ [])
    (htype : ∀ c ∈ type, Pattern.isLower c = true) :
    HasPlaceholder (before ++ ':' :: (type ++ rest)) := by
  obtain ⟨c, cs, rfl⟩ := List.exists_cons_of_ne_nil hne
  exact ⟨before, c, cs ++ rest, rfl, htype c List.mem_cons_self⟩

/-- Nothing in front of a cut is a placeholder, so a cut is not behind another one. -/
theorem length_before_le {before before' type s s' : List Char} (hne : type ≠ [])
    (htype : ∀ c ∈ type, Pattern.isLower c = true) (hbefore : ¬HasPlaceholder before')
    (h : before ++ ':' :: (type ++ s) = before' ++ ':' :: s') : before'.length ≤ before.length := by
  apply Nat.not_lt.1
  intro hlt
  obtain ⟨u, rfl, hu⟩ := exists_append_of_append_eq h (Nat.le_of_lt hlt)
  obtain ⟨c, cs, rfl⟩ := List.exists_cons_of_ne_nil hne
  have hc : Pattern.isLower c = true := htype c List.mem_cons_self
  match u with
  | [] => simp at hlt
  | [d] =>
    obtain ⟨-, rfl, -⟩ : ':' = d ∧ c = ':' ∧ _ := by simpa using hu
    cases hc
  | d :: e :: u =>
    obtain ⟨rfl, rfl, -⟩ : ':' = d ∧ c = e ∧ _ := by simpa using hu
    exact hbefore ⟨before, c, u, rfl, hc⟩

theorem CutAt.unique {url last last' : List Char} {ps qs : List Placeholder}
    (h : CutAt url ps last) (h' : CutAt url qs last') : ps = qs ∧ last = last' := by
  induction h generalizing qs with
  | done hnot =>
    cases h' with
    | done => exact ⟨rfl, rfl⟩
    | next _ hne htype => exact absurd (hasPlaceholder_append hne htype) hnot
  | @next before type rest last ps hbefore hne htype hrest hcut ih =>
    generalize hurl : before ++ ':' :: (type ++ rest) = url at h'
    cases h' with
    | done hnot => exact absurd (hurl ▸ hasPlaceholder_append hne htype) hnot
    | @next before' type' rest' _ qs hbefore' hne' htype' hrest' hcut' =>
      have hlength := Nat.le_antisymm (length_before_le hne' htype' hbefore hurl.symm)
        (length_before_le hne htype hbefore' hurl)
      obtain ⟨rfl, htail⟩ := List.append_inj hurl hlength
      have htail : type ++ rest = type' ++ rest' := by simpa using htail
      have htypes : type = type' := by
        rw [← takeWhile_append_of_all htype hrest, htail, takeWhile_append_of_all htype' hrest']
      subst htypes
      obtain rfl := List.append_cancel_left htail
      obtain ⟨rfl, rfl⟩ := ih hcut'
      exact ⟨rfl, rfl⟩

/-! ## The template -/

/-- A line is accepted if all three parts are found in it. -/
theorem parse_eq_ok_iff {line : String} {s : Logged Signature} :
    parse line = .ok s ↔
      ∃ verb url arguments, firstGroup? Pattern.verb line.toList = some verb ∧
        firstGroup? Pattern.url line.toList = some url ∧
        firstGroup? Pattern.handler line.toList = some arguments ∧
        s = ofParts verb url (argumentNames arguments) := by
  cases hverb : firstGroup? Pattern.verb line.toList with
  | none => simp [parse, hverb]
  | some verb =>
    cases hurl : firstGroup? Pattern.url line.toList with
    | none => simp [parse, hverb, hurl]
    | some url =>
      cases harguments : firstGroup? Pattern.handler line.toList with
      | none => simp [parse, hverb, hurl, harguments]
      | some arguments => simp [parse, hverb, hurl, harguments, eq_comm]

/-- The text behind the last placeholder that has a name stays as it is. -/
theorem exists_substitute (before : Option Char) (url : List Char) (names : List String) :
    ∃ rest, url = ((ofMatches (Pattern.placeholder.allMatches before url)).take
        names.length).flatMap Placeholder.text ++ rest ∧
      substitute url (Pattern.placeholder.allMatches before url) names =
        ((ofMatches (Pattern.placeholder.allMatches before url)).zip names).flatMap
          (fun (p, name) => p.named name) ++ rest := by
  fun_induction Pattern.allMatches Pattern.placeholder before url generalizing names with
  | case1 before url h => exact ⟨url, by simp [ofMatches], rfl⟩
  | case2 before url skipped m h hlt ih =>
    obtain ⟨_, rfl, -, -, -, -, rfl⟩ := search?_placeholder h
    cases names with
    | nil => exact ⟨_, rfl, rfl⟩
    | cons name names =>
      obtain ⟨rest, hurl, htemplate⟩ := ih names
      refine ⟨rest, ?_, ?_⟩
      · have hcut := congrArg (fun r => skipped ++ ':' :: (m.group 0 ++ r)) hurl
        simpa [ofMatches, Placeholder.text] using hcut
      · rw [substitute, htemplate]
        simp [ofMatches, Placeholder.named]
  | case3 before url skipped m h hlt => exact ⟨url, by simp [ofMatches], rfl⟩

theorem pathParameters_eq (ms : List (List Char × Match)) (names : List String) :
    pathParameters ms names =
      ((ofMatches ms).zip names).map fun (p, name) => ⟨name, String.ofList p.type⟩ := by
  induction ms generalizing names with
  | nil => rfl
  | cons m ms ih =>
    cases names with
    | nil => rfl
    | cons name names => exact congrArg (_ :: ·) (ih names)

/-- The URL of an accepted declaration is cut at its placeholders, in the only way there is. As many
of them as there are both placeholders and names are replaced by the names, and give the parameters.
All other text stays, and a difference in number is reported. -/
theorem urlTemplate_of_parse {line : String} {s : Logged Signature} (h : parse line = .ok s) :
    ∃ url ps last, rawUrl? line.toList = some url ∧ CutAt url ps last ∧
      (∀ qs last', CutAt url qs last' → qs = ps ∧ last' = last) ∧
      (∃ rest, url = (ps.take s.result.parameterNames.length).flatMap Placeholder.text ++ rest ∧
        s.result.urlTemplate = String.ofList ((ps.zip s.result.parameterNames).flatMap
          (fun (p, name) => p.named name) ++ rest)) ∧
      s.result.parameters = (ps.zip s.result.parameterNames).map
        (fun (p, name) => ⟨name, String.ofList p.type⟩) ∧
      s.log = if ps.length = s.result.parameterNames.length then []
        else [.placeholderCount (String.ofList url) ps.length s.result.parameterNames.length] := by
  obtain ⟨verb, url, arguments, -, hurl, -, rfl⟩ := parse_eq_ok_iff.1 h
  rw [firstGroup?_url] at hurl
  obtain ⟨last, hcut⟩ := exists_cutAt none url
  obtain ⟨rest, hrest, htemplate⟩ := exists_substitute none url (argumentNames arguments)
  refine ⟨url, _, last, hurl, hcut, fun qs last' h' => ?_, ⟨rest, hrest, ?_⟩, ?_, ?_⟩
  · exact h'.unique hcut
  · exact congrArg String.ofList htemplate
  · exact pathParameters_eq _ _
  · simp only [ofParts, placeholders, ofMatches, List.length_map]
    rfl

/-- A declaration with three placeholders, two of them next to each other, and two names. -/
def adjacentLine : String := "routes:get(\"@/a::int:Xy/:str:abc\", function(req, index, doc)"

theorem urlTemplate_of_parse_adjacent :
    ∃ s url ps last, parse adjacentLine = .ok s ∧ rawUrl? adjacentLine.toList = some url ∧
      CutAt url ps last ∧ s.result.parameters = (ps.zip s.result.parameterNames).map
        (fun (p, name) => ⟨name, String.ofList p.type⟩) := by
  have hparse : ∃ s, parse adjacentLine = .ok s := ⟨_, rfl⟩
  obtain ⟨s, hs⟩ := hparse
  obtain ⟨url, ps, last, hurl, hcut, -, -, hparameters, -⟩ := urlTemplate_of_parse hs
  exact ⟨s, url, ps, last, hs, hurl, hcut, hparameters⟩

end RouteDocs.Signature
