import RouteDocs.Proofs.Route.Declaration

/-!
# Writing declarations and reading them again

A declaration can be written with any verb, any URL and any names for the arguments of its handler.
Its verb and its URL are always read as they are written. The names are read from the first argument
list that is opened in the line. This is the one of the handler, unless the verb ends with the word
of a handler, or the URL holds that word with a bracket behind it.

## Main definitions

* `WrittenDeclaration`: the parts of a declaration, with `WrittenDeclaration.text`.
* `WrittenDeclaration.HidesHandler`: an argument list is opened in front of the handler.
* `WrittenDeclaration.IsRead`: a signature says what is written.

## Main statements

* `WrittenDeclaration.exists_argumentsAt_iff`: when an argument list stands in front of the handler.
* `WrittenDeclaration.parse_text`: what is read from a written declaration.
-/

namespace RouteDocs.Signature

open Text Source

/-! ## Identifiers -/

theorem isSpace_of_isIdentifierRest {c : Char} (h : Pattern.isIdentifierRest c = true) :
    isSpace c = false := by
  have hle : ∀ {a b : Char}, a ≤ b ↔ a.toNat ≤ b.toNat := Iff.rfl
  have hrange : 48 ≤ c.toNat ∧ c.toNat ≤ 122 := by
    simp [Pattern.isIdentifierRest, Pattern.isIdentifierStart, Pattern.isLower, hle,
      ← Char.toNat_inj] at h
    omega
  simp [isSpace]
  omega

namespace IsIdentifier

variable {s : List Char}

theorem isIdentifierRest (h : IsIdentifier s) {c : Char} (hc : c ∈ s) :
    Pattern.isIdentifierRest c = true := by
  obtain ⟨d, cs, rfl, hd, hcs⟩ := h
  rcases List.mem_cons.1 hc with rfl | hc
  · simp [Pattern.isIdentifierRest, hd]
  · exact hcs c hc

theorem not_mem (h : IsIdentifier s) {c : Char} (hc : Pattern.isIdentifierRest c = false) :
    c ∉ s := fun hmem => by simp [h.isIdentifierRest hmem] at hc

theorem isSpace_eq_false (h : IsIdentifier s) {c : Char} (hc : c ∈ s) : isSpace c = false :=
  isSpace_of_isIdentifierRest (h.isIdentifierRest hc)

/-- White space in front of an identifier is all that is trimmed. -/
theorem isTrimmed_append (h : IsIdentifier s) (space : List Char)
    (hspace : ∀ c ∈ space, isSpace c = true) : IsTrimmed (space ++ s) s :=
  ⟨space, [], by simp, hspace, by simp, fun _ hc => h.isSpace_eq_false (List.mem_of_mem_head? hc),
    fun _ hc => h.isSpace_eq_false (List.mem_of_mem_getLast? hc)⟩

theorem isEmpty_eq_false (h : IsIdentifier s) : s.isEmpty = false := by
  obtain ⟨c, cs, rfl, -⟩ := h
  rfl

end IsIdentifier

/-! ## Cutting a text at a character -/

/-- A part of a text that lacks a character stands in front of an occurrence of it or behind it. -/
theorem cut_of_not_mem {c : Char} {past t rest a b : List Char} (hc : c ∉ t)
    (h : past ++ (t ++ rest) = a ++ c :: b) :
    (∃ r, a = past ++ (t ++ r) ∧ rest = r ++ c :: b) ∨
      ∃ u, past = a ++ c :: u ∧ b = u ++ (t ++ rest) := by
  rcases Nat.lt_or_ge a.length past.length with hlt | hle
  · obtain ⟨u, rfl, hu⟩ := exists_append_of_append_eq h.symm (Nat.le_of_lt hlt)
    cases u with
    | nil => simp at hlt
    | cons d u =>
      obtain ⟨rfl, rfl⟩ : c = d ∧ b = u ++ (t ++ rest) := by simpa using hu
      exact .inr ⟨u, rfl, rfl⟩
  · obtain ⟨u, rfl, hu⟩ := exists_append_of_append_eq h hle
    rcases Nat.lt_or_ge u.length t.length with hlt | hle
    · obtain ⟨v, rfl, hv⟩ := exists_append_of_append_eq hu.symm (Nat.le_of_lt hlt)
      cases v with
      | nil => simp at hlt
      | cons d v =>
        obtain ⟨rfl, -⟩ : c = d ∧ b = v ++ rest := by simpa using hv
        simp at hc
    · obtain ⟨r, rfl, hr⟩ := exists_append_of_append_eq hu hle
      exact .inl ⟨r, rfl, hr⟩

theorem OpensArguments.not_mem {t : List Char} (h : OpensArguments t) {c : Char}
    (hc : isSpace c = false) (hword : c ∉ handlerWord) (hbracket : c ≠ '(') : c ∉ t := by
  obtain ⟨space, rfl, hspace⟩ := h
  intro hmem
  have hcases : c ∈ handlerWord ∨ c ∈ space ∨ c = '(' := by simpa using hmem
  rcases hcases with hmem | hmem | rfl
  · exact hword hmem
  · simp [hspace c hmem] at hc
  · exact hbracket rfl

/-! ## Written declarations -/

/-- The parts of a declaration. -/
structure WrittenDeclaration where
  verb : String
  url : String
  /-- The first argument of the handler. -/
  request : String
  /-- The other arguments of the handler. -/
  names : List String
  isIdentifier_verb : IsIdentifier verb.toList
  rooted : ['/'] <+: url.toList
  unquoted : '"' ∉ url.toList
  isIdentifier_request : IsIdentifier request.toList
  isIdentifier_names : ∀ n ∈ names, IsIdentifier n.toList

namespace WrittenDeclaration

variable (d : WrittenDeclaration)

/-- The declaration as a line. -/
def text : String :=
  "routes:" ++ d.verb ++ "(\"@" ++ d.url ++ "\", function(" ++
    ", ".intercalate (d.request :: d.names) ++ ")"

/-- What stands in front of the handler. -/
def lead : List Char :=
  declarationWord ++ (d.verb.toList ++ '(' :: '"' :: '@' :: (d.url.toList ++ ['"', ',', ' ']))

/-- What stands between the brackets of the handler. -/
def arguments : List Char :=
  List.intercalate [',', ' '] ((d.request :: d.names).map String.toList)

theorem toList_text :
    d.text.toList = d.lead ++ (handlerWord ++ '(' :: (d.arguments ++ [')'])) := by
  simp [text, lead, arguments, declarationWord, handlerWord, String.toList_intercalate]

/-- The verb ends with the word of a handler, and its own bracket follows. Or the URL opens an
argument list. -/
def HidesHandler : Prop :=
  handlerWord <:+ d.verb.toList ∨ ∃ t, OpensArguments t ∧ t <:+: d.url.toList

/-- A signature says what is written: its names take the place of the placeholders of the URL, from
left to right, as long as there are both. -/
structure IsRead (s : Signature) : Prop where
  verb : s.verb = d.verb
  parameterNames : s.parameterNames = d.names
  substituted : ∃ ps last rest, CutAt d.url.toList ps last ∧
    d.url.toList = (ps.take d.names.length).flatMap Placeholder.text ++ rest ∧
    s.urlTemplate =
      String.ofList ((ps.zip d.names).flatMap (fun (p, name) => p.named name) ++ rest) ∧
    s.parameters = (ps.zip d.names).map fun (p, name) => ⟨name, String.ofList p.type⟩

/-! ## The parts of the line -/

theorem callsVerb_text : CallsVerb d.text.toList d.verb.toList :=
  ⟨[], '"' :: '@' :: (d.url.toList ++ ['"', ',', ' '] ++ (handlerWord ++ '(' :: (d.arguments ++
    [')']))), by simp [toList_text, lead], by simp, d.isIdentifier_verb⟩

/-- No quote stands in front of the URL. -/
theorem quote_not_mem : '"' ∉ declarationWord ++ (d.verb.toList ++ ['(']) := by
  have hverb := d.isIdentifier_verb.not_mem (c := '"') (by decide)
  simp [declarationWord, hverb]

theorem firstUrl_text : FirstUrl d.text.toList d.url.toList := by
  obtain ⟨path, hpath⟩ := d.rooted
  have hunquoted : '"' ∉ path := fun hmem => d.unquoted (by simp [← hpath, hmem])
  have hline : d.text.toList = declarationWord ++ (d.verb.toList ++ ['(']) ++
      (['"', '@', '/'] ++ (path ++ '"' :: ([',', ' '] ++ (handlerWord ++
        '(' :: (d.arguments ++ [')']))))) := by
    simp [toList_text, lead, ← hpath]
  rw [← rawUrl?_eq_some_iff, rawUrl?, hline, splitAtFirst?_append_of_not_mem d.quote_not_mem,
    splitAtFirst?_self_append]
  simp [splitAtFirst?_singleton hunquoted, ← hpath]

/-- The names are separated by commas, and a space stands in front of each. -/
theorem arguments_eq : d.arguments =
    List.intercalate [','] (d.request.toList :: d.names.map fun n => ' ' :: n.toList) := by
  rw [arguments, List.map_cons]
  generalize d.request.toList = first
  induction d.names generalizing first with
  | nil => simp
  | cons name names ih =>
    simp only [List.map_cons, List.intercalate_cons_cons, ih]
    cases names <;> simp

theorem closing_not_mem_arguments : ')' ∉ d.arguments := by
  intro hmem
  rcases mem_of_mem_intercalate hmem with hmem | ⟨p, hp, hmem⟩
  · simp at hmem
  · obtain ⟨n, hn, rfl⟩ := List.mem_map.1 hp
    have hidentifier : IsIdentifier n.toList := by
      rcases List.mem_cons.1 hn with rfl | hn
      · exact d.isIdentifier_request
      · exact d.isIdentifier_names n hn
    exact hidentifier.not_mem (by decide) hmem

theorem argumentsAt_lead : ArgumentsAt d.text.toList d.lead d.arguments :=
  ⟨handlerWord ++ ['('], [], ⟨[], by simp, by simp⟩, by simp [toList_text],
    d.closing_not_mem_arguments⟩

theorem names_arguments : Names d.arguments d.names := by
  refine ⟨d.request.toList :: d.names.map fun n => ' ' :: n.toList,
    d.request.toList :: d.names.map String.toList, by simp, ?_, d.arguments_eq.symm, ?_, ?_⟩
  · have hrequest : ',' ∉ d.request.toList := d.isIdentifier_request.not_mem (by decide)
    have hnames : ∀ n ∈ d.names, ',' ∉ n.toList := fun n hn =>
      (d.isIdentifier_names n hn).not_mem (by decide)
    simpa [hrequest] using hnames
  · refine .cons (d.isIdentifier_request.isTrimmed_append [] (by simp)) ?_
    rw [List.forall₂_map_left_iff, List.forall₂_map_right_iff, List.forall₂_same]
    exact fun n hn => (d.isIdentifier_names n hn).isTrimmed_append [' '] (by simp [isSpace])
  · have hfilter : (d.names.map String.toList).filter (fun a => !a.isEmpty) =
        d.names.map String.toList := by
      refine List.filter_eq_self.2 (List.forall_mem_map.2 fun n hn => ?_)
      simp [(d.isIdentifier_names n hn).isEmpty_eq_false]
    rw [List.filter_cons_of_pos (by simp [d.isIdentifier_request.isEmpty_eq_false]), hfilter]
    simp [Function.comp_def]

/-! ## Argument lists in front of the handler -/

/-- The call opens an argument list only if the verb ends with the word of a handler. -/
theorem suffix_verb_of_opensArguments {past t rest : List Char} (ht : OpensArguments t)
    (h : past ++ (t ++ rest) = declarationWord ++ (d.verb.toList ++ ['('])) :
    handlerWord <:+ d.verb.toList := by
  obtain ⟨space, rfl, hspace⟩ := ht
  have hverb : '(' ∉ d.verb.toList := d.isIdentifier_verb.not_mem (by decide)
  have hbracket : '(' ∉ handlerWord ++ space := by
    simpa [handlerWord] using fun hmem => absurd (hspace _ hmem) (by decide)
  have hcolon : ':' ∉ handlerWord ++ space := by
    simpa [handlerWord] using fun hmem => absurd (hspace _ hmem) (by decide)
  -- the bracket of the list is that of the call
  have hcut : past ++ (handlerWord ++ space ++ '(' :: rest) =
      declarationWord ++ d.verb.toList ++ '(' :: [] := by simpa using h
  rcases cut_of_not_mem hbracket hcut with ⟨r, hr, hrest⟩ | ⟨u, -, hu⟩
  · have hr' : r = [] := by
      cases r with
      | nil => rfl
      | cons c r =>
        obtain rfl : '(' = c := by simpa using congrArg List.head? hrest
        have hmem : '(' ∈ declarationWord ++ d.verb.toList := by simp [hr]
        simp [declarationWord, hverb] at hmem
    subst hr'
    -- the word starts behind the colon of the declaration
    rcases cut_of_not_mem (a := ['r', 'o', 'u', 't', 'e', 's']) (b := d.verb.toList) hcolon
      hr.symm with ⟨v, -, hv⟩ | ⟨v, -, hv⟩
    · simp at hv
    · have hnone : space = [] := by
        refine List.eq_nil_iff_forall_not_mem.2 fun c hc => ?_
        have hsolid := d.isIdentifier_verb.isSpace_eq_false (c := c) (by simp [hv, hc])
        simp [hspace c hc] at hsolid
      exact ⟨v, by simp [hv, hnone]⟩
  · simp at hu

/-- An argument list in front of that of the handler is opened by the call or in the URL: what it is
opened with has no quote, so it stands in front of the quotes of the URL, between them or behind. -/
theorem hidesHandler_of_argumentsAt {past arguments : List Char}
    (h : ArgumentsAt d.text.toList past arguments) (hlt : past.length < d.lead.length) :
    d.HidesHandler := by
  obtain ⟨t, rest, ht, hline, -⟩ := h
  have hquote : '"' ∉ t := ht.not_mem (by decide) (by decide) (by decide)
  have hcut : past ++ (t ++ (arguments ++ ')' :: rest)) =
      declarationWord ++ (d.verb.toList ++ ['(']) ++ '"' :: ('@' :: d.url.toList ++
        '"' :: ([',', ' '] ++ (handlerWord ++ '(' :: (d.arguments ++ [')'])))) := by
    simp [← hline, toList_text, lead]
  rcases cut_of_not_mem hquote hcut with ⟨r, hr, -⟩ | ⟨u, rfl, hu⟩
  · exact .inl (d.suffix_verb_of_opensArguments ht hr.symm)
  · obtain ⟨word, hword⟩ : ∃ s, t = 'f' :: s := by
      obtain ⟨space, rfl, -⟩ := ht
      exact ⟨_, rfl⟩
    rcases cut_of_not_mem hquote hu.symm with ⟨r, hr, -⟩ | ⟨v, rfl, hv⟩
    · refine .inr ⟨t, ht, ?_⟩
      cases u with
      | nil => simp [hword] at hr
      | cons c u =>
        obtain ⟨-, hurl⟩ : '@' = c ∧ d.url.toList = u ++ (t ++ r) := by simpa using hr
        exact ⟨u, r, by simp [hurl]⟩
    · -- behind the URL nothing is left in front of the handler but a comma and a space
      exfalso
      match v with
      | [] => simp [hword] at hv
      | [_] => simp [hword] at hv
      | _ :: _ :: v =>
        simp only [lead, List.length_append, List.length_cons, List.length_nil] at hlt
        omega

/-- The bracket of the handler closes every argument list that is opened in front of it. -/
theorem HidesHandler.exists_argumentsAt (h : d.HidesHandler) :
    ∃ past arguments, ArgumentsAt d.text.toList past arguments ∧ past.length < d.lead.length := by
  rcases h with ⟨w, hw⟩ | ⟨t, ht, w, v, hurl⟩
  · have hopens : OpensArguments (handlerWord ++ ['(']) := ⟨[], by simp, by simp⟩
    obtain ⟨arguments, hat⟩ := Signature.exists_argumentsAt hopens (s := '"' :: '@' ::
      (d.url.toList ++ ['"', ',', ' '] ++ (handlerWord ++ '(' :: (d.arguments ++ [')']))))
      (by simp) (declarationWord ++ w)
    refine ⟨_, arguments, by simpa [toList_text, lead, ← hw] using hat, ?_⟩
    simp only [lead, ← hw, List.length_append, List.length_cons]
    omega
  · obtain ⟨arguments, hat⟩ := Signature.exists_argumentsAt ht (s := v ++ (['"', ',', ' '] ++
      (handlerWord ++ '(' :: (d.arguments ++ [')'])))) (by simp)
      (declarationWord ++ (d.verb.toList ++ '(' :: '"' :: '@' :: w))
    refine ⟨_, arguments, by simpa [toList_text, lead, ← hurl] using hat, ?_⟩
    simp only [lead, ← hurl, List.length_append, List.length_cons]
    omega

/-- An argument list stands in front of that of the handler exactly if the handler is hidden. -/
theorem exists_argumentsAt_iff :
    (∃ past arguments, ArgumentsAt d.text.toList past arguments ∧ past.length < d.lead.length) ↔
      d.HidesHandler :=
  ⟨fun ⟨_, _, hat, hlt⟩ => d.hidesHandler_of_argumentsAt hat hlt,
    fun h => HidesHandler.exists_argumentsAt d h⟩

theorem not_hidesHandler (hverb : ¬handlerWord <:+ d.verb.toList) (hurl : '(' ∉ d.url.toList) :
    ¬d.HidesHandler := by
  rintro (hword | ⟨t, ⟨space, rfl, -⟩, hlist⟩)
  · exact hverb hword
  · exact hurl (hlist.subset (by simp))

/-! ## Reading -/

/-- The first argument list of the line stands in front of the handler exactly if the handler is
hidden. Otherwise it is that of the handler. -/
theorem exists_first :
    ∃ past arguments, ArgumentsAt d.text.toList past arguments ∧
      (∀ past' arguments', ArgumentsAt d.text.toList past' arguments' →
        past.length ≤ past'.length) ∧
      (d.HidesHandler ↔ past.length < d.lead.length) ∧
      (¬d.HidesHandler → arguments = d.arguments) := by
  obtain ⟨arguments, past, hat, hfirst⟩ :=
    exists_firstArguments_iff.2 d.argumentsAt_lead.hasHandler
  have hhides : d.HidesHandler ↔ past.length < d.lead.length := by
    rw [← exists_argumentsAt_iff]
    constructor
    · rintro ⟨past', arguments', hat', hlt⟩
      exact Nat.lt_of_le_of_lt (hfirst past' arguments' hat') hlt
    · exact fun hlt => ⟨past, arguments, hat, hlt⟩
  refine ⟨past, arguments, hat, hfirst, hhides, fun hnot => ?_⟩
  have hlen := Nat.le_antisymm (hfirst _ _ d.argumentsAt_lead)
    (Nat.not_lt.1 fun hlt => hnot (hhides.2 hlt))
  exact (hat.unique d.argumentsAt_lead hlen).2

theorem isRead_ofParts : d.IsRead (ofParts d.verb.toList d.url.toList d.names).result := by
  obtain ⟨last, hcut⟩ := exists_cutAt none d.url.toList
  obtain ⟨rest, hrest, htemplate⟩ := exists_substitute none d.url.toList d.names
  exact ⟨String.ofList_toList, rfl, _, last, rest, hcut, hrest, congrArg String.ofList htemplate,
    pathParameters_eq _ _⟩

/-- A written declaration is always accepted, with the verb and the URL that are written. Its names
are those of the first argument list in the line. This list stands in front of the handler exactly
if the handler is hidden. If it is not, then the signature says what is written. -/
theorem parse_text (d : WrittenDeclaration) :
    ∃ s past arguments, parse d.text = .ok s ∧
      s = ofParts d.verb.toList d.url.toList s.result.parameterNames ∧
      ArgumentsAt d.text.toList past arguments ∧
      (∀ past' arguments', ArgumentsAt d.text.toList past' arguments' →
        past.length ≤ past'.length) ∧
      Names arguments s.result.parameterNames ∧
      (d.HidesHandler ↔ past.length < d.lead.length) ∧
      (¬d.HidesHandler → d.IsRead s.result) := by
  obtain ⟨past, arguments, hat, hfirst, hhides, hhandler⟩ := d.exists_first
  refine ⟨ofParts d.verb.toList d.url.toList (argumentNames arguments), past, arguments,
    parse_eq_ok_iff_parts.2 ⟨_, _, arguments, _, d.callsVerb_text, d.firstUrl_text,
      ⟨past, hat, hfirst⟩, argumentNames_eq_iff.1 rfl, rfl⟩, rfl, hat, hfirst,
    argumentNames_eq_iff.1 rfl, hhides, fun hnot => ?_⟩
  rw [hhandler hnot, argumentNames_eq_iff.2 d.names_arguments]
  exact d.isRead_ofParts

/-- A declaration whose verb is not that of a handler and whose URL has no bracket. -/
def plain : WrittenDeclaration where
  verb := "get"
  url := "/cats/:int/toys/:str"
  request := "req"
  names := ["cat", "toy"]
  isIdentifier_verb := by decide
  rooted := by decide
  unquoted := by decide
  isIdentifier_request := by decide
  isIdentifier_names := by decide

theorem parse_text_plain : ∃ s, parse plain.text = .ok s ∧ plain.IsRead s.result := by
  obtain ⟨s, _, _, hs, -, -, -, -, -, hread⟩ := parse_text plain
  exact ⟨s, hs, hread (plain.not_hidesHandler (by decide) (by decide))⟩

/-- A declaration with an argument list in its URL. -/
def listInUrl : WrittenDeclaration where
  verb := "get"
  url := "/function(a,b)/:int"
  request := "req"
  names := ["id"]
  isIdentifier_verb := by decide
  rooted := by decide
  unquoted := by decide
  isIdentifier_request := by decide
  isIdentifier_names := by decide

/-- The names are those in the URL. -/
theorem parse_text_listInUrl :
    ∃ s, parse listInUrl.text = .ok s ∧ s.result.parameterNames = ["b"] ∧
      ¬listInUrl.IsRead s.result := by
  have hnames : (parse listInUrl.text).toOption.map (·.result.parameterNames) = some ["b"] := by
    decide +kernel
  cases hs : parse listInUrl.text with
  | error m => simp [hs, Except.toOption] at hnames
  | ok s =>
    have hb : s.result.parameterNames = ["b"] := by simpa [hs, Except.toOption] using hnames
    refine ⟨s, rfl, hb, fun hread => ?_⟩
    have hid : ["b"] = ["id"] := hb.symm.trans hread.parameterNames
    simp at hid

end WrittenDeclaration

end RouteDocs.Signature
