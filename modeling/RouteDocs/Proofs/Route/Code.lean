import RouteDocs.Proofs.Route.Response
import RouteDocs.Proofs.Yaml.Value.Last

/-!
# Codes that are written more than once

A code may be written more than once: again with the same key, or with another key that becomes the
same text, as `200` and `'200'` do. Repeats of a key are resolved when the comment is loaded, and
the key stays where it comes up first. Of different keys for a code, that one counts which is behind
the others then. So the entry that is written last for a code need not be the one that its response
is made from. It is if all keys for the code are the same.

## Main definitions

* `Annotation.writtenResponses?`: the entries of the responses as they are written.
* `Annotation.LastWritten`: the last entry that is written for a code.
* `Annotation.Counts`: the entry that is kept for a code.
* `Annotation.Untouched`: a code whose keys a merge leaves as they are.

## Main statements

* `Annotation.get?_responses_parse_of_untouched`: the entry that the response for a code is made
  from.
-/

namespace RouteDocs

open Yaml

/-! ## What is written at a key -/

namespace Yaml.Entries

/-- The entries with the last one first. Only their keys are loaded. -/
def latest (es : Entries) : Entries := es.reverse.map fun e => (e.1.keepLast, e.2)

/-- The entries as they are loaded. -/
def loaded (es : Entries) : Entries := ofList (Value.keepLastEntries es)

variable {es : Entries} {k : Value}

theorem get?_loaded (es : Entries) (k : Value) :
    es.loaded.get? k = (es.latest.get? k).map Value.keepLast := by
  rw [loaded, get?_ofList fun e he => Value.isProper_of_mem_keepLastEntries he, last?,
    Value.keepLastEntries_eq_map, ← List.map_reverse]
  simp only [get?, latest, List.find?_map, Option.map_map]
  rfl

theorem entries?_keepLast (v : Value) :
    v.keepLast.entries? = v.entries?.map loaded := by
  cases v <;> rfl

/-- The sources of a mapping are those that are written last under the merge key. -/
theorem mergeSources?_loaded (es : Entries) :
    es.loaded.mergeSources? = es.latest.mergeSources?.map (List.map loaded) := by
  unfold mergeSources?
  rw [get?_loaded]
  cases es.latest.get? mergeKey with
  | none => rfl
  | some v =>
    cases v with
    | sequence items =>
      have hitems : (items.map Value.keepLast).mapM Value.entries? =
          (items.mapM Value.entries?).map (List.map loaded) :=
        List.mapM_map.trans (mapM_eq_map_mapM entries?_keepLast)
      simp only [Option.map_some, Value.keepLast, Value.keepLastItems_eq_map, hitems]
    | null | bool | number | string | mapping | tagged => rfl

/-- What stands at a key after the merge is what is written last there. -/
theorem mergedValue?_loaded (es : Entries) (sources : List Entries) (k : Value) :
    es.loaded.mergedValue? (sources.map loaded) k =
      (es.latest.mergedValue? (sources.map latest) k).map Value.keepLast := by
  have hsources : (sources.map loaded).findSome? (·.get? k) =
      ((sources.map latest).findSome? (·.get? k)).map Value.keepLast := by
    simp only [List.findSome?_map, List.map_findSome?, Function.comp_def, get?_loaded]
  rw [mergedValue?, mergedValue?, hsources, Option.map_or, get?_loaded]
  split <;> rfl

end Yaml.Entries

namespace Annotation

/-! ## The entries of the responses -/

/-- The entries of the responses, in the order in which they are written, with loaded keys and
values. Those with repeated keys are all there. -/
def writtenResponses? (comment : String) : Option Entries := do
  let es ← (← Value.readAll? (Text.dedent comment.toList)).entries?
  let sources ← es.latest.mergeSources?
  let responses ← es.latest.mergedValue? (sources.map Entries.latest) (.string "responses")
  return Value.keepLastEntries (← responses.entries?)

/-- A key for the code. The merge key is not one. -/
def WrittenFor (code : String) (k : Value) : Prop := k.same mergeKey = false ∧ k.keyString = code

/-- The last entry that is written for a code. -/
def LastWritten (ws : Entries) (code : String) (e : Value × Value) : Prop :=
  IsLast (fun f => WrittenFor code f.1) ws e

/-- The entry that is kept for a code: of the keys for it, each where it is written first, the last
one counts, and of the entries with this key the last one. -/
def Counts (ws : Entries) (code : String) (e : Value × Value) : Prop :=
  ∃ k, IsLast (WrittenFor code) (ws.firsts.map Prod.fst) k ∧
    IsLast (fun f => f.1.same k = true) ws e

/-- The key `k` is that of all entries for the code, and of no others. -/
def SpelledAs (ws : Entries) (code : String) (k : Value) : Prop :=
  ∀ e ∈ ws, e.1.same mergeKey = false → (e.1.same k = true ↔ e.1.keyString = code)

/-- The responses have all keys for the code themselves that the sources of their merge have. -/
def OwnKeys (ws : Entries) (sources : List Entries) (code : String) : Prop :=
  ∀ fs ∈ sources, ∀ f ∈ fs, f.1.keyString = code →
    ∃ e ∈ ws, e.1.same mergeKey = false ∧ e.1.same f.1 = true

/-- A merge of `sources` into the responses leaves the keys for the code as they are. -/
structure Untouched (ws : Entries) (sources : List Entries) (code : String) : Prop where
  /-- No source brings in a key for the code. -/
  own : OwnKeys ws sources code
  /-- When the merge key is taken out, the last key of all is put in its place. If that is a key for
  the code, then there is no other one between the two. -/
  kept : ∀ front m mid last, ws.firsts.map Prod.fst = front ++ m :: (mid ++ [last]) →
    m.same mergeKey = true → WrittenFor code last → ∀ k ∈ mid, ¬WrittenFor code k

variable {settings : Settings} {comment code : String} {es codes ws : Entries}
  {sources : List Entries} {e : Value × Value}

/-- What is written in the responses, and how they are merged. -/
theorem exists_writtenResponses (h : Loads comment (.mapping es))
    (hcodes : es.field? "responses" = some (.mapping codes)) :
    ∃ ws, writtenResponses? comment = some ws ∧
      (∀ e ∈ ws, e.1.IsProper ∧ e.2.IsProper) ∧
      (Value.mapping (Entries.ofList ws)).merge? = some (.mapping codes) := by
  obtain ⟨u, hread, hmerge⟩ := h
  have hu := Value.isProper_of_read? hread
  obtain ⟨us, sources, rfl, hsources⟩ := Value.exists_of_merge?_eq_mapping hu hmerge
  obtain ⟨gs, hgs, hget⟩ := Value.exists_of_merge?_mapping hu hsources hmerge
  cases hgs
  -- the value of the responses before it is merged
  obtain ⟨x, hx, hmerged⟩ : ∃ x, us.mergedValue? sources (.string "responses") = some x ∧
      x.merge? = some (.mapping codes) := by
    have hrel := hget (.string "responses")
    rw [show es.get? (.string "responses") = some (.mapping codes) from hcodes] at hrel
    generalize us.mergedValue? sources (.string "responses") = x at hrel
    cases hrel with
    | some h => exact ⟨_, rfl, h⟩
  rw [Value.read?_eq_map_readAll?] at hread
  obtain ⟨all, hall, heq⟩ := Option.map_eq_some_iff.1 hread
  obtain ⟨rs, rfl⟩ : ∃ rs : Entries, all = .mapping rs := by
    cases all <;> simp [Value.keepLast] at heq ⊢
  obtain rfl : Entries.loaded rs = us := Value.mapping.inj heq
  rw [← Entries.mergeSources?_eq_some_iff, Entries.mergeSources?_loaded] at hsources
  obtain ⟨written, hwritten, rfl⟩ := Option.map_eq_some_iff.1 hsources
  rw [Entries.mergedValue?_loaded] at hx
  obtain ⟨r, hr, rfl⟩ := Option.map_eq_some_iff.1 hx
  obtain ⟨fs, -, hmapping, -⟩ :=
    Value.exists_of_merge?_eq_mapping (Value.isProper_keepLast r) hmerged
  obtain ⟨raw, rfl⟩ : ∃ raw : Entries, r = .mapping raw := by
    cases r <;> simp [Value.keepLast] at hmapping ⊢
  refine ⟨Value.keepLastEntries raw, ?_, fun e he => Value.isProper_of_mem_keepLastEntries he,
    hmerged⟩
  simp [writtenResponses?, hall, hwritten, hr, Value.entries?]

/-! ## Which entry counts -/

section

variable (hws : ∀ e ∈ ws, e.1.IsProper ∧ e.2.IsProper)
include hws

/-- For an untouched code nothing is brought in. So what the merge makes of the responses is made from
their own entries, as far as the code is concerned. -/
theorem Untouched.exists_mapM (h : Untouched ws sources code)
    (hsources : (Entries.ofList ws).MergesFrom sources)
    (hmerge : (Value.mapping (Entries.ofList ws)).merge? = some (.mapping codes)) :
    ∃ added : Entries, (∀ f ∈ added, f.1.keyString ≠ code) ∧
      ((Entries.ofList ws).erase mergeKey ++ added).mapM (fun e => e.2.merge?.map (e.1, ·)) =
        some codes := by
  obtain ⟨added, hadd, hadded⟩ :=
    Entries.exists_foldl_addNew_eq_append ((Entries.ofList ws).erase mergeKey) sources
  obtain ⟨fs, gs, hfs, hmapM, hgs⟩ := Value.exists_mapM_of_merge?_mapping (.ofList hws) hmerge
  obtain rfl := Value.mapping.inj hgs
  cases hfs.symm.trans (Entries.merged?_eq_some_iff.2 ⟨sources, hsources, hadd⟩)
  refine ⟨added, fun f hf hcode => ?_, hmapM⟩
  obtain ⟨⟨fs, hfs, hmem⟩, hnew⟩ := hadded f hf
  obtain ⟨e, he, hkey, hef⟩ := h.own fs hfs f hmem hcode
  obtain ⟨c, hc, hce⟩ := Entries.exists_mem_ofList_of_mem hws he
  have hckey : c.1.same mergeKey = false := (Value.same_string_eq_of_same hce).trans hkey
  simpa [Value.same_trans hce hef] using hnew c ((Entries.mem_erase_ofList_iff hws).2 ⟨hc, hckey⟩)

/-- The key that counts for an untouched code is the last one for it after the merge. -/
theorem Untouched.isLast_append (h : Untouched ws sources code) {added : Entries}
    (hadded : ∀ f ∈ added, f.1.keyString ≠ code) {c : Value × Value}
    (hc : IsLast (fun c => WrittenFor code c.1) (Entries.ofList ws) c) :
    IsLast (fun c => c.1.keyString = code) ((Entries.ofList ws).erase mergeKey ++ added) c := by
  have herase : IsLast (fun c => WrittenFor code c.1) ((Entries.ofList ws).erase mergeKey) c := by
    refine Entries.isLast_erase (fun f hf => hf.1) (fun front m mid last heq hm hlast => ?_) hc
    have hkeys := congrArg (List.map Prod.fst) heq
    rw [Entries.map_fst_ofList hws] at hkeys
    simp only [List.map_append, List.map_cons, List.map_nil] at hkeys
    exact fun f hf => h.kept _ _ _ _ hkeys hm hlast f.1 (List.mem_map_of_mem hf)
  refine isLast_append_iff.2 (.inr ⟨(isLast_congr fun f hf => ?_).1 herase, hadded⟩)
  exact and_iff_right ((Entries.mem_erase_ofList_iff hws).1 hf).2

/-- An entry that counts gives its value to its key. -/
theorem Counts.exists_isLast (h : Counts ws code e) :
    ∃ c, IsLast (fun c => WrittenFor code c.1) (Entries.ofList ws) c ∧ c.2 = e.2 := by
  obtain ⟨k, hk, he⟩ := h
  rw [← Entries.map_fst_ofList hws, isLast_map_iff] at hk
  obtain ⟨c, hc, rfl⟩ := hk
  have hlast : (Entries.ofList ws).get? c.1 = some e.2 := by
    rw [Entries.get?_ofList hws, Entries.last?, Entries.get?, find?_reverse_eq_some_iff.2 he]
    rfl
  have hget := (Value.IsProper.ofList hws).get?_eq_some_iff.2 ⟨c, hc.mem, Value.same_refl _, rfl⟩
  exact ⟨c, hc, Option.some.inj (hget.symm.trans hlast)⟩

/-- Where there is a key for a code, an entry counts for it. -/
theorem exists_counts_of_mem {c : Value × Value} (hc : c ∈ Entries.ofList ws)
    (hcode : WrittenFor code c.1) : ∃ e, Counts ws code e := by
  have hmem : c.1 ∈ ws.firsts.map Prod.fst :=
    Entries.map_fst_ofList hws ▸ List.mem_map_of_mem hc
  obtain ⟨k, hk⟩ := exists_isLast ⟨c.1, hmem, hcode⟩
  obtain ⟨f, hf, rfl⟩ := List.mem_map.1 hk.mem
  obtain ⟨e, he⟩ : ∃ e, IsLast (fun g => g.1.same f.1 = true) ws e :=
    exists_isLast ⟨f, Entries.mem_of_mem_firsts hf, Value.same_refl _⟩
  exact ⟨e, f.1, hk, he⟩

/-- The value of the entry that counts is found under the code after the merge. -/
theorem Untouched.exists_lastValue? (h : Untouched ws sources code)
    (hsources : (Entries.ofList ws).MergesFrom sources)
    (hmerge : (Value.mapping (Entries.ofList ws)).merge? = some (.mapping codes))
    (he : Counts ws code e) : ∃ y, e.2.merge? = some y ∧
      Dict.lastValue? (codes.map fun e => (e.1.keyString, e.2)) code = some y := by
  obtain ⟨added, hadded, hmapM⟩ := h.exists_mapM hws hsources hmerge
  obtain ⟨c, hc, hce⟩ := he.exists_isLast hws
  have hkeys : ∀ c g : Value × Value, c.2.merge?.map (c.1, ·) = some g →
      (g.1.keyString = code ↔ c.1.keyString = code) := by
    intro c g hg
    obtain ⟨y, -, rfl⟩ := Option.map_eq_some_iff.1 hg
    rfl
  obtain ⟨g, hg, hlast⟩ := (h.isLast_append hws hadded hc).exists_of_mapM hmapM hkeys
  obtain ⟨y, hy, rfl⟩ := Option.map_eq_some_iff.1 hg
  exact ⟨y, hce ▸ hy, lastValue?_map_eq_some_iff.2 ⟨_, hlast, rfl⟩⟩

/-- What is found under the code after the merge comes from an entry that counts. -/
theorem Untouched.exists_counts (h : Untouched ws sources code)
    (hsources : (Entries.ofList ws).MergesFrom sources)
    (hmerge : (Value.mapping (Entries.ofList ws)).merge? = some (.mapping codes)) {x : Value}
    (hx : Dict.lastValue? (codes.map fun e => (e.1.keyString, e.2)) code = some x) :
    ∃ e, Counts ws code e := by
  obtain ⟨added, hadded, hmapM⟩ := h.exists_mapM hws hsources hmerge
  obtain ⟨g, hlast, -⟩ := lastValue?_map_eq_some_iff.1 hx
  obtain ⟨c, hc, hcg⟩ := (mem_iff_of_mapM_eq_some hmapM).1 hlast.mem
  obtain ⟨y, -, rfl⟩ := Option.map_eq_some_iff.1 hcg
  have hcode : c.1.keyString = code := hlast.prop
  rcases List.mem_append.1 hc with hc | hc
  · obtain ⟨hc, hkey⟩ := (Entries.mem_erase_ofList_iff hws).1 hc
    exact exists_counts_of_mem hws hc ⟨hkey, hcode⟩
  · exact absurd hcode (hadded c hc)

/-! ### Codes with one key -/

/-- A code with one key is kept once. -/
theorem SpelledAs.pairwise {k : Value} (h : SpelledAs ws code k) :
    (ws.firsts.map Prod.fst).Pairwise fun l m => WrittenFor code l → ¬WrittenFor code m := by
  obtain ⟨hdistinct, hkept⟩ := Value.IsProper.mapping_iff.1 (.ofList hws)
  have hkey : ∀ c ∈ Entries.ofList ws, WrittenFor code c.1 → c.1.same k = true := by
    intro c hc hcode
    obtain ⟨f, hf, hfc⟩ := Entries.exists_mem_of_mem_ofList hws hc
    exact hfc ▸ (h f hf (hfc ▸ hcode.1)).2 (hfc ▸ hcode.2)
  rw [← Entries.map_fst_ofList hws, List.pairwise_map]
  refine hdistinct.imp_of_mem fun {c d} hc hd hapart hccode hdcode => ?_
  have hkd := Value.same_symm (hkept d hd).1 (hkey d hd hdcode)
  cases (Value.same_trans (hkey c hc hccode) hkd).symm.trans hapart.1

/-- Where all keys for a code are the same, the entry that is written last for it counts. -/
theorem SpelledAs.counts (h : SpelledAs ws code e.1) (he : LastWritten ws code e) :
    Counts ws code e := by
  obtain ⟨hekey, -⟩ : WrittenFor code e.1 := he.prop
  obtain ⟨f, hf, hfe⟩ := Entries.exists_mem_firsts he.mem
  have hfproper := (hws f (Entries.mem_of_mem_firsts hf)).1
  -- the keys for the code are those that are the same as the one that is kept
  have hsame : ∀ g ∈ ws, g.1.same f.1 = true ↔ WrittenFor code g.1 := by
    intro g hg
    constructor
    · intro hgf
      have hge := Value.same_trans hgf hfe
      have hkey : g.1.same mergeKey = false := (Value.same_string_eq_of_same hge).trans hekey
      exact ⟨hkey, (h g hg hkey).1 hge⟩
    · rintro ⟨hkey, hcode⟩
      exact Value.same_trans ((h g hg hkey).2 hcode) (Value.same_symm hfproper hfe)
  have hfcode := (hsame f (Entries.mem_of_mem_firsts hf)).1 (Value.same_refl _)
  obtain ⟨front, back, heq⟩ := List.append_of_mem (List.mem_map_of_mem (f := Prod.fst) hf)
  refine ⟨f.1, ⟨front, back, heq, hfcode, fun k hk => ?_⟩, (isLast_congr hsame).2 he⟩
  have hpairwise := heq ▸ h.pairwise hws
  exact (List.pairwise_cons.1 (List.pairwise_append.1 hpairwise).2.1).1 k hk hfcode

/-- A merge touches a code with one key only if it brings in another one. -/
theorem SpelledAs.untouched {k : Value} (h : SpelledAs ws code k)
    (hown : OwnKeys ws sources code) : Untouched ws sources code where
  own := hown
  kept front m mid last heq _ hlast k hk hcode := by
    have hpairwise := heq ▸ h.pairwise hws
    have hback := (List.pairwise_cons.1 (List.pairwise_append.1 hpairwise).2.1).2
    exact (List.pairwise_append.1 hback).2.2 k hk last (List.mem_singleton_self _) hcode hlast

end

/-- From which entry the response for each code is made whose keys a merge leaves as they are. If all
keys for the code are the same, then this is the entry that is written last for it. -/
theorem get?_responses_parse_of_untouched (settings : Settings) (h : Loads comment (.mapping es))
    (hcodes : es.field? "responses" = some (.mapping codes)) :
    ∃ (ws : Entries) (sources : List Entries), writtenResponses? comment = some ws ∧
      (Entries.ofList ws).MergesFrom sources ∧ ∀ code,
        (Untouched ws sources code →
          (∀ e, Counts ws code e → ∃ y, e.2.merge? = some y ∧
            (parse settings comment).result.responses.get? code = some (responseOf y)) ∧
          ((parse settings comment).result.responses.get? code ≠ none ↔
            ∃ e, Counts ws code e)) ∧
        ∀ e, LastWritten ws code e → SpelledAs ws code e.1 →
          Counts ws code e ∧ (OwnKeys ws sources code → Untouched ws sources code) := by
  obtain ⟨ws, hwritten, hws, hmerge⟩ := exists_writtenResponses h hcodes
  obtain ⟨es', sources, heq, hsources⟩ :=
    Value.exists_of_merge?_eq_mapping (.ofList hws) hmerge
  obtain rfl := Value.mapping.inj heq
  refine ⟨ws, sources, hwritten, hsources, fun code => ⟨fun hcode => ⟨fun e he => ?_, ?_⟩,
    fun e he hspelled => ⟨hspelled.counts hws he, hspelled.untouched hws⟩⟩⟩
  · obtain ⟨y, hy, hlast⟩ := hcode.exists_lastValue? hws hsources hmerge he
    exact ⟨y, hy, get?_responses_parse_eq_some_iff.2 ⟨y, ⟨es, codes, h, hcodes, hlast⟩, rfl⟩⟩
  · constructor
    · intro hsome
      obtain ⟨j, hj⟩ := Option.ne_none_iff_exists'.1 hsome
      obtain ⟨content, ⟨es', codes', hes', hcodes', hcontent⟩, -⟩ :=
        get?_responses_parse_eq_some_iff.1 hj
      cases hes'.unique h
      cases hcodes'.symm.trans hcodes
      exact hcode.exists_counts hws hsources hmerge hcontent
    · rintro ⟨e, he⟩
      obtain ⟨y, -, hlast⟩ := hcode.exists_lastValue? hws hsources hmerge he
      rw [get?_responses_parse_eq_some_iff.2 ⟨y, ⟨es, codes, h, hcodes, hlast⟩, rfl⟩]
      exact Option.some_ne_none _

/-- A code that is written with one key, then with another one, and with the first one again. -/
def respelled : String := "responses:\n  200: first\n  '200': second\n  200: third\n"

/-- After the repeats are resolved, the second entry is the last one. -/
theorem exists_loads_respelled : ∃ es codes : Entries, Loads respelled (.mapping es) ∧
    es.field? "responses" = some (.mapping codes) ∧
    Dict.lastValue? (codes.map fun e => (e.1.keyString, e.2)) "200" = some (.string "second") := by
  have hsecond : ((Value.read? (Text.dedent respelled.toList)).bind Value.merge?).any (fun v =>
      v.entries?.any fun es => (es.field? "responses").any fun r => r.entries?.any fun codes =>
        (Dict.lastValue? (codes.map fun e => (e.1.keyString, e.2)) "200").any
          (·.same (.string "second"))) = true := by decide +kernel
  simp only [Option.any_eq_true, Option.bind_eq_some_iff, Value.entries?_eq_some_iff,
    Value.same_string_right_iff] at hsecond
  obtain ⟨v, ⟨u, hread, hmerge⟩, es, rfl, r, hfield, codes, rfl, x, hx, rfl⟩ := hsecond
  exact ⟨es, codes, ⟨u, hread, hmerge⟩, hfield, hx⟩

theorem get?_responses_parse_of_untouched_respelled :
    ∃ (es codes ws : Entries) (sources : List Entries), Loads respelled (.mapping es) ∧
      es.field? "responses" = some (.mapping codes) ∧ writtenResponses? respelled = some ws ∧
      (Entries.ofList ws).MergesFrom sources ∧ ∀ code,
        (Untouched ws sources code →
          (∀ e, Counts ws code e → ∃ y, e.2.merge? = some y ∧
            (parse {} respelled).result.responses.get? code = some (responseOf y)) ∧
          ((parse {} respelled).result.responses.get? code ≠ none ↔ ∃ e, Counts ws code e)) ∧
        ∀ e, LastWritten ws code e → SpelledAs ws code e.1 →
          Counts ws code e ∧ (OwnKeys ws sources code → Untouched ws sources code) := by
  obtain ⟨es, codes, hloads, hcodes, -⟩ := exists_loads_respelled
  obtain ⟨ws, sources, h⟩ := get?_responses_parse_of_untouched {} hloads hcodes
  exact ⟨es, codes, ws, sources, hloads, hcodes, h⟩

/-- The second entry counts, not the one that is written last. -/
theorem get?_responses_parse_respelled : ∃ (ws : Entries) (e : Value × Value) (y : Value),
    writtenResponses? respelled = some ws ∧ LastWritten ws "200" e ∧ e.2.merge? = some y ∧
      (parse {} respelled).result.responses.get? "200" ≠ some (responseOf y) := by
  have hthird : (writtenResponses? respelled).any (fun ws =>
      (ws.reverse.find? fun e => !e.1.same mergeKey && e.1.keyString == "200").any
        (·.2.same (.string "third"))) = true := by decide +kernel
  simp only [Option.any_eq_true, find?_reverse_eq_some_iff, Value.same_string_right_iff] at hthird
  obtain ⟨ws, hws, ⟨k, x⟩, hlast, rfl⟩ := hthird
  obtain ⟨es, codes, hloads, hcodes, hsecond⟩ := exists_loads_respelled
  have hget : (parse {} respelled).result.responses.get? "200" =
      some (responseOf (.string "second")) :=
    get?_responses_parse_eq_some_iff.2 ⟨_, ⟨es, codes, hloads, hcodes, hsecond⟩, rfl⟩
  refine ⟨ws, (k, .string "third"), .string "third", hws, ?_, rfl, ?_⟩
  · simpa [LastWritten, WrittenFor] using hlast
  · rw [hget]
    simp [responseOf, Value.isFalsy, Value.toJson]

end Annotation

end RouteDocs
