import RouteDocs.Command.Run
import RouteDocs.Proofs.Command.Arguments
import RouteDocs.Proofs.Files.Tree
import RouteDocs.Proofs.Settings.Yaml

/-!
# All or nothing

A command line that fails leaves every file as it was. One that succeeds changes the file that the
path of the output leads to, and no other; what is written there depends only on what the files held
before, also if the output is the input or the configuration. It fails only if there is no such
document, or no way to write it.

## Main definitions

* `Ensures`: what a computation does to a file tree.
* `Arguments.HasConfiguration`, `Arguments.effective`: the settings of a run.
* `Arguments.Documents`, `Format.Writes`: the document of a run, and its text.
* `Arguments.Wrote`: what a successful run leaves behind.
* `Arguments.Fails`, `Failed`: why a run and a command line fail.

## Main statement

* `commandLine_allOrNothing`: what a command line does to the files.
-/

namespace RouteDocs.Command

open Files

/-! ## Computations on a file tree -/

section

variable {α β : Type} {before t : Tree} {fails : RunError → Prop} {post : α → Tree → Prop}

/-- Started with the files of `t`, the computation gives a value and leaves files as `post` says, or
it fails as `fails` says and leaves all files as they were in `before`. -/
def Ensures (before : Tree) (fails : RunError → Prop) (t : Tree) (x : Run (StateM Tree) α)
    (post : α → Tree → Prop) : Prop :=
  ∀ log, match Id.run ((x.run.run log).run t) with
    | ((.ok a, _), after) => post a after
    | ((.error e, _), after) => fails e ∧ after.files = before.files

namespace Ensures

theorem pure {a : α} (h : post a t) : Ensures before fails t (Pure.pure a) post := fun _ => h

theorem throw {e : RunError} (he : fails e) (h : t.files = before.files) :
    Ensures before fails t (MonadExcept.throw e) post := fun _ => ⟨he, h⟩

theorem bind {x : Run (StateM Tree) α} {f : α → Run (StateM Tree) β} {post' : β → Tree → Prop}
    (hx : Ensures before fails t x post)
    (hf : ∀ a t', post a t' → Ensures before fails t' (f a) post') :
    Ensures before fails t (x >>= f) post' := by
  intro log
  replace hx := hx log
  simp only [ExceptT.run_bind, StateT.run_bind, Id.run_bind]
  rcases hrun : Id.run ((x.run.run log).run t) with ⟨⟨result, log'⟩, t'⟩
  rw [hrun] at hx
  cases result with
  | error e => exact hx
  | ok a => exact hf a t' hx log'

theorem mono {x : Run (StateM Tree) α} {post' : α → Tree → Prop}
    (hx : Ensures before fails t x post) (h : ∀ a t', post a t' → post' a t') :
    Ensures before fails t x post' := by
  intro log
  replace hx := hx log
  split at hx
  · exact h _ _ hx
  · exact hx

theorem throw_bind {e : RunError} {f : β → Run (StateM Tree) α} (he : fails e)
    (h : t.files = before.files) : Ensures before fails t (MonadExcept.throw e >>= f) post :=
  fun _ => ⟨he, h⟩

theorem report_bind {messages : List Message} {f : Unit → Run (StateM Tree) α}
    (hf : Ensures before fails t (f ()) post) :
    Ensures before fails t (report messages >>= f) post := by
  have hreport : Ensures before fails t (report messages) fun _ t' => t' = t := fun _ => rfl
  exact bind hreport fun _ _ ht => ht ▸ hf

/-- An operation on files with the outcome `r`, which leaves the files of `t'`. -/
theorem attempt {wrap : FileError → RunError} {x : StateM Tree (Except FileError α)}
    {r : Except FileError α} {t' : Tree} (hx : x t = (r, t'))
    (herror : ∀ e, r = .error e → fails (wrap e) ∧ t'.files = before.files) :
    Ensures before fails t (attempt wrap x) fun a u => r = .ok a ∧ u = t' := by
  have hrun : Ensures before fails t (onFiles x) fun s u => (s, u) = (r, t') := fun _ => hx
  refine bind hrun fun s u h => ?_
  obtain ⟨rfl, rfl⟩ := Prod.mk.inj h
  cases s with
  | error e => exact throw (herror e rfl).1 (herror e rfl).2
  | ok a => exact pure ⟨rfl, rfl⟩

/-- The text of a file. -/
theorem attempt_readText {wrap : FileError → RunError} (path : String)
    (hfails : ∀ e, (∀ text, ¬t.HoldsText path text) → fails (wrap e)) :
    Ensures t fails t (Command.attempt wrap (Tree.access.readText path)) fun text t' =>
      t.HoldsText path text ∧ t' = t := by
  refine (attempt (t.readText_access path) fun e he => ⟨hfails e fun text htext => ?_, rfl⟩).mono
    fun text t' ⟨hread, ht⟩ => ⟨Tree.readText_eq_ok_iff.1 hread, ht⟩
  cases he.symm.trans (Tree.readText_eq_ok_iff.2 htext)

end Ensures

end

/-! ## What a run does -/

/-- The text of a document in a format. -/
def Format.Writes (f : Format) (d : Document) (output : String) : Prop :=
  match f with
  | .json => d.printJson = output
  | .yaml => d.printYaml? = some output

theorem Format.print?_eq_some_iff {f : Format} {d : Document} {output : String} :
    f.print? d = some output ↔ f.Writes d output := by
  cases f with
  | json => exact Option.some_inj
  | yaml => exact Iff.rfl

namespace Arguments

/-- The configuration of a run is empty, or it is what the file says that the arguments name. -/
def HasConfiguration (a : Arguments) (t : Tree) (c : Configuration) : Prop :=
  match a.config with
  | none => c = {}
  | some path => ∃ text, t.HoldsText path text ∧ Configuration.IsGivenBy text c

/-- The settings of a run. Title and description are those of the arguments; what these leave out is
taken from the configuration, and what that leaves out keeps its default. -/
def effective (a : Arguments) (c : Configuration) : Settings :=
  let defaults : Settings := {}
  { openapiVersion := c.openapiVersion.getD defaults.openapiVersion
    title := (a.title.or c.title).getD defaults.title
    description := (a.description.or c.description).getD defaults.description
    placeholderType := c.placeholderType.getD defaults.placeholderType
    placeholderSample := c.placeholderSample.getD defaults.placeholderSample }

/-- The input has this document, or this malformed declaration, with the settings of the run. -/
def Documents (a : Arguments) (t : Tree) (r : Except Signature.Malformed Document) : Prop :=
  ∃ c text, a.HasConfiguration t c ∧ t.HoldsText a.input text ∧
    (generate (a.effective c) text).result = r

/-- What a successful run leaves behind: the output has the document of the input, as it was before,
and all other files are as before. -/
def Wrote (a : Arguments) (before after : Tree) : Prop :=
  ∃ d output l, a.Documents before (.ok d) ∧ a.format.Writes d output ∧
    after.locate a.output = .ok l ∧
    ∀ m, after.file? m = if m = l then some output.toUTF8 else before.file? m

/-- Why a run fails. -/
inductive Fails (a : Arguments) (t : Tree) : RunError → Prop
  /-- The path of the input leads to no file. -/
  | noInput (h : ∀ l, t.locate a.input = .ok l → t.file? l = none) : Fails a t (.noInput a.input)
  /-- The path of the configuration leads to no text, or the text is no configuration. -/
  | config {path : String} (hpath : a.config = some path) (h : ∀ c, ¬a.HasConfiguration t c) :
      Fails a t (.config path)
  /-- The input is not a text. -/
  | unreadable {e : FileError} (h : ∀ text, ¬t.HoldsText a.input text) :
      Fails a t (.unreadable a.input e)
  /-- A declaration of the input is malformed. -/
  | malformed {e : Signature.Malformed} (h : a.Documents t (.error e)) :
      Fails a t (.malformed a.input e)
  /-- The document has no text in the format. -/
  | unwritable {d : Document} (hd : a.Documents t (.ok d)) (h : ∀ s, ¬a.format.Writes d s) :
      Fails a t (.unwritable a.format)
  /-- The directory of the output cannot be made. -/
  | directory {path : String} {e : FileError} (hpath : parent? a.output = some path)
      (h : (Tree.makeDirectories (path.length + 1) t path).1 = .error e) :
      Fails a t (.directory path e)
  /-- The output cannot be written, although its directory is made if it has one. -/
  | output {d : Document} {s : String} {e : FileError} (hd : a.Documents t (.ok d))
      (hs : a.format.Writes d s) (h : (t.prepared a.output).write a.output s.toUTF8 = .error e) :
      Fails a t (.output a.output e)

/-! ## The steps of a run -/

variable {t : Tree}

theorem override_settings (a : Arguments) (c : Configuration) :
    c.settings.override a.title a.description = a.effective c := by
  cases ht : a.title <;> cases hd : a.description <;>
    simp [Settings.override, Configuration.settings, effective, ht, hd]

theorem ensures_settings (a : Arguments) (t : Tree) :
    Ensures t (a.Fails t) t (a.settings Tree.access) fun s t' =>
      t' = t ∧ ∃ c, a.HasConfiguration t c ∧ s = a.effective c := by
  unfold settings
  cases hconfig : a.config with
  | none =>
    refine .pure ⟨rfl, {}, ?_, a.override_settings {}⟩
    rw [HasConfiguration, hconfig]
  | some path =>
    have hhas : ∀ c, a.HasConfiguration t c ↔
        ∃ text, t.HoldsText path text ∧ Configuration.IsGivenBy text c := by
      intro c
      rw [HasConfiguration, hconfig]
    refine .report_bind (.bind (.attempt_readText path fun _ hnone => ?_) ?_)
    · refine .config hconfig fun c hc => ?_
      obtain ⟨text, htext, -⟩ := (hhas c).1 hc
      exact hnone text htext
    rintro text _ ⟨htext, rfl⟩
    cases hread : Configuration.read? text with
    | none =>
      simp only [Settings.read?, hread]
      refine .throw_bind (.config hconfig fun c hc => ?_) rfl
      obtain ⟨text', htext', hc⟩ := (hhas c).1 hc
      cases htext.unique htext'
      cases hread.symm.trans (Configuration.read?_eq_some_iff.2 hc)
    | some c =>
      simp only [Settings.read?, hread]
      have hc := (hhas c).2 ⟨text, htext, Configuration.read?_eq_some_iff.1 hread⟩
      exact .pure ⟨rfl, c, hc, a.override_settings c⟩

theorem ensures_document (a : Arguments) {c : Configuration} (hc : a.HasConfiguration t c) :
    Ensures t (a.Fails t) t (a.document Tree.access (a.effective c)) fun d t' =>
      t' = t ∧ a.Documents t (.ok d) := by
  unfold document
  refine .bind (.attempt_readText a.input fun _ => .unreadable) ?_
  rintro text _ ⟨htext, rfl⟩
  refine .report_bind ?_
  cases hresult : (generate (a.effective c) text).result with
  | error e => exact .throw (.malformed ⟨c, text, hc, htext, hresult⟩) rfl
  | ok d => exact .pure ⟨rfl, c, text, hc, htext, hresult⟩

/-- The output is written after its directory has been made, which changes no file. -/
theorem ensures_writeOutput (a : Arguments) {d : Document} {s : String}
    (hd : a.Documents t (.ok d)) (hs : a.format.Writes d s) :
    Ensures t (a.Fails t) t (writeOutput Tree.access a.output s) fun _ after =>
      ∃ l, after.locate a.output = .ok l ∧
        ∀ m, after.file? m = if m = l then some s.toUTF8 else t.file? m := by
  have hfiles := t.files_prepared a.output
  have hwrite : Ensures t (a.Fails t) (t.prepared a.output)
      (attempt (.output a.output) (Tree.access.write a.output s)) fun _ after =>
        ∃ l, after.locate a.output = .ok l ∧
          ∀ m, after.file? m = if m = l then some s.toUTF8 else t.file? m := by
    cases hwrite : (t.prepared a.output).write a.output s.toUTF8 with
    | error e =>
      have haccess : Tree.access.write a.output s (t.prepared a.output) =
          (.error e, t.prepared a.output) := by
        simp only [Tree.access, hwrite]
      refine (Ensures.attempt haccess ?_).mono ?_
      · rintro _ ⟨⟩
        exact ⟨.output hd hs hwrite, hfiles⟩
      · rintro _ _ ⟨⟨⟩, -⟩
    | ok after =>
      have haccess : Tree.access.write a.output s (t.prepared a.output) = (.ok (), after) := by
        simp only [Tree.access, hwrite]
      refine (Ensures.attempt haccess fun _ he => by cases he).mono ?_
      rintro _ _ ⟨-, rfl⟩
      obtain ⟨l, hlocate, hfile⟩ := Tree.exists_of_write hwrite
      exact ⟨l, hlocate, fun m => by rw [hfile, Tree.file?_eq_of_files_eq hfiles]⟩
  unfold Tree.prepared at hwrite hfiles
  unfold writeOutput
  split at hwrite
  case h_1 hparent | h_2 hparent =>
    simp only [hparent]
    exact hwrite
  case h_3 directory hne hparent =>
    simp only [hparent] at hfiles ⊢
    refine .bind (.attempt rfl fun e he => ⟨.directory hparent he, hfiles⟩) ?_
    rintro _ _ ⟨-, rfl⟩
    exact hwrite

end Arguments

/-! ## The run -/

theorem Arguments.ensures_run (a : Arguments) (t : Tree) :
    Ensures t (a.Fails t) t (a.run Tree.access) fun _ after => a.Wrote t after := by
  unfold run
  have hisFile : Ensures t (a.Fails t) t (onFiles (Tree.access.isFile a.input)) fun found t' =>
      found = t.isFile a.input ∧ t' = t := fun _ => ⟨rfl, rfl⟩
  refine .bind hisFile ?_
  rintro found t ⟨hfound, rfl⟩
  cases found with
  | false => exact .throw_bind (.noInput (Tree.isFile_eq_false_iff.1 hfound.symm)) rfl
  | true =>
    refine .report_bind (.bind (a.ensures_settings t) ?_)
    rintro s _ ⟨rfl, c, hc, rfl⟩
    refine .report_bind (.bind (a.ensures_document hc) ?_)
    rintro d t ⟨rfl, hd⟩
    -- the warning about a document without paths changes nothing
    have hwarned : ∀ x : Run (StateM Tree) Unit,
        Ensures t (a.Fails t) t x (fun _ after => a.Wrote t after) →
        Ensures t (a.Fails t) t
          (if d.paths.size = 0 then report [.noRoutes a.input] >>= fun _ => x else x)
          fun _ after => a.Wrote t after := by
      intro x hx
      split
      · exact .report_bind hx
      · exact hx
    refine hwarned _ (.report_bind ?_)
    cases hprint : a.format.print? d with
    | none =>
      refine .throw_bind (.unwritable hd fun output houtput => ?_) rfl
      cases hprint.symm.trans (Format.print?_eq_some_iff.2 houtput)
    | some output =>
      have houtput := Format.print?_eq_some_iff.1 hprint
      refine .bind (a.ensures_writeOutput hd houtput) ?_
      rintro _ after ⟨l, hlocate, hfile⟩
      exact fun _ => ⟨d, output, l, hd, houtput, hlocate, hfile⟩

/-- Why a command line fails: its arguments say nothing that can be done, or what they say fails. -/
inductive Failed (args : List String) (before : Tree) : Failure → Prop
  | usage {e : UsageError}
      (h : ∀ (items : List Item) (a : Arguments), Spells none args items → ¬a.Says items) :
      Failed args before (.usage e)
  | run {items : List Item} {a : Arguments} {e : RunError} (hspells : Spells none args items)
      (hsaid : a.Says items) (h : a.Fails before e) : Failed args before (.run e)

/-- If a command line fails, then for one of the reasons there are, and every file is as it was
before. If it succeeds, then the output that its arguments spell has the document of the input that
they spell, and all other files are as before. -/
theorem commandLine_allOrNothing (args : List String) (before : Tree) :
    match Id.run ((commandLine args Tree.access).run before) with
    | ((.error e, _), after) => Failed args before e ∧ ∀ l, after.file? l = before.file? l
    | ((.ok (), _), after) =>
      ∃ (items : List Item) (a : Arguments),
        Spells none args items ∧ a.Says items ∧ a.Wrote before after := by
  cases hparse : Arguments.parse args with
  | error e =>
    simp only [commandLine, hparse]
    refine ⟨.usage fun items a hspells hsaid => ?_, fun _ => rfl⟩
    cases hparse.symm.trans (Arguments.parse_eq_ok_iff.2 ⟨items, hspells, hsaid⟩)
  | ok a =>
    obtain ⟨items, hspells, hsaid⟩ := Arguments.parse_eq_ok_iff.1 hparse
    have hrun := a.ensures_run before []
    rcases hresult : Id.run (((a.run Tree.access).run.run []).run before) with
      ⟨⟨result, messages⟩, after⟩
    have hline : Id.run ((commandLine args Tree.access).run before) =
        ((result.mapError Failure.run, messages), after) := by
      simp only [commandLine, hparse, Arguments.execute, StateT.run_bind, Id.run_bind, hresult]
      rfl
    rw [hresult] at hrun
    rw [hline]
    cases result with
    | error e => exact ⟨.run hspells hsaid hrun.1, Tree.file?_eq_of_files_eq hrun.2⟩
    | ok => exact ⟨items, a, hspells, hsaid, hrun⟩

/-- The output may take the place of the input. -/
example :
    let files := Tree.ofFiles ["work"]
      [("routes.lua", "routes:get(\"@/users\", function(self)\n--[[\n--]]\n".toUTF8)]
    let args := ["-i", "routes.lua", "-o", "routes.lua"]
    (Id.run ((commandLine args Tree.access).run files)).1.1.isOk = true := by
  decide +kernel

end RouteDocs.Command
