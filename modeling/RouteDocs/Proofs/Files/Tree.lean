import RouteDocs.Files.Tree
import RouteDocs.Proofs.Gives
import RouteDocs.Proofs.Text

/-!
# What operations on files change

Making directories changes no file. Writing changes the file that the path leads to, and no other.

## Main definition

* `Tree.HoldsText`: the text of the file that a path leads to.

## Main statements

* `Tree.readText_eq_ok_iff`: what is read from a path.
* `Tree.files_makeDirectories`: directories are made without touching a file.
* `Tree.exists_of_write`: what a write changes.
-/

namespace RouteDocs.Files

/-! ## Paths -/

/-- The last component of a path is empty only if a slash stands at the end. -/
theorem ne_empty_of_mem_getLast?_components {path last : String} (hne : path ≠ "")
    (hslash : path.toList.getLast? ≠ some '/') (hlast : last ∈ (components path).getLast?) :
    last ≠ "" := by
  rw [components, List.getLast?_map] at hlast
  obtain ⟨piece, hpiece, rfl⟩ := Option.map_eq_some_iff.1 hlast
  have hpiece := Text.ne_nil_of_mem_getLast?_splitOn (by simpa using hne) hslash hpiece
  simpa using hpiece

/-- Without a slash at the end of a path there are no empty components to drop. -/
theorem components_eq_of_dropWhile {path c : String} {cs : List String}
    (h : (components path).reverse.dropWhile (· = "") = c :: cs)
    (hslash : path.toList.getLast? ≠ some '/') :
    components path = cs.reverse ++ [c] ∧ c ≠ "" := by
  have hne : path ≠ "" := by
    rintro rfl
    simp [components, Text.splitOn] at h
  cases hrev : (components path).reverse with
  | nil => simp [hrev] at h
  | cons last before =>
    have hcomponents : components path = before.reverse ++ [last] := by
      simpa using congrArg List.reverse hrev
    have hlast : last ≠ "" :=
      ne_empty_of_mem_getLast?_components hne hslash (by simp [hcomponents])
    rw [hrev, List.dropWhile_cons_of_neg (by simpa using hlast)] at h
    cases h
    exact ⟨hcomponents, hlast⟩

namespace Tree

variable {t t' : Tree} {l m : Location} {path name : String} {content : ByteArray}

/-! ## Files -/

theorem lookup_filter_ne {files : List (Location × ByteArray)} (h : m ≠ l) :
    (files.filter (·.1 ≠ l)).lookup m = files.lookup m := by
  induction files with
  | nil => rfl
  | cons e files ih =>
    obtain ⟨k, x⟩ := e
    by_cases hk : k = l
    · subst hk
      have hm : (m == k) = false := by simpa using h
      simp [List.lookup_cons, hm, ← ih]
    · simp [hk, List.lookup_cons, ← ih]

theorem file?_setFile (t : Tree) (l m : Location) (content : ByteArray) :
    (t.setFile l content).file? m = if m = l then some content else t.file? m := by
  simp only [file?, setFile, List.lookup_cons]
  by_cases hm : m = l
  · simp [hm]
  · have hbeq : (m == l) = false := by simpa using hm
    rw [hbeq, if_neg hm]
    exact lookup_filter_ne hm

theorem isFile_eq_false_iff :
    t.isFile path = false ↔ ∀ l, t.locate path = .ok l → t.file? l = none := by
  unfold isFile
  split <;> simp_all

theorem file?_eq_of_files_eq (h : t'.files = t.files) (l : Location) : t'.file? l = t.file? l := by
  rw [file?, file?, h]

/-- The text of the file at a path. -/
def readText (t : Tree) (path : String) : Except FileError String := do
  match String.fromUTF8? (← t.read path) with
  | some text => return text
  | none => .error .notText

/-- The path leads to a file with this text. -/
def HoldsText (t : Tree) (path text : String) : Prop :=
  ∃ l, t.locate path = .ok l ∧ t.file? l = some text.toUTF8

theorem fromUTF8?_eq_some_iff {bytes : ByteArray} {text : String} :
    String.fromUTF8? bytes = some text ↔ bytes = text.toUTF8 := by
  constructor
  · intro h
    unfold String.fromUTF8? at h
    split at h <;> cases h
    rfl
  · rintro rfl
    exact dif_pos text.isValidUTF8

theorem readText_eq_ok_iff {text : String} :
    t.readText path = .ok text ↔ t.HoldsText path text := by
  simp only [readText, read, bind_eq_ok_iff, HoldsText]
  constructor
  · rintro ⟨bytes, ⟨l, hl, hbytes⟩, htext⟩
    split at hbytes <;> cases hbytes
    split at htext <;> cases htext
    obtain rfl := fromUTF8?_eq_some_iff.1 ‹_›
    exact ⟨l, hl, ‹_›⟩
  · rintro ⟨l, hl, hfile⟩
    refine ⟨text.toUTF8, ⟨l, hl, ?_⟩, ?_⟩
    · rw [hfile]
      rfl
    · rw [fromUTF8?_eq_some_iff.2 rfl]
      rfl

theorem HoldsText.unique {text text' : String} (h : t.HoldsText path text)
    (h' : t.HoldsText path text') : text = text' :=
  Except.ok.inj ((readText_eq_ok_iff.2 h).symm.trans (readText_eq_ok_iff.2 h'))

/-- Reading a text changes nothing. -/
theorem readText_access (t : Tree) (path : String) :
    access.readText path t = (t.readText path, t) := by
  simp only [Access.readText, access, bind, StateT.bind, readText, Except.bind]
  cases t.read path with
  | error e => rfl
  | ok bytes => cases htext : String.fromUTF8? bytes <;> simp only [htext] <;> rfl

/-! ## The way to a place -/

theorem directory_eq_ok_iff : t.directory l = .ok m ↔ t.isDirectory l = true ∧ l = m := by
  unfold directory
  split
  · simp_all
  · split <;> simp_all

/-- The place that one component leads to. -/
def step (l : Location) (c : String) : Location :=
  if c = "" ∨ c = "." then l else if c = ".." then l.dropLast else l ++ [c]

theorem walk_cons (t : Tree) (l : Location) (c : String) (cs : List String) :
    t.walk l (c :: cs) = t.directory l >>= fun l => t.walk (step l c) cs := by
  rw [walk]
  congr 1
  funext k
  simp only [step, Bool.or_eq_true, decide_eq_true_eq]
  split
  · rfl
  · split <;> rfl

theorem walk_cons_eq_ok_iff {c : String} {cs : List String} :
    t.walk l (c :: cs) = .ok m ↔ t.isDirectory l = true ∧ t.walk (step l c) cs = .ok m := by
  simp only [walk_cons, bind_eq_ok_iff, directory_eq_ok_iff]
  constructor
  · rintro ⟨k, ⟨hl, rfl⟩, h⟩
    exact ⟨hl, h⟩
  · rintro ⟨hl, h⟩
    exact ⟨l, ⟨hl, rfl⟩, h⟩

theorem walk_append_eq_ok_iff {cs ds : List String} :
    t.walk l (cs ++ ds) = .ok m ↔ ∃ k, t.walk l cs = .ok k ∧ t.walk k ds = .ok m := by
  induction cs generalizing l with
  | nil => simp [walk]
  | cons c cs ih => simp [walk_cons_eq_ok_iff, ih, and_assoc]

/-- Only the directories matter for the way to a place. -/
theorem walk_eq_ok_of_directories_eq (h : t'.directories = t.directories) {cs : List String}
    (hwalk : t.walk l cs = .ok m) : t'.walk l cs = .ok m := by
  have hdirectory : ∀ l, t'.isDirectory l = t.isDirectory l := fun l => by
    rw [isDirectory, isDirectory, h]
  induction cs generalizing l with
  | nil => exact hwalk
  | cons c cs ih =>
    obtain ⟨hl, hwalk⟩ := walk_cons_eq_ok_iff.1 hwalk
    exact walk_cons_eq_ok_iff.2 ⟨(hdirectory l).trans hl, ih hwalk⟩

/-- A path leads where it led before a file was written. -/
theorem locate_setFile_eq_ok (h : t.locate path = .ok m) (l : Location) (content : ByteArray) :
    (t.setFile l content).locate path = .ok m := by
  have hsame : (t.setFile l content).directories = t.directories := rfl
  exact walk_eq_ok_of_directories_eq hsame h

/-- The target of a path is where the path leads to. -/
theorem locate_of_target (h : t.target path = .ok (l, some name))
    (hslash : path.toList.getLast? ≠ some '/') : t.locate path = .ok (l ++ [name]) := by
  unfold target at h
  cases hcs : (components path).reverse.dropWhile (· = "") with
  | nil => simp [hcs, pure, Except.pure] at h
  | cons c cs =>
    obtain ⟨hcomponents, hc⟩ := components_eq_of_dropWhile hcs hslash
    rw [hcs] at h
    simp only [bind_eq_ok_iff, directory_eq_ok_iff] at h
    obtain ⟨k, hwalk, _, ⟨hk, rfl⟩, h⟩ := h
    simp only [pure, Except.pure, Except.ok.injEq, Prod.mk.injEq] at h
    obtain ⟨rfl, hname⟩ := h
    split at hname
    · cases hname
    · rename_i hdots
      cases hname
      have hstep : step k name = k ++ [name] := by
        simp only [Bool.or_eq_true, decide_eq_true_eq, not_or] at hdots
        simp [step, hc, hdots]
      rw [locate, hcomponents, walk_append_eq_ok_iff]
      exact ⟨k, hwalk, walk_cons_eq_ok_iff.2 ⟨hk, congrArg Except.ok hstep⟩⟩

/-! ## Making directories -/

theorem files_makeDirectory (h : t.makeDirectory path = .ok t') : t'.files = t.files := by
  simp only [makeDirectory, bind_eq_ok_iff] at h
  obtain ⟨target, -, h⟩ := h
  split at h
  · cases h
  · split at h
    · cases h
    · cases h
      rfl

/-- Making directories changes no file, whether it succeeds or not. -/
theorem files_makeDirectories (fuel : Nat) (t : Tree) (path : String) :
    (makeDirectories fuel t path).2.files = t.files := by
  induction fuel generalizing t path with
  | zero => rfl
  | succ fuel ih =>
    rw [makeDirectories]
    split
    case h_1 hmake => exact files_makeDirectory hmake
    case h_2 hmake =>
      split
      · rfl
      · rename_i above _
        have habove := ih t above
        split
        case h_1 e t' hrec => exact hrec ▸ habove
        case h_2 t' hrec =>
          rw [hrec] at habove
          split
          case h_1 hmake' => exact (files_makeDirectory hmake').trans habove
          case h_2 => exact habove
    case h_3 => rfl

/-- The files after the directory for a path has been made, if it has one and as far as this
succeeds. -/
def prepared (t : Tree) (path : String) : Tree :=
  match parent? path with
  | none | some "" => t
  | some directory => (makeDirectories (directory.length + 1) t directory).2

theorem files_prepared (t : Tree) (path : String) : (t.prepared path).files = t.files := by
  unfold prepared
  split
  case h_1 | h_2 => rfl
  case h_3 => exact files_makeDirectories _ t _

/-! ## Writing -/

/-- After a write, the path leads to a file with this content, and all other files are as before. -/
theorem exists_of_write (h : t.write path content = .ok t') :
    ∃ l, t'.locate path = .ok l ∧
      ∀ m, t'.file? m = if m = l then some content else t.file? m := by
  simp only [write, bind_eq_ok_iff] at h
  obtain ⟨target, htarget, h⟩ := h
  split at h
  · cases h
  · rename_i l name
    split at h
    · cases h
    · rename_i hfree
      cases h
      simp only [Bool.or_eq_true, decide_eq_true_eq, not_or] at hfree
      exact ⟨l ++ [name], locate_setFile_eq_ok (locate_of_target htarget hfree.2) _ _,
        fun m => file?_setFile t (l ++ [name]) m content⟩

end Tree

end RouteDocs.Files
