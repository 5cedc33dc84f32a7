import Mathlib.Data.List.TakeWhile
import RouteDocs.Proofs.Command.Given

/-!
# What arguments say

Arguments spell options with their values, and flags, one after the other. They are accepted exactly
if each option has at most one value, the input and the output have one, and the values are of their
kind; and what is accepted says what is spelled.

## Main definitions

* `Spells`: the items that arguments spell, without reference to the reading of them.
* `Parsing.Turns`: the states that items lead to.
* `Arguments.Says`: what a run is asked to do says what the items are.

## Main statements

* `Parsing.argument_eq_ok_iff`: what one argument does.
* `Arguments.parse_eq_ok_iff`: when arguments are accepted, and as what.
-/

namespace RouteDocs.Command

/-! ## Spelling -/

/-- The name of an option, behind two hyphens. -/
def Opt.name : Opt → List Char
  | .input => "input".toList
  | .output => "output".toList
  | .format => "format".toList
  | .config => "config".toList
  | .title => "title".toList
  | .description => "description".toList

/-- The letter of an option, behind one hyphen, if it has one. -/
def Opt.letter? : Opt → Option Char
  | .input => some 'i'
  | .output => some 'o'
  | .format => some 'f'
  | .config => some 'c'
  | .title | .description => none

/-- The name of a flag, behind two hyphens. -/
def Flag.name : Flag → List Char
  | .verbose => "verbose".toList
  | .help => "help".toList
  | .version => "version".toList

/-- The letter of a flag, behind one hyphen. -/
def Flag.letter : Flag → Char
  | .verbose => 'v'
  | .help => 'h'
  | .version => 'V'

/-- Letters behind one hyphen: flags, and perhaps an option at the end. The rest behind the letter
of the option is its value, without one equals sign in front; if nothing is left, the option waits
for its value. -/
inductive Letters : List Char → List Item → Option Opt → Prop
  | nil : Letters [] [] none
  | flag {f : Flag} {cs : List Char} {items : List Item} {waiting : Option Opt}
      (h : Letters cs items waiting) : Letters (f.letter :: cs) (.flag f :: items) waiting
  | waiting {o : Opt} {c : Char} (hc : o.letter? = some c) : Letters [c] [] (some o)
  | equals {o : Opt} {c : Char} {v : List Char} (hc : o.letter? = some c) :
      Letters (c :: '=' :: v) [.option o (String.ofList v)] none
  | direct {o : Opt} {c : Char} {v : List Char} (hc : o.letter? = some c) (hne : v ≠ [])
      (hv : v.head? ≠ some '=') : Letters (c :: v) [.option o (String.ofList v)] none

/-- A name behind two hyphens. An option has its value behind an equals sign, or waits for it. -/
inductive Long : List Char → List Item → Option Opt → Prop
  | waiting (o : Opt) : Long o.name [] (some o)
  | equals (o : Opt) (v : List Char) :
      Long (o.name ++ '=' :: v) [.option o (String.ofList v)] none
  | flag (f : Flag) : Long f.name [.flag f] none

/-- An argument with hyphens: the items that it spells, and perhaps an option that waits for its
value. -/
inductive Word : List Char → List Item → Option Opt → Prop
  | long {cs : List Char} {items : List Item} {waiting : Option Opt} (h : Long cs items waiting) :
      Word ('-' :: '-' :: cs) items waiting
  | letters {c : Char} {cs : List Char} {items : List Item} {waiting : Option Opt}
      (h : Letters (c :: cs) items waiting) : Word ('-' :: c :: cs) items waiting

/-- An argument without a hyphen in front, or a hyphen alone. -/
def IsValue (text : List Char) : Prop := text.head? = some '-' → text = ['-']

/-- The arguments spell these items, one after the other. Perhaps an option in front of them waits
for its value, and then the first argument is this value. Two hyphens may stand at the end. -/
inductive Spells : Option Opt → List String → List Item → Prop
  | nil : Spells none [] []
  | stop : Spells none ["--"] []
  | word {t : String} {args : List String} {is items : List Item} {waiting : Option Opt}
      (ht : Word t.toList is waiting) (h : Spells waiting args items) :
      Spells none (t :: args) (is ++ items)
  | value {o : Opt} {v : String} {args : List String} {items : List Item}
      (hv : IsValue v.toList) (h : Spells none args items) :
      Spells (some o) (v :: args) (.option o v :: items)

/-! ## Names and letters -/

/-- The name of a switch. -/
def Switch.name : Switch → List Char
  | .inl o => o.name
  | .inr f => f.name

/-- The letter of a switch, if it has one. -/
def Switch.letter? : Switch → Option Char
  | .inl o => o.letter?
  | .inr f => some f.letter

theorem ofName?_eq_some_iff {s : List Char} {x : Switch} :
    Switch.ofName? (String.ofList s) = some x ↔ s = x.name := by
  constructor
  · intro h
    unfold Switch.ofName? at h
    split at h <;> cases h
    all_goals
      rename_i hname
      rw [← String.toList_ofList (l := s), hname]
      rfl
  · rintro rfl
    rcases x with o | f
    · cases o <;> rfl
    · cases f <;> rfl

theorem ofLetter?_eq_some_iff {c : Char} {x : Switch} :
    Switch.ofLetter? c = some x ↔ x.letter? = some c := by
  constructor
  · intro h
    unfold Switch.ofLetter? at h
    split at h <;> cases h <;> rfl
  · rcases x with o | f <;> intro h
    · cases o <;> cases h <;> rfl
    · cases f <;> cases h <;> rfl

theorem Opt.ofName?_name (o : Opt) : Switch.ofName? (String.ofList o.name) = some (.inl o) :=
  ofName?_eq_some_iff.2 rfl

theorem Flag.ofName?_name (f : Flag) : Switch.ofName? (String.ofList f.name) = some (.inr f) :=
  ofName?_eq_some_iff.2 rfl

theorem Flag.ofLetter?_letter (f : Flag) : Switch.ofLetter? f.letter = some (.inr f) :=
  ofLetter?_eq_some_iff.2 rfl

theorem Opt.ofLetter?_of_letter? {o : Opt} {c : Char} (h : o.letter? = some c) :
    Switch.ofLetter? c = some (.inl o) :=
  ofLetter?_eq_some_iff.2 h

theorem Letters.ne_none {c : Char} {cs : List Char} {items : List Item} {waiting : Option Opt}
    (h : Letters (c :: cs) items waiting) : Switch.ofLetter? c ≠ none := by
  cases h with
  | @flag f => simp [f.ofLetter?_letter]
  | waiting hc | equals hc | direct hc => simp [Opt.ofLetter?_of_letter? hc]

theorem letters_flag_iff {f : Flag} {cs : List Char} {items : List Item} {waiting : Option Opt} :
    Letters (f.letter :: cs) items waiting ↔
      ∃ items', Letters cs items' waiting ∧ items = .flag f :: items' := by
  have hflag := f.ofLetter?_letter
  constructor
  · intro h
    generalize hc : f.letter = c at h
    cases h with
    | @flag f' _ items _ h =>
      cases hflag.symm.trans (hc ▸ f'.ofLetter?_letter)
      exact ⟨items, h, rfl⟩
    | waiting ho | equals ho | direct ho =>
      cases hflag.symm.trans (Opt.ofLetter?_of_letter? (hc ▸ ho))
  · rintro ⟨items', h, rfl⟩
    exact .flag h

/-- What stands behind the letter of an option. -/
theorem letters_option_iff {o : Opt} {c : Char} {cs : List Char} {items : List Item}
    {waiting : Option Opt} (ho : o.letter? = some c) :
    Letters (c :: cs) items waiting ↔
      match cs with
      | [] => items = [] ∧ waiting = some o
      | '=' :: v => items = [.option o (String.ofList v)] ∧ waiting = none
      | v => items = [.option o (String.ofList v)] ∧ waiting = none := by
  have hoption := Opt.ofLetter?_of_letter? ho
  constructor
  · intro h
    cases h with
    | @flag f => cases hoption.symm.trans f.ofLetter?_letter
    | waiting h | equals h =>
      cases hoption.symm.trans (Opt.ofLetter?_of_letter? h)
      exact ⟨rfl, rfl⟩
    | direct h hne hv =>
      cases hoption.symm.trans (Opt.ofLetter?_of_letter? h)
      split
      · exact absurd rfl hne
      · simp at hv
      · exact ⟨rfl, rfl⟩
  · intro h
    split at h <;> obtain ⟨rfl, rfl⟩ := h
    case h_1 => exact .waiting ho
    case h_2 => exact .equals ho
    case h_3 v hne hv =>
      refine .direct ho hne fun hhead => ?_
      obtain ⟨v, rfl⟩ := List.head?_eq_some_iff.1 hhead
      exact hv v rfl

theorem Word.exists_eq {text : List Char} {items : List Item} {waiting : Option Opt}
    (h : Word text items waiting) : ∃ c cs, text = '-' :: c :: cs := by
  cases h with
  | long | letters => exact ⟨_, _, rfl⟩

theorem word_long_iff {cs : List Char} {items : List Item} {waiting : Option Opt} :
    Word ('-' :: '-' :: cs) items waiting ↔ Long cs items waiting := by
  constructor
  · intro h
    cases h with
    | long h => exact h
    | letters h => exact absurd rfl h.ne_none
  · exact .long

theorem word_stop {items : List Item} {waiting : Option Opt} :
    ¬Word ['-', '-'] items waiting := by
  rw [word_long_iff]
  intro h
  generalize hcs : [] = cs at h
  cases h with
  | waiting o | equals o => cases o <;> cases hcs
  | flag f => cases f <;> cases hcs

theorem word_letters_iff {c : Char} {cs : List Char} {items : List Item} {waiting : Option Opt}
    (hc : c ≠ '-') : Word ('-' :: c :: cs) items waiting ↔ Letters (c :: cs) items waiting := by
  constructor
  · intro h
    cases h with
    | long h => exact absurd rfl hc
    | letters h => exact h
  · exact .letters

theorem Opt.not_mem_name (o : Opt) : '=' ∉ o.name := by
  cases o <;> decide

theorem Flag.not_mem_name (f : Flag) : '=' ∉ f.name := by
  cases f <;> decide

/-! ## Reading one argument -/

namespace Parsing

/-- The option that waits for its value. -/
def awaited (s : Parsing) : Option Opt :=
  match s.pending with
  | some (o, none) => some o
  | _ => none

/-- The option that has its value and is not yet given. -/
def held (s : Parsing) : List Item :=
  match s.pending with
  | some (o, some v) => [.option o v]
  | _ => []

/-- Items lead from the state `s` to the state `s'`, in which perhaps an option waits for its
value. -/
structure Turns (s : Parsing) (items : List Item) (waiting : Option Opt) (s' : Parsing) : Prop where
  awaited : s.awaited = none
  given : (s.held ++ items).foldlM Given.add s.given = .ok s'.given
  pending : s'.pending = waiting.map (·, none)
  trailing : s'.trailing = s.trailing

variable {s s' : Parsing} {o : Opt} {f : Flag} {items : List Item} {waiting : Option Opt}

theorem pending_of_awaited (h : s.awaited = some o) : s.pending = some (o, none) := by
  unfold awaited at h
  split at h
  · cases h
    assumption
  · cases h

theorem awaited_of_pending (h : s.pending = waiting.map (·, none)) : s.awaited = waiting := by
  rw [awaited, h]
  cases waiting <;> rfl

theorem held_of_pending (h : s.pending = waiting.map (·, none)) : s.held = [] := by
  rw [held, h]
  cases waiting <;> rfl

theorem settle_eq_ok_iff : s.settle = .ok s' ↔ s.Turns [] none s' := by
  constructor
  · intro h
    obtain ⟨given, _ | ⟨o, _ | v⟩, trailing⟩ := s
    · cases h
      exact ⟨rfl, rfl, rfl, rfl⟩
    · cases h
    · obtain ⟨g, hg, h⟩ := bind_eq_ok_iff.1 h
      cases h
      exact ⟨rfl, by simpa [held, Given.add] using hg, rfl, rfl⟩
  · rintro ⟨hawaited, hgiven, hpending, htrailing⟩
    obtain ⟨given, _ | ⟨o, _ | v⟩, trailing⟩ := s <;> obtain ⟨given', pending', trailing'⟩ := s'
    · cases hgiven
      cases hpending
      cases htrailing
      rfl
    · cases hawaited
    · cases hpending
      cases htrailing
      exact bind_eq_ok_iff.2 ⟨given', by simpa [held, Given.add] using hgiven, rfl⟩

/-- Items and then others. -/
theorem exists_turns_append_iff {items' : List Item} :
    (∃ s₁, s.Turns items none s₁ ∧ s₁.Turns items' waiting s') ↔
      s.Turns (items ++ items') waiting s' := by
  constructor
  · rintro ⟨s₁, h, h'⟩
    have hgiven := h'.given
    rw [held_of_pending h.pending, List.nil_append] at hgiven
    refine ⟨h.awaited, ?_, h'.pending, h'.trailing.trans h.trailing⟩
    rw [← List.append_assoc, List.foldlM_append]
    exact bind_eq_ok_iff.2 ⟨_, h.given, hgiven⟩
  · rintro ⟨hawaited, hgiven, hpending, htrailing⟩
    rw [← List.append_assoc, List.foldlM_append] at hgiven
    obtain ⟨g, hitems, hitems'⟩ := bind_eq_ok_iff.1 hgiven
    exact ⟨{ s with given := g, pending := none }, ⟨hawaited, hitems, rfl, rfl⟩,
      ⟨rfl, hitems', hpending, htrailing⟩⟩

theorem option_none_iff : s.option o none = .ok s' ↔ s.Turns [] (some o) s' := by
  have hoption : s.option o none =
      s.settle >>= fun s => .ok { s with pending := some (o, none) } := rfl
  rw [hoption, bind_eq_ok_iff]
  constructor
  · rintro ⟨s₁, hsettle, h⟩
    cases h
    obtain ⟨hawaited, hgiven, -, htrailing⟩ := settle_eq_ok_iff.1 hsettle
    exact ⟨hawaited, hgiven, rfl, htrailing⟩
  · rintro ⟨hawaited, hgiven, hpending, htrailing⟩
    refine ⟨{ s' with pending := none },
      settle_eq_ok_iff.2 ⟨hawaited, hgiven, rfl, htrailing⟩, ?_⟩
    obtain ⟨given', _, trailing'⟩ := s'
    cases hpending
    rfl

theorem settle_add_iff (item : Item) :
    (do
      let s ← s.settle
      return { s with given := ← s.given.add item }) = .ok s' ↔ s.Turns [item] none s' := by
  simp only [bind_eq_ok_iff, settle_eq_ok_iff, pure_eq_ok_iff]
  constructor
  · rintro ⟨s₁, ⟨hawaited, hgiven, hpending, htrailing⟩, g, hadd, rfl⟩
    rw [List.append_nil] at hgiven
    refine ⟨hawaited, ?_, hpending, htrailing⟩
    rw [List.foldlM_append]
    exact bind_eq_ok_iff.2 ⟨_, hgiven, by simpa using hadd⟩
  · rintro ⟨hawaited, hgiven, hpending, htrailing⟩
    rw [List.foldlM_append] at hgiven
    obtain ⟨g, hheld, hadd⟩ := bind_eq_ok_iff.1 hgiven
    exact ⟨{ s' with given := g }, ⟨hawaited, by rwa [List.append_nil], hpending, htrailing⟩,
      s'.given, by simpa using hadd, rfl⟩

theorem option_some_iff {v : String} :
    s.option o (some v) = .ok s' ↔ s.Turns [.option o v] none s' :=
  settle_add_iff (.option o v)

theorem flag_iff : s.flag f = .ok s' ↔ s.Turns [.flag f] none s' :=
  settle_add_iff (.flag f)

/-- Letters behind a hyphen are read item by item. -/
theorem letters_eq_ok_iff {cs : List Char} (h : cs ≠ [] ∨ s.pending = none) :
    s.letters cs = .ok s' ↔
      ∃ items waiting, Letters cs items waiting ∧ s.Turns items waiting s' := by
  induction cs generalizing s with
  | nil =>
    -- no letters are left only behind a flag, and then no option is pending
    have hsettle : s.settle = .ok s := by
      rw [settle, h.resolve_left (not_not_intro rfl)]
    rw [letters, ← hsettle, settle_eq_ok_iff]
    constructor
    · exact fun h => ⟨[], none, .nil, h⟩
    · rintro ⟨_, _, ⟨⟩, h⟩
      exact h
  | cons c cs ih =>
    unfold letters
    cases hc : Switch.ofLetter? c with
    | none => exact iff_of_false (fun h => by cases h) fun ⟨_, _, h, _⟩ => h.ne_none hc
    | some x =>
      cases x with
      | inl o =>
        simp only [letters_option_iff (ofLetter?_eq_some_iff.1 hc)]
        split <;> simp [option_none_iff, option_some_iff, and_assoc]
      | inr f =>
        obtain rfl : f.letter = c := Option.some.inj (ofLetter?_eq_some_iff.1 hc)
        have hrest : ∀ s₁, s.Turns [.flag f] none s₁ → (s₁.letters cs = .ok s' ↔
            ∃ items waiting, Letters cs items waiting ∧ s₁.Turns items waiting s') :=
          fun s₁ hflag => ih (.inr hflag.pending)
        simp only [bind_eq_ok_iff, flag_iff, letters_flag_iff]
        constructor
        · rintro ⟨s₁, hflag, h⟩
          obtain ⟨items, waiting, hletters, hturns⟩ := (hrest s₁ hflag).1 h
          exact ⟨_, waiting, ⟨items, hletters, rfl⟩, exists_turns_append_iff.1 ⟨s₁, hflag, hturns⟩⟩
        · rintro ⟨_, waiting, ⟨items, hletters, rfl⟩, hturns⟩
          replace hturns : s.Turns ([.flag f] ++ items) waiting s' := hturns
          obtain ⟨s₁, hflag, hturns⟩ := exists_turns_append_iff.2 hturns
          exact ⟨s₁, hflag, (hrest s₁ hflag).2 ⟨items, waiting, hletters, hturns⟩⟩

theorem long_name {name : List Char} (h : '=' ∉ name) :
    s.long name = match Switch.ofName? (String.ofList name) with
      | none => .error .unknownArgument
      | some (.inl o) => s.option o none
      | some (.inr f) => s.flag f := by
  have hne : ∀ c ∈ name, decide (c ≠ '=') = true :=
    fun c hc => decide_eq_true fun heq => h (heq ▸ hc)
  have htake : name.takeWhile (· ≠ '=') = name := List.takeWhile_eq_self_iff.2 hne
  have hdrop : name.dropWhile (· ≠ '=') = [] := List.dropWhile_eq_nil_iff.2 hne
  simp only [long, htake, hdrop]
  rcases Switch.ofName? (String.ofList name) with _ | _ | _ <;> rfl

theorem long_name_append {name v : List Char} (h : '=' ∉ name) :
    s.long (name ++ '=' :: v) = match Switch.ofName? (String.ofList name) with
      | none => .error .unknownArgument
      | some (.inl o) => s.option o (some (String.ofList v))
      | some (.inr _) => .error .tooManyValues := by
  have hne : ∀ c ∈ name, decide (c ≠ '=') = true :=
    fun c hc => decide_eq_true fun heq => h (heq ▸ hc)
  have htake : (name ++ '=' :: v).takeWhile (· ≠ '=') = name := by
    rw [List.takeWhile_append_of_pos hne]
    simp
  have hdrop : (name ++ '=' :: v).dropWhile (· ≠ '=') = '=' :: v := by
    rw [List.dropWhile_append_of_pos hne]
    simp
  simp only [long, htake, hdrop]
  rcases Switch.ofName? (String.ofList name) with _ | _ | _ <;> rfl

theorem long_eq_ok_iff {cs : List Char} :
    s.long cs = .ok s' ↔ ∃ items waiting, Long cs items waiting ∧ s.Turns items waiting s' := by
  constructor
  · intro h
    by_cases heq : '=' ∈ cs
    · obtain ⟨name, v, rfl, hname⟩ := List.eq_append_cons_of_mem heq
      rw [long_name_append hname] at h
      split at h
      · cases h
      · rename_i o ho
        obtain rfl : name = o.name := ofName?_eq_some_iff.1 ho
        exact ⟨_, _, .equals o v, option_some_iff.1 h⟩
      · cases h
    · rw [long_name heq] at h
      split at h
      · cases h
      · rename_i o ho
        obtain rfl : cs = o.name := ofName?_eq_some_iff.1 ho
        exact ⟨_, _, .waiting o, option_none_iff.1 h⟩
      · rename_i f hf
        obtain rfl : cs = f.name := ofName?_eq_some_iff.1 hf
        exact ⟨_, _, .flag f, flag_iff.1 h⟩
  · rintro ⟨items, waiting, hlong, hturns⟩
    cases hlong with
    | waiting o =>
      rw [long_name o.not_mem_name, o.ofName?_name]
      exact option_none_iff.2 hturns
    | equals o v =>
      rw [long_name_append o.not_mem_name, o.ofName?_name]
      exact option_some_iff.2 hturns
    | flag f =>
      rw [long_name f.not_mem_name, f.ofName?_name]
      exact flag_iff.2 hturns

/-- An argument spells items, or it is the value that an option waits for, or two hyphens. -/
theorem argument_eq_ok_iff {t : String} (h : s.trailing = false) :
    s.argument t = .ok s' ↔
      (∃ items waiting, Word t.toList items waiting ∧ s.Turns items waiting s') ∨
      (IsValue t.toList ∧ ∃ o, s.pending = some (o, none) ∧
        { s with pending := some (o, some t) } = s') ∨
      t = "--" ∧ { s with trailing := true } = s' := by
  have hstop : t = "--" ↔ t.toList = ['-', '-'] := String.toList_inj.symm
  unfold argument
  rw [h, hstop]
  simp only [Bool.false_eq_true, if_false]
  split
  case h_1 ht =>
    have hvalue : ¬IsValue ['-', '-'] := fun hv => by simpa using hv rfl
    simp [ht, word_stop, hvalue]
  case h_2 cs hne ht =>
    have hvalue : ¬IsValue ('-' :: '-' :: cs) := fun hv => by simpa using hv rfl
    replace hne : cs ≠ [] := hne
    simp [ht, word_long_iff, hvalue, hne, long_eq_ok_iff]
  case h_3 c cs _ hne ht =>
    have hvalue : ¬IsValue ('-' :: c :: cs) := fun hv => by simpa using hv rfl
    replace hne : c ≠ '-' := hne
    rw [letters_eq_ok_iff (.inl (List.cons_ne_nil c cs))]
    simp [ht, word_letters_iff hne, hvalue, hne]
  case h_4 _ _ hne =>
    have hvalue : IsValue t.toList := by
      intro hhead
      obtain ⟨cs, hcs⟩ := List.head?_eq_some_iff.1 hhead
      cases cs with
      | nil => exact hcs
      | cons c cs => exact absurd hcs (hne c cs)
    have hword : ∀ items waiting, ¬Word t.toList items waiting := by
      intro items waiting hword
      obtain ⟨c, cs, hcs⟩ := hword.exists_eq
      exact hne c cs hcs
    have hne : t.toList ≠ ['-', '-'] := hne '-' []
    simp only [value, hvalue, hword, hne, false_and, exists_false, false_or, true_and, or_false]
    obtain ⟨given, _ | ⟨o, _ | v⟩, _⟩ := s <;> cases h <;> simp

end Parsing

/-! ## Reading all arguments -/

/-- What is given says what a run is asked to do. -/
structure Given.Concludes (g : Given) (a : Arguments) : Prop where
  input : g.input = some a.input
  output : g.output = some a.output
  format : g.format.getD .json = a.format
  config : g.config = a.config
  title : g.title = a.title
  description : g.description = a.description
  verbose : g.verbose = a.verbose

namespace Parsing

variable {s : Parsing} {args : List String} {a : Arguments}

theorem finish_eq_ok_iff :
    s.finish = .ok a ↔ ∃ s', s.Turns [] none s' ∧ s'.given.Concludes a := by
  simp only [finish, bind_eq_ok_iff, settle_eq_ok_iff]
  refine exists_congr fun s' => and_congr_right fun _ => ?_
  constructor
  · intro h
    split at h
    case h_1 input output hinput houtput =>
      cases h
      exact ⟨hinput, houtput, rfl, rfl, rfl, rfl, rfl⟩
    case h_2 => cases h
  · rintro ⟨hinput, houtput, hformat, hconfig, htitle, hdescription, hverbose⟩
    simp only [hinput, houtput, hformat, hconfig, htitle, hdescription, hverbose]
    rfl

/-- Behind two hyphens no argument is accepted. -/
theorem foldlM_trailing_iff (h : s.trailing = true) :
    args.foldlM argument s = .ok s' ↔ args = [] ∧ s = s' := by
  cases args with
  | nil => simp [pure_eq_ok_iff]
  | cons t args =>
    have hargument : s.argument t = .error .unknownArgument := by
      rw [argument, if_pos h]
    simp [List.foldlM_cons, bind_eq_ok_iff, hargument]

/-- Arguments that are accepted spell items that can be given. -/
theorem exists_spells_of_foldlM (h : s.trailing = false) (hs' : args.foldlM argument s = .ok s')
    (hfinish : s'.finish = .ok a) :
    ∃ items g, Spells s.awaited args items ∧
      (s.held ++ items).foldlM Given.add s.given = .ok g ∧ g.Concludes a := by
  induction args generalizing s with
  | nil =>
    cases hs'
    obtain ⟨s₁, hturns, hg⟩ := finish_eq_ok_iff.1 hfinish
    rw [hturns.awaited]
    exact ⟨[], s₁.given, .nil, hturns.given, hg⟩
  | cons t args ih =>
    rw [List.foldlM_cons] at hs'
    obtain ⟨s₁, hargument, hs'⟩ := bind_eq_ok_iff.1 hs'
    rcases (argument_eq_ok_iff h).1 hargument with
      ⟨is, waiting, hword, hturns⟩ | ⟨hvalue, o, hpending, rfl⟩ | ⟨rfl, rfl⟩
    · obtain ⟨items, g, hspells, hitems, hg⟩ := ih (hturns.trailing.trans h) hs'
      rw [awaited_of_pending hturns.pending] at hspells
      rw [held_of_pending hturns.pending] at hitems
      rw [hturns.awaited]
      refine ⟨is ++ items, g, .word hword hspells, ?_, hg⟩
      rw [← List.append_assoc, List.foldlM_append]
      exact bind_eq_ok_iff.2 ⟨s₁.given, hturns.given, hitems⟩
    · obtain ⟨given, _, trailing⟩ := s
      cases hpending
      obtain ⟨items, g, hspells, hitems, hg⟩ :=
        ih (s := ⟨given, some (o, some t), trailing⟩) h hs'
      exact ⟨.option o t :: items, g, .value hvalue hspells, hitems, hg⟩
    · obtain ⟨rfl, rfl⟩ := (foldlM_trailing_iff rfl).1 hs'
      obtain ⟨s₁, hturns, hg⟩ := finish_eq_ok_iff.1 hfinish
      have hawaited : s.awaited = none := hturns.awaited
      rw [hawaited]
      exact ⟨[], s₁.given, .stop, hturns.given, hg⟩

/-- Arguments that spell items are accepted if the items can be given. -/
theorem exists_foldlM_of_spells {items : List Item} {g : Given} (h : s.trailing = false)
    (hspells : Spells s.awaited args items)
    (hitems : (s.held ++ items).foldlM Given.add s.given = .ok g) (hg : g.Concludes a) :
    ∃ s', args.foldlM argument s = .ok s' ∧ s'.finish = .ok a := by
  generalize hawaited : s.awaited = waiting at hspells
  induction hspells generalizing s with
  | nil =>
    have hturns : s.Turns [] none { s with given := g, pending := none } :=
      ⟨hawaited, hitems, rfl, rfl⟩
    exact ⟨s, rfl, finish_eq_ok_iff.2 ⟨_, hturns, hg⟩⟩
  | stop =>
    have hstop := (argument_eq_ok_iff h).2 (.inr (.inr ⟨rfl, rfl⟩))
    have hturns : { s with trailing := true }.Turns [] none ⟨g, none, true⟩ :=
      ⟨hawaited, hitems, rfl, rfl⟩
    exact ⟨_, bind_eq_ok_iff.2 ⟨_, hstop, rfl⟩, finish_eq_ok_iff.2 ⟨_, hturns, hg⟩⟩
  | @word t args is items waiting hword _ ih =>
    rw [← List.append_assoc, List.foldlM_append] at hitems
    obtain ⟨g₁, his, hitems⟩ := bind_eq_ok_iff.1 hitems
    have hturns : s.Turns is waiting { s with given := g₁, pending := waiting.map (·, none) } :=
      ⟨hawaited, his, rfl, rfl⟩
    have hargument := (argument_eq_ok_iff h).2 (.inl ⟨is, waiting, hword, hturns⟩)
    obtain ⟨s', hs', hfinish⟩ :=
      ih (hturns.trailing.trans h) (by rwa [held_of_pending rfl]) (awaited_of_pending rfl)
    exact ⟨s', bind_eq_ok_iff.2 ⟨_, hargument, hs'⟩, hfinish⟩
  | @value o v args items hvalue _ ih =>
    obtain ⟨given, _, trailing⟩ := s
    obtain rfl := pending_of_awaited hawaited
    have hargument := (argument_eq_ok_iff h).2 (.inr (.inl ⟨hvalue, o, rfl, rfl⟩))
    obtain ⟨s', hs', hfinish⟩ := ih (s := ⟨given, some (o, some v), trailing⟩) h hitems rfl
    exact ⟨s', bind_eq_ok_iff.2 ⟨_, hargument, hs'⟩, hfinish⟩

end Parsing

/-! ## What arguments say -/

/-- What a run is asked to do says what the items are. The format is `json` if no item says it. -/
structure Arguments.Says (a : Arguments) (items : List Item) : Prop where
  input : valuesOf .input items = [a.input]
  output : valuesOf .output items = [a.output]
  format : valuesOf .format items = [a.format.word] ∨
    valuesOf .format items = [] ∧ a.format = .json
  config : valuesOf .config items = a.config.toList
  title : valuesOf .title items = a.title.toList
  description : valuesOf .description items = a.description.toList
  verbose : flagsOf items = if a.verbose then [.verbose] else []
  paths : a.input ≠ "" ∧ a.output ≠ "" ∧ a.config ≠ some ""

theorem Arguments.says_of_extends {items : List Item} {g : Given} {a : Arguments}
    (hextends : Given.Extends {} items g) (h : g.Concludes a) : a.Says items := by
  have hvalues : ∀ o, valuesOf o items = (g.value? o).toList := by
    intro o
    rw [hextends.values]
    cases o <;> rfl
  have hallowed : ∀ o v, g.value? o = some v → o.Allows v := by
    intro o v hv
    refine hextends.allowed o v ?_
    simp [hvalues, hv]
  refine ⟨?_, ?_, ?_, ?_, ?_, ?_, ?_, ?_⟩
  · simp [hvalues, Given.value?, h.input]
  · simp [hvalues, Given.value?, h.output]
  · rw [hvalues]
    cases hformat : g.format with
    | none => exact .inr ⟨by simp [Given.value?, hformat], by simp [← h.format, hformat]⟩
    | some f => exact .inl (by simp [Given.value?, ← h.format, hformat])
  · simp [hvalues, Given.value?, h.config]
  · simp [hvalues, Given.value?, h.title]
  · simp [hvalues, Given.value?, h.description]
  · rw [← h.verbose]
    exact hextends.flags.symm
  · exact ⟨hallowed .input _ h.input, hallowed .output _ h.output,
      fun hconfig => hallowed .config _ (h.config.trans hconfig) rfl⟩

theorem Arguments.Says.exists_extends {items : List Item} {a : Arguments} (h : a.Says items) :
    ∃ g : Given, Given.Extends {} items g ∧ g.Concludes a := by
  let g : Given := {
    input := some a.input, output := some a.output,
    format := if valuesOf .format items = [] then none else some a.format
    config := a.config, title := a.title, description := a.description, verbose := a.verbose }
  have hvalues : ∀ o, (g.value? o).toList = valuesOf o items := by
    intro o
    cases o with
    | input => exact h.input.symm
    | output => exact h.output.symm
    | format => rcases h.format with hformat | ⟨hformat, -⟩ <;> simp [g, Given.value?, hformat]
    | config => exact h.config.symm
    | title => exact h.title.symm
    | description => exact h.description.symm
  have hallowed : ∀ o v, g.value? o = some v → o.Allows v := by
    intro o v hv
    obtain ⟨hinput, houtput, hconfig⟩ := h.paths
    cases o with
    | input => exact Option.some.inj hv ▸ hinput
    | output => exact Option.some.inj hv ▸ houtput
    | format =>
      obtain ⟨f, -, hf⟩ := Option.map_eq_some_iff.1 hv
      exact ⟨f, hf⟩
    | config =>
      rintro rfl
      exact hconfig hv
    | title | description => trivial
  refine ⟨g, ⟨fun o => ?_, fun o v hv => ?_, h.verbose.symm⟩, rfl, rfl, ?_, rfl, rfl, rfl, rfl⟩
  · rw [hvalues]
    cases o <;> rfl
  · rw [← hvalues] at hv
    exact hallowed o v (Option.mem_toList.1 hv)
  · rcases h.format with hformat | ⟨hformat, hjson⟩
    · simp [g, hformat]
    · simp [g, hformat, hjson]

/-- Arguments are accepted exactly if they spell items that say what a run is asked to do. -/
theorem Arguments.parse_eq_ok_iff {args : List String} {a : Arguments} :
    Arguments.parse args = .ok a ↔ ∃ items, Spells none args items ∧ a.Says items := by
  have hparse : Arguments.parse args = args.foldlM Parsing.argument {} >>= Parsing.finish := rfl
  rw [hparse, bind_eq_ok_iff]
  constructor
  · rintro ⟨s, hs, hfinish⟩
    obtain ⟨items, g, hspells, hitems, hg⟩ := Parsing.exists_spells_of_foldlM rfl hs hfinish
    exact ⟨items, hspells, says_of_extends (Given.foldlM_add_eq_ok_iff.1 hitems) hg⟩
  · rintro ⟨items, hspells, hsaid⟩
    obtain ⟨g, hextends, hg⟩ := hsaid.exists_extends
    exact Parsing.exists_foldlM_of_spells rfl hspells (Given.foldlM_add_eq_ok_iff.2 hextends) hg

end RouteDocs.Command
