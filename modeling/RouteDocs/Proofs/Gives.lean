/-!
# What a computation gives

## Main definitions

* `Gives`: a computation gives values with a property only.

## Main statements

* `Gives.bind`, `Gives.mapM`: what a computation gives is known from its parts.
* `gives_option_iff`: what this means for a computation that may fail.
* `bind_eq_ok_iff`: when a computation that may fail in several ways succeeds.
-/

namespace RouteDocs

variable {m : Type → Type} [Monad m] {α β : Type}

/-- The computation gives values with a property only. -/
def Gives (p : α → Prop) (x : m α) : Prop := ∃ y : m { a // p a }, Subtype.val <$> y = x

theorem gives_option_iff {p : α → Prop} {x : Option α} : Gives p x ↔ ∀ a, x = some a → p a := by
  constructor
  · rintro ⟨y, rfl⟩ a ha
    obtain ⟨b, -, rfl⟩ := Option.map_eq_some_iff.1 ha
    exact b.2
  · intro h
    cases x with
    | none => exact ⟨none, rfl⟩
    | some a => exact ⟨some ⟨a, h a rfl⟩, rfl⟩

variable [LawfulMonad m]

theorem Gives.imp {p q : α → Prop} {x : m α} (h : Gives p x) (himp : ∀ a, p a → q a) :
    Gives q x := by
  obtain ⟨y, rfl⟩ := h
  exact ⟨(fun a => ⟨a.1, himp a.1 a.2⟩) <$> y, by simp⟩

theorem Gives.pure {p : α → Prop} {a : α} (h : p a) : Gives p (pure a : m α) :=
  ⟨Pure.pure ⟨a, h⟩, by simp⟩

theorem gives_true (x : m α) : Gives (fun _ => True) x := ⟨(⟨·, trivial⟩) <$> x, by simp⟩

theorem Gives.bind {p : α → Prop} {q : β → Prop} {x : m α} {f : α → m β} (hx : Gives p x)
    (hf : ∀ a, p a → Gives q (f a)) : Gives q (x >>= f) := by
  obtain ⟨y, rfl⟩ := hx
  refine ⟨y >>= fun a => (hf a.1 a.2).choose, ?_⟩
  have hchoose : ∀ a : { a // p a }, Subtype.val <$> (hf a.1 a.2).choose = f a.1 := fun a =>
    (hf a.1 a.2).choose_spec
  simp [hchoose]

theorem Gives.bind_of_forall {q : β → Prop} {f : α → m β} (x : m α) (hf : ∀ a, Gives q (f a)) :
    Gives q (x >>= f) :=
  (gives_true x).bind fun a _ => hf a

theorem Gives.mapM {p : β → Prop} {f : α → m β} (l : List α) (hf : ∀ a, Gives p (f a)) :
    Gives (fun bs => ∀ b ∈ bs, p b) (l.mapM f) := by
  induction l with
  | nil =>
    rw [List.mapM_nil]
    exact .pure fun _ h => nomatch h
  | cons a l ih =>
    rw [List.mapM_cons]
    refine (hf a).bind fun b hb => ih.bind fun bs hbs => ?_
    exact .pure (List.forall_mem_cons.2 ⟨hb, hbs⟩)

/-! ## Computations that may fail -/

section

variable {σ : Type} {p : α → Prop}

theorem Gives.lift {x : Option α} (h : Gives p x) :
    Gives p (StateT.lift x : StateT σ Option α) := by
  obtain ⟨y, rfl⟩ := h
  exact ⟨StateT.lift y, by ext; simp⟩

theorem Gives.run' {x : StateT σ Option α} (h : Gives p x) (s : σ) :
    Gives p (x.run' s) := by
  obtain ⟨y, rfl⟩ := h
  exact ⟨y.run' s, by simp [Function.comp_def]⟩

end

theorem bind_eq_ok_iff {ε : Type} {x : Except ε α} {f : α → Except ε β} {b : β} :
    x >>= f = .ok b ↔ ∃ a, x = .ok a ∧ f a = .ok b := by
  cases x with
  | error e => simp [bind, Except.bind]
  | ok a => simp [bind, Except.bind]

theorem map_eq_ok_iff {ε : Type} {x : Except ε α} {f : α → β} {b : β} :
    x.map f = .ok b ↔ ∃ a, x = .ok a ∧ f a = b := by
  cases x with
  | error e => simp [Except.map]
  | ok a => simp [Except.map]

theorem pure_eq_ok_iff {ε : Type} {a b : α} : (pure a : Except ε α) = .ok b ↔ a = b := by
  simp [pure, Except.pure]

end RouteDocs
