import Mathlib.Init

/-!
# The results of computations

What the results of a computation are like, said without running it: a property of the results of
two steps gives one of the results of both. The errors of a computation may have a property of their
own, and a computation with a state may keep an invariant of the state.
-/

namespace ServiceSplit

/-- A way to say what the results of computations are like. -/
structure Outcomes (m : Type → Type) [Monad m] where
  /-- The results of a computation have a property. -/
  Gives : {α : Type} → m α → (α → Prop) → Prop
  pure : ∀ {α : Type} {P : α → Prop} {a : α}, P a → Gives (pure a) P
  bind : ∀ {α β : Type} {P : α → Prop} {R : β → Prop} {x : m α} {f : α → m β},
    Gives x P → (∀ a, P a → Gives (f a) R) → Gives (x >>= f) R

namespace Outcomes

variable {m : Type → Type} [Monad m] {W : Outcomes m} {α β ε σ : Type} {P : α → Prop} {R : β → Prop}

namespace Gives

variable {x : m α}

theorem bind {f : α → m β} (h : W.Gives x P) (hf : ∀ a, P a → W.Gives (f a) R) :
    W.Gives (x >>= f) R :=
  W.bind h hf

theorem returning {f : α → β} (h : W.Gives x P) (hf : ∀ a, P a → R (f a)) :
    W.Gives (x >>= fun a => Pure.pure (f a)) R :=
  h.bind fun a ha => W.pure (hf a ha)

theorem map [LawfulMonad m] {f : α → β} (h : W.Gives x P) (hf : ∀ a, P a → R (f a)) :
    W.Gives (f <$> x) R := by
  rw [map_eq_pure_bind]
  exact h.returning hf

theorem mono [LawfulMonad m] {R : α → Prop} (h : W.Gives x P) (hR : ∀ a, P a → R a) :
    W.Gives x R := by
  rw [← id_map x]
  exact h.map hR

/-- The results for the elements of a list, one after the other. -/
theorem mapM {P : α → β → Prop} {f : α → m β} [LawfulMonad m] {as : List α}
    (h : ∀ a ∈ as, W.Gives (f a) (P a)) :
    W.Gives (as.mapM f) fun bs => ∀ b ∈ bs, ∃ a ∈ as, P a b := by
  induction as with
  | nil => exact W.pure nofun
  | cons a as ih =>
    rw [List.forall_mem_cons] at h
    rw [List.mapM_cons]
    refine h.1.bind fun b hb => (ih h.2).returning fun bs hbs => ?_
    refine List.forall_mem_cons.mpr ⟨⟨a, List.mem_cons_self, hb⟩, fun b' hb' => ?_⟩
    obtain ⟨a', ha', hab'⟩ := hbs b' hb'
    exact ⟨a', List.mem_cons_of_mem a ha', hab'⟩

end Gives

/-- The result of a computation without effects. -/
def id : Outcomes Id where
  Gives x P := P x
  pure h := h
  bind h hf := hf _ h

/-- The result of a computation that may fail with an error that has the property `F`. -/
def orError (F : ε → Prop) : Outcomes (Except ε) where
  Gives x P := match x with
    | .ok a => P a
    | .error e => F e
  pure h := h
  bind {_ _ _ _ x _} h hf := by
    cases x with
    | ok a => exact hf a h
    | error e => exact h

theorem orError_mapError {ε' : Type} {F : ε' → Prop} {x : Except ε α} {f : ε → ε'}
    (h : ∀ e, x = .error e → F (f e)) : (orError F).Gives (x.mapError f) fun a => x = .ok a := by
  cases x with
  | ok a => rfl
  | error e => exact h e rfl

/-- From a state with the invariant `I`, the results are as `W` says, and the state keeps the
invariant. -/
def keeping (W : Outcomes m) (I : σ → Prop) : Outcomes (StateT σ m) where
  Gives act P := ∀ st, I st → W.Gives (act.run st) fun r => P r.1 ∧ I r.2
  pure h _ hst := W.pure ⟨h, hst⟩
  bind h hf st hst := W.bind (h st hst) fun r hr => hf r.1 hr.1 r.2 hr.2

variable {I : σ → Prop}

theorem keeping_get : (W.keeping I).Gives (MonadState.get : StateT σ m σ) I :=
  fun _ hst => W.pure ⟨hst, hst⟩

theorem keeping_modify {f : σ → σ} (h : ∀ st, I st → I (f st)) :
    (W.keeping I).Gives (modifyGet fun st => (⟨⟩, f st) : StateT σ m PUnit) fun _ => True :=
  fun st hst => W.pure ⟨trivial, h st hst⟩

theorem keeping_set {st : σ} (h : I st) :
    (W.keeping I).Gives (MonadStateOf.set st : StateT σ m PUnit) fun _ => True :=
  fun _ _ => W.pure ⟨trivial, h⟩

theorem keeping_lift {x : m α} (h : W.Gives x P) : (W.keeping I).Gives (StateT.lift x) P :=
  fun _ hst => h.returning fun _ ha => ⟨ha, hst⟩

end Outcomes

end ServiceSplit
