import Cil.Assemble

/-!
Runs that end well. A run of an action leads from one state to another with a result, and a run of a
sequence is a run of each of its parts; the lemmas here take a run apart along the text of its action,
so that no later proof looks into the monads.
-/

namespace Cil

variable {ε α β : Type} {x : Except ε α}

theorem Except.bind_eq_ok {f : α → Except ε β} {b : β} :
    x >>= f = .ok b ↔ ∃ a, x = .ok a ∧ f a = .ok b := by
  cases x with
  | ok a =>
    change f a = .ok b ↔ _
    simp
  | error e =>
    change Except.error e = Except.ok b ↔ _
    simp

theorem eq_ok_of_toOption {a : α} (h : x.toOption = some a) : x = .ok a := by
  cases x with
  | error e => cases h
  | ok b => rw [Option.some.inj h]

theorem Service.run_bind {σ : Type} (c : Service σ α) (f : α → Service σ β) (s : σ) :
    (c >>= f).run s = match c.run s with
      | (.ok a, s₁) => (f a).run s₁
      | (.error e, s₁) => (.error e, s₁) := by
  rcases h : c.run s with ⟨r, s₁⟩
  cases r with
  | ok | error =>
    show (ExceptT.bindCont (fun a => f a) (c s).1).run (c s).2 = _
    rw [show c s = _ from h]
    rfl

namespace Emit

variable {α β : Type} {s s' : Session} {c : Emit α} {t : Session} {a b : α}

/-- The action leads from one session to another and gives a result. -/
def Runs (c : Emit α) (s : Session) (a : α) (s' : Session) : Prop := c.run s = (.ok a, s')

theorem Runs.iff (h : c.Runs s a s') : c.Runs s b t ↔ a = b ∧ s' = t := by
  rw [Runs, show c.run s = _ from h, Prod.mk.injEq, Except.ok.injEq]

theorem exists_runs {f : α → β} {b : β} (h : (c.run s).1.toOption.map f = some b) :
    ∃ a s', c.Runs s a s' ∧ f a = b := by
  obtain ⟨a, result, rfl⟩ := Option.map_eq_some_iff.1 h
  exact ⟨a, _, Prod.ext (eq_ok_of_toOption result) rfl, rfl⟩

@[simp] theorem runs_bind {f : α → Emit β} {b : β} :
    (c >>= f).Runs s b s' ↔ ∃ a s₁, c.Runs s a s₁ ∧ (f a).Runs s₁ b s' := by
  unfold Runs
  rw [Service.run_bind]
  rcases c.run s with ⟨r, s₁⟩
  constructor
  · intro h
    cases r with
    | ok a => exact ⟨a, s₁, rfl, h⟩
    | error e => cases h
  · rintro ⟨a, s₂, h, hf⟩
    cases h
    exact hf

@[simp] theorem runs_pure : (pure a : Emit α).Runs s b s' ↔ a = b ∧ s = s' := by
  change ((Except.ok a, s) : Except Error α × Session) = (.ok b, s') ↔ _
  simp

@[simp] theorem runs_map {g : α → β} {b : β} :
    (g <$> c).Runs s b s' ↔ ∃ a, c.Runs s a s' ∧ g a = b := by
  simp [← bind_pure_comp]

@[simp] theorem runs_throw {e : Error} : ¬ (throw e : Emit α).Runs s a s' := by
  intro h
  cases h

@[simp] theorem runs_get : (get : Emit Session).Runs s t s' ↔ s = t ∧ s = s' := by
  change ((Except.ok s, s) : Except Error Session × Session) = (.ok t, s') ↔ _
  simp

@[simp] theorem runs_modifyGet {f : Session → α × Session} :
    (modifyGet f : Emit α).Runs s a s' ↔ f s = (a, s') := by
  change ((Except.ok (f s).1, (f s).2) : Except Error α × Session) = (.ok a, s') ↔ _
  simp [Prod.ext_iff]

@[simp] theorem runs_modify {f : Session → Session} {u : Unit} :
    (modify f : Emit Unit).Runs s u s' ↔ f s = s' := by
  change ((Except.ok (), f s) : Except Error Unit × Session) = (.ok u, s') ↔ _
  simp

@[simp] theorem runs_ofExcept {r : Except Error α} :
    (ofExcept r).Runs s a s' ↔ r = .ok a ∧ s = s' := by
  change ((r, s) : Except Error α × Session) = (.ok a, s') ↔ _
  simp

@[simp] theorem runs_ofEncoding {r : Except EncodingError α} :
    (ofEncoding r).Runs s a s' ↔ r = .ok a ∧ s = s' := by
  cases r with
  | ok b =>
    change (ofExcept (.ok b)).Runs s a s' ↔ _
    simp
  | error e =>
    change (ofExcept (.error _)).Runs s a s' ↔ _
    simp

end Emit

namespace Compile

variable {α β : Type}

/-- What a compilation changes. -/
@[ext] structure State where
  draft : Draft
  session : Session

def exec (c : Compile α) (σ : State) : Except Error α × State :=
  let r := c.run σ.draft σ.session
  (r.1.1, ⟨r.1.2, r.2⟩)

/-- The action leads from one state to another and gives a result. -/
def Runs (c : Compile α) (σ : State) (a : α) (σ' : State) : Prop := c.exec σ = (.ok a, σ')

theorem exec_bind (c : Compile α) (f : α → Compile β) (σ : State) :
    (c >>= f).exec σ = match c.exec σ with
      | (.ok a, σ₁) => (f a).exec σ₁
      | (.error e, σ₁) => (.error e, σ₁) := by
  rcases h : c.run σ.draft σ.session with ⟨⟨r, d⟩, s⟩
  have step : (c >>= f).run σ.draft σ.session =
      (ExceptT.bindCont (fun a => f a) r).run d s := by
    change (ExceptT.bindCont (fun a => f a) (c σ.draft σ.session).1.1).run
      (c σ.draft σ.session).1.2 (c σ.draft σ.session).2 = _
    rw [show c σ.draft σ.session = _ from h]
  cases r <;> simp only [exec, step, h] <;> rfl

variable {σ σ' : State} {c : Compile α} {a b : α}

theorem Runs.iff {τ : State} (h : c.Runs σ a σ') : c.Runs σ b τ ↔ a = b ∧ σ' = τ := by
  rw [Runs, show c.exec σ = _ from h, Prod.mk.injEq, Except.ok.injEq]

@[simp] theorem runs_bind {f : α → Compile β} {b : β} :
    (c >>= f).Runs σ b σ' ↔ ∃ a σ₁, c.Runs σ a σ₁ ∧ (f a).Runs σ₁ b σ' := by
  unfold Runs
  rw [exec_bind]
  rcases c.exec σ with ⟨r, σ₁⟩
  constructor
  · intro h
    cases r with
    | ok a => exact ⟨a, σ₁, rfl, h⟩
    | error e => cases h
  · rintro ⟨a, σ₂, h, hf⟩
    cases h
    exact hf

@[simp] theorem runs_pure : (pure a : Compile α).Runs σ b σ' ↔ a = b ∧ σ = σ' := by
  change ((Except.ok a, σ) : Except Error α × State) = (.ok b, σ') ↔ _
  simp

@[simp] theorem runs_map {g : α → β} {b : β} :
    (g <$> c).Runs σ b σ' ↔ ∃ a, c.Runs σ a σ' ∧ g a = b := by
  simp [← bind_pure_comp]

@[simp] theorem runs_throw {e : Error} : ¬ (throw e : Compile α).Runs σ a σ' := by
  intro h
  cases h

@[simp] theorem runs_fault {ctx : BodyContext} {cause : BodyFault} :
    ¬ (fault ctx cause : Compile α).Runs σ a σ' := runs_throw

@[simp] theorem runs_get {d : Draft} :
    (get : Compile Draft).Runs σ d σ' ↔ σ.draft = d ∧ σ = σ' := by
  change ((Except.ok σ.draft, σ) : Except Error Draft × State) = (.ok d, σ') ↔ _
  simp

@[simp] theorem runs_modify {f : Draft → Draft} {u : Unit} :
    (modify f : Compile Unit).Runs σ u σ' ↔ ⟨f σ.draft, σ.session⟩ = σ' := by
  change ((Except.ok (), ⟨f σ.draft, σ.session⟩) : Except Error Unit × State) = (.ok u, σ') ↔ _
  simp

@[simp] theorem runs_modifyGet {f : Draft → α × Draft} :
    (modifyGet f : Compile α).Runs σ a σ' ↔
      (f σ.draft).1 = a ∧ ⟨(f σ.draft).2, σ.session⟩ = σ' := by
  change ((Except.ok (f σ.draft).1, ⟨(f σ.draft).2, σ.session⟩) : Except Error α × State) =
    (.ok a, σ') ↔ _
  simp

@[simp] theorem runs_emit {c : Emit α} :
    (emit c).Runs σ a σ' ↔ ∃ s, c.Runs σ.session a s ∧ ⟨σ.draft, s⟩ = σ' := by
  change (((c.run σ.session).1, ⟨σ.draft, (c.run σ.session).2⟩) : Except Error α × State) =
    (.ok a, σ') ↔ _
  unfold Emit.Runs
  rcases c.run σ.session with ⟨r, s⟩
  constructor
  · intro h
    cases h
    exact ⟨s, rfl, rfl⟩
  · rintro ⟨_, h, rfl⟩
    cases h
    rfl

@[simp] theorem runs_ite {c : Prop} [Decidable c] {x y : Compile α} :
    (if c then x else y).Runs σ a σ' ↔ if c then x.Runs σ a σ' else y.Runs σ a σ' := by
  split <;> rfl

end Compile
end Cil
