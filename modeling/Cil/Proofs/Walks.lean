import Cil.Proofs.Steps

/-!
Runs as sequences of steps. An action `Walks` from one view to another if every run of it is a sequence
of steps between them. A view also says how high the compiler takes the stack to be: that agrees with
the depth of the stack before and after every expression, and differs from it only between an
instruction and the bookkeeping behind it.
-/

namespace Cil
namespace Compile

/-- What is known at a place: its scene, the depth of the stack, the height that the draft has for it,
how high the draft knows it has been, and whether control is known not to get there. -/
structure View where
  scene : Scene
  depth : Nat
  height : Nat
  peak : Nat
  shut : Bool

def Scene.level (s : Scene) (depth : Nat) : View := ⟨s, depth, depth, depth, false⟩

namespace View

structure Fits (sound : Prop) (v : View) (d : Draft) : Prop where
  height : sound → d.height = v.height
  peak : sound → v.peak ≤ d.maxHeight
  shut : v.shut = true → d.fallsThrough = false

/-- The second view claims no more than the first. -/
structure Settles (sound : Prop) (v w : View) : Prop where
  scene : v.scene = w.scene := by rfl
  depth : sound → v.depth = w.depth := by exact fun _ => rfl
  height : sound → v.height = w.height := by exact fun _ => rfl
  peak : sound → w.peak ≤ v.peak := by exact fun _ => Nat.le_refl _
  shut : w.shut = true → v.shut = true := by exact nofun

variable {sound : Prop} {v w : View}

theorem Fits.settle {d : Draft} (h : v.Fits sound d) (settles : v.Settles sound w) :
    w.Fits sound d where
  height hs := (h.height hs).trans (settles.height hs)
  peak hs := Nat.le_trans (settles.peak hs) (h.peak hs)
  shut hw := h.shut (settles.shut hw)

theorem Settles.steps {ctx : BodyContext} (h : v.Settles sound w) (K : List Event) (d : Draft)
    (t : Session) :
    Steps sound ctx ⟨v.scene, v.depth, K, d, t⟩ ⟨w.scene, w.depth, K, d, t⟩ := by
  rw [h.scene]
  by_cases hs : sound
  · rw [h.depth hs]
  · exact .single (.guess w.depth hs)

end View

/-- Whenever the events `N` have happened, a run of the action from the view `v` is a sequence of steps
to the view `w`, which may depend on the result. No event is forgotten. -/
structure Walks {α : Type} (sound : Prop) (ctx : BodyContext) (v : View) (N : List Event)
    (c : Compile α) (w : α → View) : Prop where
  steps {K : List Event} {σ : State} {a : α} {σ' : State} : N ⊆ K → v.Fits sound σ.draft →
    c.Runs σ a σ' → ∃ K', K ⊆ K' ∧ (w a).Fits sound σ'.draft ∧
      Steps sound ctx ⟨v.scene, v.depth, K, σ.draft, σ.session⟩
        ⟨(w a).scene, (w a).depth, K', σ'.draft, σ'.session⟩

variable {α : Type} {σ σ' : State} {a : α}

theorem runs_read {g : Draft → α} :
    Runs (do return g (← get)) σ a σ' ↔ g σ.draft = a ∧ σ = σ' := by
  simp [-bind_pure_comp, and_assoc]

theorem runs_quiet {c : Emit α} {P : Prop} (quiet : ∀ {s s'}, c.Runs s a s' ↔ P ∧ s = s') :
    (emit c).Runs σ a σ' ↔ P ∧ σ = σ' := by
  simp [quiet, and_assoc]

@[simp high] theorem runs_lookup {e : Except Error α} :
    (emit (Emit.ofExcept e)).Runs σ a σ' ↔ e = .ok a ∧ σ = σ' :=
  runs_quiet Emit.runs_ofExcept

namespace Walks

variable {β : Type} {sound : Prop} {ctx : BodyContext} {v : View} {N : List Event}

variable {w : α → View} {f : Nat → Compile β} {c : Compile α} {u : β → View} {ctx' : BodyContext}
  {cause : BodyFault}

theorem bind {f : α → Compile β} (hc : Walks sound ctx v N c w)
    (hf : ∀ a, Walks sound ctx (w a) N (f a) u) : Walks sound ctx v N (c >>= f) u where
  steps {K σ b σ'} hK fits run := by
    obtain ⟨a, σ₁, first, second⟩ := runs_bind.1 run
    obtain ⟨K₁, hK₁, fits₁, steps₁⟩ := hc.steps hK fits first
    obtain ⟨K₂, hK₂, fits₂, steps₂⟩ := (hf a).steps (List.Subset.trans hK hK₁) fits₁ second
    exact ⟨K₂, List.Subset.trans hK₁ hK₂, fits₂, steps₁.trans steps₂⟩

/-- The actions behind the first one may use what is known of its run, and the events of that. -/
theorem bind_run {f : α → Compile β}
    (h : ∀ {K σ a σ'}, N ⊆ K → v.Fits sound σ.draft → c.Runs σ a σ' → ∃ w E, w.Fits sound σ'.draft ∧
      Steps sound ctx ⟨v.scene, v.depth, K, σ.draft, σ.session⟩
        ⟨w.scene, w.depth, E ++ K, σ'.draft, σ'.session⟩ ∧ Walks sound ctx w (E ++ N) (f a) u) :
    Walks sound ctx v N (c >>= f) u where
  steps {K σ b σ'} hK fits run := by
    obtain ⟨a, σ₁, first, second⟩ := runs_bind.1 run
    obtain ⟨w, E, fits₁, steps₁, rest⟩ := h hK fits first
    obtain ⟨K₂, hK₂, fits₂, steps₂⟩ := rest.steps
      (List.append_subset.2 ⟨List.subset_append_left E K,
        List.Subset.trans hK (List.subset_append_right E K)⟩) fits₁ second
    exact ⟨K₂, fun _ old => hK₂ (List.mem_append_right E old), fits₂, steps₁.trans steps₂⟩

/-- An action that only checks something changes nothing. -/
theorem bind_check {f : α → Compile β} {P : α → Prop}
    (checks : ∀ {σ a σ'}, c.Runs σ a σ' → σ = σ' ∧ P a)
    (hf : ∀ a, P a → Walks sound ctx v N (f a) u) : Walks sound ctx v N (c >>= f) u := by
  refine .bind_run fun {K σ a σ'} _ fits run => ?_
  obtain ⟨rfl, known⟩ := checks run
  exact ⟨v, [], fits, .refl, hf a known⟩

theorem pure (a : α) : Walks sound ctx v N (pure a) fun _ => v where
  steps {K σ b σ'} _ fits run := by
    obtain ⟨rfl, rfl⟩ := runs_pure.1 run
    exact ⟨K, List.Subset.refl K, fits, .refl⟩

theorem fault :
    Walks sound ctx v N (fault ctx' cause) w where
  steps _ _ run := absurd run runs_fault

@[simp] theorem bind_fault {f : α → Compile β} {w : β → View} :
    Walks sound ctx v N (Compile.fault ctx' cause >>= f) w :=
  .bind_run fun _ _ run => absurd run runs_fault

theorem ite {c : Prop} [Decidable c] {x y : Compile α} (hx : c → Walks sound ctx v N x w)
    (hy : ¬ c → Walks sound ctx v N y w) : Walks sound ctx v N (if c then x else y) w := by
  split
  · exact hx ‹c›
  · exact hy ‹¬ c›

theorem settle {u : α → View} (h : Walks sound ctx v N c w)
    (settles : ∀ a, (w a).Settles sound (u a)) : Walks sound ctx v N c u where
  steps {K σ a σ'} hK fits run := by
    obtain ⟨K', hK', fits', steps⟩ := h.steps hK fits run
    exact ⟨K', hK', fits'.settle (settles a), steps.trans ((settles a).steps ..)⟩

theorem from_settled (v' : View) (settles : v.Settles sound v') (h : Walks sound ctx v' N c w) :
    Walks sound ctx v N c w where
  steps {K σ a σ'} hK fits run := by
    obtain ⟨K', hK', fits', steps⟩ := h.steps hK (fits.settle settles) run
    exact ⟨K', hK', fits', (settles.steps ..).trans steps⟩

theorem lead {v' : View} (h : Walks sound ctx v' N c w)
    (first : ∀ K d t, N ⊆ K → v.Fits sound d → v'.Fits sound d ∧ ∃ K', K ⊆ K' ∧
      Step sound ctx ⟨v.scene, v.depth, K, d, t⟩ ⟨v'.scene, v'.depth, K', d, t⟩) :
    Walks sound ctx v N c w where
  steps {K σ a σ'} hK fits run := by
    obtain ⟨fits', K₁, hK₁, step⟩ := first K σ.draft σ.session hK fits
    obtain ⟨K₂, hK₂, fits₂, steps⟩ := h.steps (List.Subset.trans hK hK₁) fits' run
    exact ⟨K₂, List.Subset.trans hK₁ hK₂, fits₂, .head step steps⟩

theorem modify {f : Draft → Draft} {w : View}
    (h : ∀ K d t, N ⊆ K → v.Fits sound d → w.Fits sound (f d) ∧ ∃ K', K ⊆ K' ∧
      Step sound ctx ⟨v.scene, v.depth, K, d, t⟩ ⟨w.scene, w.depth, K', f d, t⟩) :
    Walks sound ctx v N (modify f) fun _ => w where
  steps {K σ _ σ'} hK fits run := by
    cases runs_modify.1 run
    obtain ⟨fits', K', hK', step⟩ := h K _ σ.session hK fits
    exact ⟨K', hK', fits', .single step⟩

theorem bind_stop {w : View} {E : Nat → List Event}
    (hf : ∀ place, Walks sound ctx w (E place ++ N) (f place) u)
    (h : ∀ K d t, N ⊆ K → v.Fits sound d → w.Fits sound d ∧
      Steps sound ctx ⟨v.scene, v.depth, K, d, t⟩ ⟨w.scene, w.depth, E d.code.stop ++ K, d, t⟩) :
    Walks sound ctx v N (stop >>= f) u := by
  refine .bind_run fun {K σ place σ'} hK fits run => ?_
  obtain ⟨rfl, rfl⟩ := runs_read.1 run
  obtain ⟨fits', steps⟩ := h K _ σ.session hK fits
  exact ⟨w, E _, fits', steps, hf _⟩

theorem bind_height (h : ∀ height, (sound → height = v.height) → Walks sound ctx v N (f height) u) :
    Walks sound ctx v N (height >>= f) u := by
  refine .bind_run fun {K σ height σ'} hK fits run => ?_
  obtain ⟨rfl, rfl⟩ := runs_read.1 run
  exact ⟨v, [], fits, .refl, h _ fits.height⟩

theorem bind_fallsThrough {f : Bool → Compile β}
    (h : ∀ falls, Walks sound ctx { v with shut := !falls } N (f falls) u) :
    Walks sound ctx v N (fallsThrough >>= f) u := by
  refine .bind_run fun {K σ falls σ'} hK fits run => ?_
  obtain ⟨rfl, rfl⟩ := runs_read.1 run
  refine ⟨{ v with shut := !σ.draft.fallsThrough }, [], ⟨fits.height, fits.peak, fun shut => ?_⟩, .refl,
    h _⟩
  simpa using shut

theorem bind_ofExcept {r : Except Error α} {f : α → Compile β}
    (h : ∀ a, r = .ok a → Walks sound ctx v N (f a) u) :
    Walks sound ctx v N (emit (Emit.ofExcept r) >>= f) u :=
  .bind_check (fun run => (runs_lookup.1 run).symm) h

theorem bind_named {c : Emit α} {f : α → Compile β} (named : Named) (tokenOf : α → Token)
    (hc : ∀ t a t', c.Runs t a t' → (named.token ctx.source).Runs t (tokenOf a) t')
    (hf : ∀ a, Walks sound ctx v (.token named (tokenOf a) :: N) (f a) u) :
    Walks sound ctx v N (emit c >>= f) u := by
  refine .bind_run fun {K σ a σ'} hK fits run => ?_
  obtain ⟨t, inner, rfl⟩ := runs_emit.1 run
  exact ⟨v, [_], fits, .single (.named named (tokenOf a) t (hc _ _ _ inner)), hf a⟩

theorem bind_encodeToken {token : Token}
    (hf : ∀ value, token.encode = .ok value → Walks sound ctx v N (f value) u) :
    Walks sound ctx v N (encodeToken token >>= f) u :=
  .bind_check (fun run => ((runs_quiet Emit.runs_ofEncoding).1 run).symm) hf

theorem forM {l : List α} {f : α → Compile Unit}
    (h : ∀ a ∈ l, Walks sound ctx v N (f a) fun _ => v) :
    Walks sound ctx v N (l.forM f) fun _ => v := by
  induction l with
  | nil => exact pure ()
  | cons a l ih =>
    exact (h a List.mem_cons_self).bind fun _ => ih fun b hb => h b (List.mem_cons_of_mem a hb)

end Walks

section

variable {sound : Prop} {ctx : BodyContext} {v : View} {N : List Event}

theorem walks_bind_modify {f : Draft → Draft} {β : Type} {g : Unit → Compile β} {w : View}
    {u : β → View}
    (E : Nat → List Event)
    (h : ∀ K d t, N ⊆ K → v.Fits sound d → w.Fits sound (f d) ∧
      Step sound ctx ⟨v.scene, v.depth, K, d, t⟩ ⟨w.scene, w.depth, E d.code.stop ++ K, f d, t⟩)
    (hg : ∀ place, Walks sound ctx w (E place ++ N) (g ()) u) :
    Walks sound ctx v N (modify f >>= g) u := by
  refine .bind_run fun {K σ _ σ'} hK fits run => ?_
  cases runs_modify.1 run
  obtain ⟨fits', step⟩ := h K _ σ.session hK fits
  exact ⟨w, E σ.draft.code.stop, fits', .single step, hg _⟩

theorem walks_heights {height : Draft → Nat} {maxHeight leftBehind : Draft → Nat} {w : View}
    (scene : w.scene = v.scene) (depth : w.depth = v.depth) (shut : w.shut = v.shut)
    (grows : ∀ d : Draft, d.maxHeight ≤ maxHeight d)
    (h : ∀ d, v.Fits sound d → sound → height d = w.height ∧ w.peak ≤ maxHeight d) :
    Walks sound ctx v N (modify fun d => { d with
      height := height d, maxHeight := maxHeight d, leftBehind := leftBehind d }) fun _ => w := by
  refine .modify fun K d t _ fits => ⟨⟨fun hs => (h d fits hs).1, fun hs => (h d fits hs).2, ?_⟩, K,
    List.Subset.refl K, ?_⟩
  · exact fun hw => fits.shut (shut ▸ hw)
  · rw [scene, depth]
    exact .heights (height d) (maxHeight d) (leftBehind d) (grows d)

theorem walks_setHeight (height : Nat) :
    Walks sound ctx v N (setHeight height) fun _ => { v with height } :=
  walks_heights rfl rfl rfl (fun _ => Nat.le_refl _) fun _ fits hs => ⟨rfl, fits.peak hs⟩

theorem walks_raise (count : Nat) :
    Walks sound ctx v N (raise count) fun _ =>
      { v with height := v.height + count, peak := max v.peak (v.height + count) } := by
  refine walks_heights rfl rfl rfl (fun _ => Nat.le_max_left ..) fun d fits hs => ?_
  have height := fits.height hs
  have peak := fits.peak hs
  dsimp only
  omega

theorem walks_lower (count : Nat) :
    Walks sound ctx v N (lower count) fun _ => { v with height := v.height - count } := by
  refine walks_heights rfl rfl rfl (fun _ => Nat.le_refl _) fun d fits hs => ⟨?_, fits.peak hs⟩
  rw [fits.height hs]

end
end Compile
end Cil
