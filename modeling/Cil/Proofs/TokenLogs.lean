import Cil.Proofs.MemberTables

/-!
Logs with tokens in them. What is said of the items of a log may be about the references of a session:
a token that was given for one of its items is given for it again in all later sessions.
-/

namespace Cil

/-- References, names, blobs and data are where they were. -/
def Session.Precedes (s s' : Session) : Prop := s.Before s' ∧ s.Under s'

namespace Session.Precedes

variable {s s₁ s' : Session}

theorem refl (s : Session) : s.Precedes s := ⟨.refl s, .refl s⟩

theorem trans (first : s.Precedes s₁) (second : s₁.Precedes s') : s.Precedes s' :=
  ⟨first.1.trans second.1, first.2.trans second.2⟩

end Session.Precedes

namespace Emit

variable {α β γ : Type} {src : Source}

variable {A : Part → Prop} {c : Emit β}

theorem Writes.precedes {s s' : Session} {b : β} (h : c.Writes src A) (cat : s.Catalogued src)
    (run : c.Runs s b s') : s'.Catalogued src ∧ s.Precedes s' := by
  obtain ⟨cat', before⟩ := h.keeps cat run
  exact ⟨cat', before, (h.confined.run cat.faithful run).2.toUnder⟩

/-- As `FillsFrom`, where the references of sessions are in order, as they are in all later ones. -/
structure Registers (src : Source) (P : Session → Prop) (log : Log α) (c : Emit β)
    (Q : Session → Prop) (R : Session → List α → Prop) : Prop where
  run {s : Session} {b : β} {s' : Session} : s.Catalogued src → P s → c.Runs s b s' →
    s'.Catalogued src ∧ s.Precedes s' ∧ Q s' ∧ ∃ new,
      log.view s' = new.foldl log.add (log.view s) ∧
        ∀ later, later.Catalogued src → s'.Precedes later → R later new

namespace Registers

variable {log : Log α} {P P' Q : Session → Prop} {R : Session → List α → Prop}

variable {f : β → Emit γ}

theorem of_fillsFrom (h : FillsFrom P log c Q R) (writes : c.Writes src A) :
    Registers src P log c Q R where
  run cat start run := by
    obtain ⟨cat', precedes⟩ := writes.precedes cat run
    obtain ⟨_, _, stop, new, added, holds⟩ := h.run cat.faithful start run
    exact ⟨cat', precedes, stop, new, added, fun later _ h => holds later h.2⟩

theorem of_fills (h : Fills log c R) (writes : c.Writes src A) (leads : Leads P c Q) :
    Registers src P log c Q R :=
  of_fillsFrom (.of_fills h leads) writes

theorem weaken {R' : Session → List α → Prop} (h : Registers src P log c Q R)
    (weaker : ∀ later new, R later new → R' later new) : Registers src P log c Q R' where
  run cat start run := by
    obtain ⟨cat', precedes, stop, new, added, holds⟩ := h.run cat start run
    exact ⟨cat', precedes, stop, new, added, fun later cat h => weaker _ _ (holds later cat h)⟩

theorem leading {Q' : Session → Prop} (h : Registers src P' log c Q R) (known : ∀ {s}, P s → P' s)
    (leads : Leads P c Q') : Registers src P log c Q' R where
  run cat start run := by
    obtain ⟨cat', precedes, _, filled⟩ := h.run cat (known start) run
    exact ⟨cat', precedes, leads cat.faithful start run, filled⟩

theorem bind_asks (asks : c.Asks src) (permits : Permits (· ≠ log.part) fun _ => True)
    (hf : ∀ b, Registers src (fun _ => True) log (f b) Q fun later new =>
      c.Runs later b later → R later new) : Registers src (fun _ => True) log (c >>= f) Q R where
  run cat start run := by
    obtain ⟨b, s₁, first, second⟩ := runs_bind.1 run
    obtain ⟨cat₁, before₁, again⟩ := asks.lasts.run cat first
    obtain ⟨_, extends₁⟩ := (asks.confined permits).run cat.faithful first
    obtain ⟨cat₂, precedes, stop, new, added, holds⟩ := (hf b).run cat₁ trivial second
    refine ⟨cat₂, .trans ⟨before₁, extends₁.toUnder⟩ precedes, stop, new, ?_, fun later cat' h => ?_⟩
    · rw [added, log.spared extends₁]
    · exact holds later cat' h (again cat' (precedes.trans h).1)

theorem bind_get {f : Session → Emit γ}
    (hf : ∀ s, P s → Registers src (fun _ => True) log (f s) Q R) :
    Registers src P log (MonadState.get >>= f) Q R where
  run cat start run := by
    obtain ⟨_, _, read, rest⟩ := runs_bind.1 run
    obtain ⟨rfl, rfl⟩ := runs_get.1 read
    exact (hf _ start).run cat trivial rest

theorem bind (hc : c.Writes src (· ≠ log.part))
    (hf : ∀ b, Registers src (fun _ => True) log (f b) Q R) :
    Registers src (fun _ => True) log (c >>= f) Q R where
  run cat start run := by
    obtain ⟨b, s₁, first, second⟩ := runs_bind.1 run
    obtain ⟨cat₁, precedes₁⟩ := hc.precedes cat first
    obtain ⟨cat₂, precedes₂, stop, new, added, holds⟩ := (hf b).run cat₁ trivial second
    refine ⟨cat₂, precedes₁.trans precedes₂, stop, new, ?_, holds⟩
    rw [added, log.spared (hc.confined.run cat.faithful first).2]

theorem bind_right (hc : Registers src P log c Q R) (hf : ∀ b, (f b).Writes src (· ≠ log.part)) :
    Registers src P log (c >>= f) (fun _ => True) R where
  run cat start run := by
    obtain ⟨b, s₁, first, second⟩ := runs_bind.1 run
    obtain ⟨cat₁, precedes₁, _, new, added, holds⟩ := hc.run cat start first
    obtain ⟨cat₂, precedes₂⟩ := (hf b).precedes cat₁ second
    refine ⟨cat₂, precedes₁.trans precedes₂, trivial, new, ?_, fun later cat' h =>
      holds later cat' (precedes₂.trans h)⟩
    rw [log.spared ((hf b).confined.run cat₁.faithful second).2, added]

theorem append {ε : Type} {R : Session → ε → α → Prop} {front back : List ε}
    (hc : Registers src P log c P' (Each R front))
    (hf : ∀ b, Registers src P' log (f b) Q (Each R back)) :
    Registers src P log (c >>= f) Q (Each R (front ++ back)) where
  run cat start run := by
    obtain ⟨b, s₁, first, second⟩ := runs_bind.1 run
    obtain ⟨cat₁, precedes₁, middle, new, added, holds⟩ := hc.run cat start first
    obtain ⟨cat₂, precedes₂, stop, new', added', holds'⟩ := (hf b).run cat₁ middle second
    refine ⟨cat₂, precedes₁.trans precedes₂, stop, new ++ new', ?_, fun later cat' h => ?_⟩
    · rw [added', added, List.foldl_append]
    · exact List.rel_append (holds later cat' (precedes₂.trans h)) (holds' later cat' h)

theorem pure {ε : Type} {R : Session → ε → α → Prop} :
    Registers src P log (Pure.pure () : Emit Unit) P (Each R []) := by
  refine of_fills (A := fun _ => True) (.nothing (.pure ()) fun _ => .nil) (.pure ()) ?_
  intro s b s' _ start run
  obtain ⟨_, rfl⟩ := runs_pure.1 run
  exact start

theorem forM {δ ε : Type} {l : List δ} {f : δ → Emit Unit} {g : δ → List ε}
    {R : Session → ε → α → Prop}
    (h : ∀ a, Registers src P log (f a) P (Each R (g a))) :
    Registers src P log (l.forM f) P (Each R (l.flatMap g)) := by
  induction l with
  | nil => exact pure
  | cons a l ih => exact append (h a) fun _ => ih

end Registers
end Emit
end Cil
