import Cil.Proofs.Composition

/-!
Where the error of a branch that is out of range comes from. No action that looks up, refers to or
compiles anything ends with it, so that only the layout of a body can.
-/

namespace Cil
namespace Compile

variable {α β : Type}

theorem permits : Permits (fun _ => True) (·.isOutOfRange = false) := .references

/-- The action never ends with the error of a branch. -/
structure Ranged (c : Compile α) : Prop where
  result (σ : State) : Except.Fails (·.isOutOfRange = false) (c.exec σ).1

theorem Ranged.bind {c : Compile α} {f : α → Compile β} (hc : c.Ranged) (hf : ∀ a, (f a).Ranged) :
    (c >>= f).Ranged where
  result σ := by
    have first := hc.result σ
    rw [exec_bind]
    rcases run : c.exec σ with ⟨r, σ₁⟩
    rw [run] at first
    cases r with
    | ok a => exact (hf a).result σ₁
    | error e => exact .error (first.holds rfl)

theorem Composed.ranged {ctx : BodyContext} {marks : List Mark} {c : Compile α}
    (h : c.Composed ctx marks) : c.Ranged := by
  induction h with
  | pure a => exact ⟨fun _ => .ok a⟩
  | bind _ _ ihc ihf => exact ihc.bind ihf
  | get => exact ⟨fun σ => .ok σ.draft⟩
  | modify f => exact ⟨fun _ => .ok ()⟩
  | modifyGet f => exact ⟨fun σ => .ok (f σ.draft).1⟩
  | emit h => exact ⟨fun σ => (h.confined permits).fails σ.session⟩
  | fault _ cause => exact ⟨fun _ => .error rfl⟩
  | passed => exact ⟨fun _ => .ok ()⟩
  | value _ ih | fork _ ih => exact ih

theorem ranged_body (ctx : BodyContext) (b : Body) : (body ctx b).Ranged :=
  (composed_body ctx b).ranged

end Compile
end Cil
