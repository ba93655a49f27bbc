import Cil.Proofs.LeastForms
import Cil.Proofs.RangeErrors

/-!
The forms of the branches of an encoded body. They are the shortest possible ones, and a body that is
refused for a branch out of range cannot be encoded with that branch in its short form.
-/

namespace Cil

theorem Code.relax_of_outOfRange? {code : Code} {distance : Int}
    (h : code.layout.outOfRange? = some distance) : code.relax = .error distance := by
  rw [relax]
  simp only [h]

namespace Compile

open Code

variable {distance : Int} {ctx : BodyContext}

/-- A draft is refused for a branch out of range, or its compilation has failed so. -/
theorem checkDraft_eq_outOfRange {result : Except Error Unit}
    (ranged : Except.Fails (·.isOutOfRange = false) result) {d : Draft}
    (h : checkDraft result d = .error (.branchOutOfRange distance)) :
    d.code.layout.outOfRange? = some distance := by
  rw [checkDraft] at h
  cases range : d.code.layout.outOfRange? with
  | some found =>
    rw [range] at h
    cases h
    rfl
  | none =>
    rw [range] at h
    cases result with
    | error e =>
      cases h
      cases ranged.holds rfl
    | ok u =>
      cases unplaced : d.code.unplaced? <;> rw [unplaced] at h <;> cases h

variable {src : Source} {keepsSymbols : Bool} {row : Nat} {m : Method} {b : Body} {s : Session}

theorem relax_of_layOut (h : ((layOut ctx b).run s).1 = .error (.branchOutOfRange distance)) :
    ∃ result d s₁, (body ctx b).exec ⟨{}, s⟩ = (result, ⟨d, s₁⟩) ∧ d.code.relax = .error distance := by
  rcases Emit.error_of_bind h with failed | ⟨⟨result, d⟩, s₁, lifted, failed⟩
  · cases failed
  · have run := runs_lift.1 lifted
    have ranged : Except.Fails (·.isOutOfRange = false) result := by
      have := (ranged_body ctx b).result ⟨{}, s⟩
      rwa [run] at this
    refine ⟨result, d, s₁, run, ?_⟩
    rcases Emit.error_of_bind failed with refused | ⟨_, _, _, failed⟩
    · exact relax_of_outOfRange? (checkDraft_eq_outOfRange ranged refused)
    · rcases Emit.error_of_bind failed with refused | ⟨_, _, _, failed⟩
      · cases relaxed : d.code.relax with
        | ok l =>
          rw [relaxed] at refused
          cases refused
        | error found =>
          rw [relaxed] at refused
          cases refused
          rfl
      · cases failed

theorem relax_of_encodeBody
    (h : ((encodeBody src keepsSymbols row m b).run s).1 = .error (.branchOutOfRange distance)) :
    ∃ result d s₁, (body (.ofBody src keepsSymbols m b) b).exec ⟨{}, s⟩ = (result, ⟨d, s₁⟩) ∧
      d.code.relax = .error distance := by
  rw [encodeBody_eq] at h
  rcases Emit.error_of_bind h with failed | ⟨token, s₁, encoded, failed⟩
  · have ranged : ((Emit.ofEncoding (Token.row .methodDef row).encode).Confined (fun _ => True)
        (·.isOutOfRange = false)) := .ofEncoding permits.encoding _
    cases (ranged.fails s).holds failed
  · obtain ⟨_, rfl⟩ := Emit.runs_ofEncoding.1 encoded
    rcases Emit.error_of_bind failed with failed | ⟨_, s₂, _, failed⟩
    · exact relax_of_layOut failed
    · rcases Emit.error_of_bind failed with failed | ⟨_, _, _, failed⟩
      · cases (((Emit.Asks.localSignature _).confined permits).fails s₂).holds failed
      · cases failed

theorem encoded_forms_least :
    (∀ encoded symbols s', (encodeBody src keepsSymbols row m b).Runs s (encoded, symbols) s' →
      ∃ d s₁ short, (body (.ofBody src keepsSymbols m b) b).Runs ⟨{}, s⟩ () ⟨d, s₁⟩ ∧
        encoded.code = (d.code.decided short).layout.bytes ∧ d.code.Least short) ∧
    (∀ distance,
      ((encodeBody src keepsSymbols row m b).run s).1 = .error (.branchOutOfRange distance) →
      ∃ result d s₁, (body (.ofBody src keepsSymbols m b) b).exec ⟨{}, s⟩ = (result, ⟨d, s₁⟩) ∧
        ∃ k jump target, d.code.instructions[k]? = some (.branch jump target .short) ∧
          Layout.fitsShort distance = false ∧
          (∃ narrow, (d.code.decided narrow).layout.distance? k target = some distance) ∧
          ∀ other, d.code.Allows other → ∃ far,
            (d.code.decided other).layout.distance? k target = some far ∧
              Layout.fitsShort far = false) := by
  constructor
  · intro encoded symbols s' run
    obtain ⟨token, d, l, s₁, locals, laidOut, _, _, rfl⟩ := layOut_of_encodeBody run
    obtain ⟨wider, _, compiles⟩ := compiles_of_layOut laidOut
    obtain ⟨_, _, relaxed⟩ := runs_of_layOut laidOut
    obtain ⟨short, bytes, least⟩ := relax_ok_least compiles.bounded relaxed
    exact ⟨d, s₁, short, compiles.run, bytes, least⟩
  · intro distance failed
    obtain ⟨result, d, s₁, run, relaxed⟩ := relax_of_encodeBody failed
    exact ⟨result, d, s₁, run, relax_error_least relaxed⟩

def longSkip (form : BranchForm) : Body where
  root := .mk ⟨0⟩ [.branch none ⟨1⟩ form, .switch (.literal (.int32 0)) (List.replicate 32 ⟨1⟩),
    .block (.mk ⟨1⟩ [] [] none)] [] none

def skipping : MethodBody where
  code := [0x38, 134, 0, 0, 0, 0x16, 0x45, 32, 0, 0, 0] ++ List.replicate 128 0 ++ [0x2A]
  maxStack := 1

theorem encodes_longSkip : ∃ symbols s',
    (encodeBody courierSource false 1 { name := "Skip" } (longSkip .auto)).Runs (.ofModule courier)
      (skipping, symbols) s' := encodes_of_toOption (by decide +kernel)

/-- How far the branch is that a body is refused for. -/
def missed? {α : Type} : Except Error α → Option Int
  | .error (.branchOutOfRange distance) => some distance
  | _ => none

theorem eq_of_missed? {α : Type} {r : Except Error α} {distance : Int} (h : missed? r = some distance) :
    r = .error (.branchOutOfRange distance) := by
  unfold missed? at h
  split at h <;> cases h
  rfl

theorem refuses_longSkip :
    ((encodeBody courierSource false 1 { name := "Skip" } (longSkip .short)).run (.ofModule courier)).1 =
      .error (.branchOutOfRange 134) := eq_of_missed? (by decide +kernel)

/-- The branch becomes long where it may, and is out of range where it has to be short. -/
theorem encoded_forms_least_longSkip :
    (∃ symbols s', (encodeBody courierSource false 1 { name := "Skip" } (longSkip .auto)).Runs
        (.ofModule courier) (skipping, symbols) s' ∧
      ∃ d s₁ short, (body (.ofBody courierSource false { name := "Skip" } (longSkip .auto))
          (longSkip .auto)).Runs ⟨{}, .ofModule courier⟩ () ⟨d, s₁⟩ ∧
        skipping.code = (d.code.decided short).layout.bytes ∧ d.code.Least short) ∧
    ((encodeBody courierSource false 1 { name := "Skip" } (longSkip .short)).run
        (.ofModule courier)).1 = .error (.branchOutOfRange 134) ∧
      ∃ result d s₁, (body (.ofBody courierSource false { name := "Skip" } (longSkip .short))
          (longSkip .short)).exec ⟨{}, .ofModule courier⟩ = (result, ⟨d, s₁⟩) ∧
        ∃ k jump target, d.code.instructions[k]? = some (.branch jump target .short) ∧
          Layout.fitsShort 134 = false ∧
          (∃ narrow, (d.code.decided narrow).layout.distance? k target = some 134) ∧
          ∀ other, d.code.Allows other → ∃ far,
            (d.code.decided other).layout.distance? k target = some far ∧
              Layout.fitsShort far = false := by
  obtain ⟨symbols, s', run⟩ := encodes_longSkip
  exact ⟨⟨symbols, s', run, encoded_forms_least.1 _ _ _ run⟩, refuses_longSkip,
    encoded_forms_least.2 _ refuses_longSkip⟩

end Compile
end Cil
