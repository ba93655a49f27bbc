import Cil.Proofs.Patching
import Cil.Proofs.StatementSteps

/-!
Where an encoded body comes from: a run over its statements that leaves a draft, whose code is then
settled and written. All that is proved of encoded bodies starts here.
-/

namespace Cil

open Cil.Code.Layout

def BodyContext.ofBody (src : Source) (keepsSymbols : Bool) (m : Method) (b : Body) : BodyContext :=
  { source := src, method := m, locals := b.locals, regions := .ofBody b, keepsSymbols }

theorem Code.unplaced?_eq_none {code : Code} (h : code.unplaced? = none) {i : Instruction}
    (hi : i ∈ code.instructions) {id : BlockId} (target : .block id ∈ i.targets) :
    code.isPlaced (.block id) = true := by
  have empty : code.unplaced = [] := by
    simpa [unplaced?, List.min?_eq_none_iff] using h
  rw [unplaced, List.flatMap_eq_nil_iff] at empty
  have noTarget := List.filterMap_eq_nil_iff.1 (empty i (by simpa using hi)) _ target
  simpa using noTarget

namespace Compile

variable {s s' : Session} {ctx : BodyContext} {l : Code.Layout} {d : Draft} {b : Body} {src : Source}
  {m : Method} {result : Except Error Unit} {keepsSymbols : Bool} {row : Nat} {encoded : MethodBody}
  {symbols : Option MethodSymbols}

theorem runs_lift :
    Emit.Runs (ExceptT.lift ((body ctx b).run {})) s (result, d) s' ↔
      (body ctx b).exec ⟨{}, s⟩ = (result, ⟨d, s'⟩) := by
  change (Except.ok ((body ctx b).run {} s).1, ((body ctx b).run {} s).2) =
      ((.ok (result, d), s') : Except Error _ × Session) ↔
    ((((body ctx b).run {} s).1.1, ⟨((body ctx b).run {} s).1.2, ((body ctx b).run {} s).2⟩) :
      Except Error Unit × State) = (result, ⟨d, s'⟩)
  rcases (body ctx b).run {} s with ⟨⟨r, d₁⟩, s₁⟩
  simp [and_assoc]

theorem checkDraft_eq_ok (h : checkDraft result d = .ok ()) :
    result = .ok () ∧ d.code.unplaced? = none := by
  rw [checkDraft] at h
  cases range : d.code.layout.outOfRange? with
  | some distance => simp [range] at h
  | none =>
    cases result with
    | error e => simp [range, bind, Except.bind] at h
    | ok u =>
      cases unplaced : d.code.unplaced? with
      | none => exact ⟨rfl, rfl⟩
      | some id => simp [range, unplaced, bind, Except.bind] at h

/-- A body compiles to a draft, and the code of the draft settles as `wider`. -/
structure Compiles (ctx : BodyContext) (b : Body) (s : Session) (d : Draft) (wider : Code)
    (s' : Session) : Prop where
  run : (body ctx b).Runs ⟨{}, s⟩ () ⟨d, s'⟩
  placed : d.code.unplaced? = none
  settled : d.code.Settled wider

def Situation.start (s : Session) : Situation := ⟨{}, 0, [.opened [] 0 0], {}, s⟩

/-- A compiled body has been written by steps. Those that are about the stack need that its operands
have values. -/
theorem Compiles.steps {wider : Code} {sound : Prop} (h : Compiles ctx b s d wider s')
    (hs : sound → b.Sound ctx.source.module) :
    ∃ K, Steps sound ctx (.start s) ⟨{ found := .ofBody b }, 0, K, d, s'⟩ ∧
      d.fallsThrough = false := by
  have fits : (Scene.level {} 0).Fits sound {} := ⟨fun _ => rfl, fun _ => Nat.le_refl _, nofun⟩
  obtain ⟨K, _, final, steps⟩ := (walks_body b hs).steps (List.nil_subset [.opened [] 0 0]) fits h.run
  exact ⟨K, steps, final.shut rfl⟩

theorem runs_of_layOut (h : (layOut ctx b).Runs s (d, l) s') :
    (body ctx b).Runs ⟨{}, s⟩ () ⟨d, s'⟩ ∧ d.code.unplaced? = none ∧ d.code.relax = .ok l := by
  simp only [layOut, Emit.runs_bind, Emit.runs_ofExcept, Emit.runs_pure] at h
  obtain ⟨⟨result, d₁⟩, s₁, lifted, _, _, ⟨checked, rfl⟩, l₁, _, ⟨relaxed, rfl⟩, same, rfl⟩ := h
  obtain ⟨rfl, rfl⟩ := Prod.mk.inj same
  obtain ⟨rfl, placed⟩ := checkDraft_eq_ok checked
  refine ⟨runs_lift.1 lifted, placed, ?_⟩
  cases relax : d₁.code.relax with
  | error distance =>
    rw [relax] at relaxed
    cases relaxed
  | ok l =>
    rw [relax] at relaxed
    cases relaxed
    rfl

theorem compiles_of_layOut (h : (layOut ctx b).Runs s (d, l) s') :
    ∃ wider, l = wider.layout ∧ Compiles ctx b s d wider s' := by
  obtain ⟨run, placed, relaxed⟩ := runs_of_layOut h
  obtain ⟨wider, rfl, settled⟩ := Code.relax_eq_ok relaxed
  exact ⟨wider, rfl, run, placed, settled⟩

theorem Step.labels_bounded {sound : Prop} {x y : Situation} (h : Step sound ctx x y)
    (bounded : x.draft.code.Bounded) : y.draft.code.Bounded := by
  cases h with
  | plain | branch | switch => exact bounded.push _
  | place | block => exact bounded.place _
  | guess | heights | scope | point | label | named | blob | openAttempt | closeAttempt | openPart
  | closeFilter | openCleanup | closeWhole | clause => exact bounded

theorem Steps.labels_bounded {sound : Prop} {x : Situation} (h : Steps sound ctx (.start s) x) :
    x.draft.code.Bounded :=
  Steps.keeps (fun _ _ step => step.labels_bounded) h fun l p placed => by
    simp [Situation.start, Code.position?] at placed

theorem Compiles.bounded {wider : Code} (h : Compiles ctx b s d wider s') : d.code.Bounded := by
  obtain ⟨K, steps, _⟩ := h.steps False.elim
  exact steps.labels_bounded

theorem write_of_layOut (h : (layOut ctx b).Runs s (d, l) s') :
    ∃ w, l.code.write = .ok w ∧ w.bytes.toList = l.bytes := by
  obtain ⟨wider, rfl, compiles⟩ := compiles_of_layOut h
  obtain ⟨w, written, bytes, _⟩ := Code.write_eq_ok compiles.settled
    (compiles.settled.bounded compiles.bounded)
  exact ⟨w, written, bytes⟩

theorem bind_congr_of_runs {α β : Type} {c : Emit α} {f g : α → Emit β}
    (same : ∀ s a s', c.Runs s a s' → f a = g a) : c >>= f = c >>= g := by
  funext s
  change (c >>= f).run s = (c >>= g).run s
  rw [Service.run_bind, Service.run_bind]
  rcases run : c.run s with ⟨_ | a, s'⟩
  · rfl
  · exact congrArg (fun action => action.run s') (same s a s' run)

/-- What is written for a body are the bytes of its layout. -/
theorem encodeBody_eq : encodeBody src keepsSymbols row m b = (do
    let token ← Emit.ofEncoding (Token.row .methodDef row).encode
    let (draft, layout) ← layOut (.ofBody src keepsSymbols m b) b
    let localSignature ← localSignature src b.locals
    let encoded : MethodBody := {
      code := layout.bytes
      maxStack := draft.maxStack
      localSignature := .ofNat localSignature
      initLocals := b.initLocals
      clauses := draft.clauses.toList.map (·.clause layout) }
    return (encoded, draft.symbols? token layout)) := by
  refine bind_congr fun token => bind_congr_of_runs fun s result s' run => ?_
  obtain ⟨d, l⟩ := result
  obtain ⟨w, written, bytes⟩ := write_of_layOut run
  simp only [written, ← bytes]
  rfl

theorem layOut_of_encodeBody
    (h : (encodeBody src keepsSymbols row m b).Runs s (encoded, symbols) s') :
    ∃ token d l s₁ locals, (layOut (.ofBody src keepsSymbols m b) b).Runs s (d, l) s₁ ∧
      (localSignature src b.locals).Runs s₁ locals s' ∧
      symbols = d.symbols? token l ∧
      encoded = {
        code := l.bytes
        maxStack := d.maxStack
        localSignature := .ofNat locals
        initLocals := b.initLocals
        clauses := d.clauses.toList.map (·.clause l) } := by
  simp only [encodeBody_eq, Emit.runs_bind, Emit.runs_ofEncoding, Emit.runs_pure] at h
  obtain ⟨token, _, ⟨_, rfl⟩, ⟨d, l⟩, s₁, laidOut, locals, _, signature, same, rfl⟩ := h
  obtain ⟨rfl, rfl⟩ := Prod.mk.inj same
  exact ⟨token, d, l, s₁, locals, laidOut, signature, rfl, rfl⟩

theorem compiles_of_encodeBody
    (h : (encodeBody src keepsSymbols row m b).Runs s (encoded, symbols) s') :
    ∃ d wider s₁ locals, Compiles (.ofBody src keepsSymbols m b) b s d wider s₁ ∧
      (localSignature src b.locals).Runs s₁ locals s' ∧
      encoded = {
        code := wider.layout.bytes
        maxStack := d.maxStack
        localSignature := .ofNat locals
        initLocals := b.initLocals
        clauses := d.clauses.toList.map (·.clause wider.layout) } := by
  obtain ⟨token, d, l, s₁, locals, laidOut, signature, _, rfl⟩ := layOut_of_encodeBody h
  obtain ⟨wider, rfl, compiles⟩ := compiles_of_layOut laidOut
  exact ⟨d, wider, s₁, locals, compiles, signature, rfl⟩

theorem encodes_of_toOption
    (h : ((encodeBody src keepsSymbols row m b).run s).1.toOption.map (·.1) = some encoded) :
    ∃ symbols s', (encodeBody src keepsSymbols row m b).Runs s (encoded, symbols) s' := by
  obtain ⟨⟨_, symbols⟩, s', run, rfl⟩ := Emit.exists_runs h
  exact ⟨symbols, s', run⟩

/-- A loop around a call, with a way out over code that is too long for a short branch. -/
def delivery : Body where
  locals := #[{ variableType := .primitive .int32 }]
  root := .mk ⟨0⟩ [
    .branch (some (.compare .greater (.variable 0) (.literal (.int32 9)) false)) ⟨6⟩ .auto,
    .guarded
      (.mk ⟨1⟩ [
        .assign (.variable 0)
          (.call { method := ⟨⟨1⟩, 0⟩ } none [.literal (.string "hi")] false false none),
        .switch (.variable 0) (List.replicate 30 ⟨2⟩),
        .branch none ⟨1⟩ .auto,
        .block (.mk ⟨2⟩ [.nop] [] none)] [] none)
      [.catching (.named ⟨2⟩) none (.mk ⟨3⟩ [
        .branch (some (.isTrue (.variable 0))) ⟨4⟩ .auto,
        .throwing none,
        .block (.mk ⟨4⟩ [] [] none)] [] none)]
      (.finallyBlock (.mk ⟨5⟩ [.nop] [] none)),
    .block (.mk ⟨6⟩ [] [] none)] [] none

def courierMain : Method := { name := "Main", body := some delivery }

def courier : Module where
  name := "Courier"
  types := #[
    { TypeInfo.globals with methods := #[courierMain] },
    { name := "Post"
      scope := .assembly ⟨0⟩
      methods := #[{
        name := "Send"
        signature := { returnType := .primitive .int32, parameters := [.primitive .string] } }] },
    { name := "Exception", typeNamespace := some "System", scope := .assembly ⟨0⟩ }]
  assemblyReferences := #[{ name := "mscorlib" }]
  entryPoint := some (.method ⟨⟨0⟩, 0⟩)
  coreLibrary := some ⟨0⟩

def courierSource : Source where
  module := courier
  numbering := (Numbering.ofModule courier).toOption.getD ⟨[], #[], 0⟩

def delivered : MethodBody where
  code := [0x06, 0x1F, 9, 0x3D, 155, 0, 0, 0, 0x72, 1, 0, 0, 0x70, 0x28, 1, 0, 0, 0x0A, 0x0A, 0x06,
      0x45, 30, 0, 0, 0] ++ (List.replicate 30 [5, 0, 0, 0]).flatten ++
    [0x38, 114, 255, 255, 255, 0x00, 0xDE, 10, 0x26, 0x06, 0x2D, 2, 0xFE, 0x1A, 0xDE, 2, 0x00, 0xDC,
      0x2A]
  maxStack := 2
  localSignature := 0x11000001
  clauses := [⟨Clause.typedFlag, 8, 145, 153, 8, 0x01000002⟩,
    ⟨Clause.finallyFlag, 8, 153, 161, 2, 0⟩]

theorem encodes_delivery : ∃ symbols s', (encodeBody courierSource false 1 courierMain delivery).Runs
    (.ofModule courier) (delivered, symbols) s' := encodes_of_toOption (by decide +kernel)

theorem delivered_encode : ∃ bytes, delivered.encode = .ok bytes := by
  have evaluated : delivered.encode.toOption.isSome = true := by decide +kernel
  obtain ⟨bytes, encodes⟩ := Option.isSome_iff_exists.1 evaluated
  exact ⟨bytes, eq_ok_of_toOption encodes⟩

end Compile
end Cil
