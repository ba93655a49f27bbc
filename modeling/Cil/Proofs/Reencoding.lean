import Cil.Proofs.ShortBranches
import Cil.Proofs.Writes
import Mathlib.Data.Finset.Filter
import Mathlib.Data.Finset.Lattice.Basic
import Mathlib.Data.Finset.Range

/-!
Encoding by passes. A pass compiles the body anew, with the branches long that did not reach in earlier
passes, and the passes go on until all short branches reach. Compiling a body again asks for nothing
new, so that passes cannot be told from one pass that knows the long branches from the start, nor from
compiling once and laying the code out again.
-/

namespace Cil

/-- The instruction with an open form decided for the long one, if that is wanted. -/
def Instruction.lengthened (long : Bool) : Instruction → Instruction
  | .branch b target .auto => .branch b target (if long then .long else .auto)
  | i => i

namespace Instruction

theorem lengthened_false (i : Instruction) : i.lengthened false = i := by
  unfold lengthened
  split <;> rfl

theorem lengthened_lengthened (a b : Bool) (i : Instruction) :
    (i.lengthened a).lengthened b = i.lengthened (a || b) := by
  cases i with
  | simple | «switch» => rfl
  | branch jump target form =>
    cases form with
    | short | long => rfl
    | auto => cases a <;> rfl

theorem targets_lengthened (long : Bool) (i : Instruction) :
    (i.lengthened long).targets = i.targets := by
  unfold lengthened
  split <;> rfl

end Instruction

namespace Code

def widenedAt (code : Code) (wide : Finset Nat) : Code :=
  { code with instructions := code.instructions.mapIdx fun k i => i.lengthened (k ∈ wide) }

namespace Layout

variable (l : Layout)

def isOpenMiss (position : Nat) : Bool :=
  match l.code.instructions[position]? with
  | some (.branch _ target .auto) => (l.miss? position target).isSome
  | _ => false

def openMisses : Finset Nat := (Finset.range l.code.stop).filter (l.isOpenMiss ·)

theorem mem_openMisses {position : Nat} : position ∈ l.openMisses ↔ l.isOpenMiss position = true := by
  rw [openMisses, Finset.mem_filter, Finset.mem_range, and_iff_right_iff_imp]
  intro misses
  rw [isOpenMiss] at misses
  split at misses
  case h_1 found => exact (Array.getElem?_eq_some_iff.1 found).1
  case h_2 => cases misses

theorem isOpenMiss_branch {k : Nat} {b : Branch} {target : Label}
    (hi : l.code.instructions[k]? = some (.branch b target .auto)) :
    l.isOpenMiss k = (l.miss? k target).isSome := by
  rw [isOpenMiss, hi]

end Layout

variable {code : Code} {wide more : Finset Nat}

theorem ext_instructions {code code' : Code} (labels : code.labels = code'.labels)
    (instructions : ∀ k : Nat, code.instructions[k]? = code'.instructions[k]?) : code = code' := by
  cases code
  cases code'
  cases labels
  exact congrArg (Code.mk · _) (Array.ext_getElem? instructions)

theorem getElem?_widenedAt (code : Code) (wide : Finset Nat) (k : Nat) :
    (code.widenedAt wide).instructions[k]? = code.instructions[k]?.map (·.lengthened (k ∈ wide)) := by
  rw [widenedAt, Array.getElem?_mapIdx]

theorem widenedAt_empty (code : Code) : code.widenedAt ∅ = code := by
  refine ext_instructions rfl fun k => ?_
  rw [getElem?_widenedAt]
  simp [Instruction.lengthened_false]

theorem widenedAt_widenedAt (code : Code) (wide more : Finset Nat) :
    (code.widenedAt wide).widenedAt more = code.widenedAt (wide ∪ more) := by
  refine ext_instructions rfl fun k => ?_
  simp [getElem?_widenedAt, Option.map_map, Function.comp_def, Instruction.lengthened_lengthened]

theorem widened_eq_widenedAt (l : Layout) : l.widened = l.code.widenedAt l.openMisses := by
  refine ext_instructions rfl fun k => ?_
  rw [getElem?_widenedAt, Layout.widened, Array.getElem?_mapIdx]
  cases hi : l.code.instructions[k]? with
  | none => rfl
  | some i =>
    rw [Option.map_some, Option.map_some]
    cases i with
    | simple | «switch» => rfl
    | branch b target form =>
      cases form with
      | short | long => rfl
      | auto =>
        have missed : decide (k ∈ l.openMisses) = (l.miss? k target).isSome := by
          rw [← l.isOpenMiss_branch hi, Bool.eq_iff_iff, decide_eq_true_iff, l.mem_openMisses]
        simp only [Instruction.lengthened, missed]

theorem unplaced?_widenedAt (code : Code) (wide : Finset Nat) :
    (code.widenedAt wide).unplaced? = code.unplaced? := by
  have same : (code.widenedAt wide).unplaced = code.unplaced := by
    rw [unplaced, unplaced, List.flatMap_def, List.flatMap_def]
    refine congrArg List.flatten (List.ext_getElem? fun k => ?_)
    simp only [List.getElem?_map, Array.getElem?_toList, getElem?_widenedAt, Option.map_map,
      Function.comp_def, Instruction.targets_lengthened]
    rfl
  rw [unplaced?, unplaced?, same]

theorem widened_autoBranches_lt_iff (code : Code) :
    code.layout.widened.autoBranches < code.autoBranches ↔ code.layout.openMisses ≠ ∅ := by
  constructor
  · intro smaller none
    rw [widened_eq_widenedAt, none, widenedAt_empty] at smaller
    exact Nat.lt_irrefl _ smaller
  · intro some
    obtain ⟨k, missed⟩ := Finset.nonempty_iff_ne_empty.2 some
    rw [Layout.mem_openMisses, Layout.isOpenMiss] at missed
    split at missed
    case h_1 b target found => exact autoBranches_widened_lt code.layout found missed
    case h_2 => cases missed

theorem relax_of_reaching (inRange : code.layout.outOfRange? = none)
    (reaching : code.layout.openMisses = ∅) : code.relax = .ok code.layout := by
  have final := (widened_autoBranches_lt_iff code).not.2 (not_not_intro reaching)
  rw [relax]
  simp only [inRange, final, if_false]

theorem relax_of_missing (inRange : code.layout.outOfRange? = none)
    (missing : code.layout.openMisses ≠ ∅) :
    code.relax = (code.widenedAt code.layout.openMisses).relax := by
  have smaller := (widened_autoBranches_lt_iff code).2 missing
  rw [relax]
  simp only [inRange, smaller, if_true]
  rw [widened_eq_widenedAt]
  rfl

end Code

def Draft.widenedAt (d : Draft) (wide : Finset Nat) : Draft := { d with code := d.code.widenedAt wide }

namespace Compile

open Code

/-- How a pass ends: all short branches reach, and the method is encoded with its symbols; or some
branches have to be long. -/
inductive Pass
  | done (encoded : MethodBody × Option MethodSymbols)
  | widen (more : Finset Nat)

def Pass.isDone : Pass → Bool
  | done _ => true
  | widen _ => false

section

variable (src : Source) (keepsSymbols : Bool) (row : Nat) (m : Method) (b : Body)

def encodePass (wide : Finset Nat) : Emit Pass := do
  let token ← Emit.ofEncoding (Token.row .methodDef row).encode
  let (result, draft) ← ExceptT.lift ((body (.ofBody src keepsSymbols m b) b).run {})
  let draft := draft.widenedAt wide
  let layout := draft.code.layout
  Emit.ofExcept (checkDraft result draft)
  if layout.openMisses = ∅ then
    let localSignature ← localSignature src b.locals
    let encoded : MethodBody := {
      code := layout.bytes
      maxStack := draft.maxStack
      localSignature := .ofNat localSignature
      initLocals := b.initLocals
      clauses := draft.clauses.toList.map (·.clause layout) }
    return .done (encoded, draft.symbols? token layout)
  else return .widen layout.openMisses

/-- Passes until one is done. Each goes on with the session that the one before has left, and makes the
branches long that were missed so far. -/
inductive Passes : (wide : Finset Nat) → (s : Session) → (left : List Session) →
    (final : Finset Nat) → (encoded : MethodBody × Option MethodSymbols) → (s' : Session) → Prop
  | done {wide s encoded s'} (run : (encodePass src keepsSymbols row m b wide).Runs s
    (.done encoded) s') :
      Passes wide s [] wide encoded s'
  | again {wide s more s₁ left final encoded s'}
      (run : (encodePass src keepsSymbols row m b wide).Runs s (.widen more) s₁)
      (rest : Passes (wide ∪ more) s₁ left final encoded s') :
      Passes wide s (s₁ :: left) final encoded s'

def encodedOf (token locals : Nat) (d : Draft) (l : Code.Layout) : MethodBody × Option MethodSymbols :=
  ({
    code := l.bytes
    maxStack := d.maxStack
    localSignature := .ofNat locals
    initLocals := b.initLocals
    clauses := d.clauses.toList.map (·.clause l) }, d.symbols? token l)

/-- The method has a token, and its body is compiled to a draft that has all its labels. -/
structure Drafts (s : Session) (token : Nat) (d : Draft) (s₁ : Session) : Prop where
  token : (Token.row .methodDef row).encode = .ok token
  run : (body (.ofBody src keepsSymbols m b) b).Runs ⟨{}, s⟩ () ⟨d, s₁⟩
  placed : d.code.unplaced? = none

variable {src keepsSymbols row m b} {wide final : Finset Nat} {s s₁ s' : Session} {token : Nat}
  {d : Draft} {left : List Session} {encoded : MethodBody × Option MethodSymbols}

theorem checkDraft_eq_ok_iff {result : Except Error Unit} :
    checkDraft result d = .ok () ↔
      d.code.layout.outOfRange? = none ∧ result = .ok () ∧ d.code.unplaced? = none := by
  rw [checkDraft]
  cases d.code.layout.outOfRange? with
  | some distance => simp
  | none =>
    cases result with
    | error e => simp [bind, Except.bind]
    | ok u => cases d.code.unplaced? <;> simp [bind, Except.bind]

theorem runs_encodePass {p : Pass} : (encodePass src keepsSymbols row m b wide).Runs s p s' ↔
    ∃ token d s₁, Drafts src keepsSymbols row m b s token d s₁ ∧
      (d.code.widenedAt wide).layout.outOfRange? = none ∧
      if (d.code.widenedAt wide).layout.openMisses = ∅ then
        ∃ locals, (localSignature src b.locals).Runs s₁ locals s' ∧
          p = .done (encodedOf b token locals d (d.code.widenedAt wide).layout)
      else s₁ = s' ∧ p = .widen (d.code.widenedAt wide).layout.openMisses := by
  constructor
  · intro run
    obtain ⟨token, _, first, run⟩ := Emit.runs_bind.1 run
    obtain ⟨encodes, rfl⟩ := Emit.runs_ofEncoding.1 first
    obtain ⟨⟨result, d⟩, s₁, lifted, run⟩ := Emit.runs_bind.1 run
    obtain ⟨_, _, checking, finish⟩ := Emit.runs_bind.1 run
    obtain ⟨checked, rfl⟩ := Emit.runs_ofExcept.1 checking
    obtain ⟨inRange, rfl, placed⟩ := checkDraft_eq_ok_iff.1 checked
    have placed' := (unplaced?_widenedAt d.code wide).symm.trans placed
    refine ⟨token, d, s₁, ⟨encodes, runs_lift.1 lifted, placed'⟩, inRange, ?_⟩
    change (if (d.code.widenedAt wide).layout.openMisses =
      ∅ then _ else _ : Emit Pass).Runs _ _ _ at finish
    by_cases reaching : (d.code.widenedAt wide).layout.openMisses = ∅
    · rw [if_pos reaching] at finish ⊢
      obtain ⟨locals, _, signature, returned⟩ := Emit.runs_bind.1 finish
      obtain ⟨rfl, rfl⟩ := Emit.runs_pure.1 returned
      exact ⟨locals, signature, rfl⟩
    · rw [if_neg reaching] at finish ⊢
      obtain ⟨rfl, rfl⟩ := Emit.runs_pure.1 finish
      exact ⟨rfl, rfl⟩
  · rintro ⟨token, d, s₁, drafts, inRange, rest⟩
    have placed := (unplaced?_widenedAt d.code wide).trans drafts.placed
    have checked : checkDraft (.ok ()) (d.widenedAt wide) = .ok () :=
      checkDraft_eq_ok_iff.2 ⟨inRange, rfl, placed⟩
    refine Emit.runs_bind.2 ⟨token, s, Emit.runs_ofEncoding.2 ⟨drafts.token, rfl⟩, ?_⟩
    refine Emit.runs_bind.2 ⟨(.ok (), d), s₁, runs_lift.2 drafts.run, ?_⟩
    refine Emit.runs_bind.2 ⟨(), s₁, Emit.runs_ofExcept.2 ⟨checked, rfl⟩, ?_⟩
    change (if (d.code.widenedAt wide).layout.openMisses = ∅ then _ else _ : Emit Pass).Runs _ _ _
    by_cases reaching : (d.code.widenedAt wide).layout.openMisses = ∅
    · rw [if_pos reaching] at rest ⊢
      obtain ⟨locals, signature, rfl⟩ := rest
      exact Emit.runs_bind.2 ⟨locals, s', signature, Emit.runs_pure.2 ⟨rfl, rfl⟩⟩
    · rw [if_neg reaching] at rest ⊢
      obtain ⟨rfl, rfl⟩ := rest
      exact Emit.runs_pure.2 ⟨rfl, rfl⟩

theorem runs_layOut {ctx : BodyContext} {l : Code.Layout} (run : (body ctx b).Runs ⟨{}, s⟩ () ⟨d, s₁⟩)
    (placed : d.code.unplaced? = none) (relaxed : d.code.relax = .ok l) :
    (layOut ctx b).Runs s (d, l) s₁ := by
  have inRange : d.code.layout.outOfRange? = none := by
    cases missed : d.code.layout.outOfRange? with
    | none => rfl
    | some distance =>
      rw [Code.relax] at relaxed
      simp only [missed] at relaxed
      cases relaxed
  refine Emit.runs_bind.2 ⟨(.ok (), d), s₁, runs_lift.2 run, ?_⟩
  refine Emit.runs_bind.2 ⟨(), s₁, Emit.runs_ofExcept.2 ⟨?_, rfl⟩, ?_⟩
  · exact checkDraft_eq_ok_iff.2 ⟨inRange, rfl, placed⟩
  · refine Emit.runs_bind.2 ⟨l, s₁, Emit.runs_ofExcept.2 ⟨?_, rfl⟩, Emit.runs_pure.2 ⟨rfl, rfl⟩⟩
    rw [relaxed]
    rfl

theorem runs_encodeBody_iff : (encodeBody src keepsSymbols row m b).Runs s encoded s' ↔
    ∃ token d s₁ l locals, Drafts src keepsSymbols row m b s token d s₁ ∧ d.code.relax = .ok l ∧
      (localSignature src b.locals).Runs s₁ locals s' ∧ encoded = encodedOf b token locals d l := by
  rw [encodeBody_eq]
  constructor
  · intro run
    obtain ⟨token, _, first, run⟩ := Emit.runs_bind.1 run
    obtain ⟨encodes, rfl⟩ := Emit.runs_ofEncoding.1 first
    obtain ⟨⟨d, l⟩, s₁, laidOut, run⟩ := Emit.runs_bind.1 run
    obtain ⟨compiled, placed, relaxed⟩ := runs_of_layOut laidOut
    obtain ⟨locals, _, signature, returned⟩ := Emit.runs_bind.1 run
    obtain ⟨rfl, rfl⟩ := Emit.runs_pure.1 returned
    exact ⟨token, d, s₁, l, locals, ⟨encodes, compiled, placed⟩, relaxed, signature, rfl⟩
  · rintro ⟨token, d, s₁, l, locals, drafts, relaxed, signature, rfl⟩
    have laidOut := runs_layOut drafts.run drafts.placed relaxed
    exact Emit.runs_bind.2 ⟨token, s, Emit.runs_ofEncoding.2 ⟨drafts.token, rfl⟩, Emit.runs_bind.2
      ⟨(d, l), s₁, laidOut, Emit.runs_bind.2 ⟨locals, s', signature, Emit.runs_pure.2 ⟨rfl, rfl⟩⟩⟩⟩

theorem Drafts.again (cat : s.Catalogued src) (h : Drafts src keepsSymbols row m b s token d s₁) :
    Drafts src keepsSymbols row m b s₁ token d s₁ := by
  obtain ⟨cat₁, _, again⟩ :=
    (composed_body (.ofBody src keepsSymbols m b) b).lasts (σ := ⟨{}, s⟩) cat h.run
  exact ⟨h.token, again cat₁ (.refl _), h.placed⟩

theorem Drafts.unique {token' : Nat} {d' : Draft} {s₁' : Session}
    (h : Drafts src keepsSymbols row m b s token d s₁)
    (h' : Drafts src keepsSymbols row m b s token' d' s₁') : token = token' ∧ d = d' ∧ s₁ = s₁' := by
  have tokens := h.token.symm.trans h'.token
  obtain ⟨_, same⟩ := h.run.iff.1 h'.run
  cases same
  cases tokens
  exact ⟨rfl, rfl, rfl⟩

theorem Passes.drafts (h : Passes src keepsSymbols row m b wide s left final encoded s') :
    ∃ token d s₁, Drafts src keepsSymbols row m b s token d s₁ := by
  cases h with
  | done run | again run =>
    obtain ⟨token, d, s₁, drafts, _⟩ := runs_encodePass.1 run
    exact ⟨token, d, s₁, drafts⟩

/-- Passes over a body come to the layout that relaxation finds for the draft of the first. -/
theorem Passes.settles (h : Passes src keepsSymbols row m b wide s left final encoded s')
    (drafts : Drafts src keepsSymbols row m b s token d s₁)
    (again : Drafts src keepsSymbols row m b s₁ token d s₁) :
    (d.code.widenedAt wide).relax = .ok (d.code.widenedAt final).layout ∧ (∀ t ∈ left, t = s₁) ∧
      (d.code.widenedAt final).layout.outOfRange? = none ∧
      (d.code.widenedAt final).layout.openMisses = ∅ ∧
      ∃ locals, (localSignature src b.locals).Runs s₁ locals s' ∧
        encoded = encodedOf b token locals d (d.code.widenedAt final).layout := by
  induction h with
  | done run =>
    obtain ⟨token', d', s₁', drafts', inRange, rest⟩ := runs_encodePass.1 run
    obtain ⟨rfl, rfl, rfl⟩ := drafts.unique drafts'
    split at rest
    case isTrue reaching =>
      obtain ⟨locals, signature, same⟩ := rest
      exact ⟨relax_of_reaching inRange reaching, by simp, inRange, reaching, locals, signature,
        Pass.done.inj same⟩
    case isFalse => cases rest.2
  | again run _ ih =>
    obtain ⟨token', d', s₁', drafts', inRange, rest⟩ := runs_encodePass.1 run
    obtain ⟨rfl, rfl, rfl⟩ := drafts.unique drafts'
    split at rest
    case isTrue =>
      obtain ⟨_, _, same⟩ := rest
      cases same
    case isFalse missing =>
      obtain ⟨rfl, same⟩ := rest
      cases same
      obtain ⟨relaxed, others, rest⟩ := ih again
      rw [relax_of_missing inRange missing, widenedAt_widenedAt]
      exact ⟨relaxed, by simpa using others, rest⟩

theorem passes_of_relax {l : Code.Layout} {locals : Nat}
    (drafts : Drafts src keepsSymbols row m b s token d s₁)
    (again : Drafts src keepsSymbols row m b s₁ token d s₁)
    (relaxed : (d.code.widenedAt wide).relax = .ok l)
    (signature : (localSignature src b.locals).Runs s₁ locals s') :
    ∃ left final, Passes src keepsSymbols row m b wide s left final
      (encodedOf b token locals d l) s' := by
  generalize same : d.code.widenedAt wide = code at relaxed
  fun_induction Code.relax code generalizing wide s with
  | case1 => cases relaxed
  | case2 code layout inRange wider =>
    rename_i smaller ih
    subst same
    have missing := (widened_autoBranches_lt_iff _).1 smaller
    have run : (encodePass src keepsSymbols row m b wide).Runs s
        (.widen (d.code.widenedAt wide).layout.openMisses) s₁ :=
      runs_encodePass.2 ⟨token, d, s₁, drafts, inRange, by rw [if_neg missing]; exact ⟨rfl, rfl⟩⟩
    have next : d.code.widenedAt (wide ∪ (d.code.widenedAt wide).layout.openMisses) =
        (d.code.widenedAt wide).layout.widened := by
      rw [← widenedAt_widenedAt]
      exact (widened_eq_widenedAt _).symm
    obtain ⟨left, final, rest⟩ := ih again next relaxed
    exact ⟨s₁ :: left, final, .again run rest⟩
  | case3 code layout inRange =>
    rename_i wider final
    subst same
    obtain rfl := Except.ok.inj relaxed
    have reaching := not_not.1 ((widened_autoBranches_lt_iff _).not.1 final)
    refine ⟨[], wide, .done (runs_encodePass.2 ⟨token, d, s₁, drafts, inRange, ?_⟩)⟩
    rw [if_pos reaching]
    exact ⟨locals, signature, rfl⟩

/-- A body is encoded as by passes, whatever their number. They leave what one pass leaves that starts
with the final long branches; and behind the first pass, compiling the body changes nothing, up to the
signature of the locals. -/
theorem reencoding_invisible (reached : s.Reached src) :
    ((encodeBody src keepsSymbols row m b).Runs s encoded s' ↔
      ∃ left final, Passes src keepsSymbols row m b ∅ s left final encoded s') ∧
    ∀ left final, Passes src keepsSymbols row m b ∅ s left final encoded s' →
      (encodePass src keepsSymbols row m b final).Runs s (.done encoded) s' ∧
      ∃ d s₁ locals, (body (.ofBody src keepsSymbols m b) b).Runs ⟨{}, s⟩ () ⟨d, s₁⟩ ∧
        (body (.ofBody src keepsSymbols m b) b).Runs ⟨{}, s₁⟩ () ⟨d, s₁⟩ ∧
        (∀ t ∈ left, t = s₁) ∧ (localSignature src b.locals).Runs s₁ locals s' := by
  have cat := reached.catalogued
  refine ⟨⟨fun run => ?_, fun ⟨left, final, passes⟩ => ?_⟩, fun left final passes => ?_⟩
  · obtain ⟨token, d, s₁, l, locals, drafts, relaxed, signature, rfl⟩ := runs_encodeBody_iff.1 run
    rw [← widenedAt_empty d.code] at relaxed
    exact passes_of_relax drafts (drafts.again cat) relaxed signature
  · obtain ⟨token, d, s₁, drafts⟩ := passes.drafts
    obtain ⟨relaxed, _, _, _, locals, signature, same⟩ := passes.settles drafts (drafts.again cat)
    rw [widenedAt_empty] at relaxed
    exact runs_encodeBody_iff.2 ⟨token, d, s₁, _, locals, drafts, relaxed, signature, same⟩
  · obtain ⟨token, d, s₁, drafts⟩ := passes.drafts
    obtain ⟨_, others, inRange, reaching, locals, signature, same⟩ :=
      passes.settles drafts (drafts.again cat)
    refine ⟨runs_encodePass.2 ⟨token, d, s₁, drafts, inRange, ?_⟩, d, s₁, locals, drafts.run,
      (drafts.again cat).run, others, signature⟩
    rw [if_pos reaching, same]
    exact ⟨locals, signature, rfl⟩

end

/-- The way out of the delivery is missed by the first pass, which asks for a text, a method and a type. -/
theorem reencoding_invisible_delivery :
    Session.Reached courierSource (.ofModule courier) ∧
    ∃ symbols s' s₁ left final,
      Passes courierSource false 1 courierMain delivery ∅ (.ofModule courier) (s₁ :: left) final
        (delivered, symbols) s' ∧
      (encodePass courierSource false 1 courierMain delivery final).Runs (.ofModule courier)
        (.done (delivered, symbols)) s' := by
  have reached : Session.Reached courierSource (.ofModule courier) := .start _
  obtain ⟨symbols, s', run⟩ := encodes_delivery
  obtain ⟨left, final, passes⟩ := (reencoding_invisible reached).1.1 run
  refine ⟨reached, symbols, s', ?_⟩
  cases passes with
  | again first rest =>
    exact ⟨_, _, _, .again first rest, ((reencoding_invisible reached).2 _ _ (.again first rest)).1⟩
  | done only =>
    have evaluated : ((encodePass courierSource false 1 courierMain delivery ∅).run
        (.ofModule courier)).1.toOption.map Pass.isDone = some false := by
      decide +kernel
    obtain ⟨p, _, first, missing⟩ := Emit.exists_runs evaluated
    obtain ⟨rfl, _⟩ := only.iff.1 first
    cases missing

end Compile
end Cil
