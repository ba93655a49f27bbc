import Cil.Proofs.ExpressionSteps

/-!
The code of a statement is written by steps, and so is that of a whole body. A statement starts and ends
with nothing on the stack. The zones that it opens have the numbers of the regions that were found
before, in the same order.
-/

namespace Cil

open List

def Regions.next (rs : Regions) : Regions := { rs with count := rs.count + 1 }

theorem Regions.openBlock_eq (region : Region) (b : Block) (rs : Regions) :
    openBlock region b rs =
      addBlock ((rs.count + 1) :: region) b rs.next := by
  cases b
  rfl

namespace Compile

variable {frame : Frame}

def Scene.shut (s : Scene) : View := { s.level 0 with shut := true }

/-- What a frame says is so: its region is that of a block around the place, and an exception is handled
where it says so. -/
structure Holds (ctx : BodyContext) (N : List Event) (zones : List Zone) (frame : Frame) : Prop where
  block : ∃ id place depth, .label (.block id) place zones depth ∈ N ∧
    ∀ region, ctx.regions.region? id = some region → region = frame.region
  handling : frame.handling = true → Zone.handling zones = true

variable {sound : Prop} {ctx : BodyContext} {v : View} {s : Scene} {N : List Event} {k : Nat}
  {target : BlockId} {α : Type} {w : α → View} {f : Unit → Compile α} {P : List Pending}
  {rest : List Zone} {F : Regions} {guard : Guard} {tryStart : Nat} {value : Option Expression}
  {n : Nat} {σ σ' : State}

theorem Holds.reaches (h : Holds ctx N s.zones frame) (leaving : Bool)
    (checked : ∀ there, ctx.regions.region? target = some there →
      if leaving then frame.region.within there = true else there = frame.region) :
    ∀ K, N ⊆ K → Reaches sound ctx K s leaving 0 (.block target) := by
  intro K hK
  obtain ⟨id, place, depth, placed, same⟩ := h.block
  refine ⟨fun _ => rfl, id, place, depth, hK placed, fun here hhere => ?_⟩
  rw [same here hhere]
  exact checked

theorem turns_store (target : Target) (value : Expression)
    (hs : sound → target.Sound ctx.source.module ∧ value.IsOperand ctx.source.module) :
    Turns sound ctx N (store ctx target value) 0 0 := by
  have stored : Yields sound ctx (expression ctx value) 1 :=
    .one (yields_expression ctx value) fun h => (hs h).2
  cases target with
  | «variable» index => exact stored.bind (turns_storeLocal index)
  | parameter index =>
    exact .check runs_parameterSlot fun _ _ =>
      stored.bind (acts_slotOp (by simp) (by decide) (by decide)).drop
  | field object f =>
    refine ⟨fun hw => walks_bind_fieldAccess fun token =>
      ((yields_receiver ctx object fun h => (hs h).1).bind (stored.over ?_)).walks hw⟩
    cases object with
    | none | some => exact Acts.drop (acts_opToken mem_cons_self ⟨rfl, rfl, rfl⟩ rfl)
  | element array arrayType indices =>
    refine .check runs_elementType fun _ isElement =>
      (Turns.one (yields_expression ctx array) fun h => (hs h).1.1).bind
        ((yields_expressions ctx indices fun h => (hs h).1.2).over (stored.over ?_))
    rw [Nat.add_right_comm]
    exact (acts_storeElement isElement).drop
  | indirect address pointee =>
    exact (Turns.one (yields_expression ctx address) fun h => (hs h).1).bind (stored.over
      (acts_typedOp pointee does_storeIndirectOp? (by decide) (by decide)).drop)

theorem walks_leave {target : Label} {form : BranchForm} (hw : Zone.Writable s.zones)
    (reaches : ∀ K, N ⊆ K → Reaches sound ctx K s true 0 target) :
    Walks sound ctx (s.level 0) N (leave target form) fun _ => s.shut :=
  (walks_branch 0 ⟨hw, fun _ => Nat.le_refl _, fun _ => Nat.le_refl _⟩ reaches nofun).bind
    fun _ => walks_setHeight 0

theorem walks_leaveAtEnd {target : Label} (hw : Zone.Writable s.zones)
    (reaches : ∀ K, N ⊆ K → Reaches sound ctx K s true 0 target) :
    Walks sound ctx (s.level 0) N (leaveAtEnd target) fun _ => s.shut := by
  refine .bind_fallsThrough fun falls => ?_
  cases falls with
  | true => exact walks_leave hw reaches
  | false => exact .pure ()

def Scene.entering (s : Scene) (id : BlockId) : Scene :=
  { s with found := { s.found with blocks := s.found.blocks.insert id (Zone.region s.zones) } }

theorem walks_bind_placeBlock {id : BlockId} (hw : Zone.Writable s.zones)
    (h : ∀ place, Walks sound ctx ((s.entering id).level 0)
      (.label (.block id) place s.zones 0 :: N) (f ()) w) :
    Walks sound ctx (s.level 0) N (placeBlock ctx id >>= f) w := by
  refine .bind_run fun {K σ _ σ'} hK fits run => ?_
  have inverted : σ.draft.code.isPlaced (.block id) = false ∧ (place (.block id)).Runs σ () σ' := by
    simpa [placeBlock, and_assoc] using run
  obtain ⟨fresh, rest⟩ := inverted
  cases runs_modify.1 rest
  exact ⟨(s.entering id).level 0, [.label (.block id) σ.draft.code.stop s.zones 0],
    ⟨fits.height, fits.peak, nofun⟩, .single (.block id hw fresh fun _ => rfl), h _⟩

theorem walks_sequencePoint (span : SourceSpan) :
    Walks sound ctx v N (sequencePoint ctx span) fun _ => v :=
  .ite (fun _ => .modify fun K _ _ _ fits =>
    ⟨{ fits with }, K, List.Subset.refl K, .point span⟩) fun _ => .pure _

theorem walks_scopeHere (event : Nat → ScopeEvent)
    (here : ∀ stop place, event stop = .opened place ∨ event stop = .closed place → place = stop) :
    Walks sound ctx v N (do scopeEvent (event (← stop))) fun _ => v where
  steps {K σ _ σ'} _ fits run := by
    obtain ⟨stop, _, read, written⟩ := runs_bind.1 run
    obtain ⟨rfl, rfl⟩ := runs_read.1 read
    cases runs_modify.1 written
    exact ⟨K, List.Subset.refl K, { fits with }, .single (.scope _ (here _))⟩

theorem walks_bind_typeBlob {t : TypeSig} {f : Bytes → Compile α}
    (h : ∀ bytes, Walks sound ctx v N (f bytes) w) :
    Walks sound ctx v N (emit (typeBlob ctx.source t) >>= f) w := by
  refine .bind_run fun {K σ bytes σ'} _ fits run => ?_
  obtain ⟨s, inner, rfl⟩ := runs_emit.1 run
  exact ⟨v, [], fits, .single (.blob t bytes s inner), h bytes⟩

theorem walks_scopeLocal (index : Nat) :
    Walks sound ctx v N (scopeLocal ctx index) fun _ => v := by
  refine .bind_check runs_localSlot fun slot _ => ?_
  split
  · split
    · exact walks_bind_typeBlob fun _ => .modify fun K _ _ _ fits =>
        ⟨{ fits with }, K, List.Subset.refl K, .scope _ nofun⟩
    · exact .pure _
  · exact .pure _

theorem walks_openScope (locals : List Nat) :
    Walks sound ctx v N (openScope ctx locals) fun _ => v := by
  refine .ite (fun _ => ?_) fun _ => .pure _
  rw [← bind_assoc]
  exact (walks_scopeHere .opened (by simp)).bind fun _ => .forM fun index _ => walks_scopeLocal index

theorem walks_closeScope (locals : List Nat) :
    Walks sound ctx v N (closeScope ctx locals) fun _ => v :=
  .ite (fun _ => walks_scopeHere .closed (by simp)) fun _ => .pure _

theorem walks_leaveBehind : Walks sound ctx (s.level 0) N leaveBehind fun _ => s.level 0 :=
  walks_heights rfl rfl rfl (fun _ => Nat.le_refl _) fun _ fits hs => ⟨rfl, fits.peak hs⟩

theorem runs_checkTarget {leaving : Bool}
    (run : (checkTarget ctx frame target leaving).Runs σ () σ') : σ = σ' ∧
      ∀ there, ctx.regions.region? target = some there →
        if leaving then frame.region.within there = true else there = frame.region := by
  unfold checkTarget at run
  split at run
  · simp_all
  · split <;> simp_all

theorem runs_checkTargets {targets : List BlockId}
    (run : (checkTargets ctx frame targets).Runs σ () σ') : σ = σ' ∧
      ∀ id ∈ targets, ∀ there, ctx.regions.region? id = some there → there = frame.region := by
  induction targets with
  | nil => exact ⟨(runs_pure.1 run).2, nofun⟩
  | cons id ids ih =>
    obtain ⟨_, _, first, rest⟩ := runs_bind.1 run
    obtain ⟨rfl, checked⟩ := runs_checkTarget first
    obtain ⟨rfl, others⟩ := ih rest
    exact ⟨rfl, forall_mem_cons.2 ⟨checked, others⟩⟩

theorem turns_popValues (count : Nat) : Turns sound ctx N (popValues count) count 0 := by
  induction count with
  | zero => exact ⟨fun _ => .pure _⟩
  | succ count ih =>
    refine ⟨fun {s k} hw => ?_⟩
    have pop : Turns sound ctx N (do op .pop; lower 1) 1 0 := (acts_op (by decide)).drop
    have whole := (pop.walks (k := k + count) hw).bind fun _ => ih.walks hw
    rwa [bind_assoc] at whole

theorem walks_bind_plain {o : Opcode} {operand : Bytes} {e : StackEffect} (depth : Nat)
    (able : v.Able sound e) (takes : ∀ known, o.Takes known operand) (effect : o.effect? = some e)
    (stays : o ≠ .ret ∧ o ≠ .rethrow ∧ o ≠ .jmp)
    (next : sound → o.transfers = false → depth = v.depth - e.pops + e.pushes)
    (h : ∀ place, Walks sound ctx { v with depth, shut := o.transfers }
      (.instruction place v.scene.zones v.depth :: N) (f ()) w) :
    Walks sound ctx v N (opWith o operand >>= f) w := by
  refine walks_bind_modify (w := { v with depth, shut := o.transfers })
    (fun place => [.instruction place v.scene.zones v.depth])
    (fun K d t hK fits => ⟨⟨fits.height, fits.peak, fun shut => ?_⟩, ?_⟩) h
  · simpa [Draft.fallsThrough_push, Instruction.transfers] using shut
  · exact step_plain able (fun _ _ => takes _) (fun same => absurd same stays.1)
      (fun same => absurd same stays.2.1) (fun _ => .fixed effect) next stays.2.2 K d t hK fits

theorem walks_bind_enterHandler {into : Option Nat} {height peak : Nat} {shut : Bool}
    (hw : Zone.Writable s.zones)
    (h : ∀ place, Walks sound ctx (s.level 0) (.instruction place s.zones 1 :: N) (f ()) w) :
    Walks sound ctx ⟨s, 1, height, peak, shut⟩ N (enterHandler ctx into >>= f) w := by
  have able : View.Able sound ⟨s, 1, 0 + 1, max peak (0 + 1), shut⟩ ⟨1, 0⟩ :=
    ⟨hw, fun _ => Nat.le_refl _, fun _ => Nat.le_max_right ..⟩
  have taken (o : Opcode) (goesOn : o.transfers = false) (place : Nat) :
      Walks sound ctx ⟨s, 0, 0 + 1, max peak (0 + 1), o.transfers⟩
        (.instruction place s.zones 1 :: N) (lower 1 >>= f) w := by
    refine (walks_lower 1).bind fun _ => .from_settled (s.level 0) ?_ (h place)
    exact { peak := fun _ => Nat.zero_le _ }
  unfold enterHandler
  simp only [bind_assoc]
  refine (walks_setHeight 0).bind fun _ => (walks_raise 1).bind fun _ => ?_
  cases into with
  | none =>
    simp only [popValues, bind_assoc, pure_bind]
    exact walks_bind_plain 0 able (fun _ => rfl) rfl (by decide) (fun _ _ => rfl)
      (taken .pop rfl)
  | some index =>
    simp only [storeLocal, bind_assoc]
    refine .bind_check runs_localSlot fun slot _ => ?_
    obtain ⟨o, operand, same, takes, goesOn, effect⟩ := slotOp_eq slot (some .stloc_0) .stloc_s
      .stloc (e := ⟨1, 0⟩) (by decide) (by decide) (by decide)
    rw [same]
    refine walks_bind_plain 0 able takes effect ⟨?_, ?_, ?_⟩ (fun _ _ => rfl) (taken o goesOn)
    all_goals
      rintro rfl
      cases goesOn

theorem walks_addClause {z : Zone} {tryStop handlerStart : Nat}
    (guarded : ∀ value, guard = .exceptionType value →
      ∃ t token, .token (.type t) token ∈ N ∧ token.encode = .ok value)
    (covers : ∀ K stop, N ⊆ K → Covers K ⟨guard, tryStart, tryStop, handlerStart, stop⟩ (z :: rest))
    (ran : ∃ place depth, .instruction place (z :: rest) depth ∈ N) :
    Walks sound ctx (Scene.shut ⟨P, z :: rest, F⟩) N
      (addClause guard tryStart tryStop handlerStart) fun _ => Scene.shut ⟨P, rest, F⟩ where
  steps {K σ _ σ'} hK fits run := by
    obtain ⟨stop, _, read, written⟩ := runs_bind.1 run
    obtain ⟨rfl, rfl⟩ := runs_read.1 read
    cases runs_modify.1 written
    refine ⟨_, subset_cons_self .., { fits with }, .single
      (.clause _ z rest rfl rfl (fun value isType => ?_) (covers K _ hK) ?_ (fits.shut rfl))⟩
    · obtain ⟨t, token, known, encoded⟩ := guarded value isType
      exact ⟨t, token, mem_tokensOf.2 (hK known), encoded⟩
    · obtain ⟨place, depth, before⟩ := ran
      exact ⟨place, depth, hK before⟩

theorem walks_returnValue (hs : sound → ∀ e ∈ value, e.IsOperand ctx.source.module)
    (holds : Holds ctx N s.zones frame) (hw : Zone.Writable s.zones) :
    Walks sound ctx (s.level 0) N (returnValue ctx frame value) fun _ => s.level 0 := by
  refine .ite (fun _ => .bind_fault) fun outside => ?_
  rw [Decidable.not_not] at outside
  have exits : ∀ K, N ⊆ K → s.zones = [] ∨ InBlock ctx K s.zones (· = .outermost) := by
    intro K hK
    obtain ⟨id, place, depth, placed, same⟩ := holds.block
    exact .inr ⟨id, place, depth, hK placed, fun region found => (same region found).trans outside⟩
  have ret {count peak : Nat} (one : (!ctx.method.signature.returnsVoid).toNat = count)
      (bound : count ≤ peak) :
      Walks sound ctx ⟨s, count, 0, peak, false⟩ N (op .ret) fun _ => s.level 0 := by
    have able : View.Able sound ⟨s, count, 0, peak, false⟩
        ⟨(!ctx.method.signature.returnsVoid).toNat, 0⟩ :=
      ⟨hw, fun _ => Nat.le_of_eq one, fun _ => bound⟩
    have walks : Walks sound ctx ⟨s, count, 0, peak, false⟩ N (op .ret) _ :=
      walks_instruction 0 (step_plain able (fun _ _ => rfl) (fun _ => exits) nofun
        (fun _ => .returning) nofun (by decide))
    exact walks.settle fun _ =>
      { peak := fun _ => Nat.zero_le _ }
  cases value with
  | none =>
    cases void : ctx.method.signature.returnsVoid with
    | true => exact ret (by simp [void]) (Nat.le_refl _)
    | false => exact .bind_fault
  | some e =>
    cases void : ctx.method.signature.returnsVoid with
    | true => exact .bind_fault
    | false =>
      exact ((Turns.one (yields_expression ctx e) fun h => hs h e rfl).walks hw).bind fun _ =>
        (walks_lower 1).bind fun _ => ret (by simp [void, Scene.level]) (Nat.le_refl _)

theorem walks_throwValue (hs : sound → ∀ e ∈ value, e.IsOperand ctx.source.module)
    (holds : Holds ctx N s.zones frame) (hw : Zone.Writable s.zones) :
    Walks sound ctx (s.level 0) N (throwValue ctx frame value) fun _ => s.level 0 := by
  cases value with
  | none =>
    refine .ite (fun handles => ?_) fun _ => .fault
    have walks : Walks sound ctx (s.level 0) N (op .rethrow) _ :=
      walks_instruction 0 (step_plain (Scene.able hw ⟨0, 0⟩ 0) (fun _ _ => rfl) nofun
        (fun _ => holds.handling handles) (fun _ => .fixed rfl) nofun (by decide))
    exact walks.settle fun _ =>
      {}
  | some e =>
    have throws : Walks sound ctx (s.level 1) N (op .throw) _ :=
      walks_instruction 0 (step_plain (Scene.able hw ⟨1, 0⟩ 0) (fun _ _ => rfl) nofun nofun
        (fun _ => .fixed rfl) nofun (by decide))
    refine ((Turns.one (yields_expression ctx e) fun h => hs h e rfl).walks hw).bind fun _ =>
      (throws.bind fun _ => walks_lower 1).settle fun _ => ?_
    exact { peak := fun _ => Nat.zero_le _ }

section

variable {f : Nat → Compile α}

theorem walks_bind_openAttempt (hw : Zone.Writable rest)
    (h : ∀ place, Walks sound ctx
      (Scene.level ⟨P, ⟨.attempt, F.count + 1⟩ :: ⟨.whole, F.count + 1⟩ :: rest, F.next⟩ 0)
      ([.opened (⟨.attempt, F.count + 1⟩ :: ⟨.whole, F.count + 1⟩ :: rest) place 0,
        .opened (⟨.whole, F.count + 1⟩ :: rest) place 0] ++ N) (f place) w) :
    Walks sound ctx (Scene.level ⟨P, rest, F⟩ 0) N (stop >>= f) w :=
  .bind_stop h fun _ _ _ _ fits => ⟨{ fits with },
    .single (.openAttempt rfl hw fun _ => rfl)⟩

theorem walks_bind_closeAttempt
    (h : ∀ place, Walks sound ctx (Scene.shut ⟨P, rest, F⟩)
      ([.closed (⟨.attempt, n⟩ :: rest) place] ++ N) (f place) w) :
    Walks sound ctx (Scene.shut ⟨P, ⟨.attempt, n⟩ :: rest, F⟩) N (stop >>= f) w :=
  .bind_stop h fun _ _ _ _ fits => ⟨{ fits with },
    .single (.closeAttempt n rest rfl (fits.shut rfl))⟩

theorem walks_bind_openPart (kind : ZoneKind) (part : kind = .filter ∨ kind = .handler)
    (h : ∀ place, Walks sound ctx
      ⟨⟨P, ⟨kind, F.count + 1⟩ :: ⟨.whole, n⟩ :: rest, F.next⟩, 1, 0, 0, true⟩
      ([.opened (⟨kind, F.count + 1⟩ :: ⟨.whole, n⟩ :: rest) place 1] ++ N) (f place) w) :
    Walks sound ctx (Scene.shut ⟨P, ⟨.whole, n⟩ :: rest, F⟩) N (stop >>= f) w :=
  .bind_stop h fun _ _ _ _ fits => ⟨{ fits with },
    .single (.openPart kind n rest rfl rfl part fun _ => rfl)⟩

theorem walks_bind_closeFilter {m : Nat}
    (ran : ∃ place depth, .instruction place (⟨.filter, m⟩ :: ⟨.whole, n⟩ :: rest) depth ∈ N)
    (h : ∀ place, Walks sound ctx
      ⟨⟨P, ⟨.handler, F.count + 1⟩ :: ⟨.whole, n⟩ :: rest, F.next⟩, 1, 0, 0, true⟩
      ([.opened (⟨.handler, F.count + 1⟩ :: ⟨.whole, n⟩ :: rest) place 1,
        .closed (⟨.filter, m⟩ :: ⟨.whole, n⟩ :: rest) place] ++ N) (f place) w) :
    Walks sound ctx (Scene.shut ⟨P, ⟨.filter, m⟩ :: ⟨.whole, n⟩ :: rest, F⟩) N (stop >>= f) w := by
  refine .bind_stop h fun K _ _ hK fits => ⟨{ fits with }, ?_⟩
  obtain ⟨place, depth, before⟩ := ran
  exact .single (.closeFilter m n rest rfl rfl ⟨place, depth, hK before⟩ (fits.shut rfl) fun _ => rfl)

theorem walks_bind_openCleanup
    (h : ∀ place, Walks sound ctx (Scene.shut ⟨P, ⟨.cleanup n, F.count + 1⟩ :: rest, F.next⟩)
      ([.opened (⟨.cleanup n, F.count + 1⟩ :: rest) place 0,
        .closed (⟨.whole, n⟩ :: rest) place] ++ N) (f place) w) :
    Walks sound ctx (Scene.shut ⟨P, ⟨.whole, n⟩ :: rest, F⟩) N (stop >>= f) w :=
  .bind_stop h fun _ _ _ _ fits => ⟨{ fits with },
    .single (.openCleanup n rest rfl rfl fun _ => rfl)⟩

theorem walks_closeWhole {c : Compile α} (h : Walks sound ctx (Scene.shut ⟨P, rest, F⟩) N c w) :
    Walks sound ctx (Scene.shut ⟨P, ⟨.whole, n⟩ :: rest, F⟩) N c w :=
  h.lead fun _ _ _ _ fits => ⟨{ fits with }, _, subset_cons_self ..,
    .closeWhole n rest rfl⟩

theorem reaches_leaving {K : List Event} {l : Nat} (pending : ⟨.internal l, rest, 0⟩ ∈ s.pending)
    (departs : Zone.Departs s.zones rest) : Reaches sound ctx K s true 0 (.internal l) :=
  ⟨_, pending, rfl, departs, fun _ => rfl⟩

end

theorem Spans.mono {K : List Event} {zones : List Zone} {start stop : Nat}
    (h : Spans N zones start stop) (sub : N ⊆ K) : Spans K zones start stop :=
  ⟨h.1.imp fun _ opened => sub opened, sub h.2⟩

theorem writable_part (kind : ZoneKind) (h : kind ≠ .whole) : Zone.Writable (⟨kind, n⟩ :: rest) := by
  rintro z ⟨⟩
  exact h

theorem walks_cleanupBlock {F' : Regions} {c : Compile Unit}
    (h : ∀ {N}, Walks sound ctx (Scene.level ⟨P, ⟨.cleanup n, F.count + 1⟩ :: rest, F.next⟩ 0) N c
      fun _ => Scene.level ⟨P, ⟨.cleanup n, F.count + 1⟩ :: rest, F'⟩ 0)
    (isCleanup : guard = .anyExit ∨ guard = .anyException)
    (opened : ∃ depth, .opened (⟨.whole, n⟩ :: rest) tryStart depth ∈ N) :
    Walks sound ctx (Scene.shut ⟨P, ⟨.whole, n⟩ :: rest, F⟩) N (do
      let start ← stop
      setHeight 0
      c
      op .endfinally
      addClause guard tryStart start start) fun _ => Scene.shut ⟨P, rest, F'⟩ := by
  refine walks_bind_openCleanup fun start => (walks_setHeight 0).bind fun _ =>
    .from_settled (Scene.level ⟨P, ⟨.cleanup n, F.count + 1⟩ :: rest, F.next⟩ 0) ?_ ?_
  · exact {}
  refine h.bind fun _ => walks_bind_plain 0 ⟨writable_part (.cleanup n) nofun, fun _ => Nat.le_refl _,
    fun _ => Nat.le_refl _⟩ (fun _ => rfl) rfl (by decide) nofun fun place => ?_
  refine walks_addClause (fun value isType => ?_) (fun K stop hK => ?_)
    ⟨place, 0, by simp [Scene.level]⟩
  · rcases isCleanup with rfl | rfl <;> cases isType
  · obtain ⟨depth, opened⟩ := opened
    exact .cleanup (k := n) isCleanup ⟨⟨depth, hK (by simp [opened])⟩, hK (by simp)⟩ (hK (by simp))

section

variable (ctx)

mutual

theorem walks_block (b : Block) (hs : sound → b.Sound ctx.source.module) (frame : Frame) (s : Scene)
    (hw : Zone.Writable s.zones) (handles : frame.handling = true → Zone.handling s.zones = true)
    (N : List Event) : Walks sound ctx (s.level 0) N (block ctx frame b) fun _ =>
      Scene.level { s with found := Regions.addBlock (Zone.region s.zones) b s.found } 0 :=
  match b with
  | .mk id body locals source => by
    rw [block]
    refine walks_bind_placeBlock hw fun place =>
      .bind (w := fun _ => (s.entering id).level 0) ?_ fun _ => ?_
    · cases source with
      | none => exact .pure _
      | some span => exact walks_sequencePoint span
    · refine (walks_openScope locals).bind fun _ =>
        (walks_statements body hs { frame with
          region := (ctx.regions.region? id).getD frame.region } (s.entering id) hw
          ⟨⟨id, place, 0, mem_cons_self, ?_⟩, handles⟩).bind fun _ =>
            walks_leaveBehind.bind fun _ => walks_closeScope locals
      intro region found
      simp [found]

theorem walks_statements (ss : List Statement) (hs : sound → StatementsSound ctx.source.module ss)
    (frame : Frame) (s : Scene) (hw : Zone.Writable s.zones) {N : List Event}
    (holds : Holds ctx N s.zones frame) :
    Walks sound ctx (s.level 0) N (statements ctx frame ss) fun _ =>
      Scene.level { s with found := Regions.addStatements (Zone.region s.zones) ss s.found } 0 :=
  match ss with
  | [] => .pure ()
  | st :: ss =>
    (walks_statement st (fun h => (hs h).1) frame s hw holds).bind fun _ =>
      walks_statements ss (fun h => (hs h).2) frame
        { s with found := Regions.addStatement (Zone.region s.zones) st s.found } hw holds

theorem walks_statement (st : Statement) (hs : sound → st.Sound ctx.source.module) (frame : Frame)
    (s : Scene) (hw : Zone.Writable s.zones) {N : List Event} (holds : Holds ctx N s.zones frame) :
    Walks sound ctx (s.level 0) N (statement ctx frame st) fun _ =>
      Scene.level { s with found := Regions.addStatement (Zone.region s.zones) st s.found } 0 :=
  match st with
  | .block b => by
    rw [statement]
    exact walks_block b hs frame s hw holds.handling N
  | .expression e => by
    rw [statement]
    refine .bind_height fun before low => ((yields_expression ctx e hs).walks hw).bind fun _ =>
      .bind_height fun after high => ?_
    refine .from_settled (s.level (0 + (after - before))) ?_ ((turns_popValues _).walks hw)
    have count (h : sound) :
        0 + e.values ctx.source.module = 0 + (after - before) := by
      simp [low h, high h, Scene.level]
    exact ⟨rfl, count, count, fun h => Nat.le_of_eq (count h).symm, nofun⟩
  | .assign target value => by
    rw [statement]
    exact (turns_store target value hs).walks hw
  | .branch none target form => by
    rw [statement]
    refine .bind_check runs_checkTarget fun _ checked =>
      (walks_branch 0 ⟨hw, fun _ => Nat.le_refl _, fun _ => Nat.le_refl _⟩
        (holds.reaches _ checked) nofun).settle fun _ => ?_
    exact {}
  | .branch (some test) target form => by
    rw [statement]
    exact .bind_check runs_checkTarget fun _ checked =>
      walks_condition ctx test (fun h => hs h test rfl) hw (holds.reaches _ checked)
  | .leave target form => by
    rw [statement]
    refine .bind_check runs_checkTarget fun _ checked =>
      (walks_leave hw (holds.reaches _ checked)).settle fun _ => ?_
    exact {}
  | .switch value targets => by
    rw [statement]
    refine .bind_check runs_checkTargets fun _ checked =>
      ((Turns.one (yields_expression ctx value) hs).walks hw).bind fun _ => ?_
    have switches : Walks sound ctx (s.level 1) N (instruction (.switch (targets.map .block))) _ :=
      walks_instruction 0 fun K _ _ hK fits => .switch targets 0 hw
        (fun id member => holds.reaches false (checked id member) K hK)
        ((Scene.able hw ⟨1, 0⟩ 0).flows fits fun _ _ => rfl)
    exact (switches.bind fun _ => walks_lower 1).settle fun _ =>
      { peak := fun _ => Nat.zero_le _ }
  | .exit value => by
    rw [statement]
    exact walks_returnValue hs holds hw
  | .throwing value => by
    rw [statement]
    exact walks_throwValue hs holds hw
  | .guarded body handlers clean => by
    rw [statement]
    obtain ⟨P, zones, F⟩ := s
    have hw' : Zone.Writable (⟨.attempt, F.count + 1⟩ :: ⟨.whole, F.count + 1⟩ :: zones) :=
      writable_part .attempt nofun
    rw [Regions.addStatement, Regions.openBlock_eq]
    refine .ite (fun _ => .bind_fault) fun _ => walks_bind_newLabel 0 fun behind =>
      walks_bind_openAttempt hw fun tryStart => ?_
    refine (walks_block body (fun h => (hs h).1) frame ⟨_, _, _⟩ hw' holds.handling _).bind
      fun _ => .bind (walks_leaveAtEnd hw' fun _ _ => reaches_leaving mem_cons_self ?_) fun _ =>
        walks_bind_closeAttempt fun tryStop => ?_
    · exact ⟨_, _, _, .inl rfl, rfl⟩
    refine (walks_handlers handlers (fun h => (hs h).2.1) frame _ mem_cons_self
      ⟨⟨0, by simp [Scene.level]⟩, by simp [Scene.level]⟩).bind fun _ => ?_
    exact (walks_cleanup clean (fun h => (hs h).2.2) frame _
      ⟨0, by simp [Scene.level]⟩).bind fun _ => walks_place ⟨_, zones, 0⟩ P hw (.refl _) rfl fun _ => rfl
  | .initObject address valueType => by
    rw [statement]
    exact ((Turns.one (yields_expression ctx address) hs).bind
      (acts_opType valueType (by decide)).drop).walks hw
  | .sequencePoint span => by
    rw [statement]
    exact walks_sequencePoint span
  | .breakpoint | .nop => by
    rw [statement]
    exact (Acts.level (p := 0) (acts_op (by decide))).walks hw

theorem walks_handlers (all : List Handler) (hs : sound → HandlersSound ctx.source.module all)
    (frame : Frame) {l tryStart tryStop n : Nat} {P : List Pending} {rest : List Zone} (F : Regions)
    {N : List Event} (pending : ⟨.internal l, rest, 0⟩ ∈ P)
    (protects : Spans N (⟨.attempt, n⟩ :: ⟨.whole, n⟩ :: rest) tryStart tryStop) :
    Walks sound ctx (Scene.shut ⟨P, ⟨.whole, n⟩ :: rest, F⟩) N
      (handlers ctx frame (.internal l) tryStart tryStop all) fun _ =>
        Scene.shut ⟨P, ⟨.whole, n⟩ :: rest, Regions.addHandlers (Zone.region rest) all F⟩ :=
  match all with
  | [] => .pure ()
  | h :: others =>
    (walks_handler h (fun h => (hs h).1) frame F pending protects).bind fun _ =>
      walks_handlers others (fun h => (hs h).2) frame _ pending protects

theorem walks_handler (h : Handler) (hs : sound → h.Sound ctx.source.module) (frame : Frame)
    {l tryStart tryStop n : Nat} {P : List Pending} {rest : List Zone} (F : Regions) {N : List Event}
    (pending : ⟨.internal l, rest, 0⟩ ∈ P)
    (protects : Spans N (⟨.attempt, n⟩ :: ⟨.whole, n⟩ :: rest) tryStart tryStop) :
    Walks sound ctx (Scene.shut ⟨P, ⟨.whole, n⟩ :: rest, F⟩) N
      (handler ctx frame (.internal l) tryStart tryStop h) fun _ =>
        Scene.shut ⟨P, ⟨.whole, n⟩ :: rest, Regions.addHandler (Zone.region rest) h F⟩ :=
  match h with
  | .catching exceptionType into body => by
    rw [handler, Regions.addHandler, Regions.openBlock_eq]
    refine walks_bind_typeToken fun r => .bind_encodeToken fun value encoded =>
      walks_bind_openPart .handler (.inr rfl) fun start =>
        walks_bind_enterHandler (writable_part .handler nofun) fun place => ?_
    refine (walks_block body hs { frame with handling := true } ⟨_, _, _⟩
      (writable_part .handler nofun) (fun _ => rfl) _).bind fun _ =>
        .bind (walks_leaveAtEnd (writable_part .handler nofun) fun _ _ =>
          reaches_leaving pending ?_) fun _ => walks_addClause ?_ ?_ ⟨place, 1, by simp⟩
    · exact ⟨_, _, _, .inr rfl, rfl⟩
    · rintro value' ⟨⟩
      exact ⟨exceptionType, r.token, by simp, encoded⟩
    · intro K stop hK
      exact .typed rfl (protects.mono fun e he => hK (by simp [he])) (hK (by simp))
  | .filtering into filter test body => by
    rw [handler, Regions.addHandler, Regions.openBlock_eq, Regions.openBlock_eq]
    refine walks_bind_openPart .filter (.inl rfl) fun filterStart =>
      walks_bind_enterHandler (writable_part .filter nofun) fun _ => ?_
    refine (walks_block filter (fun h => (hs h).1) { frame with handling := false } ⟨_, _, _⟩
      (writable_part .filter nofun) nofun _).bind fun _ =>
        ((Turns.one (yields_expression ctx test) fun h => (hs h).2.1).walks
          (writable_part .filter nofun)).bind fun _ => ?_
    refine walks_bind_plain 0 ⟨writable_part .filter nofun, fun _ => Nat.le_refl _,
      fun _ => Nat.le_refl _⟩ (fun _ => rfl) rfl (by decide) nofun fun place => ?_
    refine (walks_lower 1).bind fun _ => .from_settled (Scene.shut ⟨_, _, _⟩)
      ⟨rfl, fun _ => rfl, fun _ => rfl, fun _ => Nat.zero_le _, fun _ => rfl⟩
      (walks_bind_closeFilter ⟨place, 1, by simp [Scene.level]⟩ fun start =>
        walks_bind_enterHandler (writable_part .handler nofun) fun place => ?_)
    refine (walks_block body (fun h => (hs h).2.2) { frame with handling := true } ⟨_, _, _⟩
      (writable_part .handler nofun) (fun _ => rfl) _).bind fun _ =>
        .bind (walks_leaveAtEnd (writable_part .handler nofun) fun _ _ =>
          reaches_leaving pending ?_) fun _ => walks_addClause nofun ?_ ⟨place, 1, by simp⟩
    · exact ⟨_, _, _, .inr rfl, rfl⟩
    · intro K stop hK
      exact .filtered (m := F.count + 1) rfl (protects.mono fun e he => hK (by simp [he]))
        ⟨⟨1, hK (by simp)⟩, hK (by simp)⟩ (hK (by simp))

theorem walks_cleanup (clean : Cleanup) (hs : sound → clean.Sound ctx.source.module) (frame : Frame)
    {tryStart n : Nat} {P : List Pending} {rest : List Zone} (F : Regions) {N : List Event}
    (opened : ∃ depth, .opened (⟨.whole, n⟩ :: rest) tryStart depth ∈ N) :
    Walks sound ctx (Scene.shut ⟨P, ⟨.whole, n⟩ :: rest, F⟩) N (cleanup ctx frame tryStart clean)
      fun _ => Scene.shut ⟨P, rest, Regions.addCleanup (Zone.region rest) clean F⟩ :=
  match clean with
  | .nothing => walks_closeWhole (.pure ())
  | .finallyBlock body | .faultBlock body => by
    rw [cleanup, Regions.addCleanup, Regions.openBlock_eq]
    exact walks_cleanupBlock (walks_block body hs { frame with handling := false } ⟨_, _, _⟩
      (writable_part (.cleanup n) nofun) nofun _) (by simp) opened

end

end

/-- A body starts and ends with no label pending and outside all zones; the regions found on the way are
those found before. Control does not get to its end. -/
theorem walks_body (b : Body) (hs : sound → b.Sound ctx.source.module) :
    Walks sound ctx (Scene.level {} 0) N (body ctx b) fun _ =>
      Scene.shut { found := .ofBody b } := by
  have hw : Zone.Writable [] := nofun
  refine (walks_block ctx b.root hs {} {} hw nofun N).bind fun _ => .bind_fallsThrough fun falls => ?_
  cases falls with
  | false => exact .pure ()
  | true =>
    refine .ite (fun _ => .ite (fun void => ?_) fun _ => .bind_fault) (absurd rfl)
    have able : View.Able sound { Scene.level { found := Regions.ofBody b } 0 with shut := false }
        ⟨(!ctx.method.signature.returnsVoid).toNat, 0⟩ :=
      ⟨hw, fun _ => by simp [void], fun _ => Nat.le_refl _⟩
    exact walks_instruction 0 (step_plain able (fun _ _ => rfl) (fun _ _ _ => .inl rfl) nofun
      (fun _ => .returning) nofun (by decide))

end Compile
end Cil
