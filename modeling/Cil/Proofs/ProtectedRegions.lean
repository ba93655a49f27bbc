import Cil.Proofs.WellFormedCode

/-!
Protected regions keep control in. The checks on branches compare the regions of blocks; the ranges of
clauses are those of zones. Both agree, since the region of a place determines the zones around it, and
since no label that is branched to stands at the very end of a zone.
-/

namespace Cil

open List Clause
variable {protects : Bool} {stop start : Nat}

namespace Zone

theorem exists_suffix_of_region {n : Nat} {r : Region} {P : List Zone} (h : n :: r <:+ region P) :
    ∃ z R, z :: R <:+ P ∧ z.kind ≠ .whole ∧ z.number = n := by
  induction P with
  | nil => simp [region] at h
  | cons z P ih =>
    have tail (inside : n :: r <:+ region P) :
        ∃ z' R, z' :: R <:+ z :: P ∧ z'.kind ≠ .whole ∧ z'.number = n := by
      obtain ⟨z', R, suffix, rest⟩ := ih inside
      exact ⟨z', R, suffix.trans (suffix_cons z P), rest⟩
    by_cases whole : z.kind = .whole
    · rw [region, filter_cons_of_neg (by simp [whole])] at h
      exact tail h
    · rw [region, filter_cons_of_pos (by simp [whole]), map_cons, suffix_cons_iff] at h
      rcases h with same | inside
      · exact ⟨z, P, suffix_refl _, whole, (List.cons.inj same).1.symm⟩
      · exact tail inside

/-- Where an exception is handled, a handler is the innermost of the zones that are not protected. -/
theorem exists_handler {P : List Zone} (h : handling P = true) :
    ∃ n R, ⟨.handler, n⟩ :: R <:+ P ∧ ∀ z Q, z :: Q <:+ P → z.kind ≠ .whole → z.kind ≠ .attempt →
      z :: Q <:+ ⟨.handler, n⟩ :: R := by
  induction P with
  | nil => cases h
  | cons z P ih =>
    -- A protected zone around the place changes nothing.
    have skip (kind : z.kind = .whole ∨ z.kind = .attempt) (inside : handling P = true) :
        ∃ n R, ⟨.handler, n⟩ :: R <:+ z :: P ∧ ∀ z' Q, z' :: Q <:+ z :: P → z'.kind ≠ .whole →
          z'.kind ≠ .attempt → z' :: Q <:+ ⟨.handler, n⟩ :: R := by
      obtain ⟨n, R, suffix, innermost⟩ := ih inside
      refine ⟨n, R, suffix.trans (suffix_cons z P), fun z' Q hQ notWhole notAttempt => ?_⟩
      rcases suffix_cons_iff.1 hQ with same | hQ
      · cases same
        exact absurd kind (by simp [notWhole, notAttempt])
      · exact innermost z' Q hQ notWhole notAttempt
    obtain ⟨kind, number⟩ := z
    cases kind with
    | whole => exact skip (.inl rfl) h
    | attempt => exact skip (.inr rfl) h
    | handler => exact ⟨number, P, suffix_refl _, fun z' Q hQ _ _ => hQ⟩
    | filter | cleanup => cases h

end Zone

/-- The ranges of a clause, and which of them is protected. -/
inductive Clause.Has (c : Clause) : (protects : Bool) → (start stop : Nat) → Prop
  | attempt : Has c true c.tryOffset (c.tryOffset + c.tryLength)
  | filter (guard : c.flags = filterFlag) : Has c false c.classOrFilter.toNat c.handlerOffset
  | handler : Has c false c.handlerOffset (c.handlerOffset + c.handlerLength)

/-- The ranges of a clause by the places in the code. -/
inductive DraftClause.Has (c : DraftClause) : (protects : Bool) → (start stop : Nat) → Prop
  | attempt : Has c true c.tryStart c.tryStop
  | filter {place : Nat} (guard : c.guard = .filter place) : Has c false place c.handlerStart
  | handler : Has c false c.handlerStart c.handlerStop

/-- The clause is for exceptions that are caught, not for cleaning up. -/
def DraftClause.Catches (c : DraftClause) : Prop :=
  (∃ token, c.guard = .exceptionType token) ∨ ∃ place, c.guard = .filter place

namespace DraftClause

variable {l : Code.Layout}

theorem catches_clause (c : DraftClause) :
    (c.clause l).flags = typedFlag ∨ (c.clause l).flags = filterFlag ↔ c.Catches := by
  cases guard : c.guard <;>
    simp [clause, guard, Catches, filterFlag, typedFlag, finallyFlag, faultFlag]

theorem filter_clause (c : DraftClause) (filters : (c.clause l).flags = filterFlag)
    (room : ∀ place, l.offset place < 0x100000000) :
    ∃ place, c.guard = .filter place ∧ (c.clause l).classOrFilter.toNat = l.offset place := by
  cases guard : c.guard with
  | filter place =>
    refine ⟨place, rfl, ?_⟩
    have back : (UInt32.ofNat (l.offset place)).toNat = l.offset place := by
      rw [UInt32.toNat_ofNat']
      exact Nat.mod_eq_of_lt (room place)
    simpa [clause, guard] using back
  | exceptionType | anyExit | anyException =>
    simp [clause, guard, filterFlag, typedFlag, finallyFlag, faultFlag] at filters

theorem has_of_clause {c : DraftClause} (tryRange : l.offset c.tryStart ≤ l.offset c.tryStop)
    (handlerRange : l.offset c.handlerStart ≤ l.offset c.handlerStop)
    (room : ∀ place, l.offset place < 0x100000000) (has : (c.clause l).Has protects start stop) :
    ∃ a b, c.Has protects a b ∧ start = l.offset a ∧ stop = l.offset b := by
  cases has with
  | attempt => exact ⟨_, _, .attempt, rfl, Nat.add_sub_of_le tryRange⟩
  | handler => exact ⟨_, _, .handler, rfl, Nat.add_sub_of_le handlerRange⟩
  | filter filters =>
    obtain ⟨place, guard, same⟩ := c.filter_clause filters room
    exact ⟨place, _, .filter guard, same, rfl⟩

end DraftClause

/-- Whether an instruction leaves the protected blocks and handlers around it. -/
def Instruction.leaves : Instruction → Bool
  | .branch b _ _ => b = .leave
  | .simple .. | .switch _ => false

def Instruction.pops : Instruction → Nat
  | .branch b _ _ => b.pops
  | .switch _ => 1
  | .simple .. => 0

namespace Compile

open Code

/-- A body has been compiled: nothing is pending, all zones have been left, the regions are those that it
was compiled against, and all targets stand in the code. -/
structure Complete (sound : Prop) (ctx : BodyContext) (s : Session) (x : Situation) : Prop where
  steps : Steps sound ctx (.start s) x
  pending : x.scene.pending = []
  zones : x.scene.zones = []
  found : x.scene.found = ctx.regions
  shut : x.draft.fallsThrough = false
  placed {i l} : i ∈ x.draft.code.instructions → l ∈ i.targets →
    ∃ p < x.draft.code.stop, x.draft.code.position? l = some p

/-- The zones that the ranges of a clause are about: `last` is that of its handler, and all of them lie
directly in `base`. -/
structure File where
  last : Zone
  zones : List Zone
  base : List Zone

/-- The file of a clause. A clause that catches exceptions may have a filter, which ends where the handler
starts. -/
inductive Files (K : List Event) (c : DraftClause) : File → Prop
  | catching (ms : List Nat) {k n : Nat} {rest : List Zone} (catches : c.Catches)
      (protects : Spans K (⟨.attempt, k⟩ :: ⟨.whole, k⟩ :: rest) c.tryStart c.tryStop)
      (filters : ∀ place, c.guard = .filter place →
        ∃ m ∈ ms, Spans K (⟨.filter, m⟩ :: ⟨.whole, k⟩ :: rest) place c.handlerStart)
      (follows : ∀ m ∈ ms, .closed (⟨.filter, m⟩ :: ⟨.whole, k⟩ :: rest) c.handlerStart ∈ K)
      (handles : Spans K (⟨.handler, n⟩ :: ⟨.whole, k⟩ :: rest) c.handlerStart c.handlerStop) :
      Files K c ⟨⟨.handler, n⟩, ⟨.attempt, k⟩ :: ⟨.handler, n⟩ :: ms.map (⟨.filter, ·⟩),
        ⟨.whole, k⟩ :: rest⟩
  | cleaning {k n : Nat} {rest : List Zone} (cleans : c.guard = .anyExit ∨ c.guard = .anyException)
      (protects : Spans K (⟨.whole, k⟩ :: rest) c.tryStart c.tryStop)
      (handles : Spans K (⟨.cleanup k, n⟩ :: rest) c.handlerStart c.handlerStop) :
      Files K c ⟨⟨.cleanup k, n⟩, [⟨.whole, k⟩, ⟨.cleanup k, n⟩], rest⟩

namespace Files

variable {K : List Event} {c : DraftClause} {f : File}

theorem of_clauses {P : List Zone} (h : Clauses K c P) : ∃ f, Files K c f ∧ f.last :: f.base = P := by
  obtain ⟨covers, left, -⟩ := h
  cases covers with
  | @typed k n rest token guard protects start =>
    refine ⟨_, .catching [] (.inl ⟨token, guard⟩) protects (fun place filter => ?_) (by simp)
      ⟨⟨1, start⟩, left⟩, rfl⟩
    cases guard.symm.trans filter
  | @filtered k m n rest place guard protects filter start =>
    refine ⟨_, .catching [m] (.inr ⟨place, guard⟩) protects (fun place' guard' => ?_) ?_
      ⟨⟨1, start⟩, left⟩, rfl⟩
    · cases guard.symm.trans guard'
      exact ⟨m, mem_singleton_self m, filter⟩
    · intro m' member
      obtain rfl := mem_singleton.1 member
      exact filter.2
  | cleanup guard protects start => exact ⟨_, .cleaning guard protects ⟨⟨0, start⟩, left⟩, rfl⟩

theorem spans (h : Files K c f) {a b : Nat} (has : c.Has protects a b) :
    ∃ z ∈ f.zones, Spans K (z :: f.base) a b ∧
      (protects = true ↔ z.kind = .whole ∨ z.kind = .attempt) := by
  cases h with
  | @catching ms k n rest catches protected' filters follows handles =>
    cases has with
    | attempt => exact ⟨⟨.attempt, k⟩, by simp, protected', by simp⟩
    | filter guard =>
      obtain ⟨m, member, spans⟩ := filters _ guard
      exact ⟨⟨.filter, m⟩, by simp [member], spans, by simp⟩
    | handler => exact ⟨⟨.handler, n⟩, by simp, handles, by simp⟩
  | @cleaning k n rest cleans protected' handles =>
    cases has with
    | attempt => exact ⟨⟨.whole, k⟩, by simp, protected', by simp⟩
    | filter guard => rcases cleans with guard' | guard' <;> cases guard.symm.trans guard'
    | handler => exact ⟨⟨.cleanup k, n⟩, by simp, handles, by simp⟩

end Files

namespace Complete

variable {sound : Prop} {ctx : BodyContext} {s : Session} {x : Situation}
  (h : Complete sound ctx s x)

include h

variable {Q : List Zone} {R : List Zone} {a n : Nat} {P : List Zone} {a' : Nat} {l : Label}
  {p k : Nat} {i : Instruction} {b : Nat} {operand : Bytes}

theorem nested : x.plan.Nested := h.steps.nested.1

theorem zoned : x.plan.Zoned := h.nested.zoned

theorem bounded : Bounded x := h.steps.bounded

theorem labelled : Labelled x := h.steps.labelled

theorem closed {z : Zone} (entered : .opened (z :: R) a n ∈ x.history) :
    ∃ b, .closed (z :: R) b ∈ x.history := by
  by_contra still
  have around : z :: R <:+ x.scene.zones :=
    (h.zoned.open_iff entered).2 fun b left => still ⟨b, left⟩
  simp [h.zones] at around

theorem suffix_of_region {n' : Nat} (inner : .opened P a n ∈ x.history)
    (outer : .opened Q a' n' ∈ x.history) (writable : Zone.Writable Q)
    (within : Zone.region Q <:+ Zone.region P) : Q <:+ P := by
  obtain ⟨nested, counted⟩ := h.steps.nested
  cases Q with
  | nil => exact nil_suffix
  | cons z R =>
    have part : z.kind ≠ .whole := writable z rfl
    rw [Zone.region, filter_cons_of_pos (by simp [part]), map_cons] at within
    obtain ⟨z', R', suffix, part', number⟩ := Zone.exists_suffix_of_region within
    have same : z' = z := counted.once inner outer (suffix.subset mem_cons_self)
      mem_cons_self number part' part
    subst same
    obtain ⟨b, m, entered, _⟩ := nested.zoned.outer inner suffix
    rwa [nested.zoned.headOnce entered outer] at suffix

/-- At the end the label that an instruction goes to has been placed, in zones that fit. -/
theorem placed_of_lands {leaving : Bool} {depth : Nat} (lands : Lands sound ctx x P leaving depth l)
    (entered : .opened P a n ∈ x.history) (writable : Zone.Writable P)
    (there : x.draft.code.position? l = some p) :
    ∃ Z m, .label l p Z m ∈ x.history ∧ Z <:+ P ∧ (leaving = false → Z = P) ∧
      (sound → m = depth) := by
  cases l with
  | internal number =>
    obtain ⟨Z, m, waiting | ⟨place, placed⟩, zones, depth⟩ := lands
    · simp [h.pending] at waiting
    · cases (h.labelled.placed placed).symm.trans there
      cases leaving with
      | true => exact ⟨Z, m, placed, Zone.Departs.suffix zones, by simp, depth⟩
      | false => exact ⟨Z, m, placed, zones ▸ suffix_refl _, fun _ => zones, depth⟩
  | block id =>
    obtain ⟨empty, id', place, depth', here, compared⟩ := lands
    obtain ⟨Z, m, placed⟩ := h.labelled.told there
    have regions {id : BlockId} {p m : Nat} {Z : List Zone}
        (hl : .label (.block id) p Z m ∈ x.history) :
        ctx.regions.region? id = some (Zone.region Z) := h.found ▸ h.labelled.region hl
    have fits := compared _ (regions here) _ (regions placed)
    obtain ⟨a', n', around, _⟩ := h.nested.marked.within placed
    have inner := h.suffix_of_region entered around (h.labelled.writable placed)
    have depth (hs : sound) := (h.labelled.empty placed).trans (empty hs).symm
    cases leaving with
    | true =>
      rw [if_pos rfl, Region.within, isSuffixOf_iff_suffix] at fits
      exact ⟨Z, m, placed, inner fits, by simp, depth⟩
    | false =>
      rw [if_neg (by decide)] at fits
      have inner := inner (fits ▸ suffix_refl _)
      have outer := h.suffix_of_region around entered writable (fits ▸ suffix_refl _)
      exact ⟨Z, m, placed, inner, fun _ => inner.eq_of_length_le outer.length_le, depth⟩

/-- What an instruction goes to stands in the zones around it, for the values that it leaves. -/
theorem goes (hi : x.draft.code.instructions[k]? = some i) (hl : l ∈ i.targets)
    (here : .instruction k P n ∈ x.history) :
    ∃ p < x.draft.code.stop, x.draft.code.position? l = some p ∧ ∃ Z m, .label l p Z m ∈ x.history ∧
      Z <:+ P ∧ (i.leaves = false → Z = P) ∧ (sound → m = if i.leaves then 0 else n - i.pops) := by
  obtain ⟨p, inside, there⟩ := h.placed (Array.mem_of_getElem? hi) hl
  obtain ⟨writable, i', hi', recorded⟩ := h.steps.recording here
  cases hi.symm.trans hi'
  obtain ⟨a, m, entered⟩ := h.nested.written.within here
  refine ⟨p, inside, there, ?_⟩
  cases recorded with
  | plain => cases hl
  | branch b target form lands =>
    obtain rfl := mem_singleton.1 hl
    simpa [Instruction.leaves, Instruction.pops] using
      h.placed_of_lands lands entered writable there
  | switch targets lands =>
    obtain ⟨id, hid, rfl⟩ := mem_map.1 hl
    exact h.placed_of_lands (lands id hid) entered writable there

theorem lt_closed (hi : x.draft.code.instructions[k]? = some i) (hl : l ∈ i.targets) {Z : List Zone}
    {m : Nat} (here : .instruction k P n ∈ x.history) (there : .label l p Z m ∈ x.history)
    (around : Z <:+ P) (left : .closed Z b ∈ x.history) : p < b := by
  rcases Nat.lt_or_ge k p with later | earlier
  · exact h.steps.forward hi hl there left later
  · -- The instruction comes behind the label, and in the same zone.
    have nested := h.nested
    obtain ⟨a, m', entered, _⟩ := nested.marked.within there
    have between := (nested.written.covers here entered).1 around
    exact Nat.lt_of_le_of_lt earlier (between.2 b left)

theorem clause_of_handler {w : Nat}
    (entered : .opened (⟨.handler, k⟩ :: ⟨.whole, w⟩ :: R) a n ∈ x.history) :
    ∃ c ∈ x.draft.clauses, c.Catches ∧
      Spans x.history (⟨.attempt, w⟩ :: ⟨.whole, w⟩ :: R) c.tryStart c.tryStop ∧
      Spans x.history (⟨.handler, k⟩ :: ⟨.whole, w⟩ :: R) c.handlerStart c.handlerStop := by
  obtain ⟨b, left⟩ := h.closed entered
  cases h.bounded.closed left with
  | protects kind => simp at kind
  | clause kept _ has =>
    obtain ⟨covers, after, _⟩ := has
    cases covers with
    | typed guard protects start => exact ⟨_, kept, .inl ⟨_, guard⟩, protects, ⟨_, start⟩, after⟩
    | filtered guard protects _ start => exact ⟨_, kept, .inr ⟨_, guard⟩, protects, ⟨_, start⟩, after⟩

section

variable (full : ∀ c ∈ x.draft.clauses, c.tryStart < c.tryStop) {k w a n : Nat} {R : List Zone}

include full

theorem attempt_lt {kind : ZoneKind} (part : kind = .filter ∨ kind = .handler)
    (entered : .opened (⟨kind, k⟩ :: ⟨.whole, w⟩ :: R) a n ∈ x.history) :
    ∃ start stop, Spans x.history (⟨.attempt, w⟩ :: ⟨.whole, w⟩ :: R) start stop ∧ start < stop := by
  have handler {k a n : Nat} (entered : .opened (⟨.handler, k⟩ :: ⟨.whole, w⟩ :: R) a n ∈ x.history) :
      ∃ start stop, Spans x.history (⟨.attempt, w⟩ :: ⟨.whole, w⟩ :: R) start stop ∧ start < stop := by
    obtain ⟨c, kept, _, protects, _⟩ := h.clause_of_handler entered
    exact ⟨_, _, protects, full c kept⟩
  rcases part with rfl | rfl
  · obtain ⟨b, left⟩ := h.closed entered
    cases h.bounded.closed left with
    | protects kind => simp at kind
    | filter next => exact handler next
    | clause _ _ has => cases has.1
  · exact handler entered

theorem whole_lt (entered : .opened (⟨.cleanup w, k⟩ :: R) a n ∈ x.history) :
    ∃ start m, .opened (⟨.whole, w⟩ :: R) start m ∈ x.history ∧ start < a := by
  obtain ⟨b, left⟩ := h.closed entered
  cases h.bounded.closed left with
  | protects kind => simp at kind
  | clause kept _ has =>
    obtain ⟨covers, _⟩ := has
    cases covers with
    | cleanup _ protects =>
      cases h.bounded.opened entered with
      | cleanup _ before =>
        obtain ⟨⟨m, around⟩, after⟩ := protects
        have same := h.zoned.closedOnce before after
        exact ⟨_, m, around, same ▸ full _ kept⟩
      | part kind => simp at kind

/-- If the target of an instruction lies in a zone that its label is not in, then it starts that zone,
and that is protected. -/
theorem starts_of_inside {i : Instruction} (hi : x.draft.code.instructions[k]? = some i) {l : Label}
    (hl : l ∈ i.targets) {P Z : List Zone} {p m : Nat} (here : .instruction k P n ∈ x.history)
    (there : .label l p Z m ∈ x.history) (around : Z <:+ P) {z : Zone} {b : Nat}
    (spans : Spans x.history (z :: R) a b) (le : a ≤ p) (lt : p < b) (outside : ¬ z :: R <:+ Z) :
    a = p ∧ (z.kind = .whole ∨ z.kind = .attempt) := by
  obtain ⟨nested, _⟩ := h.steps.nested
  obtain ⟨⟨m', entered⟩, left⟩ := spans
  have only {b' : Nat} (left' : .closed (z :: R) b' ∈ x.history) : b' = b :=
    nested.zoned.closedOnce left' left
  -- Else the label would have been placed within the zone.
  have start : a = p := by
    refine Nat.le_antisymm le (Nat.le_of_not_lt fun before => outside ?_)
    exact nested.marked.covers there entered before fun b' left' =>
      only left' ▸ lt
  subst start
  refine ⟨rfl, ?_⟩
  -- It was placed before the zone was entered.
  have before : Z <:+ R := by
    rcases nested.marked.beside there entered with
      inside | left' | left' | before
    · exact absurd inside outside
    · exact absurd (only left') (Nat.ne_of_lt lt)
    · exact absurd (h.lt_closed hi hl here there around left') (Nat.lt_irrefl a)
    · exact before
  cases h.bounded.opened entered with
  | whole => exact .inl rfl
  | attempt => exact .inr rfl
  | @part kind k w R c part leftAttempt behind =>
    -- The whole starts earlier, so the label lies in it, and thus in one of its parts.
    obtain ⟨start, stop, ⟨⟨_, attempt⟩, leftAttempt'⟩, nonempty⟩ := h.attempt_lt full part entered
    have same := nested.zoned.closedOnce leftAttempt leftAttempt'
    cases h.bounded.opened attempt with
    | part kind => simp at kind
    | attempt whole =>
      have inside : ⟨.whole, w⟩ :: R <:+ Z := by
        refine nested.marked.covers there whole (by omega)
          fun b' leftWhole => ?_
        obtain ⟨b'', before, left''⟩ := nested.zoned.outerClosed entered
          (suffix_cons _ _) leftWhole
        exact Nat.lt_of_lt_of_le (only left'' ▸ lt) before
      obtain rfl := before.eq_of_length_le inside.length_le
      exact absurd rfl (h.labelled.writable there _ rfl)
  | @cleanup w k R writable leftWhole =>
    obtain ⟨start, _, whole, nonempty⟩ := h.whole_lt full entered
    rcases h.steps.behind there entered with ⟨_, whole'⟩ | inside | inside | left'
    · have same := nested.zoned.openedOnce whole whole'
      omega
    · exact absurd (inside.trans before).length_le (by simp)
    · exact absurd inside outside
    · exact absurd (only left') (Nat.ne_of_lt lt)

end

theorem spans_of_has {c : DraftClause} (kept : c ∈ x.draft.clauses) (has : c.Has protects a b) :
    ∃ z R, Spans x.history (z :: R) a b ∧
      (protects = true ↔ z.kind = .whole ∨ z.kind = .attempt) := by
  obtain ⟨P, clauses⟩ := h.bounded.clause kept
  obtain ⟨f, files, _⟩ := Files.of_clauses clauses
  obtain ⟨z, _, spans⟩ := files.spans has
  exact ⟨z, f.base, spans⟩

theorem inside_iff (here : .instruction k P n ∈ x.history) (spans : Spans x.history Q a b) :
    Q <:+ P ↔ a ≤ k ∧ k < b := by
  obtain ⟨⟨m, entered⟩, left⟩ := spans
  have nested := h.nested
  rw [nested.written.covers here entered]
  refine and_congr_right fun _ => ⟨fun all => all b left, fun lt b' left' => ?_⟩
  exact nested.zoned.closedOnce left left' ▸ lt

section

variable {k : Nat} {i : Instruction} (hi : x.draft.code.instructions[k]? = some i) {l : Label}
  (hl : l ∈ i.targets) {P Z : List Zone} {n p m : Nat} (here : .instruction k P n ∈ x.history)
    (there : .label l p Z m ∈ x.history)
  {z : Zone} {R : List Zone} {a b : Nat} (spans : Spans x.history (z :: R) a b)

include hi hl here there spans

/-- The zones that a target lies in are around its instruction, unless it starts them. -/
theorem inside_of_target (full : ∀ c ∈ x.draft.clauses, c.tryStart < c.tryStop) (around : Z <:+ P)
    (target : a ≤ p ∧ p < b) :
    (a ≤ k ∧ k < b) ∨ (z.kind = .whole ∨ z.kind = .attempt) ∧ p = a := by
  by_cases inside : z :: R <:+ Z
  · exact .inl ((h.inside_iff here spans).1 (inside.trans around))
  · obtain ⟨start, protects⟩ :=
      h.starts_of_inside full hi hl here there around spans target.1 target.2 inside
    exact .inr ⟨protects, start.symm⟩

/-- A target in the zones of its instruction lies in all the ranges that the instruction lies in. -/
theorem target_of_inside (same : Z = P) (source : a ≤ k ∧ k < b) : a ≤ p ∧ p < b := by
  subst same
  have inside := (h.inside_iff here spans).2 source
  have nested := h.nested
  obtain ⟨a', m', entered, le⟩ := nested.marked.within there
  obtain ⟨⟨m'', outer⟩, left⟩ := spans
  constructor
  · obtain ⟨a'', _, outer', before⟩ := nested.zoned.outer entered inside
    obtain ⟨rfl, _⟩ := nested.zoned.openedOnce outer outer'
    exact Nat.le_trans before le
  · obtain ⟨b', before, left'⟩ := nested.zoned.outerClosed entered inside left
    have lt := h.lt_closed hi hl here there (suffix_refl Z) left'
    exact Nat.lt_of_lt_of_le lt before

end

theorem zones_of_exit (here : .instruction k P n ∈ x.history)
    (hi : x.draft.code.instructions[k]? = some (.simple .ret operand)) : P = [] := by
  obtain ⟨writable, i, hi', recorded⟩ := h.steps.recording here
  cases hi.symm.trans hi'
  cases recorded with
  | plain _ _ exits =>
    rcases exits rfl with outside | ⟨id, place, depth, there, outermost⟩
    · exact outside
    · have region : Zone.region P = [] := outermost _ (h.found ▸ h.labelled.region there)
      cases P with
      | nil => rfl
      | cons z R =>
        have part : z.kind ≠ .whole := writable z rfl
        simp [Zone.region, part] at region

theorem spans_le {b' : Nat} (inner : Spans x.history P a b) (outer : Spans x.history Q a' b')
    (inside : Q <:+ P) : a' ≤ a ∧ b ≤ b' := by
  have zoned := h.zoned
  obtain ⟨⟨_, entered⟩, left⟩ := inner
  obtain ⟨⟨_, entered'⟩, left'⟩ := outer
  obtain ⟨a'', _, around, before⟩ := zoned.outer entered inside
  obtain ⟨b'', after, inner'⟩ := zoned.outerClosed entered inside left'
  have start := (zoned.openedOnce entered' around).1
  have stop := zoned.closedOnce left inner'
  omega

/-- What throws an exception again stands in a handler for exceptions, and no other zone that is not
protected lies between them. -/
theorem handler_of_rethrow (here : .instruction k P n ∈ x.history)
    (hi : x.draft.code.instructions[k]? = some (.simple .rethrow operand)) :
    ∃ c ∈ x.draft.clauses, c.Catches ∧ (c.handlerStart ≤ k ∧ k < c.handlerStop) ∧
      ∀ {z Q a b}, Spans x.history (z :: Q) a b → ¬ (z.kind = .whole ∨ z.kind = .attempt) →
        a ≤ k ∧ k < b → a ≤ c.handlerStart ∧ c.handlerStop ≤ b := by
  obtain ⟨_, i, hi', recorded⟩ := h.steps.recording here
  cases hi.symm.trans hi'
  cases recorded with
  | plain _ _ _ rethrows =>
    obtain ⟨number, R, suffix, innermost⟩ := Zone.exists_handler (rethrows rfl)
    obtain ⟨a, m, entered⟩ := h.nested.written.within here
    obtain ⟨a', m', entered', _⟩ := h.zoned.outer entered suffix
    cases h.bounded.opened entered' with
    | part =>
      obtain ⟨c, kept, catches, _, spans⟩ := h.clause_of_handler entered'
      refine ⟨c, kept, catches, (h.inside_iff here spans).1 suffix, fun outer part inside => ?_⟩
      refine h.spans_le spans outer (innermost _ _ ((h.inside_iff here outer).2 inside) ?_ ?_)
      · exact fun whole => part (.inl whole)
      · exact fun attempt => part (.inr attempt)

end Complete

end Compile

namespace Reading

/-- Whether an instruction leaves the protected blocks and handlers around it. -/
def leaves : Reading → Bool
  | branch op _ => op = .leave ∨ op = .leave_s
  | plain .. | switch _ => false

end Reading

theorem Branch.leaves_reading (b : Branch) {op : Opcode} (h : op = b.short ∨ op = b.long)
    (distance : Int) : (Reading.branch op distance).leaves = decide (b = .leave) := by
  rcases h with rfl | rfl <;> cases b with
  | compare c unsigned => cases c <;> cases unsigned <;> rfl
  | always | leave | ifTrue | ifFalse => rfl

theorem Instruction.Reads.leaves {i : Instruction} {r : Reading} (h : i.Reads r) :
    r.leaves = i.leaves := by
  cases i with
  | branch b target form =>
    cases r with
    | branch op distance => exact b.leaves_reading h distance
    | plain | switch => cases h
  | simple | switch => cases r <;> first | rfl | cases h

/-- An offset lies in a range. -/
def Within (start stop offset : Nat) : Prop := start ≤ offset ∧ offset < stop

/-- How the instructions of a code keep to the ranges of clauses. -/
structure Disciplined (listing : List (Nat × Reading)) (size : Nat) (clauses : List Clause) : Prop where
  /-- A method returns outside all ranges. -/
  returns {k : Nat} {offset operand} : listing[k]? = some (offset, .plain .ret operand) →
    ∀ {c}, c ∈ clauses → ∀ {protects start stop}, c.Has protects start stop → ¬ Within start stop offset
  /-- A branch stays in the ranges that it is in, but may go to the start of a protected block. -/
  branches {k : Nat} {offset reading target} : listing[k]? = some (offset, reading) →
    reading.leaves = false → target ∈ reading.targets (Code.startOf listing size (k + 1)) →
    ∀ {c}, c ∈ clauses → ∀ {protects start stop}, c.Has protects start stop →
      (Within start stop offset ↔ Within start stop target) ∨
        protects = true ∧ ¬ Within start stop offset ∧ target = start
  /-- What leaves ranges enters none, but may go to the start of a protected block. -/
  leaves {k : Nat} {offset reading target} : listing[k]? = some (offset, reading) →
    reading.leaves = true → target ∈ reading.targets (Code.startOf listing size (k + 1)) →
    ∀ {c}, c ∈ clauses → ∀ {protects start stop}, c.Has protects start stop →
      Within start stop target → Within start stop offset ∨ protects = true ∧ target = start
  /-- An exception is thrown again in a handler that caught it; no other filter or handler is further
  inside. -/
  rethrows {k : Nat} {offset operand} : listing[k]? = some (offset, .plain .rethrow operand) →
    ∃ c ∈ clauses, (c.flags = typedFlag ∨ c.flags = filterFlag) ∧
      Within c.handlerOffset (c.handlerOffset + c.handlerLength) offset ∧
      ∀ {c'}, c' ∈ clauses → ∀ {start stop}, c'.Has false start stop → Within start stop offset →
        start ≤ c.handlerOffset ∧ c.handlerOffset + c.handlerLength ≤ stop

namespace Compile

open Code

theorem within_offset (code : Code) {a e k : Nat} (ha : a ≤ code.stop) (he : e ≤ code.stop)
    (hk : k ≤ code.stop) :
    Within (code.layout.offset a) (code.layout.offset e) (code.layout.offset k) ↔ a ≤ k ∧ k < e := by
  refine and_congr ?_ (layout_offset_lt_iff code hk he)
  rw [← Nat.not_lt, layout_offset_lt_iff code hk ha, Nat.not_lt]

/-- A body has been compiled, and its code laid out. -/
structure Built (sound : Prop) (ctx : BodyContext) (b : Body) (s : Session) (x : Situation)
    (wider : Code) : Prop extends Complete sound ctx s x where
  compiles : Compiles ctx b s x.draft wider x.session
  room : wider.layout.size < 0x100000000

namespace Built

variable {sound : Prop} {ctx : BodyContext} {b : Body} {s : Session} {x : Situation} {wider : Code}

theorem of_layOut {src : Source} {keepsSymbols : Bool} {m : Method} {d : Draft} {l : Code.Layout}
    {s' : Session} (laidOut : (layOut (.ofBody src keepsSymbols m b) b).Runs s (d, l) s')
    (small : l.bytes.length < 0x100000000) (hs : sound → b.Sound src.module) :
    ∃ x wider, x.draft = d ∧ x.session = s' ∧ wider.layout = l ∧ l.bytes.length = l.size ∧
      Built sound (.ofBody src keepsSymbols m b) b s x wider := by
  obtain ⟨wider, rfl, compiles⟩ := compiles_of_layOut laidOut
  obtain ⟨K, steps, shut⟩ := compiles.steps hs
  have size := length_bytes_layout wider
  exact ⟨_, wider, rfl, rfl, rfl, size,
    ⟨steps, rfl, rfl, rfl, shut, fun hi hl => compiles.position_target hi hl⟩, compiles, size ▸ small⟩

variable (h : Built sound ctx b s x wider)

include h

theorem stop_eq : wider.stop = x.draft.code.stop := h.compiles.settled.stop

theorem le_stop {P : List Zone} {a e : Nat} (spans : Spans x.history P a e) :
    a ≤ wider.stop ∧ e ≤ wider.stop := by
  rw [h.stop_eq]
  exact ⟨h.zoned.openedLe spans.1.choose_spec, h.zoned.closedLe spans.2⟩

theorem clause_le {c : DraftClause} (kept : c ∈ x.draft.clauses) :
    c.tryStart ≤ c.tryStop ∧ c.tryStop ≤ wider.stop ∧ c.handlerStart ≤ c.handlerStop ∧
      c.handlerStop ≤ wider.stop := by
  obtain ⟨tryRange, handlerRange, places⟩ := h.bounded.places h.nested kept
  rw [h.stop_eq]
  exact ⟨tryRange, places _ (by simp [DraftClause.places]), handlerRange,
    places _ (by simp [DraftClause.places])⟩

theorem nonempty (full : ∀ c ∈ x.draft.clauses.toList.map (·.clause wider.layout), 0 < c.tryLength) :
    ∀ c ∈ x.draft.clauses, c.tryStart < c.tryStop := by
  intro c kept
  have long := full _ (mem_map_of_mem (Array.mem_toList_iff.2 kept))
  obtain ⟨tryRange, last, _⟩ := h.clause_le kept
  exact (layout_offset_lt_iff wider (Nat.le_trans tryRange last) last).1 (Nat.lt_of_sub_pos long)

theorem exists_has {c : DraftClause} (kept : c ∈ x.draft.clauses)
    (has : (c.clause wider.layout).Has protects start stop) :
    ∃ a e, c.Has protects a e ∧ start = wider.layout.offset a ∧ stop = wider.layout.offset e ∧
      a ≤ wider.stop ∧ e ≤ wider.stop := by
  obtain ⟨tryRange, tryLast, handlerRange, handlerLast⟩ := h.clause_le kept
  obtain ⟨a, e, has', rfl, rfl⟩ := DraftClause.has_of_clause
    (layout_offset_mono wider tryRange tryLast) (layout_offset_mono wider handlerRange handlerLast)
    (fun place => Nat.lt_of_le_of_lt (layout_offset_le_size wider place) h.room) has
  obtain ⟨z, R, spans, _⟩ := h.spans_of_has kept has'
  exact ⟨a, e, has', rfl, rfl, h.le_stop spans⟩

variable {c : Clause} {k offset target : Nat} {reading : Reading}

theorem range (kept : c ∈ x.draft.clauses.toList.map (·.clause wider.layout))
    (has : c.Has protects start stop) :
    ∃ z R a e, Spans x.history (z :: R) a e ∧
      (protects = true ↔ z.kind = .whole ∨ z.kind = .attempt) ∧
      start = wider.layout.offset a ∧ stop = wider.layout.offset e ∧
      ∀ k ≤ wider.stop, Within start stop (wider.layout.offset k) ↔ a ≤ k ∧ k < e := by
  obtain ⟨c, listed, rfl⟩ := mem_map.1 kept
  have kept := Array.mem_toList_iff.1 listed
  obtain ⟨a, e, has', rfl, rfl, first, last⟩ := h.exists_has kept has
  obtain ⟨z, R, spans, kind⟩ := h.spans_of_has kept has'
  exact ⟨z, R, a, e, spans, kind, rfl, rfl, fun k hk => within_offset wider first last hk⟩

theorem line (line : (wider.layout.listingFrom 0)[k]? = some (offset, reading)) :
    ∃ i P n, x.draft.code.instructions[k]? = some i ∧ .instruction k P n ∈ x.history ∧
      i.Reads reading ∧ k ≤ wider.stop ∧ offset = wider.layout.offset k := by
  obtain ⟨i, hi, rfl, reads, _⟩ := h.compiles.listed h.room line
  have inside := (Array.getElem?_eq_some_iff.1 hi).1
  obtain ⟨P, n, here⟩ := h.nested.written.exists_of_lt inside
  exact ⟨i, P, n, hi, here, reads, h.stop_eq ▸ Nat.le_of_lt inside, rfl⟩

section

variable (line : (wider.layout.listingFrom 0)[k]? = some (offset, reading))
  (goes : target ∈ reading.targets (startOf (wider.layout.listingFrom 0) wider.layout.size (k + 1)))

include line goes

theorem lands {i : Instruction} (hi : x.draft.code.instructions[k]? = some i) {P : List Zone} {n : Nat}
    (here : .instruction k P n ∈ x.history) :
    ∃ l ∈ i.targets, ∃ p ≤ wider.stop, target = wider.layout.offset p ∧
      ∃ Z m, .label l p Z m ∈ x.history ∧ Z <:+ P ∧ (reading.leaves = false → Z = P) ∧
        (sound → m = if reading.leaves then 0 else n - i.pops) := by
  obtain ⟨i', hi', rfl, reads, stands⟩ := h.compiles.listed h.room line
  cases hi.symm.trans hi'
  have inside : k + 1 ≤ wider.stop := h.stop_eq ▸ (Array.getElem?_eq_some_iff.1 hi).1
  rw [startOf_listing wider inside] at goes
  obtain ⟨l, hl, p, there, rfl⟩ := exists_of_forall₂ stands goes
  obtain ⟨p', before, there', placed⟩ := h.goes hi hl here
  cases there.symm.trans there'
  rw [reads.leaves]
  exact ⟨l, hl, p, h.stop_eq ▸ Nat.le_of_lt before, rfl, placed⟩

/-- A target in a range is that of an instruction in the range, or starts a protected block; and an
instruction that leaves nothing goes to no target outside. -/
theorem crosses (kept : c ∈ x.draft.clauses.toList.map (·.clause wider.layout))
    (has : c.Has protects start stop) :
    ((∀ c ∈ x.draft.clauses, c.tryStart < c.tryStop) → Within start stop target →
      Within start stop offset ∨ protects = true ∧ target = start) ∧
    (reading.leaves = false → Within start stop offset → Within start stop target) := by
  obtain ⟨i, P, n, hi, here, _, inside, rfl⟩ := h.line line
  obtain ⟨l, hl, p, before, rfl, Z, m, there, around, same, _⟩ := h.lands line goes hi here
  obtain ⟨z, R, a, e, spans, kind, rfl, rfl, within⟩ := h.range kept has
  rw [within k inside, within p before]
  refine ⟨fun full target => ?_, fun stays => h.target_of_inside hi hl here there spans (same stays)⟩
  refine (h.inside_of_target hi hl here there spans full around target).imp_right ?_
  rintro ⟨protects, rfl⟩
  exact ⟨kind.2 protects, rfl⟩

end

end Built

/-- Control enters and leaves the ranges of a method's clauses only as these allow. -/
theorem regions_disciplined {src : Source} {keepsSymbols : Bool} {row : Nat} {m : Method}
    {b : Body} {s s' : Session} {encoded : MethodBody} {symbols : Option MethodSymbols}
    {bytes : Bytes} (run : (encodeBody src keepsSymbols row m b).Runs s (encoded, symbols) s')
    (encodes : encoded.encode = .ok bytes) (full : ∀ c ∈ encoded.clauses, 0 < c.tryLength) :
    ∃ listing, Reading.disassemble encoded.code = some listing ∧
      Disciplined listing encoded.code.length encoded.clauses := by
  obtain ⟨token, d, l, s₁, locals, laidOut, _, rfl, rfl⟩ := layOut_of_encodeBody run
  obtain ⟨x, wider, rfl, rfl, rfl, size, h⟩ :=
    Built.of_layOut laidOut (MethodBody.length_code_lt encodes) False.elim
  have nonempty := h.nonempty full
  refine ⟨_, h.compiles.disassemble h.room, ?_⟩
  rw [size]
  constructor
  · intro k offset operand line c kept protects start stop has
    obtain ⟨i, P, n, hi, here, reads, inside, rfl⟩ := h.line line
    obtain ⟨z, R, a, e, spans, _, _, _, within⟩ := h.range kept has
    rw [within k inside, ← h.inside_iff here spans]
    cases i with
    | simple op operand' =>
      obtain ⟨rfl, rfl⟩ := reads
      simp [h.zones_of_exit here hi]
    | branch | switch => cases reads
  · intro k offset reading target line stays goes c kept protects start stop has
    obtain ⟨enters, keeps⟩ := h.crosses line goes kept has
    by_cases source : Within start stop offset
    · exact .inl (iff_of_true source (keeps stays source))
    · by_cases inside : Within start stop target
      · obtain ⟨block, starts⟩ := (enters nonempty inside).resolve_left source
        exact .inr ⟨block, source, starts⟩
      · exact .inl (iff_of_false source inside)
  · intro k offset reading target line leaves goes c kept protects start stop has
    exact (h.crosses line goes kept has).1 nonempty
  · intro k offset operand line
    obtain ⟨i, P, n, hi, here, reads, inside, rfl⟩ := h.line line
    cases i with
    | branch | switch => cases reads
    | simple op operand' =>
      obtain ⟨rfl, rfl⟩ := reads
      obtain ⟨c, kept, catches, between, innermost⟩ := h.handler_of_rethrow here hi
      obtain ⟨_, _, handlerRange, last⟩ := h.clause_le kept
      have whole := Nat.add_sub_of_le (layout_offset_mono wider handlerRange last)
      refine ⟨_, mem_map_of_mem (Array.mem_toList_iff.2 kept), c.catches_clause.2 catches, ?_, ?_⟩
      · refine ⟨layout_offset_mono wider between.1 inside, ?_⟩
        exact Nat.lt_of_lt_of_eq (layout_offset_lt wider between.2 last) whole.symm
      · intro c' kept' start stop' has inside'
        obtain ⟨z, R, a, e, spans, kind, rfl, rfl, within⟩ := h.range kept' has
        have outer := innermost spans (by simp [← kind]) ((within k inside).1 inside')
        refine ⟨layout_offset_mono wider outer.1 (Nat.le_trans handlerRange last), ?_⟩
        exact Nat.le_trans (Nat.le_of_eq whole)
          (layout_offset_mono wider outer.2 (h.le_stop spans).2)

/-- The protected block switches, goes back to its start and is left; its handler throws again. -/
theorem regions_disciplined_delivery :
    ∃ bytes listing, delivered.encode = .ok bytes ∧ (∀ c ∈ delivered.clauses, 0 < c.tryLength) ∧
      Reading.disassemble delivered.code = some listing ∧
      Disciplined listing delivered.code.length delivered.clauses := by
  obtain ⟨symbols, s', run⟩ := encodes_delivery
  obtain ⟨bytes, encodes⟩ := delivered_encode
  have full : ∀ c ∈ delivered.clauses, 0 < c.tryLength := by decide
  obtain ⟨listing, listed, disciplined⟩ := regions_disciplined run encodes full
  exact ⟨bytes, listing, encodes, full, listed, disciplined⟩

end Compile
end Cil
