import Cil.Proofs.Labels
import Cil.Proofs.Zones

/-!
What the events of a history tell stays true. A label stands where it was placed; the code, the clauses
and the regions of blocks only grow; and each zone was entered and left in one of a few ways, which its
neighbours bear witness to.
-/

namespace Cil

open List

theorem Code.position?_place (code : Code) (l l' : Label) :
    (code.place l).position? l' = if l = l' then some code.stop else code.position? l' := by
  by_cases same : l = l'
  · subst same
    simp [place, position?, stop]
  · simp [place, position?, Std.TreeMap.getElem?_insert, same]

namespace Compile

open Code

/-- Labels stand where the history says, and the draft knows which of them instructions go to. -/
structure Labelled (x : Situation) : Prop where
  placed {l p P n} : .label l p P n ∈ x.history → x.draft.code.position? l = some p
  told {l p} : x.draft.code.position? l = some p → ∃ P n, .label l p P n ∈ x.history
  le {l p} : x.draft.code.position? l = some p → p ≤ x.draft.code.stop
  writable {l p P n} : .label l p P n ∈ x.history → Zone.Writable P
  region {id p P n} : .label (.block id) p P n ∈ x.history →
    x.scene.found.blocks[id]? = some (Zone.region P)
  found {id r} : x.scene.found.blocks[id]? = some r → ∃ p P n, .label (.block id) p P n ∈ x.history
  /-- Blocks start with an empty stack. -/
  empty {id p P n} : .label (.block id) p P n ∈ x.history → n = 0
  targets {i l} : i ∈ x.draft.code.instructions → l ∈ i.targets → l ∈ x.draft.targets
  joins {l} : x.draft.code.position? l = some x.draft.code.stop → l ∈ x.draft.targets →
    x.draft.joined = true

variable {P : List Zone} {s : Session} {i : Instruction} {l : Label}

namespace Labelled

variable {x y : Situation}

theorem extend (h : Labelled x)
    (position : ∀ l, y.draft.code.position? l = x.draft.code.position? l)
    (stop : x.draft.code.stop ≤ y.draft.code.stop)
    (found : y.scene.found.blocks = x.scene.found.blocks)
    (labels : ∀ {l p P n}, .label l p P n ∈ y.history ↔ .label l p P n ∈ x.history)
    (targets : ∀ {i l}, i ∈ y.draft.code.instructions → l ∈ i.targets → l ∈ y.draft.targets)
    (joins : ∀ {l}, x.draft.code.position? l = some y.draft.code.stop → l ∈ y.draft.targets →
      y.draft.joined = true) : Labelled y where
  placed there := (position _).trans (h.placed (labels.1 there))
  told there := by simpa only [labels] using h.told (position _ ▸ there)
  le there := Nat.le_trans (h.le (position _ ▸ there)) stop
  writable there := h.writable (labels.1 there)
  region there := found ▸ h.region (labels.1 there)
  found there := by simpa only [labels] using h.found (found ▸ there)
  empty there := h.empty (labels.1 there)
  targets := targets
  joins there := joins (position _ ▸ there)

theorem targets_push (h : Labelled x) {j : Instruction}
    (hj : j ∈ (x.draft.push i).code.instructions) (hl : l ∈ j.targets) :
    l ∈ (x.draft.push i).targets := by
  refine Std.TreeSet.mem_insertMany_list.2 ?_
  rcases Array.mem_push.1 hj with old | rfl
  · exact .inl (h.targets old hl)
  · exact .inr (contains_iff_mem.2 hl)

theorem place (h : Labelled x) {n : Nat} (draft : y.draft = x.draft.place l)
    (missing : x.draft.code.position? l = none) (writable : Zone.Writable x.scene.zones)
    (empty : ∀ id, l = .block id → n = 0) (found : ∀ id, y.scene.found.blocks[id]? =
      if l = .block id then some (Zone.region x.scene.zones) else x.scene.found.blocks[id]?)
    (labels : y.history = .label l x.draft.code.stop x.scene.zones n :: x.history) : Labelled y := by
  have position (l' : Label) : y.draft.code.position? l' =
      if l = l' then some x.draft.code.stop else x.draft.code.position? l' := by
    rw [draft]
    exact position?_place x.draft.code l l'
  have stop : y.draft.code.stop = x.draft.code.stop := by
    rw [draft]
    rfl
  -- The label that is placed is none of the earlier ones.
  have other {l' : Label} {p m : Nat} {P : List Zone} (there : .label l' p P m ∈ x.history) :
      l ≠ l' := by
    rintro rfl
    rw [h.placed there] at missing
    cases missing
  have split {l' : Label} {p m : Nat} {P : List Zone} (there : .label l' p P m ∈ y.history) :
      (l' = l ∧ p = x.draft.code.stop ∧ P = x.scene.zones ∧ m = n) ∨ .label l' p P m ∈ x.history := by
    simpa [labels] using there
  have old {e : Event} (there : e ∈ x.history) : e ∈ y.history := labels ▸ mem_cons_of_mem _ there
  have new : .label l x.draft.code.stop x.scene.zones n ∈ y.history := labels ▸ mem_cons_self
  refine ⟨fun there => ?_, fun {l' p} there => ?_, fun {l' p} there => ?_, fun there => ?_,
    fun {id p P m} there => ?_, fun {id r} there => ?_, fun {id p P m} there => ?_,
    fun {i l'} hi hl => ?_, fun {l'} there hl => ?_⟩
  · rw [position]
    rcases split there with ⟨rfl, rfl, _⟩ | there
    · exact if_pos rfl
    · rw [if_neg (other there)]
      exact h.placed there
  · rw [position] at there
    split at there
    case isTrue same =>
      cases same
      cases there
      exact ⟨_, _, new⟩
    case isFalse =>
      obtain ⟨P, m, told⟩ := h.told there
      exact ⟨P, m, old told⟩
  · rw [position] at there
    rw [stop]
    split at there
    · cases there
      exact Nat.le_refl _
    · exact h.le there
  · rcases split there with ⟨_, _, rfl, _⟩ | there
    · exact writable
    · exact h.writable there
  · rw [found]
    rcases split there with ⟨rfl, _, rfl, _⟩ | there
    · exact if_pos rfl
    · rw [if_neg (other there)]
      exact h.region there
  · rw [found] at there
    split at there
    case isTrue same =>
      cases same
      exact ⟨_, _, _, new⟩
    case isFalse =>
      obtain ⟨p, P, m, told⟩ := h.found there
      exact ⟨p, P, m, old told⟩
  · rcases split there with ⟨same, _, _, rfl⟩ | there
    · exact empty id same.symm
    · exact h.empty there
  · rw [draft] at hi ⊢
    exact h.targets hi hl
  · rw [stop, position] at there
    rw [draft] at hl ⊢
    split at there
    case isTrue same =>
      cases same
      exact Bool.or_eq_true_iff.2 (.inr hl)
    case isFalse => exact Bool.or_eq_true_iff.2 (.inl (h.joins there hl))

end Labelled

variable {depth place : Nat} {x : Situation} {items : List Item} {sound : Prop} {ctx : BodyContext}
  {y : Situation} {k : Nat} {K K' : List Event}

theorem Scoped.position?_eq_none (h : Scoped x items) (missing : l ∉ labelsOf items) :
    x.draft.code.position? l = none := by
  rw [← isPlaced_written, ← h.code, isPlaced, Bool.not_eq_true] at missing
  simpa [position?, ← Std.TreeMap.contains_iff_mem] using missing

theorem Step.labelled (step : Step sound ctx x y) (ordered : Scoped x items) (h : Labelled x) :
    Labelled y := by
  cases step with
  | guess | heights | scope | point | label | named | blob | openAttempt | closeAttempt | openPart
  | closeFilter | openCleanup | closeWhole | clause =>
    exact h.extend (fun _ => rfl) (Nat.le_refl _) rfl (by simp) h.targets h.joins
  | plain | branch | switch =>
    -- No label stands behind the new instruction yet.
    exact h.extend (fun _ => rfl) (by simp) rfl (by simp) h.targets_push fun there _ =>
      absurd (h.le there) (by simp)
  | place p rest writable perm =>
    have waiting := ordered.pending ((perm.map (·.label)).mem_iff.2 mem_cons_self)
    obtain ⟨missing, n, _, (same : p.label = .internal n)⟩ := waiting
    refine h.place rfl (ordered.position?_eq_none missing) writable (fun id block => ?_)
      (fun id => ?_) rfl
    · cases same.symm.trans block
    · rw [same, if_neg (by simp)]
  | block id writable fresh =>
    refine h.place rfl ?_ writable (fun _ _ => rfl) (fun id' => ?_) rfl
    · simpa [position?, isPlaced, ← Std.TreeMap.contains_iff_mem] using fresh
    · simp [Std.TreeMap.getElem?_insert]

theorem Steps.exists_scoped (h : Steps sound ctx (.start s) x) : ∃ items, Scoped x items :=
  (h.scoped (scoped_empty _ s)).imp fun _ ordered => ordered

theorem Steps.labelled (h : Steps sound ctx (.start s) x) : Labelled x := by
  refine Steps.invariant ?_ (fun before step labelled => ?_) h
  · constructor <;> simp [Situation.start, position?]
  · obtain ⟨items, ordered⟩ := before.exists_scoped
    exact step.labelled ordered labelled

/-- Nothing is taken back, and a label that was pending has been placed or still is. -/
structure Situation.Continues (x y : Situation) : Prop where
  history : x.history ⊆ y.history
  instructions {k : Nat} {i} : x.draft.code.instructions[k]? = some i →
    y.draft.code.instructions[k]? = some i
  clauses {c} : c ∈ x.draft.clauses → c ∈ y.draft.clauses
  maxHeight : x.draft.maxHeight ≤ y.draft.maxHeight
  pending {p} : p ∈ x.scene.pending → p ∈ y.scene.pending ∨
    ∃ place, .label p.label place p.zones p.depth ∈ y.history

theorem getElem?_push_instructions {d : Draft} {j : Instruction}
    (h : d.code.instructions[k]? = some j) : (d.push i).code.instructions[k]? = some j := by
  have inside := (Array.getElem?_eq_some_iff.1 h).1
  exact (Array.getElem?_push_lt inside).trans ((Array.getElem?_eq_getElem inside).symm.trans h)

theorem Step.continues (step : Step sound ctx x y) : x.Continues y := by
  cases step with
  | guess | scope | point | named | blob | openAttempt | closeAttempt | openPart | closeFilter
  | openCleanup | closeWhole | block =>
    exact ⟨by simp, id, id, Nat.le_refl _, .inl⟩
  | heights height maxHeight leftBehind grows => exact ⟨by simp, id, id, grows, .inl⟩
  | plain | branch | switch =>
    exact ⟨by simp, getElem?_push_instructions, id, Nat.le_refl _, .inl⟩
  | label => exact ⟨by simp, id, id, Nat.le_refl _, fun old => .inl (mem_cons_of_mem _ old)⟩
  | clause => exact ⟨by simp, id, Array.mem_push_of_mem _, Nat.le_refl _, .inl⟩
  | place p rest writable perm zones =>
    refine ⟨by simp, id, id, Nat.le_refl _, fun {q} old => ?_⟩
    rcases mem_cons.1 (perm.mem_iff.1 old) with rfl | other
    · rw [zones]
      exact .inr ⟨_, mem_cons_self⟩
    · exact .inl other

/-- How a zone comes to be entered, with some values on the stack. -/
inductive Enters (K : List Event) (place : Nat) : Nat → List Zone → Prop
  | method : Enters K place 0 []
  | whole {k R} (writable : Zone.Writable R)
      (first : .opened (⟨.attempt, k⟩ :: ⟨.whole, k⟩ :: R) place 0 ∈ K) :
      Enters K place 0 (⟨.whole, k⟩ :: R)
  | attempt {k R} (around : .opened (⟨.whole, k⟩ :: R) place 0 ∈ K) :
      Enters K place 0 (⟨.attempt, k⟩ :: ⟨.whole, k⟩ :: R)
  | part {kind k w R b} (part : kind = .filter ∨ kind = .handler)
      (left : .closed (⟨.attempt, w⟩ :: ⟨.whole, w⟩ :: R) b ∈ K) (le : b ≤ place) :
      Enters K place 1 (⟨kind, k⟩ :: ⟨.whole, w⟩ :: R)
  | cleanup {w k R} (writable : Zone.Writable R) (left : .closed (⟨.whole, w⟩ :: R) place ∈ K) :
      Enters K place 0 (⟨.cleanup w, k⟩ :: R)

/-- Something was written directly in a zone. -/
def Ran (K : List Event) (P : List Zone) : Prop := ∃ place depth, .instruction place P depth ∈ K

/-- A handler or what cleans up has its clause. -/
def Clauses (K : List Event) (c : DraftClause) (P : List Zone) : Prop :=
  Covers K c P ∧ .closed P c.handlerStop ∈ K ∧ Ran K P

/-- How a zone comes to be left. -/
inductive Leaves (K : List Event) (clauses : Array DraftClause) (place : Nat) : List Zone → Prop
  | protects {kind k R} (protects : kind = .whole ∨ kind = .attempt) : Leaves K clauses place
    (⟨kind, k⟩ :: R)
  | filter {m k w R} (next : .opened (⟨.handler, k⟩ :: ⟨.whole, w⟩ :: R) place 1 ∈ K)
      (ran : Ran K (⟨.filter, m⟩ :: ⟨.whole, w⟩ :: R)) :
      Leaves K clauses place (⟨.filter, m⟩ :: ⟨.whole, w⟩ :: R)
  | clause {P c} (kept : c ∈ clauses) (stop : c.handlerStop = place) (has : Clauses K c P) :
      Leaves K clauses place P

section

variable {K K' : List Event} (sub : K ⊆ K')

include sub

theorem Enters.mono (h : Enters K place depth P) : Enters K' place depth P := by
  cases h with
  | method => exact .method
  | whole writable first => exact .whole writable (sub first)
  | attempt around => exact .attempt (sub around)
  | part kind left le => exact .part kind (sub left) le
  | cleanup writable left => exact .cleanup writable (sub left)

theorem Ran.mono : Ran K P → Ran K' P :=
  fun ⟨place, depth, there⟩ => ⟨place, depth, sub there⟩

theorem Covers.mono {c : DraftClause} (h : Covers K c P) : Covers K' c P := by
  cases h with
  | typed guard protects start => exact .typed guard (protects.mono sub) (sub start)
  | filtered guard protects filter start =>
    exact .filtered guard (protects.mono sub) (filter.mono sub) (sub start)
  | cleanup guard protects start => exact .cleanup guard (protects.mono sub) (sub start)

theorem Clauses.mono {c : DraftClause} : Clauses K c P → Clauses K' c P :=
  fun ⟨covers, left, ran⟩ => ⟨covers.mono sub, sub left, ran.mono sub⟩

theorem Leaves.mono {clauses clauses' : Array DraftClause}
    (kept : ∀ {c}, c ∈ clauses → c ∈ clauses') (h : Leaves K clauses place P) :
    Leaves K' clauses' place P := by
  cases h with
  | protects kind => exact .protects kind
  | filter next ran => exact .filter (sub next) (ran.mono sub)
  | clause member stop has => exact .clause (kept member) stop (has.mono sub)

end

/-- What an event tells of its zone. -/
def Event.Bounds (x : Situation) : Event → Prop
  | opened P a n => Enters x.history a n P
  | closed P b => Leaves x.history x.draft.clauses b P
  | token .. | instruction .. | label .. => True

/-- What the zones of a history and the clauses of the draft tell of each other. -/
structure Bounded (x : Situation) : Prop where
  event {e} : e ∈ x.history → e.Bounds x
  clause {c} : c ∈ x.draft.clauses → ∃ P, Clauses x.history c P

namespace Bounded

variable {x y : Situation}

theorem extend (h : Bounded x) (grown : x.Continues y)
    (event : ∀ e ∈ y.history, e ∈ x.history ∨ e.Bounds y)
    (clause : ∀ {c}, c ∈ y.draft.clauses → c ∈ x.draft.clauses ∨ ∃ P, Clauses y.history c P) :
    Bounded y where
  event {e} there := (event e there).elim (fun old => by
    cases e with
    | opened => exact Enters.mono grown.history (h.event old)
    | closed => exact Leaves.mono grown.history grown.clauses (h.event old)
    | token | instruction | label => trivial) id
  clause kept := (clause kept).elim
    (fun old => (h.clause old).imp fun _ has => has.mono grown.history) id

theorem opened (h : Bounded x) {a n : Nat} (entered : .opened P a n ∈ x.history) :
    Enters x.history a n P := h.event entered

theorem closed (h : Bounded x) {b : Nat} (left : .closed P b ∈ x.history) :
    Leaves x.history x.draft.clauses b P := h.event left

theorem left_attempt (h : Bounded x) (nested : x.plan.Nested) {w : Nat} {rest : List Zone}
    (top : x.scene.zones = ⟨.whole, w⟩ :: rest) : Zone.Writable rest ∧
      ∃ b ≤ x.draft.code.stop, .closed (⟨.attempt, w⟩ :: ⟨.whole, w⟩ :: rest) b ∈ x.history := by
  obtain ⟨a, n, entered⟩ := nested.zoned.around (suffix_refl x.scene.zones)
  rw [top] at entered
  cases h.opened entered with
  | whole writable first =>
    refine ⟨writable, ?_⟩
    by_contra still
    have around : ⟨.attempt, w⟩ :: ⟨.whole, w⟩ :: rest <:+ x.scene.zones := by
      refine (nested.zoned.open_iff first).2 fun b left => still ?_
      exact ⟨b, nested.zoned.closedLe left, left⟩
    have short := around.length_le
    simp only [top, length_cons] at short
    omega
  | part kind => simp at kind

end Bounded

theorem Step.bounded (step : Step sound ctx x y) (nested : x.plan.Nested) (h : Bounded x) :
    Bounded y := by
  have grown := step.continues
  cases step with
  | guess | heights | scope | point | label | named | blob | plain | branch | switch | place | block =>
    exact h.extend grown (by simp +contextual [Event.Bounds]) .inl
  | openAttempt number writable =>
    exact h.extend grown (forall_mem_cons.2 ⟨.inr (.attempt (by simp)),
      forall_mem_cons.2 ⟨.inr (.whole writable (by simp)), fun _ => .inl⟩⟩) .inl
  | closeAttempt k rest top =>
    exact h.extend grown (forall_mem_cons.2 ⟨.inr (top ▸ .protects (.inr rfl)), fun _ => .inl⟩) .inl
  | closeWhole w rest top =>
    exact h.extend grown (forall_mem_cons.2 ⟨.inr (top ▸ .protects (.inl rfl)), fun _ => .inl⟩) .inl
  | openPart kind w rest number top part =>
    obtain ⟨_, b, le, left⟩ := h.left_attempt nested top
    exact h.extend grown (forall_mem_cons.2
      ⟨.inr (top ▸ .part part (mem_cons_of_mem _ left) le), fun _ => .inl⟩) .inl
  | closeFilter m w rest number top ran =>
    refine h.extend grown (forall_mem_cons.2 ⟨.inr ?_, forall_mem_cons.2 ⟨.inr ?_, fun _ => .inl⟩⟩) .inl
    · -- The handler follows the filter, so the protected block was left before.
      obtain ⟨a, n, entered⟩ := nested.zoned.around (P := ⟨.filter, m⟩ :: ⟨.whole, w⟩ :: rest)
        (top ▸ suffix_refl _)
      have le := nested.zoned.openedLe entered
      cases h.opened entered with
      | part _ left before => exact .part (.inr rfl) (grown.history left) (Nat.le_trans before le)
    · rw [top] at ran ⊢
      exact .filter mem_cons_self (Ran.mono (by simp) ran)
  | openCleanup w rest number top =>
    obtain ⟨writable, _⟩ := h.left_attempt nested top
    exact h.extend grown (forall_mem_cons.2 ⟨.inr (.cleanup writable (by simp [top])),
      forall_mem_cons.2 ⟨.inr (top ▸ .protects (.inl rfl)), fun _ => .inl⟩⟩) .inl
  | @clause s n K d t c z rest top stop guarded covers ran =>
    have has : Clauses (.closed s.zones d.code.stop :: K) c s.zones :=
      ⟨covers.mono (by simp), stop ▸ mem_cons_self, Ran.mono (by simp) ran⟩
    refine h.extend grown (forall_mem_cons.2
      ⟨.inr (.clause Array.mem_push_self stop has), fun _ => .inl⟩) fun new => ?_
    rcases Array.mem_push.1 new with old | rfl
    · exact .inl old
    · exact .inr ⟨s.zones, has⟩

theorem Steps.bounded (h : Steps sound ctx (.start s) x) : Bounded x := by
  refine Steps.invariant ⟨fun entered => ?_, ?_⟩ (fun before step => step.bounded before.nested.1) h
  · cases mem_singleton.1 entered
    exact .method
  · simp [Situation.start]

theorem Labelled.lt_stop (h : Labelled x) (shut : x.draft.fallsThrough = false)
    (hi : i ∈ x.draft.code.instructions) (hl : l ∈ i.targets) {p : Nat}
    (there : x.draft.code.position? l = some p) : p < x.draft.code.stop := by
  refine Nat.lt_of_le_of_ne (h.le there) ?_
  rintro rfl
  simp [Draft.fallsThrough, h.joins there (h.targets hi hl)] at shut

theorem Step.shut (step : Step sound ctx x y) (nested : x.plan.Nested) (bounded : Bounded x)
    (h : ¬ Zone.Writable x.scene.zones → x.draft.fallsThrough = false)
    (between : ¬ Zone.Writable y.scene.zones) : y.draft.fallsThrough = false := by
  cases step with
  | guess | heights | scope | point | label | named | blob => exact h between
  | plain _ _ _ writable | branch _ _ _ _ writable | switch _ _ writable | place _ _ writable
  | block _ writable => exact absurd writable between
  | closeAttempt _ _ _ shut | clause _ _ _ _ _ _ _ _ shut => exact shut
  | openAttempt | closeFilter | openCleanup => simp [Zone.Writable] at between
  | openPart _ _ _ _ _ part =>
    rcases part with rfl | rfl <;> simp [Zone.Writable] at between
  | closeWhole w rest top => exact absurd (bounded.left_attempt nested top).1 between

theorem Steps.shut (h : Steps sound ctx (.start s) x) :
    ¬ Zone.Writable x.scene.zones → x.draft.fallsThrough = false := by
  refine Steps.invariant (p := fun x => ¬ Zone.Writable x.scene.zones → x.draft.fallsThrough = false)
    ?_ (fun before step => step.shut before.nested.1 before.bounded) h
  simp [Situation.start, Zone.Writable]

/-- Where a zone is left, no label stands in it that an earlier instruction goes to. -/
def Forward (x : Situation) : Prop :=
  ∀ {k i l p P n b}, x.draft.code.instructions[k]? = some i → l ∈ i.targets →
    .label l p P n ∈ x.history → .closed P b ∈ x.history → k < p → p < b

theorem Step.forward (step : Step sound ctx x y) (nested : x.plan.Nested) (labelled : Labelled x)
    (h : Forward x) : Forward y := by
  -- A zone is left where control does not get, or has no labels of its own.
  have leaves {k : Nat} {i : Instruction} {l : Label} {p n : Nat} {P : List Zone}
      (hi : x.draft.code.instructions[k]? = some i) (hl : l ∈ i.targets)
      (there : .label l p P n ∈ x.history)
      (shut : Zone.Writable P → x.draft.fallsThrough = false) : p < x.draft.code.stop :=
    labelled.lt_stop (shut (labelled.writable there)) (Array.mem_of_getElem? hi) hl
      (labelled.placed there)
  -- A label that is placed now stands in a zone that has not been left.
  have still {b : Nat} : .closed x.scene.zones b ∉ x.history := fun left =>
    nested.zoned.not_closed (suffix_refl _) b left
  have old {k p : Nat} {j i : Instruction} (hi : (x.draft.code.instructions.push j)[k]? = some i)
      (later : k < p) (le : p ≤ x.draft.code.stop) : x.draft.code.instructions[k]? = some i := by
    have inside : k ≠ x.draft.code.instructions.size := Nat.ne_of_lt (Nat.lt_of_lt_of_le later le)
    rwa [Array.getElem?_push, if_neg inside] at hi
  intro k i l p P n b hi hl there left later
  cases step with
  | guess | heights | scope | point | label | named | blob | openAttempt | openPart =>
    exact h hi hl (by simpa using there) (by simpa using left) later
  | plain | branch | switch =>
    simp only [mem_cons, reduceCtorEq, false_or] at there left
    exact h (old hi later (labelled.le (labelled.placed there))) hl there left later
  | place | block =>
    simp only [mem_cons, Event.label.injEq, reduceCtorEq, false_or] at there left
    rcases there with ⟨_, _, rfl, _⟩ | there
    · exact absurd left still
    · exact h hi hl there left later
  | closeAttempt _ _ _ shut | clause _ _ _ _ _ _ _ _ shut | closeFilter _ _ _ _ _ _ shut =>
    simp only [mem_cons, Event.closed.injEq, reduceCtorEq, false_or] at there left
    rcases left with ⟨rfl, rfl⟩ | left
    · exact leaves hi hl there fun _ => shut
    · exact h hi hl there left later
  | openCleanup _ _ _ top | closeWhole _ _ top =>
    simp only [mem_cons, Event.closed.injEq, reduceCtorEq, false_or] at there left
    rcases left with ⟨rfl, rfl⟩ | left
    · refine leaves hi hl there fun writable => ?_
      simp [top, Zone.Writable] at writable
    · exact h hi hl there left later

theorem Steps.forward (h : Steps sound ctx (.start s) x) : Forward x := by
  refine Steps.invariant ?_ (fun before step => step.forward before.nested.1 before.labelled) h
  simp [Forward, Situation.start]

/-- Something in the zones `P` comes before a whole that starts at a place, or within it, or within what
cleans up behind it; or that ends there. -/
def Sorts (K : List Event) (place : Nat) (P : List Zone) (w k : Nat) (R : List Zone) : Prop :=
  (∃ m, .opened (⟨.whole, w⟩ :: R) place m ∈ K) ∨ ⟨.whole, w⟩ :: R <:+ P ∨ ⟨.cleanup w, k⟩ :: R <:+ P ∨
    .closed (⟨.cleanup w, k⟩ :: R) place ∈ K

theorem Sorts.mono {w : Nat} {R : List Zone} (h : Sorts K place P w k R) (sub : K ⊆ K') :
    Sorts K' place P w k R :=
  h.imp (fun ⟨m, entered⟩ => ⟨m, sub entered⟩) (.imp_right (.imp_right (@sub _)))

/-- This is so of the labels that stand where a cleanup starts. -/
def Behind (x : Situation) : Prop :=
  ∀ {l p P n w k R m}, .label l p P n ∈ x.history → .opened (⟨.cleanup w, k⟩ :: R) p m ∈ x.history →
    Sorts x.history p P w k R

theorem Step.behind (step : Step sound ctx x y) (nested : x.plan.Nested) (h : Behind x) : Behind y := by
  have sub := step.continues.history
  intro l p P n w k R m there entered
  have old (there : .label l p P n ∈ x.history)
      (entered : .opened (⟨.cleanup w, k⟩ :: R) p m ∈ x.history) : Sorts y.history p P w k R :=
    (h there entered).mono sub
  cases step with
  | guess | heights | scope | point | label | named | blob | plain | branch | switch | openAttempt
  | closeAttempt | closeFilter | closeWhole | clause =>
    exact old (by simpa using there) (by simpa using entered)
  | openPart kind _ _ _ _ part =>
    refine old (by simpa using there) ?_
    rcases part with rfl | rfl <;> simpa using entered
  | place | block =>
    simp only [mem_cons, Event.label.injEq, reduceCtorEq, false_or] at there entered
    rcases there with ⟨_, rfl, rfl, _⟩ | there
    · have here := nested.zoned.open_or_closed entered
      exact .inr (.inr (here.imp_right fun left => sub left))
    · exact old there entered
  | openCleanup w' rest number top =>
    simp only [mem_cons, reduceCtorEq, false_or] at there
    rcases mem_cons.1 entered with same | entered
    · cases same
      obtain ⟨a, m', around⟩ := nested.zoned.around (P := ⟨.whole, w⟩ :: R) (top ▸ suffix_refl _)
      rcases Nat.lt_or_eq_of_le (nested.zoned.openedLe around) with before | rfl
      · refine .inr (.inl (nested.marked.covers there around before fun b left => ?_))
        exact absurd left (nested.zoned.not_closed (top ▸ suffix_refl _) b)
      · exact .inl ⟨m', sub around⟩
    · exact old there (by simpa using entered)

theorem Steps.behind (h : Steps sound ctx (.start s) x) : Behind x := by
  refine Steps.invariant ?_ (fun before step => step.behind before.nested.1) h
  simp [Behind, Situation.start]

/-- A label is pending, or has been placed, in some zones and for some values on the stack. -/
def Announced (x : Situation) (l : Label) (zones : List Zone) (depth : Nat) : Prop :=
  ⟨l, zones, depth⟩ ∈ x.scene.pending ∨ ∃ place, .label l place zones depth ∈ x.history

/-- An instruction in the zones `P` can go to a label, now and later. -/
def Lands (sound : Prop) (ctx : BodyContext) (x : Situation) (P : List Zone) (leaving : Bool)
    (depth : Nat) : Label → Prop
  | .internal n => ∃ Z m, Announced x (.internal n) Z m ∧
      (if leaving then Zone.Departs P Z else Z = P) ∧ (sound → m = depth)
  | .block id => (sound → depth = 0) ∧ InBlock ctx x.history P fun here =>
    ∀ there, ctx.regions.region? id = some there →
      if leaving then here.within there = true else there = here

/-- What is known of an instruction in the zones `P`, with some values on the stack before it. -/
inductive Recorded (sound : Prop) (ctx : BodyContext) (x : Situation) (P : List Zone) (depth : Nat) :
    Instruction → Prop
  | plain (op : Opcode) (operand : Bytes)
      (exits : op = .ret → P = [] ∨ InBlock ctx x.history P (· = .outermost))
      (rethrows : op = .rethrow → Zone.handling P = true) :
      Recorded sound ctx x P depth (.simple op operand)
  | branch (b : Branch) (target : Label) (form : BranchForm)
      (lands : Lands sound ctx x P (b = .leave) (if b = .leave then 0 else depth - b.pops) target) :
      Recorded sound ctx x P depth (.branch b target form)
  | switch (targets : List BlockId)
      (lands : ∀ id ∈ targets, Lands sound ctx x P false (depth - 1) (.block id)) :
      Recorded sound ctx x P depth (.switch (targets.map .block))

theorem InBlock.mono {p : Region → Prop} (h : InBlock ctx K P p) (sub : K ⊆ K') :
    InBlock ctx K' P p := by
  obtain ⟨id, place, depth, there, holds⟩ := h
  exact ⟨id, place, depth, sub there, holds⟩

section

variable {sound : Prop} {ctx : BodyContext} {x y : Situation} (grown : x.Continues y)

include grown

theorem Announced.mono {Z : List Zone} {m : Nat} (h : Announced x l Z m) : Announced y l Z m := by
  rcases h with waiting | ⟨place, there⟩
  · exact grown.pending waiting
  · exact .inr ⟨place, grown.history there⟩

theorem Lands.mono {leaving : Bool} (h : Lands sound ctx x P leaving depth l) :
    Lands sound ctx y P leaving depth l := by
  cases l with
  | internal n =>
    obtain ⟨Z, m, announced, rest⟩ := h
    exact ⟨Z, m, announced.mono grown, rest⟩
  | block id => exact ⟨h.1, h.2.mono grown.history⟩

theorem Recorded.mono (h : Recorded sound ctx x P depth i) : Recorded sound ctx y P depth i := by
  cases h with
  | plain op operand exits rethrows =>
    exact .plain op operand (fun ret => (exits ret).imp_right (·.mono grown.history)) rethrows
  | branch b target form lands => exact .branch b target form (lands.mono grown)
  | switch targets lands => exact .switch targets fun id hid => (lands id hid).mono grown

end

theorem Reaches.lands {leaving : Bool} (h : Reaches sound ctx x.history x.scene leaving depth l) :
    Lands sound ctx x x.scene.zones leaving depth l := by
  cases l with
  | internal n =>
    obtain ⟨⟨l, Z, m⟩, waiting, rfl, rest⟩ := h
    exact ⟨Z, m, .inl waiting, rest⟩
  | block id => exact h

/-- Every instruction has been recorded, and was written within a part of each whole around it. -/
def Recording (sound : Prop) (ctx : BodyContext) (x : Situation) : Prop :=
  ∀ {k P n}, .instruction k P n ∈ x.history → Zone.Writable P ∧
    ∃ i, x.draft.code.instructions[k]? = some i ∧ Recorded sound ctx x P n i

theorem Step.recording (step : Step sound ctx x y) (h : Recording sound ctx x) :
    Recording sound ctx y := by
  have grown := step.continues
  have old {k : Nat} {P : List Zone} {n : Nat} (there : .instruction k P n ∈ x.history) :
      Zone.Writable P ∧ ∃ i, y.draft.code.instructions[k]? = some i ∧ Recorded sound ctx y P n i := by
    obtain ⟨writable, i, hi, recorded⟩ := h there
    exact ⟨writable, i, grown.instructions hi, recorded.mono grown⟩
  have last (d : Draft) (i : Instruction) : (d.push i).code.instructions[d.code.stop]? = some i :=
    Array.getElem?_push_size
  intro k P n there
  cases step with
  | guess | heights | scope | point | label | named | blob | place | block | openAttempt | closeAttempt
  | openPart | closeFilter | openCleanup | closeWhole | clause => exact old (by simpa using there)
  | plain op operand depth writable takes exits rethrows =>
    rcases mem_cons.1 there with same | there
    · cases same
      exact ⟨writable, _, last _ _, Recorded.mono grown (.plain op operand exits rethrows)⟩
    · exact old there
  | branch b target form depth writable reaches =>
    rcases mem_cons.1 there with same | there
    · cases same
      exact ⟨writable, _, last _ _, .branch b target form (Lands.mono grown reaches.lands)⟩
    · exact old there
  | switch targets depth writable reaches =>
    rcases mem_cons.1 there with same | there
    · cases same
      exact ⟨writable, _, last _ _, .switch targets fun id hid =>
        Lands.mono grown (reaches id hid).lands⟩
    · exact old there

theorem Steps.recording (h : Steps sound ctx (.start s) x) : Recording sound ctx x := by
  refine Steps.invariant ?_ (fun _ step => step.recording) h
  simp [Recording, Situation.start]

end Compile
end Cil
