import Cil.Proofs.Histories
import Cil.Proofs.Reencoding
import Mathlib.Data.Finset.Card

/-!
Why passes over a body come to an end. A pass that asks for another names branches that were not long
before, and the branches of the code are the same in all passes: whether control reaches the end of a
block, and has to leave it, is asked of offsets that differ between passes, but the answer does not.
-/

namespace Cil

def Instruction.jump? : Instruction → Option (Branch × Label)
  | .branch b target _ => some (b, target)
  | _ => none

theorem Instruction.jump?_lengthened (long : Bool) (i : Instruction) :
    (i.lengthened long).jump? = i.jump? := by
  unfold lengthened
  split <;> rfl

namespace Code

variable {code : Code} {wide : Finset Nat} {k : Nat}

/-- The branches in their order, with their places. -/
def branches (code : Code) : List (Nat × Branch × Label) :=
  (List.range code.stop).filterMap fun k => (code.instructions[k]?.bind (·.jump?)).map (k, ·)

def branchPlaces (code : Code) : Finset Nat := (code.branches.map (·.1)).toFinset

theorem card_branchPlaces_le (code : Code) : code.branchPlaces.card ≤ code.branches.length :=
  (List.toFinset_card_le _).trans_eq (List.length_map ..)

theorem stop_widenedAt (code : Code) (wide : Finset Nat) : (code.widenedAt wide).stop = code.stop :=
  Array.size_mapIdx

theorem branches_widenedAt (code : Code) (wide : Finset Nat) :
    (code.widenedAt wide).branches = code.branches := by
  rw [branches, branches, stop_widenedAt]
  refine List.filterMap_congr fun k _ => ?_
  rw [getElem?_widenedAt, Option.bind_map]
  exact congrArg (Option.map _) (Option.bind_congr fun i _ => i.jump?_lengthened _)

/-- A branch is missed only as long as it may be short. -/
theorem openMisses_widenedAt (missed : k ∈ (code.widenedAt wide).layout.openMisses) :
    k ∉ wide ∧ k ∈ code.branchPlaces := by
  rw [Layout.mem_openMisses, Layout.isOpenMiss] at missed
  split at missed
  case h_2 => cases missed
  case h_1 b target found =>
    have found : (code.widenedAt wide).instructions[k]? = some (.branch b target .auto) := found
    have inside : k < (code.widenedAt wide).stop := (Array.getElem?_eq_some_iff.1 found).1
    constructor
    · intro long
      rw [getElem?_widenedAt, Option.map_eq_some_iff] at found
      obtain ⟨i, _, same⟩ := found
      cases i with
      | simple | «switch» => cases same
      | branch b target form => cases form <;> simp [Instruction.lengthened, long] at same
    · rw [branchPlaces, List.mem_toFinset, ← branches_widenedAt code wide]
      refine List.mem_map.2 ⟨(k, b, target), List.mem_filterMap.2 ⟨k, List.mem_range.2 inside, ?_⟩, rfl⟩
      rw [found]
      rfl

theorem disjoint_openMisses (code : Code) (wide : Finset Nat) :
    Disjoint (code.widenedAt wide).layout.openMisses wide :=
  Finset.disjoint_left.2 fun _ missed => (openMisses_widenedAt missed).1

theorem openMisses_subset (code : Code) (wide : Finset Nat) :
    (code.widenedAt wide).layout.openMisses ⊆ code.branchPlaces :=
  fun _ missed => (openMisses_widenedAt missed).2

end Code

/-- Control reaches the end of the code, by the offsets of a pass: behind the last instruction, or to a
label that stands at the last offset. -/
def Draft.FallsThroughAt (d : Draft) (wide : Finset Nat) : Prop :=
  d.code.instructions.back?.any Instruction.transfers = false ∨
    ∃ l ∈ d.targets, ∃ place, d.code.position? l = some place ∧
      (d.code.widenedAt wide).layout.offset place = (d.code.widenedAt wide).layout.size

namespace Compile

open Code

section

variable {sound : Prop} {ctx : BodyContext} {s : Session} {x y : Situation}

/-- The end is known to be joined only by a label that stands there. -/
def Joining (x : Situation) : Prop := x.draft.joined = true →
  ∃ l ∈ x.draft.targets, x.draft.code.position? l = some x.draft.code.stop

theorem Joining.place (h : Joining x) (l : Label) (draft : y.draft = x.draft.place l) : Joining y := by
  intro joined
  rw [draft] at joined ⊢
  rcases Bool.or_eq_true_iff.1 joined with old | new
  · obtain ⟨l', target, there⟩ := h old
    refine ⟨l', target, (position?_place ..).trans ?_⟩
    split
    · rfl
    · exact there
  · exact ⟨l, Std.TreeSet.contains_iff_mem.1 new, (position?_place ..).trans (if_pos rfl)⟩

theorem Step.joining (step : Step sound ctx x y) (h : Joining x) : Joining y := by
  cases step with
  | guess | heights | scope | point | label | named | blob | openAttempt | closeAttempt | openPart
  | closeFilter | openCleanup | closeWhole | clause => exact h
  | plain | branch | switch => exact nofun
  | place p => exact h.place p.label rfl
  | block id => exact h.place (.block id) rfl

theorem Steps.fallsThrough_iff (h : Steps sound ctx (.start s) x) (wide : Finset Nat) :
    x.draft.fallsThrough = true ↔ x.draft.FallsThroughAt wide := by
  have labelled := h.labelled
  have joining : Joining x := Steps.keeps (fun _ _ step => step.joining) h nofun
  rw [Draft.fallsThrough, Bool.or_eq_true_iff, Bool.not_eq_true', or_comm, Draft.FallsThroughAt]
  refine or_congr_right ⟨fun joined => ?_, fun falls => ?_⟩
  · obtain ⟨l, target, there⟩ := joining joined
    refine ⟨l, target, _, there, ?_⟩
    rw [Layout.size]
    exact congrArg _ (stop_widenedAt ..).symm
  · obtain ⟨l, target, place, there, same⟩ := falls
    refine labelled.joins ?_ target
    rcases Nat.eq_or_lt_of_le (labelled.le there) with rfl | before
    · exact there
    · -- instructions have bytes in every pass, so only the end has the last offset
      rw [← stop_widenedAt _ wide] at before
      exact absurd same (Nat.ne_of_lt (layout_offset_lt _ before (Nat.le_refl _)))

end

section

variable (src : Source) (keepsSymbols : Bool) (row : Nat) (m : Method) (b : Body)

/-- At most so many passes; nothing if all of them ask for another. -/
def encodePasses : Nat → Finset Nat → Emit (Option (MethodBody × Option MethodSymbols))
  | 0, _ => return none
  | n + 1, wide => do
    match ← encodePass src keepsSymbols row m b wide with
    | .done encoded => return some encoded
    | .widen more => encodePasses n (wide ∪ more)

/-- The pass of a number, counted from 0, is begun in a session, with branches to be long. -/
inductive Begun (s : Session) : Nat → Finset Nat → Session → Prop
  | first : Begun s 0 ∅ s
  | again {i wide t more t'} (before : Begun s i wide t)
      (run : (encodePass src keepsSymbols row m b wide).Runs t (.widen more) t') :
      Begun s (i + 1) (wide ∪ more) t'

/-- What is left to do for a draft whose layout has been looked for. -/
def finish (token : Nat) (d : Draft) (relaxed : Except Int Code.Layout) :
    Emit (MethodBody × Option MethodSymbols) := do
  let l ← Emit.ofExcept (relaxed.mapError .branchOutOfRange)
  let locals ← localSignature src b.locals
  return encodedOf b token locals d l

variable {src keepsSymbols row m b} {wide : Finset Nat} {s s₁ t t' : Session} {token n : Nat}
  {d : Draft}

section

variable {result : Except Error Unit} (encoded : (Token.row .methodDef row).encode = .ok token)
  (compiled : (body (.ofBody src keepsSymbols m b) b).exec ⟨{}, s⟩ = (result, ⟨d, s₁⟩))

include compiled in
theorem run_lift_body : (ExceptT.lift ((body (.ofBody src keepsSymbols m b) b).run {}) : Emit _).run s =
    (.ok (result, d), s₁) :=
  runs_lift.2 compiled

include encoded compiled

theorem run_encodeBody : (encodeBody src keepsSymbols row m b).run s =
    (Emit.ofExcept (checkDraft result d) >>= fun _ => finish src b token d d.code.relax).run s₁ := by
  rw [encodeBody_eq, encoded]
  change ((layOut (.ofBody src keepsSymbols m b) b >>= _).run s) = _
  rw [layOut, bind_assoc, Service.run_bind, run_lift_body compiled]
  simp only [bind_assoc, pure_bind]
  rfl

theorem run_encodePass (wide : Finset Nat) : (encodePass src keepsSymbols row m b wide).run s =
    (Emit.ofExcept (checkDraft result (d.widenedAt wide)) >>= fun _ =>
      if (d.code.widenedAt wide).layout.openMisses = ∅ then
        .done <$> finish src b token d (.ok (d.code.widenedAt wide).layout)
      else return .widen (d.code.widenedAt wide).layout.openMisses).run s₁ := by
  rw [encodePass, encoded, show (Emit.ofEncoding (.ok token) : Emit Nat) = pure token from rfl,
    pure_bind, Service.run_bind, run_lift_body compiled]
  simp only [finish, map_eq_pure_bind, bind_assoc, pure_bind]
  rfl

end

theorem card_union_openMisses (d : Draft) (missing : (d.code.widenedAt wide).layout.openMisses ≠ ∅) :
    wide.card < (wide ∪ (d.code.widenedAt wide).layout.openMisses).card := by
  rw [Finset.card_union_of_disjoint (disjoint_openMisses ..).symm]
  exact Nat.lt_add_of_pos_right (Finset.card_pos.2 (Finset.nonempty_iff_ne_empty.2 missing))

/-- With enough passes for the branches that are not yet long, the body is laid out. -/
theorem Drafts.run_encodePasses (again : Drafts src keepsSymbols row m b s₁ token d s₁)
    (drafts : Drafts src keepsSymbols row m b t token d s₁) (known : wide ⊆ d.code.branchPlaces)
    (enough : d.code.branches.length < n + wide.card) :
    (encodePasses src keepsSymbols row m b n wide).run t =
      (some <$> finish src b token d (d.code.widenedAt wide).relax).run s₁ := by
  induction n generalizing t wide with
  | zero =>
    -- more branches would be long than there are
    have := Finset.card_le_card known
    have := d.code.card_branchPlaces_le
    omega
  | succ n ih =>
    rw [encodePasses, Service.run_bind, run_encodePass drafts.token drafts.run]
    cases range : (d.code.widenedAt wide).layout.outOfRange? with
    | some distance =>
      have refused : checkDraft (.ok ()) (d.widenedAt wide) = .error (.branchOutOfRange distance) := by
        rw [checkDraft, show (d.widenedAt wide).code.layout.outOfRange? = _ from range]
      rw [refused, relax_of_outOfRange? range]
      rfl
    | none =>
      have checked : checkDraft (.ok ()) (d.widenedAt wide) = .ok () :=
        checkDraft_eq_ok_iff.2 ⟨range, rfl, (unplaced?_widenedAt d.code wide).trans drafts.placed⟩
      rw [checked, show (Emit.ofExcept (.ok ()) : Emit Unit) = pure () from rfl, pure_bind]
      by_cases reaching : (d.code.widenedAt wide).layout.openMisses = ∅
      · rw [if_pos reaching, relax_of_reaching range reaching]
        simp only [map_eq_pure_bind, Service.run_bind]
        cases (finish src b token d (.ok (d.code.widenedAt wide).layout)).run s₁ with
        | mk r _ => cases r <;> rfl
      · -- the next pass compiles the same draft, from the session this one has left
        rw [if_neg reaching, relax_of_missing range reaching, widenedAt_widenedAt]
        have more := card_union_openMisses d reaching
        exact ih again (Finset.union_subset known (openMisses_subset ..)) (by omega)

theorem Drafts.of_widen {more : Finset Nat}
    (run : (encodePass src keepsSymbols row m b wide).Runs t (.widen more) t') :
    ∃ token d, Drafts src keepsSymbols row m b t token d t' ∧
      more = (d.code.widenedAt wide).layout.openMisses ∧ more ≠ ∅ := by
  obtain ⟨token, d, s₁, drafts, _, rest⟩ := runs_encodePass.1 run
  split at rest
  case isTrue =>
    obtain ⟨_, _, same⟩ := rest
    cases same
  case isFalse missing =>
    obtain ⟨rfl, same⟩ := rest
    cases same
    exact ⟨token, d, drafts, rfl, missing⟩

/-- A pass behind the first compiles what the first has compiled. -/
theorem Begun.settles {i : Nat} (reached : s.Reached src)
    (h : Begun src keepsSymbols row m b s i wide t) :
    (i = 0 ∧ wide = ∅ ∧ t = s) ∨ ∃ token d, Drafts src keepsSymbols row m b s token d t ∧
      Drafts src keepsSymbols row m b t token d t ∧ wide ⊆ d.code.branchPlaces ∧ i ≤ wide.card := by
  induction h with
  | first => exact .inl ⟨rfl, rfl, rfl⟩
  | @again i wide t more t' _ run ih =>
    right
    obtain ⟨token, d, drafts, rfl, missing⟩ := Drafts.of_widen run
    have more := card_union_openMisses d missing
    rcases ih with ⟨rfl, rfl, rfl⟩ | ⟨token', d', first, again, known, count⟩
    · exact ⟨token, d, drafts, drafts.again reached.catalogued,
        Finset.union_subset (Finset.empty_subset _) (openMisses_subset ..), by omega⟩
    · obtain ⟨rfl, rfl, rfl⟩ := again.unique drafts
      exact ⟨token', d', first, again, Finset.union_subset known (openMisses_subset ..), by omega⟩

theorem encodePasses_eq {result : Except Error Unit} (reached : s.Reached src)
    (compiled : (body (.ofBody src keepsSymbols m b) b).exec ⟨{}, s⟩ = (result, ⟨d, s₁⟩))
    (enough : d.code.branches.length < n) :
    (encodePasses src keepsSymbols row m b n ∅).run s =
      (some <$> encodeBody src keepsSymbols row m b).run s := by
  obtain ⟨n, rfl⟩ := Nat.exists_eq_add_of_lt (Nat.zero_lt_of_lt enough)
  rw [map_eq_pure_bind, Service.run_bind]
  cases encoded : (Token.row .methodDef row).encode with
  | error e =>
    rw [encodePasses, encodePass, encodeBody_eq, encoded]
    rfl
  | ok token =>
    cases checked : checkDraft result d with
    | error e =>
      have same : d.widenedAt ∅ = d := congrArg (fun code => { d with code }) (widenedAt_empty d.code)
      rw [encodePasses, Service.run_bind, run_encodePass encoded compiled,
        run_encodeBody encoded compiled, same, checked]
      rfl
    | ok u =>
      obtain ⟨_, rfl, placed⟩ := checkDraft_eq_ok_iff.1 checked
      have drafts : Drafts src keepsSymbols row m b s token d s₁ := ⟨encoded, compiled, placed⟩
      rw [(drafts.again reached.catalogued).run_encodePasses drafts (Finset.empty_subset _)
        (by simpa using enough), widenedAt_empty, run_encodeBody encoded compiled, checked,
        map_eq_pure_bind, Service.run_bind]
      rfl

/-- Passes over a body end as the body is encoded or refused, at the latest with one more than it has
branches. Each of them finds the same branches, and one that asks for another names some of them, all
new; for whether control reaches the end of a block is not told differently by the offsets of any. -/
theorem widening_ends {result : Except Error Unit} (reached : s.Reached src)
    (compiled : (body (.ofBody src keepsSymbols m b) b).exec ⟨{}, s⟩ = (result, ⟨d, s₁⟩)) :
    (∀ n, d.code.branches.length < n → (encodePasses src keepsSymbols row m b n ∅).run s =
      (some <$> encodeBody src keepsSymbols row m b).run s) ∧
    (∀ i wide t, Begun src keepsSymbols row m b s i wide t → i ≤ d.code.branches.length ∧
      (∃ t₁, (body (.ofBody src keepsSymbols m b) b).exec ⟨{}, t⟩ = (result, ⟨d, t₁⟩)) ∧
      (d.code.widenedAt wide).branches = d.code.branches ∧
      ∀ more t', (encodePass src keepsSymbols row m b wide).Runs t (.widen more) t' →
        more.Nonempty ∧ Disjoint more wide ∧
        ∀ k ∈ more, ∃ (ordinal : Nat) (jump : _), d.code.branches[ordinal]? = some (k, jump)) ∧
    ∀ t x, Steps False (.ofBody src keepsSymbols m b) (.start t) x →
      ∀ wide, x.draft.fallsThrough = true ↔ x.draft.FallsThroughAt wide := by
  refine ⟨fun n => encodePasses_eq reached compiled, fun i wide t begun => ?_,
    fun t x steps => steps.fallsThrough_iff⟩
  have same : i ≤ d.code.branches.length ∧
      ∃ t₁, (body (.ofBody src keepsSymbols m b) b).exec ⟨{}, t⟩ = (result, ⟨d, t₁⟩) := by
    rcases begun.settles reached with ⟨rfl, rfl, rfl⟩ | ⟨token, d', first, again, known, count⟩
    · exact ⟨Nat.zero_le _, s₁, compiled⟩
    · obtain ⟨rfl, h⟩ := Prod.mk.inj (compiled.symm.trans first.run)
      cases h
      have := Finset.card_le_card known
      have := d.code.card_branchPlaces_le
      exact ⟨by omega, _, again.run⟩
  obtain ⟨count, t₁, compiled'⟩ := same
  refine ⟨count, ⟨t₁, compiled'⟩, branches_widenedAt .., fun more t' run => ?_⟩
  obtain ⟨token, d', drafts, rfl, missing⟩ := Drafts.of_widen run
  obtain ⟨rfl, h⟩ := Prod.mk.inj (compiled'.symm.trans drafts.run)
  cases h
  refine ⟨Finset.nonempty_iff_ne_empty.2 missing, disjoint_openMisses .., fun k hk => ?_⟩
  obtain ⟨⟨_, jump⟩, branch, rfl⟩ := List.mem_map.1 (List.mem_toFinset.1 (openMisses_subset _ _ hk))
  obtain ⟨ordinal, found⟩ := List.mem_iff_getElem?.1 branch
  exact ⟨ordinal, jump, found⟩

end

/-- The one branch is missed by the first pass, and the second is the last. -/
theorem widening_ends_longSkip : Session.Reached courierSource (.ofModule courier) ∧
    ∃ d s₁, (body (.ofBody courierSource false { name := "Skip" } (longSkip .auto)) (longSkip .auto)).exec
        ⟨{}, .ofModule courier⟩ = (.ok (), ⟨d, s₁⟩) ∧
      d.code.branches = [(0, .always, .block ⟨1⟩)] ∧
      (encodePasses courierSource false 1 { name := "Skip" } (longSkip .auto) 2 ∅).run
          (.ofModule courier) =
        (some <$> encodeBody courierSource false 1 { name := "Skip" } (longSkip .auto)).run
          (.ofModule courier) ∧
      ∀ i wide t, Begun courierSource false 1 { name := "Skip" } (longSkip .auto) (.ofModule courier)
        i wide t → i ≤ 1 := by
  have reached : Session.Reached courierSource (.ofModule courier) := .start _
  have evaluated : ((body (.ofBody courierSource false { name := "Skip" } (longSkip .auto))
      (longSkip .auto)).exec ⟨{}, .ofModule courier⟩).1.toOption = some () ∧
      ((body (.ofBody courierSource false { name := "Skip" } (longSkip .auto))
        (longSkip .auto)).exec ⟨{}, .ofModule courier⟩).2.draft.code.branches =
          [(0, .always, .block ⟨1⟩)] := by
    decide +kernel
  rcases ran : (body (.ofBody courierSource false { name := "Skip" } (longSkip .auto))
    (longSkip .auto)).exec ⟨{}, .ofModule courier⟩ with ⟨result, d, s₁⟩
  rw [ran] at evaluated
  obtain ⟨ended, (branches : d.code.branches = [(0, .always, .block ⟨1⟩)])⟩ := evaluated
  obtain rfl := eq_ok_of_toOption ended
  have one : d.code.branches.length = 1 := congrArg List.length branches
  obtain ⟨passes, begins, _⟩ := widening_ends reached ran
  exact ⟨reached, d, s₁, rfl, branches, passes 2 (one ▸ by decide),
    fun i wide t begun => one ▸ (begins i wide t begun).1⟩

end Compile
end Cil
