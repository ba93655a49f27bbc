import Cil.Proofs.Offsets

/-!
Relaxation. The layout that is settled on belongs to the same code with some branches made long, and
every short branch in it reaches its target: one that may grow would have been made long, and one that
may not is out of range.
-/

namespace Cil

open List

/-- The same instruction, or a branch whose open form became the long one. -/
inductive Instruction.WidensTo : Instruction → Instruction → Prop
  | same (i : Instruction) : WidensTo i i
  | long (b : Branch) (target : Label) :
      WidensTo (.branch b target .auto) (.branch b target .long)

theorem Instruction.WidensTo.trans {i j k : Instruction} (hij : i.WidensTo j)
    (hjk : j.WidensTo k) : i.WidensTo k := by
  cases hij with
  | same => exact hjk
  | long b target =>
    cases hjk
    exact .long b target

theorem Instruction.WidensTo.targets {i j : Instruction} (h : i.WidensTo j) : j.targets = i.targets := by
  cases h <;> rfl

namespace Code

variable {code wider : Code} {b : Branch} {target : Label} {l : Layout} {k : Nat} {α : Type} {a : α}
  {form : BranchForm}

/-- The labels stand at the same places, and every instruction at its place is the same or longer. -/
structure Widens (code wider : Code) : Prop where
  labels : wider.labels = code.labels
  size : wider.instructions.size = code.instructions.size
  instruction {k : Nat} {i : Instruction} :
    wider.instructions[k]? = some i → ∃ j, code.instructions[k]? = some j ∧ j.WidensTo i

namespace Widens

theorem refl (code : Code) : code.Widens code := ⟨rfl, rfl, fun hi => ⟨_, hi, .same _⟩⟩

theorem trans {widest : Code} (h : code.Widens wider) (h' : wider.Widens widest) :
    code.Widens widest where
  labels := h'.labels.trans h.labels
  size := h'.size.trans h.size
  instruction hi := by
    obtain ⟨j, hj, ji⟩ := h'.instruction hi
    obtain ⟨k, hk, kj⟩ := h.instruction hj
    exact ⟨k, hk, kj.trans ji⟩

theorem position? (h : code.Widens wider) (l : Label) : wider.position? l = code.position? l := by
  rw [Code.position?, Code.position?, h.labels]

theorem stop (h : code.Widens wider) : wider.stop = code.stop := h.size

theorem exists_instruction (h : code.Widens wider) {k : Nat} {j : Instruction}
    (hj : code.instructions[k]? = some j) :
    ∃ i, wider.instructions[k]? = some i ∧ j.WidensTo i := by
  have inside : k < wider.instructions.size := h.size ▸ (Array.getElem?_eq_some_iff.1 hj).1
  have hi := Array.getElem?_eq_getElem inside
  obtain ⟨j', hj', widens⟩ := h.instruction hi
  obtain rfl : j' = j := Option.some.inj (hj'.symm.trans hj)
  exact ⟨_, hi, widens⟩

end Widens

theorem widens_widened (l : Layout) : l.code.Widens l.widened where
  labels := rfl
  size := by simp [Layout.widened]
  instruction {k i} hi := by
    simp only [Layout.widened, Array.getElem?_mapIdx, Option.map_eq_some_iff] at hi
    obtain ⟨j, hj, rfl⟩ := hi
    refine ⟨j, hj, ?_⟩
    split
    · split
      · exact .long ..
      · exact .same _
    · exact .same _

theorem count_one_le (p : α → Bool) {b : α} (h : p a = true → p b = true) :
    (if p a = true then 1 else 0) ≤ if p b = true then 1 else 0 := by
  by_cases ha : p a = true
  · simp [ha, h ha]
  · simp [ha]

theorem countP_mapIdx_le (p : α → Bool) (f : Nat → α → α) (as : List α)
    (keeps : ∀ k a, p (f k a) = true → p a = true) : (as.mapIdx f).countP p ≤ as.countP p := by
  induction as generalizing f with
  | nil => simp
  | cons a as ih =>
    rw [mapIdx_cons, countP_cons, countP_cons]
    have rest := ih (fun k => f (k + 1)) fun k => keeps (k + 1)
    have first := count_one_le p (keeps 0 a)
    omega

theorem countP_mapIdx_lt (p : α → Bool) (f : Nat → α → α) (as : List α)
    (keeps : ∀ k a, p (f k a) = true → p a = true) (ha : as[k]? = some a) (before : p a = true)
    (after : p (f k a) = false) : (as.mapIdx f).countP p < as.countP p := by
  induction as generalizing f k with
  | nil => simp at ha
  | cons b as ih =>
    rw [mapIdx_cons, countP_cons, countP_cons]
    cases k with
    | zero =>
      obtain rfl : b = a := by simpa using ha
      have rest := countP_mapIdx_le p (fun k => f (k + 1)) as fun k => keeps (k + 1)
      rw [if_pos before, if_neg (by simp [after])]
      omega
    | succ k =>
      have rest := ih (fun k => f (k + 1)) (fun k => keeps (k + 1)) (by simpa using ha) after
      have first := count_one_le p (keeps 0 b)
      omega

/-- A branch that is free to grow and does not reach makes the next round different. -/
theorem autoBranches_widened_lt (l : Layout)
    (hi : l.code.instructions[k]? = some (.branch b target .auto))
    (misses : (l.miss? k target).isSome) : l.widened.autoBranches < l.code.autoBranches := by
  simp only [autoBranches, Layout.widened, ← Array.countP_toList, Array.toList_mapIdx]
  apply countP_mapIdx_lt _ _ _ ?_ (k := k) (a := .branch b target .auto)
  · simpa using hi
  · rfl
  · simp [misses, Instruction.isAuto]
  · intro j i
    split
    · intro _; rfl
    · exact id

theorem forcedMisses_eq_nil (h : l.outOfRange? = none) : l.forcedMisses = [] := by
  rw [Layout.outOfRange?] at h
  split at h
  · assumption
  · cases h

theorem miss?_of_forced (h : l.outOfRange? = none)
    (hi : l.code.instructions[k]? = some (.branch b target .short)) : l.miss? k target = none := by
  have noMiss := filterMap_eq_nil_iff.1 (forcedMisses_eq_nil h) (.branch b target .short, k)
    (by simpa [mem_zipIdx_iff_getElem?] using hi)
  cases placed : l.code.labels[target]? with
  | none => simp [Layout.miss?, Layout.distance?, position?, placed]
  | some place => exact Option.eq_none_iff_forall_ne_some.2 (by simpa [placed] using noMiss)

/-- Every short branch reaches its target. -/
structure Settled (code wider : Code) : Prop extends Widens code wider where
  reaches {k : Nat} {b : Branch} {target : Label} {form : BranchForm} :
    wider.instructions[k]? = some (.branch b target form) → wider.layout.miss? k target = none

theorem reaches_of_final (inRange : code.layout.outOfRange? = none)
    (final : ¬ code.layout.widened.autoBranches < code.autoBranches)
    (hi : code.instructions[k]? = some (.branch b target form)) :
    code.layout.miss? k target = none := by
  cases form with
  | auto =>
    apply Option.not_isSome_iff_eq_none.1
    intro misses
    exact final (autoBranches_widened_lt code.layout hi misses)
  | short => exact miss?_of_forced inRange hi
  | long => simp [Layout.miss?, hasShortBranch_layout code hi, isShort]

theorem relax_eq_ok (h : code.relax = .ok l) : ∃ wider, l = wider.layout ∧ code.Settled wider := by
  fun_induction relax code with
  | case1 => cases h
  | case2 code layout inRange wider smaller ih =>
    obtain ⟨widest, rfl, settled⟩ := ih h
    exact ⟨widest, rfl, ⟨(widens_widened code.layout).trans settled.toWidens, settled.reaches⟩⟩
  | case3 code layout inRange wider final =>
    obtain rfl : layout = l := by simpa using h
    exact ⟨code, rfl, ⟨.refl code, reaches_of_final inRange final⟩⟩

theorem fitsShort_iff (distance : Int) :
    Layout.fitsShort distance = true ↔ -128 ≤ distance ∧ distance ≤ 127 := by
  simp [Layout.fitsShort]

theorem Settled.fitsShort (h : code.Settled wider)
    (hi : wider.instructions[k]? = some (.branch b target form))
    (short : wider.layout.hasShortBranch k = true) :
    Layout.fitsShort (wider.layout.distance k target) = true := by
  have reached := h.reaches hi
  rw [Layout.miss?, if_pos short] at reached
  rw [Layout.distance]
  cases distance : wider.layout.distance? k target with
  | none => rfl
  | some d => simpa [distance] using reached

/-- Every label stands in the code. -/
def Bounded (code : Code) : Prop := ∀ l p, code.position? l = some p → p ≤ code.stop

theorem Widens.bounded (h : code.Widens wider) (bounded : code.Bounded) :
    wider.Bounded := fun l p placed => by
  rw [h.stop]
  exact bounded l p ((h.position? l).symm.trans placed)

theorem Bounded.push (h : code.Bounded) (i : Instruction) : (code.push i).Bounded := fun l p placed => by
  rw [Code.stop, Code.push, Array.size_push]
  exact Nat.le_succ_of_le (h l p placed)

theorem Bounded.place (h : code.Bounded) (l : Label) : (code.place l).Bounded := fun t p placed => by
  rw [Code.position?, Code.place, Std.TreeMap.getElem?_insert] at placed
  split at placed
  · exact Nat.le_of_eq (Option.some.inj placed).symm
  · exact h t p placed

end Code
end Cil
