import Cil.Proofs.Composition

/-!
Where the values of a body and its branches on conditions stand in its code. Compilation only writes on:
an instruction stays at its place, and since no label is placed twice, a label does as well. So each value
that a body compiles has a stretch of the final code, which is the one that its own compilation wrote.
-/

namespace Cil

open List
variable {code : Code}

namespace Code

variable {longer : Code}

/-- More has been written behind the code. -/
def Extends (code longer : Code) : Prop := ∃ items : List Item, items.foldl add code = longer

namespace Extends

theorem refl (code : Code) : code.Extends code := ⟨[], rfl⟩

theorem trans {longest : Code} (h : code.Extends longer) (h' : longer.Extends longest) :
    code.Extends longest := by
  obtain ⟨items, rfl⟩ := h
  obtain ⟨more, rfl⟩ := h'
  exact ⟨items ++ more, foldl_append ..⟩

theorem push (code : Code) (i : Instruction) : code.Extends (code.push i) := ⟨[.instruction i], rfl⟩

theorem place (code : Code) (l : Label) : code.Extends (code.place l) := ⟨[.label l], rfl⟩

theorem getElem? (h : code.Extends longer) {k : Nat} {i : Instruction}
    (hi : code.instructions[k]? = some i) : longer.instructions[k]? = some i := by
  obtain ⟨items, rfl⟩ := h
  induction items generalizing code with
  | nil => exact hi
  | cons item items ih =>
    refine ih ?_
    cases item with
    | label l => exact hi
    | instruction j =>
      have inside := (Array.getElem?_eq_some_iff.1 hi).1
      rw [add, Code.push, Array.getElem?_push_lt inside, ← Array.getElem?_eq_getElem inside, hi]

end Extends

/-- The labels are numbered in the order in which they were placed, each of them once. -/
structure Ranked (code : Code) : Prop where
  lt {l : Label} {p : Place} : code.labels[l]? = some p → p.rank < code.labels.size
  inj {l l' : Label} {p p' : Place} : code.labels[l]? = some p → code.labels[l']? = some p' →
    p.rank = p'.rank → l = l'

theorem ranked_written {items : List Item} (once : (labelsOf items).Nodup) :
    (written items).Ranked := by
  induction items using List.reverseRecOn with
  | nil => constructor <;> simp [written]
  | append_singleton items item ih =>
    rw [labelsOf_append, nodup_append] at once
    have before := ih once.1
    rw [written_append]
    cases item with
    | instruction i => exact ⟨before.lt, before.inj⟩
    | label l =>
      have new : l ∉ (written items).labels := by
        rw [← Std.TreeMap.contains_iff_mem]
        intro placed
        exact once.2.2 l ((isPlaced_written items l).1 placed) l (by simp) rfl
      simp only [add, Code.place]
      constructor
      · intro l' p there
        rw [Std.TreeMap.size_insert, if_neg (mt Std.TreeMap.contains_iff_mem.1 new)]
        rw [Std.TreeMap.getElem?_insert] at there
        split at there
        · cases there
          exact Nat.lt_succ_self _
        · exact Nat.lt_succ_of_lt (before.lt there)
      · intro l₁ l₂ p₁ p₂ there₁ there₂ same
        rw [Std.TreeMap.getElem?_insert] at there₁ there₂
        split at there₁ <;> split at there₂
        case isTrue.isTrue h₁ h₂ =>
          exact (Std.compare_eq_iff_eq.1 h₁).symm.trans (Std.compare_eq_iff_eq.1 h₂)
        case isTrue.isFalse =>
          cases there₁
          exact absurd same.symm (Nat.ne_of_lt (before.lt there₂))
        case isFalse.isTrue =>
          cases there₂
          exact absurd same (Nat.ne_of_lt (before.lt there₁))
        case isFalse.isFalse => exact before.inj there₁ there₂ same

theorem Ranked.of_place {l : Label} (h : (code.place l).Ranked) : code.Ranked ∧ l ∉ code.labels := by
  have here : (code.place l).labels[l]? = some ⟨code.instructions.size, code.labels.size⟩ :=
    Std.TreeMap.getElem?_insert_self
  have new : l ∉ code.labels := by
    intro old
    -- A label that is placed again leaves the number of labels as it was, which is its rank.
    have := h.lt here
    rw [Code.place, Std.TreeMap.size_insert, if_pos (Std.TreeMap.contains_iff_mem.2 old)] at this
    exact Nat.lt_irrefl _ this
  have kept {l' : Label} {p : Place} (there : code.labels[l']? = some p) :
      l' ≠ l ∧ (code.place l).labels[l']? = some p := by
    have other : l' ≠ l := by
      rintro rfl
      rw [Std.TreeMap.getElem?_eq_none new] at there
      cases there
    refine ⟨other, ?_⟩
    rw [Code.place, Std.TreeMap.getElem?_insert, if_neg (by simpa using other.symm), there]
  refine ⟨⟨fun {l' p} there => ?_, fun there₁ there₂ => h.inj (kept there₁).2 (kept there₂).2⟩, new⟩
  obtain ⟨other, later⟩ := kept there
  have bound := h.lt later
  rw [Code.place, Std.TreeMap.size_insert, if_neg (mt Std.TreeMap.contains_iff_mem.1 new)] at bound
  have different : p.rank ≠ code.labels.size := fun same => other (h.inj later here same)
  omega

theorem Extends.position? (h : code.Extends longer) (ranked : longer.Ranked) {l : Label} {p : Nat}
    (there : code.position? l = some p) : longer.position? l = some p := by
  obtain ⟨items, rfl⟩ := h
  induction items using List.reverseRecOn with
  | nil => exact there
  | append_singleton items item ih =>
    rw [foldl_append, foldl_cons, foldl_nil] at ranked ⊢
    cases item with
    | instruction i => exact ih ⟨ranked.lt, ranked.inj⟩
    | label l' =>
      obtain ⟨before, new⟩ := ranked.of_place
      have earlier := ih before
      have other : l' ≠ l := by
        rintro rfl
        rw [Code.position?, Std.TreeMap.getElem?_eq_none new] at earlier
        cases earlier
      rw [← earlier]
      simp [add, Code.place, Code.position?, Std.TreeMap.getElem?_insert, other]

end Code

namespace Draft.Change

variable {d d' : Draft} {marks : List Mark}

theorem extendsCode (h : d.Change marks d') : d.code.Extends d'.code := by
  cases h with
  | instruction i => exact .push ..
  | place l => exact .place ..
  | heights | label | clause | opened | named | closed | point => exact .refl _

theorem isSymbol (h : d.Change marks d') : marks.all Mark.isSymbol = true := by
  cases h <;> rfl

end Draft.Change

namespace Compile

open Code

variable {ctx : BodyContext} {α : Type} {marks : List Mark} {c : Compile α} {σ σ' : State} {a : α}

theorem Composed.extendsCode (h : c.Composed ctx marks) (run : c.Runs σ a σ') :
    σ.draft.code.Extends σ'.draft.code := by
  induction h generalizing σ σ' with
  | pure | passed =>
    obtain ⟨_, rfl⟩ := runs_pure.1 run
    exact .refl _
  | bind _ _ ihc ihf =>
    obtain ⟨_, _, first, second⟩ := runs_bind.1 run
    exact (ihc first).trans (ihf _ second)
  | get =>
    obtain ⟨_, rfl⟩ := runs_get.1 run
    exact .refl _
  | modify f h =>
    obtain rfl := runs_modify.1 run
    exact (h _).extendsCode
  | modifyGet f h =>
    obtain ⟨_, rfl⟩ := runs_modifyGet.1 run
    exact (h _).extendsCode
  | emit =>
    obtain ⟨_, _, rfl⟩ := runs_emit.1 run
    exact .refl _
  | fault => exact absurd run runs_fault
  | value _ ih | fork _ ih => exact ih run

/-- A value is compiled between two states, and what was written for it is in the code. -/
structure Site (ctx : BodyContext) (code : Code) (e : Expression) (x : State × State) : Prop where
  run : (expression ctx e).Runs x.1 () x.2
  within : x.2.draft.code.Extends code

/-- A branch on a condition is as well. -/
structure ForkSite (ctx : BodyContext) (code : Code) (f : Fork) (x : State × State) : Prop where
  run : ∃ frame, (statement ctx frame (.branch (some f.test) f.target f.form)).Runs x.1 () x.2
  within : x.2.draft.code.Extends code

theorem Composed.allSites (h : c.Composed ctx marks) (run : c.Runs σ a σ')
    (within : σ'.draft.code.Extends code) :
    (∃ sites, List.Forall₂ (Site ctx code) (marks.filterMap Mark.value?) sites) ∧
      ∃ sites, List.Forall₂ (ForkSite ctx code) (marks.filterMap Mark.fork?) sites := by
  have none {marks : List Mark} (symbols : marks.all Mark.isSymbol = true) :
      (∃ sites, List.Forall₂ (Site ctx code) (marks.filterMap Mark.value?) sites) ∧
        ∃ sites, List.Forall₂ (ForkSite ctx code) (marks.filterMap Mark.fork?) sites := by
    rw [(Mark.filterMap_of_isSymbol symbols).1, (Mark.filterMap_of_isSymbol symbols).2]
    exact ⟨⟨[], .nil⟩, [], .nil⟩
  induction h generalizing σ σ' with
  | pure | get | emit => exact none rfl
  | passed _ symbols => exact none symbols
  | bind _ hf ihc ihf =>
    obtain ⟨_, _, first, second⟩ := runs_bind.1 run
    obtain ⟨⟨sites₁, h₁⟩, forks₁, f₁⟩ := ihc first (((hf _).extendsCode second).trans within)
    obtain ⟨⟨sites₂, h₂⟩, forks₂, f₂⟩ := ihf _ second within
    rw [filterMap_append, filterMap_append]
    exact ⟨⟨_, rel_append h₁ h₂⟩, _, rel_append f₁ f₂⟩
  | modify f h | modifyGet f h => exact none (h σ.draft).isSymbol
  | fault => exact absurd run runs_fault
  | value _ ih =>
    obtain ⟨⟨sites, h⟩, forks⟩ := ih run within
    exact ⟨⟨(σ, σ') :: sites, .cons ⟨run, within⟩ h⟩, forks⟩
  | fork _ ih =>
    obtain ⟨sites, forks, h⟩ := ih run within
    exact ⟨sites, (σ, σ') :: forks, .cons ⟨⟨_, run⟩, within⟩ h⟩

end Compile
end Cil
