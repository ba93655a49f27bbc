import Cil.Proofs.Disassembly
import Cil.Proofs.EncodedBody
import Mathlib.Data.List.Induction
import Mathlib.Data.List.Nodup

/-!
Labels stand at one place each. The code of a draft is written by instructions and labels in some order;
no label comes twice, an internal label is placed behind all branches to it, and at the end none is
missing. So in the final code every target is as far from its branch as the place of its label is.
-/

namespace Cil

open List
namespace Code

/-- What is written to a code. -/
inductive Item
  | instruction (i : Instruction)
  | label (l : Label)

namespace Item

def instruction? : Item → Option Instruction
  | instruction i => some i
  | label _ => none

def label? : Item → Option Label
  | instruction _ => none
  | label l => some l

end Item

def add (code : Code) : Item → Code
  | .instruction i => code.push i
  | .label l => code.place l

def written (items : List Item) : Code := items.foldl add {}

def instructionsOf (items : List Item) : List Instruction := items.filterMap Item.instruction?

def labelsOf (items : List Item) : List Label := items.filterMap Item.label?

@[simp] theorem instructionsOf_append (es fs : List Item) :
    instructionsOf (es ++ fs) = instructionsOf es ++ instructionsOf fs := filterMap_append

@[simp] theorem labelsOf_append (es fs : List Item) :
    labelsOf (es ++ fs) = labelsOf es ++ labelsOf fs := filterMap_append

@[simp] theorem instructionsOf_instruction (i : Instruction) :
    instructionsOf [.instruction i] = [i] := rfl

@[simp] theorem instructionsOf_label (l : Label) : instructionsOf [.label l] = [] := rfl

@[simp] theorem labelsOf_instruction (i : Instruction) : labelsOf [.instruction i] = [] := rfl

@[simp] theorem labelsOf_label (l : Label) : labelsOf [.label l] = [l] := rfl

@[simp] theorem written_append (items : List Item) (e : Item) :
    written (items ++ [e]) = (written items).add e := by
  simp [written]

theorem toList_instructions_written (items : List Item) :
    (written items).instructions.toList = instructionsOf items := by
  induction items using List.reverseRecOn with
  | nil => rfl
  | append_singleton items e ih =>
    rw [written_append, instructionsOf_append]
    cases e with
    | instruction i => simp [add, push, ih]
    | label l => simp [add, place, ih]

theorem size_instructions_written (items : List Item) :
    (written items).instructions.size = (instructionsOf items).length := by
  rw [← toList_instructions_written, Array.length_toList]

theorem isPlaced_written (items : List Item) (l : Label) :
    (written items).isPlaced l = true ↔ l ∈ labelsOf items := by
  induction items using List.reverseRecOn with
  | nil => simp [written, isPlaced, labelsOf]
  | append_singleton items e ih =>
    rw [written_append, labelsOf_append, mem_append, ← ih]
    cases e with
    | instruction i => simp [add, push, isPlaced]
    | label l' => simp [add, place, isPlaced, or_comm, eq_comm (a := l')]

theorem position?_written {before after : List Item} {l : Label} (once : l ∉ labelsOf after) :
    (written (before ++ .label l :: after)).position? l = some (instructionsOf before).length := by
  induction after using List.reverseRecOn with
  | nil => simp [add, place, position?, size_instructions_written]
  | append_singleton after e ih =>
    rw [labelsOf_append, mem_append, not_or] at once
    rw [← ih once.1, ← cons_append, ← append_assoc, written_append]
    cases e with
    | instruction i => rfl
    | label l' =>
      have other : l' ≠ l := by
        intro same
        exact once.2 (by simp [same])
      simp [add, place, position?, Std.TreeMap.getElem?_insert, other]

end Code

theorem Opcode.Takes.wellFormed {op : Opcode} {known : List (Named × Token)} {operand : Bytes}
    (h : op.Takes known operand) : (Instruction.simple op operand).WellFormed := by
  cases kind : op.operand? with
  | none => simp [Takes, kind] at h
  | some kind' =>
    refine ⟨kind', kind, ?_⟩
    cases kind' with
    | nothing | number => simp_all [Takes, OperandKind.plainSize?]
    | token k =>
      simp only [Takes, kind] at h
      obtain ⟨_, _, value, _, _, _, rfl⟩ := h
      simp [OperandKind.plainSize?]
    | target | switch => simp [Takes, kind] at h

namespace Compile

open Code

variable {ctx : BodyContext} {sound : Prop} {x y : Situation} {items : List Item}

/-- The code of a draft is written by the items; every label comes once, and an internal one that is
branched to is placed or pending. -/
structure Scoped (x : Situation) (items : List Item) : Prop where
  code : x.draft.code = written items
  once : (labelsOf items).Nodup
  numbered {n : Nat} : .internal n ∈ labelsOf items → n < x.draft.internalLabels
  pending {l : Label} : l ∈ x.pending →
    l ∉ labelsOf items ∧ ∃ n < x.draft.internalLabels, l = .internal n
  different : x.pending.Nodup
  targets {i : Instruction} {l : Label} : i ∈ instructionsOf items → l ∈ i.targets →
    l.isInternal = true → l ∈ labelsOf items ∨ l ∈ x.pending
  wellFormed {i : Instruction} : i ∈ instructionsOf items → i.WellFormed

namespace Scoped

variable {x y : Situation} {items : List Item}

theorem congr (h : Scoped x items) (code : y.draft.code = x.draft.code)
    (labels : y.draft.internalLabels = x.draft.internalLabels) (pending : y.pending = x.pending) :
    Scoped y items where
  code := code.trans h.code
  once := h.once
  numbered placed := labels ▸ h.numbered placed
  pending hl := labels ▸ h.pending (pending ▸ hl)
  different := pending ▸ h.different
  targets hi hl isInternal := pending ▸ h.targets hi hl isInternal
  wellFormed := h.wellFormed

theorem instruction (h : Scoped x items) {i : Instruction} (draft : y.draft = x.draft.push i)
    (pending : y.pending = x.pending) (wellFormed : i.WellFormed)
    (targets : ∀ l ∈ i.targets, l.isInternal = true → l ∈ x.pending) :
    Scoped y (items ++ [.instruction i]) where
  code := by
    rw [written_append, ← h.code, draft]
    rfl
  once := by simpa using h.once
  numbered placed := by
    rw [draft]
    exact h.numbered (by simpa using placed)
  pending hl := by
    rw [labelsOf_append, labelsOf_instruction, append_nil, draft]
    exact h.pending (pending ▸ hl)
  different := pending ▸ h.different
  targets {j l} hj hl isInternal := by
    rw [instructionsOf_append, mem_append] at hj
    rw [pending]
    rcases hj with old | new
    · simpa using h.targets old hl isInternal
    · obtain rfl : j = i := by simpa using new
      exact .inr (targets l hl isInternal)
  wellFormed {j} hj := by
    rw [instructionsOf_append, mem_append] at hj
    rcases hj with old | new
    · exact h.wellFormed old
    · obtain rfl : j = i := by simpa using new
      exact wellFormed

theorem label (h : Scoped x items) (code : y.draft.code = x.draft.code)
    (labels : y.draft.internalLabels = x.draft.internalLabels + 1)
    (pending : y.pending = .internal x.draft.internalLabels :: x.pending) : Scoped y items where
  code := code.trans h.code
  once := h.once
  numbered placed := labels ▸ Nat.lt_succ_of_lt (h.numbered placed)
  pending {l} hl := by
    rw [pending] at hl
    rw [labels]
    rcases mem_cons.1 hl with rfl | old
    · refine ⟨fun placed => ?_, x.draft.internalLabels, Nat.lt_succ_self _, rfl⟩
      exact Nat.lt_irrefl _ (h.numbered placed)
    · obtain ⟨missing, n, hn, rfl⟩ := h.pending old
      exact ⟨missing, n, Nat.lt_succ_of_lt hn, rfl⟩
  different := by
    rw [pending]
    refine nodup_cons.2 ⟨fun old => ?_, h.different⟩
    obtain ⟨_, n, hn, same⟩ := h.pending old
    cases same
    exact Nat.lt_irrefl _ hn
  targets hi hl isInternal :=
    (h.targets hi hl isInternal).imp id fun old => pending ▸ mem_cons_of_mem _ old
  wellFormed := h.wellFormed

theorem place (h : Scoped x items) {l : Label} (draft : y.draft = x.draft.place l)
    (missing : l ∉ labelsOf items) (numbered : ∀ n, l = .internal n → n < x.draft.internalLabels)
    (sub : ∀ l' ∈ y.pending, l' ∈ x.pending ∧ l' ≠ l)
    (sup : ∀ l' ∈ x.pending, l' = l ∨ l' ∈ y.pending) (different : y.pending.Nodup) :
    Scoped y (items ++ [.label l]) where
  code := by
    rw [written_append, ← h.code, draft]
    rfl
  once := by
    rw [labelsOf_append, labelsOf_label, nodup_append]
    refine ⟨h.once, by simp, fun a ha b hb same => missing ?_⟩
    rwa [← mem_singleton.1 hb, ← same]
  numbered {n} placed := by
    rw [labelsOf_append, mem_append] at placed
    rw [draft]
    rcases placed with old | new
    · exact h.numbered old
    · exact numbered n (by simpa [eq_comm] using new)
  pending {l'} hl' := by
    obtain ⟨old, other⟩ := sub l' hl'
    obtain ⟨notPlaced, isInternal⟩ := h.pending old
    rw [draft]
    exact ⟨by simp [notPlaced, other], isInternal⟩
  different := different
  targets {i l'} hi hl' isInternal := by
    rw [instructionsOf_append, instructionsOf_label, append_nil] at hi
    rcases h.targets hi hl' isInternal with placed | waiting
    · exact .inl (by simp [placed])
    · rcases sup l' waiting with rfl | still
      · exact .inl (by simp)
      · exact .inr still
  wellFormed {i} hi := h.wellFormed (by simpa using hi)

end Scoped

theorem Reaches.pending {K : List Event} {s : Scene} {leaving : Bool} {depth : Nat} {l : Label}
    (h : Reaches sound ctx K s leaving depth l) (isInternal : l.isInternal = true) :
    l ∈ s.pending.map (·.label) := by
  cases l with
  | block id => cases isInternal
  | internal n =>
    obtain ⟨p, member, same, _⟩ := h
    exact mem_map.2 ⟨p, member, same⟩

theorem Step.scoped (step : Step sound ctx x y) (h : Scoped x items) :
    ∃ more, Scoped y (items ++ more) := by
  cases step with
  | guess | heights | scope | point | named | blob | openAttempt | closeAttempt | closeFilter | openPart
  | openCleanup | closeWhole | clause =>
    refine ⟨[], ?_⟩
    rw [append_nil]
    exact h.congr rfl rfl rfl
  | plain op operand depth writable takes =>
    exact ⟨_, h.instruction rfl rfl takes.wellFormed nofun⟩
  | branch b target form depth writable reaches =>
    refine ⟨_, h.instruction rfl rfl trivial fun l hl isInternal => ?_⟩
    obtain rfl : l = target := by simpa [Instruction.targets] using hl
    exact reaches.pending isInternal
  | switch targets =>
    refine ⟨_, h.instruction rfl rfl trivial fun l hl isInternal => ?_⟩
    obtain ⟨id, _, rfl⟩ := mem_map.1 hl
    cases isInternal
  | label =>
    refine ⟨[], ?_⟩
    rw [append_nil]
    exact h.label rfl rfl rfl
  | place p rest writable perm =>
    have labels := perm.map (·.label)
    rw [map_cons] at labels
    have distinct := nodup_cons.1 (labels.nodup_iff.1 h.different)
    obtain ⟨missing, n, hn, same⟩ := h.pending (labels.mem_iff.2 mem_cons_self)
    refine ⟨_, h.place rfl missing (fun _ same' => ?_) (fun l' hl' => ⟨?_, ?_⟩) (fun l' hl' => ?_)
      distinct.2⟩
    · rw [same] at same'
      cases same'
      exact hn
    · exact labels.mem_iff.2 (mem_cons_of_mem _ hl')
    · rintro rfl
      exact distinct.1 hl'
    · exact mem_cons.1 (labels.mem_iff.1 hl')
  | block id writable fresh =>
    have missing : Label.block id ∉ labelsOf items := by
      rw [← isPlaced_written, ← h.code]
      exact Bool.not_eq_true _ ▸ fresh
    refine ⟨_, h.place rfl missing nofun (fun l hl => ⟨hl, ?_⟩) (fun l hl => .inr hl) h.different⟩
    obtain ⟨_, n, _, rfl⟩ := h.pending hl
    nofun

theorem Steps.scoped (steps : Steps sound ctx x y) (h : Scoped x items) :
    ∃ more, Scoped y (items ++ more) := by
  induction steps with
  | refl => exact ⟨[], by rwa [append_nil]⟩
  | tail _ step ih =>
    obtain ⟨more, before⟩ := ih
    obtain ⟨last, after⟩ := step.scoped before
    exact ⟨more ++ last, by rwa [← append_assoc]⟩

theorem scoped_empty (K : List Event) (s : Session) : Scoped ⟨{}, 0, K, {}, s⟩ [] where
  code := rfl
  once := nodup_nil
  numbered := nofun
  pending := nofun
  different := nodup_nil
  targets := nofun
  wellFormed := nofun

end Compile
end Cil
