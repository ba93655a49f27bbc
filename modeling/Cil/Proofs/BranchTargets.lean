import Cil.Proofs.Labels

/-!
Branches in the final code. Each reads back with the distance from the place behind it to the place of
its label, in the short form or the long one, and so does every entry of a switch.
-/

namespace Cil

open List

variable {items : List Item} {wider : Code} {l : Label}

theorem exists_of_forall₂ {α β : Type} {R : α → β → Prop} {as : List α} {bs : List β}
    (h : List.Forall₂ R as bs) {b : β} (hb : b ∈ bs) : ∃ a ∈ as, R a b := by
  obtain ⟨i, hi, rfl⟩ := getElem_of_mem hb
  obtain ⟨length, each⟩ := forall₂_iff_get.1 h
  exact ⟨_, get_mem .., each i (length ▸ hi) hi⟩

namespace Code

theorem Layout.getElem?_listing (l : Layout) (k : Nat) :
    (l.listingFrom 0)[k]? =
      l.code.instructions[k]?.map fun i => (l.offset k, l.reading k i) := by
  simp [listingFrom, List.getElem?_zipIdx]
  cases l.code.instructions[k]? <;> rfl

/-- The offset of the instruction at a position of a listing, or the end of the code. -/
def startOf (listing : List (Nat × Reading)) (size : Nat) (position : Nat) : Nat :=
  (listing[position]?.map (·.1)).getD size

theorem startOf_listing (code : Code) {k : Nat} (hk : k ≤ code.stop) :
    startOf (code.layout.listingFrom 0) code.layout.size k = code.layout.offset k := by
  rw [startOf, Layout.getElem?_listing]
  rcases Nat.lt_or_eq_of_le hk with inside | rfl
  · have hi : code.layout.code.instructions[k]? = some _ := Array.getElem?_eq_getElem inside
    rw [hi]
    rfl
  · have hi : code.layout.code.instructions[code.stop]? = none :=
      Array.getElem?_eq_none (Nat.le_refl _)
    rw [hi]
    rfl

/-- The label is placed at an offset: that of the instruction behind the ones written before it. -/
def StandsAt (items : List Item) (start : Nat → Nat) (l : Label) (offset : Nat) : Prop :=
  ∃ before after, items = before ++ .label l :: after ∧
    offset = start (instructionsOf before).length

theorem exists_split_of_mem_labelsOf (h : l ∈ labelsOf items) :
    ∃ before after, items = before ++ .label l :: after := by
  obtain ⟨item, member, isLabel⟩ := mem_filterMap.1 h
  cases item with
  | instruction i => cases isLabel
  | label l' =>
    cases isLabel
    exact append_of_mem member

theorem StandsAt.of_position? (once : (labelsOf items).Nodup) (placed : l ∈ labelsOf items)
    (start : Nat → Nat) :
    ∃ p, (written items).position? l = some p ∧ p ≤ (instructionsOf items).length ∧
      StandsAt items start l (start p) := by
  obtain ⟨before, after, rfl⟩ := exists_split_of_mem_labelsOf placed
  have later : l ∉ labelsOf after := by
    rw [← singleton_append, labelsOf_append, labelsOf_append, labelsOf_label,
      nodup_append, nodup_append] at once
    exact fun hl => once.2.1.2.2 l (mem_singleton_self l) l hl rfl
  refine ⟨_, position?_written later, ?_, before, after, rfl, rfl⟩
  rw [instructionsOf_append, length_append]
  exact Nat.le_add_right ..

end Code

/-- What an instruction reads as when it ends at `next` and labels stand at known offsets. -/
inductive Instruction.ReadsAs (stands : Label → Nat → Prop) (next : Nat) : Instruction → Reading → Prop
  | simple (op : Opcode) (operand : Bytes) :
      ReadsAs stands next (.simple op operand) (.plain op operand)
  | short (b : Branch) (target : Label) (form : BranchForm) (offset : Nat)
      (place : stands target offset) (allowed : form ≠ .long) :
      ReadsAs stands next (.branch b target form) (.branch b.short (offset - next))
  | long (b : Branch) (target : Label) (form : BranchForm) (offset : Nat)
      (place : stands target offset) (allowed : form ≠ .short) :
      ReadsAs stands next (.branch b target form) (.branch b.long (offset - next))
  | switch (targets : List Label) (offsets : List Nat)
      (places : List.Forall₂ stands targets offsets) :
      ReadsAs stands next (.switch targets) (.switch (offsets.map fun (o : Nat) => (o : Int) - next))

namespace Code

variable {code : Code} {k : Nat} {stands : Label → Nat → Prop}

theorem Settled.distance (settled : code.Settled wider) {p : Nat} (h : code.position? l = some p) :
    wider.layout.distance k l = wider.layout.offset p - wider.layout.offset (k + 1) := by
  rw [Layout.distance, Layout.distance?, layout_code, settled.position?, h]
  rfl

theorem Settled.distances (settled : code.Settled wider) (k : Nat) {ls : List Label}
    (places : ∀ l ∈ ls, ∃ p, code.position? l = some p ∧ stands l (wider.layout.offset p)) :
    ∃ offsets : List Nat, List.Forall₂ stands ls offsets ∧
      ls.map (wider.layout.distance k) =
        offsets.map fun (o : Nat) => (o : Int) - wider.layout.offset (k + 1) := by
  induction ls with
  | nil => exact ⟨[], .nil, rfl⟩
  | cons l ls ih =>
    obtain ⟨p, hp, place⟩ := places l mem_cons_self
    obtain ⟨offsets, rest, distances⟩ := ih fun l' hl' => places l' (mem_cons_of_mem l hl')
    refine ⟨wider.layout.offset p :: offsets, .cons place rest, ?_⟩
    rw [map_cons, map_cons, distances, settled.distance hp]

/-- A settled instruction reads with the distances of its targets, in a form that was allowed. -/
theorem Settled.readsAs (settled : code.Settled wider) (small : wider.layout.size < 0x80000000)
    {i j : Instruction} (hi : wider.instructions[k]? = some i) (widens : j.WidensTo i)
    (places : ∀ l ∈ j.targets, ∃ p, code.position? l = some p ∧ stands l (wider.layout.offset p)) :
    j.ReadsAs stands (wider.layout.offset (k + 1)) (wider.layout.reading k i) := by
  cases i with
  | simple op operand =>
    cases widens
    exact .simple op operand
  | switch targets =>
    cases widens
    obtain ⟨offsets, stand, distances⟩ := settled.distances k places
    rw [Instruction.targets] at stand distances
    have read : targets.map (wider.layout.stored 4 k) = targets.map (wider.layout.distance k) :=
      map_congr_left fun l _ => layout_stored_four wider small k l
    rw [Layout.reading, read, distances]
    exact .switch targets offsets stand
  | branch b target form =>
    have short := hasShortBranch_layout wider hi
    have target_mem : target ∈ j.targets := by
      cases widens <;> exact mem_singleton_self target
    obtain ⟨p, hp, place⟩ := places target target_mem
    rw [Layout.reading]
    cases isShort : wider.layout.hasShortBranch k with
    | true =>
      rw [if_pos rfl, settled.stored_one hi isShort, settled.distance hp]
      have allowed : form ≠ .long := by
        rintro rfl
        simp [isShort, Code.isShort] at short
      cases widens with
      | same => exact .short b target form _ place allowed
      | long => exact absurd rfl allowed
    | false =>
      rw [if_neg (by decide), layout_stored_four wider small, settled.distance hp]
      have allowed : form ≠ .short := by
        rintro rfl
        simp [isShort, Code.isShort] at short
      cases widens with
      | same => exact .long b target form _ place allowed
      | long => exact .long b target .auto _ place (by decide)

end Code

namespace Compile

open Code

variable {ctx : BodyContext} {s s' : Session} {d : Draft} {b : Body}

theorem Compiles.scoped (h : Compiles ctx b s d wider s') :
    ∃ K items, Scoped ⟨{ found := .ofBody b }, 0, K, d, s'⟩ items := by
  obtain ⟨K, steps, _⟩ := h.steps False.elim
  obtain ⟨items, final⟩ := steps.scoped (scoped_empty _ s)
  exact ⟨K, _, final⟩

theorem Compiles.mem_labelsOf (h : Compiles ctx b s d wider s') {K : List Event}
    (final : Scoped ⟨{ found := .ofBody b }, 0, K, d, s'⟩ items) {i : Instruction}
    (hi : i ∈ instructionsOf items) (hl : l ∈ i.targets) : l ∈ labelsOf items := by
  cases l with
  | internal n =>
    rcases final.targets hi hl rfl with placed | pending
    · exact placed
    · cases pending
  | block id =>
    have member : i ∈ d.code.instructions := by
      rw [final.code]
      rwa [← toList_instructions_written, Array.mem_toList_iff] at hi
    rw [← isPlaced_written, ← final.code]
    exact unplaced?_eq_none h.placed member hl

theorem Compiles.disassemble (h : Compiles ctx b s d wider s')
    (room : wider.layout.size < 0x100000000) :
    Reading.disassemble wider.layout.bytes = some (wider.layout.listingFrom 0) := by
  obtain ⟨K, items, final⟩ := h.scoped
  refine disassemble_layout room fun i hi => ?_
  obtain ⟨k, hk, rfl⟩ := Array.mem_iff_getElem.1 hi
  obtain ⟨j, hj, widens⟩ := h.settled.instruction (Array.getElem?_eq_getElem hk)
  have wellFormed : j.WellFormed := by
    apply final.wellFormed
    rw [← toList_instructions_written, ← final.code, Array.mem_toList_iff]
    exact Array.mem_of_getElem? hj
  generalize wider.instructions[k] = i at widens
  cases widens with
  | same => exact wellFormed
  | long => trivial

/-- Code reads back as what was written: the instructions in their order, every target at the place of
its label, and each of these labels at one place. -/
structure Resolves (items : List Item) (code : Bytes) (listing : List (Nat × Reading)) : Prop where
  listed : Reading.disassemble code = some listing
  length : listing.length = (instructionsOf items).length
  once {i : Instruction} {l : Label} : i ∈ instructionsOf items → l ∈ i.targets →
    (labelsOf items).count l = 1
  reads {k : Nat} {i : Instruction} : (instructionsOf items)[k]? = some i →
    ∃ offset reading, listing[k]? = some (offset, reading) ∧
      i.ReadsAs (StandsAt items (startOf listing code.length))
        (startOf listing code.length (k + 1)) reading

theorem Compiles.resolves (h : Compiles ctx b s d wider s')
    (small : wider.layout.bytes.length < 0x80000000) {K : List Event}
    (final : Scoped ⟨{ found := .ofBody b }, 0, K, d, s'⟩ items) :
    Resolves items wider.layout.bytes (wider.layout.listingFrom 0) := by
  have instructions := toList_instructions_written items
  rw [← final.code] at instructions
  have size := length_bytes_layout wider
  have stop : wider.stop = (instructionsOf items).length := by
    rw [h.settled.stop, ← instructions, Array.length_toList]
    rfl
  rw [size] at small
  refine ⟨h.disassemble (by omega), ?_, fun hi hl => ?_, fun {k j} hj => ?_⟩
  · simp only [Layout.listingFrom, drop_zero, length_map, length_zipIdx, Array.length_toList]
    exact stop
  · exact count_eq_one_of_mem final.once (h.mem_labelsOf final hi hl)
  · obtain ⟨i, hi, widens⟩ := h.settled.exists_instruction
      (by rwa [← instructions, Array.getElem?_toList] at hj)
    have inside := (Array.getElem?_eq_some_iff.1 hi).1
    refine ⟨_, _, (Layout.getElem?_listing wider.layout k).trans (by rw [layout_code, hi]; rfl), ?_⟩
    rw [size, startOf_listing wider inside]
    refine h.settled.readsAs small hi widens fun l hl => ?_
    obtain ⟨p, position, bound, stands⟩ := StandsAt.of_position? final.once
      (h.mem_labelsOf final (mem_of_getElem? hj) hl)
      (startOf (wider.layout.listingFrom 0) wider.layout.size)
    rw [startOf_listing wider (stop ▸ bound)] at stands
    exact ⟨p, by rwa [final.code], stands⟩

/-- All operands are in. -/
theorem Compiles.pending_eq_nil (h : Compiles ctx b s d wider s') {K : List Event}
    (final : Scoped ⟨{ found := .ofBody b }, 0, K, d, s'⟩ items) {w : Writer}
    (lost : ∀ t f, f ∈ w.pending.getD t [] →
      wider.position? t = none ∧ ∃ i ∈ wider.instructions, t ∈ i.targets) (t : Label) :
    w.pending.getD t [] = [] := by
  refine eq_nil_iff_forall_not_mem.2 fun f hf => ?_
  obtain ⟨unplaced, i, hi, target⟩ := lost t f hf
  obtain ⟨k, hk, rfl⟩ := Array.mem_iff_getElem.1 hi
  obtain ⟨j, hj, widens⟩ := h.settled.instruction (Array.getElem?_eq_getElem hk)
  have written : j ∈ instructionsOf items := by
    rw [← toList_instructions_written, ← final.code, Array.mem_toList_iff]
    exact Array.mem_of_getElem? hj
  obtain ⟨p, position, _⟩ := StandsAt.of_position? final.once
    (h.mem_labelsOf final written (widens.targets ▸ target)) id
  rw [h.settled.position?, final.code, position] at unplaced
  cases unplaced

theorem branches_reach_labels {src : Source} {keepsSymbols : Bool} {row : Nat} {m : Method}
    {b : Body} {s s' : Session} {encoded : MethodBody} {symbols : Option MethodSymbols}
    (run : (encodeBody src keepsSymbols row m b).Runs s (encoded, symbols) s')
    (small : encoded.code.length < 0x80000000) :
    ∃ d s₁ items listing, (body (.ofBody src keepsSymbols m b) b).Runs ⟨{}, s⟩ () ⟨d, s₁⟩ ∧
      d.code = written items ∧ Resolves items encoded.code listing ∧
      ∃ code w, d.code.Settled code ∧ code.write = .ok w ∧ encoded.code = w.bytes.toList ∧
        w.overflow = #[] ∧ ∀ t, w.pending.getD t [] = [] := by
  obtain ⟨d, wider, s₁, locals, compiles, _, rfl⟩ := compiles_of_encodeBody run
  obtain ⟨K, items, final⟩ := compiles.scoped
  obtain ⟨w, write, bytes, reached, lost⟩ :=
    write_eq_ok compiles.settled (compiles.settled.bounded compiles.bounded)
  exact ⟨d, s₁, items, _, compiles.run, final.code, compiles.resolves small final, wider, w,
    compiles.settled, write, bytes.symm, reached, compiles.pending_eq_nil final lost⟩

/-- The delivery branches forwards and backwards, far and near, and switches. -/
theorem branches_reach_labels_delivery :
    ∃ symbols s', (encodeBody courierSource false 1 courierMain delivery).Runs (.ofModule courier)
        (delivered, symbols) s' ∧
      ∃ d s₁ items listing,
        (body (.ofBody courierSource false courierMain delivery) delivery).Runs
          ⟨{}, .ofModule courier⟩ () ⟨d, s₁⟩ ∧
        d.code = written items ∧ Resolves items delivered.code listing ∧
        ∃ code w, d.code.Settled code ∧ code.write = .ok w ∧ delivered.code = w.bytes.toList ∧
          w.overflow = #[] ∧ ∀ t, w.pending.getD t [] = [] := by
  obtain ⟨symbols, s', run⟩ := encodes_delivery
  exact ⟨symbols, s', run, branches_reach_labels run (by decide +kernel)⟩

end Compile
end Cil
