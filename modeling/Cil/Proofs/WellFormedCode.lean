import Cil.Proofs.BodyTokens
import Cil.Proofs.Histories

/-!
The code of a body is well-formed: it splits into complete instructions, all that is said of places in
it names ends of instructions, and whatever an instruction can go to is an instruction.
-/

namespace Cil

open List

variable {x : Situation} {code wider : Code} {k offset : Nat}

namespace Reading

def reach (next : Nat) (distance : Int) : Nat := ((next + distance) % 0x100000000).toNat

/-- Where an instruction that ends at `next` can go, other than to the next one. -/
def targets (next : Nat) : Reading → List Nat
  | plain .. => []
  | branch _ distance => [reach next distance]
  | switch distances => distances.map (reach next)

theorem reach_of_emod {next : Nat} {distance : Int} (small : offset < 0x100000000)
    (same : distance % 0x100000000 = (offset - next : Int) % 0x100000000) :
    reach next distance = offset := by
  rw [reach]
  omega

end Reading

/-- What an instruction reads as, whatever its targets are. -/
def Instruction.Reads : Instruction → Reading → Prop
  | .simple op operand, .plain op' operand' => op' = op ∧ operand' = operand
  | .branch b _ _, .branch op _ => op = b.short ∨ op = b.long
  | .switch targets, .switch distances => distances.length = targets.length
  | _, _ => False

namespace Code

/-- A label stands at a place that has an offset. -/
def Stands (code wider : Code) (l : Label) (offset : Nat) : Prop :=
  ∃ p, code.position? l = some p ∧ wider.layout.offset p = offset

theorem Settled.reach_stored (settled : code.Settled wider)
    (room : wider.layout.size < 0x100000000) (k : Nat) {l : Label} {p : Nat}
    (there : code.position? l = some p) :
    Reading.reach (wider.layout.offset (k + 1)) (wider.layout.stored 4 k l) =
      wider.layout.offset p := by
  refine Reading.reach_of_emod (Nat.lt_of_le_of_lt (layout_offset_le_size wider p) room) ?_
  have wraps := Bytes.toInt_signed_emod 4 (wider.layout.distance k l)
  have size : (Nat.pow 256 4 : Int) = 0x100000000 := rfl
  rw [Layout.stored, ← size, wraps, settled.distance there]

/-- A settled instruction reads as itself, and its targets are where its labels stand. -/
theorem Settled.targets_reading (settled : code.Settled wider)
    (room : wider.layout.size < 0x100000000) {i j : Instruction}
    (hi : wider.instructions[k]? = some i) (widens : j.WidensTo i)
    (places : ∀ l ∈ j.targets, ∃ p, code.position? l = some p) :
    j.Reads (wider.layout.reading k i) ∧ List.Forall₂ (code.Stands wider) j.targets
      ((wider.layout.reading k i).targets (wider.layout.offset (k + 1))) := by
  cases i with
  | simple op operand =>
    cases widens
    exact ⟨⟨rfl, rfl⟩, .nil⟩
  | switch targets =>
    cases widens
    refine ⟨length_map _, ?_⟩
    rw [Layout.reading, Reading.targets, map_map, Instruction.targets,
      forall₂_map_right_iff, forall₂_same]
    intro l hl
    obtain ⟨p, there⟩ := places l hl
    refine ⟨p, there, ?_⟩
    rw [Function.comp_apply, settled.reach_stored room k there]
  | branch b target form =>
    have reads : j.Reads (wider.layout.reading k (.branch b target form)) ∧ j.targets = [target] := by
      cases widens <;> (rw [Layout.reading]; split) <;> simp [Instruction.Reads, Instruction.targets]
    rw [reads.2] at places ⊢
    obtain ⟨p, there⟩ := places target (mem_singleton_self target)
    refine ⟨reads.1, ?_⟩
    rw [Layout.reading]
    split
    case isTrue short =>
      refine .cons ⟨p, there, ?_⟩ .nil
      rw [settled.stored_one hi short, settled.distance there]
      refine (Reading.reach_of_emod ?_ rfl).symm
      exact Nat.lt_of_le_of_lt (layout_offset_le_size wider p) room
    case isFalse => exact .cons ⟨p, there, (settled.reach_stored room k there).symm⟩ .nil

end Code

namespace Compile

open Code

variable {ctx : BodyContext} {s : Session} {sound : Prop} {b : Body} {s' : Session} {d : Draft}

/-- The events of a history that are kept for symbols have places in the code. -/
structure Noted (x : Situation) : Prop where
  scopes {e place} : e ∈ x.draft.scopes → e = .opened place ∨ e = .closed place →
    place ≤ x.draft.code.stop
  points {p} : p ∈ x.draft.points → p.1 ≤ x.draft.code.stop

theorem Step.noted {y : Situation} (step : Step sound ctx x y) (h : Noted x) : Noted y := by
  cases step with
  | guess | heights | label | named | blob | place | block | openAttempt | closeAttempt | openPart
  | closeFilter | openCleanup | closeWhole | clause => exact ⟨h.scopes, h.points⟩
  | plain | branch | switch =>
    have stop (d : Draft) (i : Instruction) : d.code.stop ≤ (d.push i).code.stop := by
      simp [Draft.push, Code.push, Code.stop]
    exact ⟨fun he hp => Nat.le_trans (h.scopes he hp) (stop _ _),
      fun hp => Nat.le_trans (h.points hp) (stop _ _)⟩
  | scope event there =>
    refine ⟨fun {e place} he hp => ?_, h.points⟩
    rcases Array.mem_push.1 he with old | rfl
    · exact h.scopes old hp
    · exact Nat.le_of_eq (there place hp)
  | point span =>
    refine ⟨h.scopes, fun {p} hp => ?_⟩
    rcases Array.mem_push.1 hp with old | rfl
    · refine h.points ?_
      split at old
      · rw [← Array.mem_toList_iff, Array.toList_pop] at old
        exact Array.mem_toList_iff.1 (dropLast_subset _ old)
      · exact old
    · exact Nat.le_refl _

theorem Steps.noted (h : Steps sound ctx (.start s) x) : Noted x := by
  refine Steps.invariant ⟨?_, ?_⟩ (fun _ step => step.noted) h
  · simp [Situation.start]
  · simp [Situation.start]

theorem Compiles.position_target (h : Compiles ctx b s d wider s') {i : Instruction}
    (hi : i ∈ d.code.instructions) {l : Label} (hl : l ∈ i.targets) :
    ∃ p < d.code.stop, d.code.position? l = some p := by
  obtain ⟨K, steps, shut⟩ := h.steps False.elim
  obtain ⟨items, ordered⟩ := steps.exists_scoped
  have code : d.code = written items := ordered.code
  have written : i ∈ instructionsOf items := by
    rwa [← toList_instructions_written, ← code, Array.mem_toList_iff]
  obtain ⟨p, there, _⟩ := StandsAt.of_position? ordered.once (h.mem_labelsOf ordered written hl) id
  rw [← code] at there
  exact ⟨p, steps.labelled.lt_stop shut hi hl there, there⟩

theorem Compiles.listed (h : Compiles ctx b s d wider s') (room : wider.layout.size < 0x100000000)
    {reading : Reading} (line : (wider.layout.listingFrom 0)[k]? = some (offset, reading)) :
    ∃ i, d.code.instructions[k]? = some i ∧ offset = wider.layout.offset k ∧ i.Reads reading ∧
      List.Forall₂ (d.code.Stands wider) i.targets
        (reading.targets (wider.layout.offset (k + 1))) := by
  rw [Layout.getElem?_listing, layout_code, Option.map_eq_some_iff] at line
  obtain ⟨i, hi, same⟩ := line
  cases same
  obtain ⟨j, hj, widens⟩ := h.settled.instruction hi
  refine ⟨j, hj, rfl, h.settled.targets_reading room hi widens fun l hl => ?_⟩
  obtain ⟨p, _, there⟩ := h.position_target (Array.mem_of_getElem? hj) hl
  exact ⟨p, there⟩

/-- At an offset an instruction starts, or the code ends. -/
def Boundary (listing : List (Nat × Reading)) (code : Bytes) (offset : Nat) : Prop :=
  offset ∈ listing.map (·.1) ∨ offset = code.length

theorem offset_mem_listing (hk : k < code.stop) :
    code.layout.offset k ∈ (code.layout.listingFrom 0).map (·.1) := by
  have line := Layout.getElem?_listing code.layout k
  rw [layout_code, Array.getElem?_eq_getElem hk, Option.map_some] at line
  exact mem_map.2 ⟨_, mem_of_getElem? line, rfl⟩

theorem boundary_offset (hk : k ≤ code.stop) :
    Boundary (code.layout.listingFrom 0) code.layout.bytes (code.layout.offset k) := by
  rcases Nat.lt_or_eq_of_le hk with inside | rfl
  · exact .inl (offset_mem_listing inside)
  · exact .inr (length_bytes_layout code).symm

end Compile

/-- Where the ranges of a clause start and end. A filter ends where its handler starts. -/
def Clause.edges (c : Clause) : List Nat :=
  [c.tryOffset, c.tryOffset + c.tryLength, c.handlerOffset, c.handlerOffset + c.handlerLength] ++
    if c.flags = Clause.filterFlag then [c.classOrFilter.toNat] else []

def DraftClause.places (c : DraftClause) : List Nat :=
  [c.tryStart, c.tryStop, c.handlerStart, c.handlerStop] ++
    match c.guard with
    | .filter start => [start]
    | _ => []

theorem DraftClause.edges_clause {c : DraftClause} {l : Code.Layout}
    (tryRange : l.offset c.tryStart ≤ l.offset c.tryStop)
    (handlerRange : l.offset c.handlerStart ≤ l.offset c.handlerStop)
    (room : ∀ place, l.offset place < 0x100000000) :
    (c.clause l).edges = c.places.map l.offset := by
  cases guard : c.guard with
  | filter start =>
    have := room start
    have back : (UInt32.ofNat (l.offset start)).toNat = l.offset start := by
      rw [UInt32.toNat_ofNat']
      exact Nat.mod_eq_of_lt this
    simp [Clause.edges, DraftClause.clause, DraftClause.places, guard, tryRange, handlerRange, back]
  | exceptionType | anyExit | anyException =>
    simp [Clause.edges, DraftClause.clause, DraftClause.places, guard, tryRange, handlerRange,
      Clause.filterFlag, Clause.typedFlag, Clause.finallyFlag, Clause.faultFlag]

def ScopeEvent.offset? : ScopeEvent → Option Nat
  | opened offset | closed offset => some offset
  | named .. => none

def MethodSymbols.offsets (ms : MethodSymbols) : List Nat :=
  ms.scopes.filterMap ScopeEvent.offset? ++ ms.points.map (·.2.offset)

theorem Draft.mem_offsets_symbols (d : Draft) {token : Nat} {l : Code.Layout} {ms : MethodSymbols}
    (told : ms ∈ d.symbols? token l) (noted : offset ∈ ms.offsets) :
    (∃ e ∈ d.scopes, ∃ place, (e = .opened place ∨ e = .closed place) ∧ l.offset place = offset) ∨
      ∃ p ∈ d.points, l.offset p.1 = offset := by
  rw [symbols?, Option.mem_def] at told
  split at told
  · cases told
  · cases told
    rcases mem_append.1 noted with scope | point
    · obtain ⟨e', he', same⟩ := mem_filterMap.1 scope
      obtain ⟨e, he, rfl⟩ := mem_map.1 he'
      refine .inl ⟨e, Array.mem_toList_iff.1 he, ?_⟩
      cases e with
      | opened place => exact ⟨place, .inl rfl, Option.some.inj same⟩
      | closed place => exact ⟨place, .inr rfl, Option.some.inj same⟩
      | named => cases same
    · obtain ⟨p', hp', same⟩ := mem_map.1 point
      obtain ⟨p, hp, rfl⟩ := mem_map.1 hp'
      exact .inr ⟨p, Array.mem_toList_iff.1 hp, same⟩

namespace Compile

open Code

/-- The places of a clause lie in the code, and its ranges do not end before they start. -/
theorem Bounded.places (h : Bounded x) (nested : x.plan.Nested) {c : DraftClause}
    (hc : c ∈ x.draft.clauses) : c.tryStart ≤ c.tryStop ∧ c.handlerStart ≤ c.handlerStop ∧
      ∀ place ∈ c.places, place ≤ x.draft.code.stop := by
  have spans {P : List Zone} {start stop : Nat} (hP : Spans x.history P start stop) :
      start ≤ stop ∧ stop ≤ x.draft.code.stop := by
    obtain ⟨⟨n, entered⟩, left⟩ := hP
    obtain ⟨a, m, before, le⟩ := nested.zoned.closedOpened left
    obtain ⟨rfl, _⟩ := nested.zoned.openedOnce entered before
    exact ⟨le, nested.zoned.closedLe left⟩
  obtain ⟨P, covers, left, _⟩ := h.clause hc
  cases covers with
  | typed guard protects start =>
    have := spans protects
    have := spans ⟨⟨_, start⟩, left⟩
    simp only [DraftClause.places, guard, append_nil, forall_mem_cons, not_mem_nil,
      false_imp_iff, implies_true, and_true]
    omega
  | filtered guard protects filter start =>
    have := spans protects
    have := spans filter
    have := spans ⟨⟨_, start⟩, left⟩
    simp only [DraftClause.places, guard, cons_append, nil_append, forall_mem_cons,
      not_mem_nil, false_imp_iff, implies_true, and_true]
    omega
  | cleanup guard protects start =>
    have := spans protects
    have := spans ⟨⟨_, start⟩, left⟩
    rcases guard with guard | guard <;>
      simp only [DraftClause.places, guard, append_nil, forall_mem_cons, not_mem_nil,
        false_imp_iff, implies_true, and_true] <;>
      omega

/-- The code of a method reads as instructions without a gap. Every offset in its clauses and symbols, and
every place of a block, is the start of one or the end, and every branch goes to the start of one. -/
theorem encoded_code_wellFormed {src : Source} {keepsSymbols : Bool} {row : Nat} {m : Method}
    {b : Body} {s s' : Session} {encoded : MethodBody} {symbols : Option MethodSymbols}
    {bytes : Bytes} (run : (encodeBody src keepsSymbols row m b).Runs s (encoded, symbols) s')
    (encodes : encoded.encode = .ok bytes) :
    ∃ listing, Reading.disassemble encoded.code = some listing ∧
      (∃ d l s₁, (layOut (.ofBody src keepsSymbols m b) b).Runs s (d, l) s₁ ∧ l.bytes = encoded.code ∧
        ∀ id region, (Regions.ofBody b).region? id = some region →
          ∃ place, d.code.position? (.block id) = some place ∧
            Boundary listing encoded.code (l.offset place)) ∧
      (∀ c ∈ encoded.clauses, ∀ offset ∈ c.edges, Boundary listing encoded.code offset) ∧
      (∀ ms ∈ symbols, ∀ offset ∈ ms.offsets, Boundary listing encoded.code offset) ∧
      ∀ (k : Nat) offset reading, listing[k]? = some (offset, reading) →
        ∀ target ∈ reading.targets (startOf listing encoded.code.length (k + 1)),
          target ∈ listing.map (·.1) := by
  have room := encoded.length_code_lt encodes
  obtain ⟨token, d, l, s₁, locals, laidOut, _, rfl, rfl⟩ := layOut_of_encodeBody run
  obtain ⟨wider, rfl, compiles⟩ := compiles_of_layOut laidOut
  obtain ⟨K, steps, shut⟩ := compiles.steps False.elim
  have size := length_bytes_layout wider
  rw [size] at room
  have stop : wider.stop = d.code.stop := compiles.settled.stop
  have boundary {place : Nat} (le : place ≤ d.code.stop) :
      Boundary (wider.layout.listingFrom 0) wider.layout.bytes (wider.layout.offset place) :=
    boundary_offset (stop ▸ le)
  refine ⟨_, compiles.disassemble room, ⟨d, wider.layout, s₁, laidOut, rfl, ?_⟩, ?_, ?_, ?_⟩
  · intro id region known
    obtain ⟨p, P, n, there⟩ := steps.labelled.found known
    have there := steps.labelled.placed there
    exact ⟨p, there, boundary (steps.labelled.le there)⟩
  · intro c hc offset edge
    obtain ⟨c, kept, rfl⟩ := List.mem_map.1 hc
    obtain ⟨tryRange, handlerRange, places⟩ :=
      steps.bounded.places steps.nested.1 (Array.mem_toList_iff.1 kept)
    rw [DraftClause.edges_clause] at edge
    · obtain ⟨place, hp, rfl⟩ := List.mem_map.1 edge
      exact boundary (places place hp)
    · exact layout_offset_mono wider tryRange (stop ▸ places _ (by simp [DraftClause.places]))
    · exact layout_offset_mono wider handlerRange (stop ▸ places _ (by simp [DraftClause.places]))
    · exact fun place => Nat.lt_of_le_of_lt (layout_offset_le_size wider place) room
  · intro ms told offset noted
    rcases d.mem_offsets_symbols told noted with ⟨e, he, place, kind, rfl⟩ | ⟨p, hp, rfl⟩
    · exact boundary (steps.noted.scopes he kind)
    · exact boundary (steps.noted.points hp)
  · intro k offset reading line target ht
    obtain ⟨i, hi, _, _, stands⟩ := compiles.listed room line
    have inside : k + 1 ≤ wider.stop := stop ▸ (Array.getElem?_eq_some_iff.1 hi).1
    rw [size, startOf_listing wider inside] at ht
    obtain ⟨l, hl, p, there, rfl⟩ := exists_of_forall₂ stands ht
    obtain ⟨q, before, same⟩ := compiles.position_target (Array.mem_of_getElem? hi) hl
    cases there.symm.trans same
    exact offset_mem_listing (stop ▸ before)

/-- Both clauses of the delivery lie at ends of instructions, and so does all that its branches go to. -/
theorem encoded_code_wellFormed_delivery :
    ∃ bytes listing, delivered.encode = .ok bytes ∧
      Reading.disassemble delivered.code = some listing ∧
      (∀ c ∈ delivered.clauses, ∀ offset ∈ c.edges, Boundary listing delivered.code offset) ∧
      ∀ (k : Nat) offset reading, listing[k]? = some (offset, reading) →
        ∀ target ∈ reading.targets (startOf listing delivered.code.length (k + 1)),
          target ∈ listing.map (·.1) := by
  obtain ⟨symbols, s', run⟩ := encodes_delivery
  obtain ⟨bytes, encodes⟩ := delivered_encode
  obtain ⟨listing, listed, _, clauses, _, targets⟩ := encoded_code_wellFormed run encodes
  exact ⟨bytes, listing, encodes, listed, clauses, targets⟩

end Compile
end Cil
