import Cil.Proofs.StackDepths

/-!
Control does not run off the end of a range. A zone is left only where control does not get, so that an
instruction stands before its end which control does not go on behind. A label at the end of a zone is one
of the zones around it: whatever goes there leaves the zone.
-/

namespace Cil

variable {i : Instruction} {k : Nat}

/-- The opcodes that control does not go on behind. No method is left for another one. -/
def Opcode.ending : List Opcode :=
  [ret, throw, rethrow, br, br_s, leave, leave_s, endfinally, endfilter]

def Reading.opcode : Reading → Opcode
  | plain op _ | branch op _ => op
  | switch _ => .switch

/-- The last instruction between two offsets is one that control does not go on behind. -/
def EndsControl (listing : List (Nat × Reading)) (size start stop : Nat) : Prop :=
  ∃ (k : Nat) (offset : Nat) (reading : Reading), listing[k]? = some (offset, reading) ∧
    start ≤ offset ∧ Code.startOf listing size (k + 1) = stop ∧ reading.opcode ∈ Opcode.ending

theorem Opcode.mem_ending {op : Opcode} (transfers : op.transfers = true) (stays : op ≠ jmp) :
    op ∈ ending := by
  simpa [Opcode.transfers, ending, stays] using transfers

theorem Instruction.Reads.mem_ending {r : Reading} (h : i.Reads r) (transfers : i.transfers = true)
    (stays : ∀ operand, i ≠ .simple .jmp operand) : r.opcode ∈ Opcode.ending := by
  cases i with
  | simple op operand =>
    cases r with
    | plain =>
      obtain ⟨rfl, rfl⟩ := h
      refine Opcode.mem_ending transfers ?_
      rintro rfl
      exact stays _ rfl
    | branch | switch => cases h
  | branch b target form =>
    cases r with
    | branch op distance =>
      -- Only the branches that are always taken transfer control, and they have two forms.
      cases b with
      | compare c unsigned =>
        rw [Instruction.transfers, Branch.transfers_compare] at transfers
        cases transfers
      | always | leave =>
        rcases h with rfl | rfl <;>
          simp [Reading.opcode, Branch.short, Branch.long, Opcode.ending]
      | ifTrue | ifFalse => cases transfers
    | plain | switch => cases h
  | switch targets => cases transfers

theorem Code.layout_offset_inj (code : Code) {j : Nat} (hj : j ≤ code.stop) (hk : k ≤ code.stop)
    (same : code.layout.offset j = code.layout.offset k) : j = k := by
  have below := layout_offset_lt_iff code hj hk
  have above := layout_offset_lt_iff code hk hj
  omega

theorem Draft.exists_transfer {d : Draft} (shut : d.fallsThrough = false) :
    ∃ k i, d.code.stop = k + 1 ∧ d.code.instructions[k]? = some i ∧ i.transfers = true := by
  rw [fallsThrough, Bool.or_eq_false_iff, Bool.not_eq_false', Option.any_eq_true] at shut
  obtain ⟨_, i, last, transfers⟩ := shut
  rw [Array.back?_eq_getElem?] at last
  have inside := (Array.getElem?_eq_some_iff.1 last).1
  exact ⟨_, i, by rw [Code.stop]; omega, last, transfers⟩

namespace Compile

open Code

variable {a : Nat} {sound : Prop} {ctx : BodyContext} {x : Situation} {s : Session}

/-- Every zone that has been left ends behind an instruction that transfers control. -/
def Ended (x : Situation) : Prop :=
  ∀ {P b}, .closed P b ∈ x.history →
    ∃ k i, b = k + 1 ∧ x.draft.code.instructions[k]? = some i ∧ i.transfers = true

theorem Step.ended {y : Situation} (step : Step sound ctx x y)
    (between : ¬ Zone.Writable x.scene.zones → x.draft.fallsThrough = false) (h : Ended x) :
    Ended y := by
  have grown := step.continues
  intro P b left
  have old (left : .closed P b ∈ x.history) :
      ∃ k i, b = k + 1 ∧ y.draft.code.instructions[k]? = some i ∧ i.transfers = true := by
    obtain ⟨k, i, rfl, hi, transfers⟩ := h left
    exact ⟨k, i, rfl, grown.instructions hi, transfers⟩
  -- A zone that is left now ends where the code does.
  have new (shut : x.draft.fallsThrough = false) (here : b = x.draft.code.stop) :
      ∃ k i, b = k + 1 ∧ y.draft.code.instructions[k]? = some i ∧ i.transfers = true := by
    obtain ⟨k, i, stop, hi, transfers⟩ := Draft.exists_transfer shut
    exact ⟨k, i, here.trans stop, grown.instructions hi, transfers⟩
  cases step with
  | guess | heights | scope | point | label | named | blob | plain | branch | switch | place | block
  | openAttempt | openPart => exact old (by simpa using left)
  | closeAttempt _ _ _ shut | clause _ _ _ _ _ _ _ _ shut | closeFilter _ _ _ _ _ _ shut =>
    simp only [List.mem_cons, Event.closed.injEq, reduceCtorEq, false_or] at left
    rcases left with ⟨_, rfl⟩ | left
    · exact new shut rfl
    · exact old left
  | openCleanup _ _ _ top | closeWhole _ _ top =>
    simp only [List.mem_cons, Event.closed.injEq, reduceCtorEq, false_or] at left
    rcases left with ⟨_, rfl⟩ | left
    · refine new (between fun writable => ?_) rfl
      simp [top, Zone.Writable] at writable
    · exact old left

theorem Steps.ended (h : Steps sound ctx (.start s) x) : Ended x := by
  refine Steps.invariant ?_ (fun before step => step.ended before.shut) h
  simp [Ended, Situation.start]

theorem Steps.stays (h : Steps sound ctx (.start s) x) (operand : Bytes) :
    .simple .jmp operand ∉ x.draft.code.instructions := by
  refine Steps.invariant (p := fun x => .simple .jmp operand ∉ x.draft.code.instructions) ?_
    (fun {x y} _ step stays => ?_) h
  · simp [Situation.start]
  · cases step with
    | guess | heights | scope | point | label | named | blob | place | block | openAttempt
    | closeAttempt | openPart | closeFilter | openCleanup | closeWhole | clause => exact stays
    | plain op _ _ _ _ _ _ _ other =>
      intro member
      rcases Array.mem_push.1 member with old | new
      · exact stays old
      · cases new
        exact other rfl
    | branch | switch =>
      intro member
      rcases Array.mem_push.1 member with old | new
      · exact stays old
      · cases new

namespace Complete

variable {sound : Prop} {ctx : BodyContext} {s : Session} {x : Situation}
  (h : Complete sound ctx s x)

include h

variable {form : BranchForm} {P Z : List Zone} {p number : Nat} {z : Zone} {R : List Zone} {n m : Nat}
  {l : Label} {w e : Nat}

theorem lt_of_part {b : Nat} (spans : Spans x.history (z :: R) a b)
    (part : ¬ (z.kind = .whole ∨ z.kind = .attempt)) : a < b := by
  have ran : Ran x.history (z :: R) := by
    cases h.bounded.closed spans.2 with
    | protects kind => exact absurd kind part
    | filter _ ran => exact ran
    | clause _ _ has => exact has.2.2
  obtain ⟨k, n, here⟩ := ran
  have inside := (h.inside_iff here spans).1 (List.suffix_refl _)
  exact Nat.lt_of_le_of_lt inside.1 inside.2

theorem departs (hi : x.draft.code.instructions[k]? = some (.branch .leave (.internal number) form))
    (here : .instruction k P n ∈ x.history)
    (there : x.draft.code.position? (.internal number) = some p) :
    ∃ Z m, .label (.internal number) p Z m ∈ x.history ∧ Zone.Departs P Z := by
  obtain ⟨_, i, hi', recorded⟩ := h.steps.recording here
  cases hi.symm.trans hi'
  cases recorded with
  | branch _ _ _ lands =>
    obtain ⟨Z, m, waiting | ⟨place, placed⟩, departs, _⟩ := lands
    · simp [h.pending] at waiting
    · cases (h.labelled.placed placed).symm.trans there
      exact ⟨Z, m, placed, departs⟩

/-- A zone around an instruction that leaves for a label at the end of the zone is the one that the
instruction is in, or the whole around that. -/
theorem eq_of_ends
    (hi : x.draft.code.instructions[k]? = some (.branch .leave (.internal number) form))
    (here : .instruction k P n ∈ x.history) (there : .label (.internal number) p Z m ∈ x.history)
    (departs : Zone.Departs P Z) (spans : Spans x.history (z :: R) a p) (inside : a ≤ k ∧ k < p) :
    z :: R = P ∨ ∃ w, z :: R = ⟨.whole, w⟩ :: Z := by
  have around := (h.inside_iff here spans).2 inside
  -- A zone around the label does not end there.
  have outside : ¬ z :: R <:+ Z := by
    intro inner
    obtain ⟨a', m', entered, _⟩ := h.nested.marked.within there
    obtain ⟨b, before, left⟩ := h.zoned.outerClosed entered inner spans.2
    have := h.lt_closed hi (by simp [Instruction.targets]) here there departs.suffix left
    omega
  obtain ⟨kind, number, w, _, rfl⟩ := departs
  rcases List.suffix_cons_iff.1 around with same | around
  · exact .inl same
  rcases List.suffix_cons_iff.1 around with same | around
  · exact .inr ⟨w, same⟩
  · exact absurd around outside

/-- The label behind a protected block with handlers does not stand at the end of the block itself. -/
theorem label_ne_attempt {a' : Nat} (there : .label l p Z m ∈ x.history)
    (attempt : Spans x.history (⟨.attempt, w⟩ :: ⟨.whole, w⟩ :: Z) a p) (nonempty : a < p)
    (handler : Spans x.history (⟨.handler, number⟩ :: ⟨.whole, w⟩ :: Z) a' e) : False := by
  -- The handler lies behind the block and is not empty, so the whole goes on behind the label.
  have after : p ≤ a' := by
    obtain ⟨⟨_, entered⟩, _⟩ := handler
    cases h.bounded.opened entered with
    | part _ left le => rwa [h.zoned.closedOnce attempt.2 left]
  have runs := h.lt_of_part handler (by simp)
  obtain ⟨a'', m', whole, before⟩ := h.zoned.outer attempt.1.choose_spec
    (List.suffix_cons _ _)
  have within : ⟨.whole, w⟩ :: Z <:+ Z := by
    refine h.nested.marked.covers there whole (by omega) fun b left => ?_
    obtain ⟨b', le, left'⟩ := h.zoned.outerClosed handler.1.choose_spec
      (List.suffix_cons _ _) left
    have := h.zoned.closedOnce handler.2 left'
    omega
  exact absurd within.length_le (by simp)

theorem label_ne_whole (there : .label l p Z m ∈ x.history)
    (whole : Spans x.history (⟨.whole, w⟩ :: Z) a p) (nonempty : a < p)
    (cleanup : Spans x.history (⟨.cleanup w, number⟩ :: Z) p e) : False := by
  have runs := h.lt_of_part cleanup (by simp)
  rcases h.steps.behind there cleanup.1.choose_spec with ⟨_, started⟩ | inner | inner | left
  · have := (h.zoned.openedOnce started whole.1.choose_spec).1
    omega
  · exact absurd inner.length_le (by simp)
  · exact absurd inner.length_le (by simp)
  · have := h.zoned.closedOnce cleanup.2 left
    omega

/-- What leaves a protected block or a handler at its end goes to the end of a range only if that range is
the handler itself. -/
theorem handler_of_leave {c : DraftClause} (kept : c ∈ x.draft.clauses) {protects : Bool}
    (has : c.Has protects a e)
    (hi : x.draft.code.instructions[k]? = some (.branch .leave (.internal number) form))
    (here : .instruction k P n ∈ x.history) (inside : a ≤ k ∧ k < e)
    (there : x.draft.code.position? (.internal number) = some e) :
    protects = false ∧ ∀ {Q a' e'}, Spans x.history Q a' e' → a' ≤ k ∧ k < e' → a' ≤ a ∧ e ≤ e' := by
  obtain ⟨Z, m, placed, departs⟩ := h.departs hi here there
  have ends {z : Zone} {R : List Zone} (spans : Spans x.history (z :: R) a e) :=
    h.eq_of_ends hi here placed departs spans inside
  obtain ⟨z, R, spans, kind⟩ := h.spans_of_has kept has
  cases protects with
  | false =>
    refine ⟨rfl, fun outer within => h.spans_le spans outer ?_⟩
    rcases ends spans with same | ⟨w, same⟩
    · exact same ▸ (h.inside_iff here outer).2 within
    · cases same
      simp at kind
  | true =>
    have nonempty : a < e := Nat.lt_of_le_of_lt inside.1 inside.2
    obtain ⟨zones, covers, left, _⟩ := h.bounded.clause kept
    cases has
    cases covers with
    | typed _ protects start | filtered _ protects _ start =>
      rcases ends protects with same | ⟨w, same⟩
      · obtain ⟨kind, k', w, _, rfl⟩ := departs
        cases same
        exact (h.label_ne_attempt placed protects nonempty ⟨⟨_, start⟩, left⟩).elim
      · cases same
    | cleanup _ protects start =>
      rcases ends protects with same | ⟨w, same⟩
      · obtain ⟨kind, k', w, kinds, rfl⟩ := departs
        cases same
        simp at kinds
      · cases same
        cases h.bounded.opened start with
        | cleanup _ before =>
          rw [h.zoned.closedOnce before protects.2] at start
          exact (h.label_ne_whole placed protects nonempty ⟨⟨_, start⟩, left⟩).elim

end Complete

namespace Built

variable {sound : Prop} {ctx : BodyContext} {b : Body} {s : Session} {x : Situation} {wider : Code}
  (h : Built sound ctx b s x wider) (hi : x.draft.code.instructions[k]? = some i)
  (transfers : i.transfers = true)

include h hi transfers

/-- An instruction that transfers control is listed as one that control does not go on behind. -/
theorem ending_line :
    ∃ reading, (wider.layout.listingFrom 0)[k]? = some (wider.layout.offset k, reading) ∧
      reading.opcode ∈ Opcode.ending := by
  have inside : k < wider.stop := h.stop_eq ▸ (Array.getElem?_eq_some_iff.1 hi).1
  have line := Layout.getElem?_listing wider.layout k
  rw [layout_code, Array.getElem?_eq_getElem inside, Option.map_some] at line
  obtain ⟨i', hi', _, reads, _⟩ := h.compiles.listed h.room line
  cases hi.symm.trans hi'
  refine ⟨_, line, reads.mem_ending transfers ?_⟩
  rintro operand rfl
  exact h.steps.stays operand (Array.mem_of_getElem? hi)

theorem endsControl (before : a ≤ k) :
    EndsControl (wider.layout.listingFrom 0) wider.layout.size (wider.layout.offset a)
      (wider.layout.offset (k + 1)) := by
  have inside : k < wider.stop := h.stop_eq ▸ (Array.getElem?_eq_some_iff.1 hi).1
  obtain ⟨reading, line, ends⟩ := h.ending_line hi transfers
  exact ⟨k, _, reading, line, layout_offset_mono wider before (Nat.le_of_lt inside),
    startOf_listing wider inside, ends⟩

end Built

/-- Control does not run off the end of a method, nor of a range of its clauses. The code and every range
that is not empty end with an instruction that control does not go on behind; only a protected block can
be empty. What goes to the end of a range that it is in leaves the range. What leaves a protected block or
a handler for the place behind them, which has no block's name, is in that handler itself. -/
theorem ranges_end_control {src : Source} {keepsSymbols : Bool} {row : Nat} {m : Method}
    {b : Body} {s s' : Session} {encoded : MethodBody} {symbols : Option MethodSymbols}
    {bytes : Bytes} (run : (encodeBody src keepsSymbols row m b).Runs s (encoded, symbols) s')
    (encodes : encoded.encode = .ok bytes) :
    ∃ listing, Reading.disassemble encoded.code = some listing ∧
      EndsControl listing encoded.code.length 0 encoded.code.length ∧
      (∀ c ∈ encoded.clauses, ∀ protects start stop, c.Has protects start stop →
        protects = false ∨ start < stop → EndsControl listing encoded.code.length start stop) ∧
      (∀ (k : Nat) offset reading, listing[k]? = some (offset, reading) →
        ∀ c ∈ encoded.clauses, ∀ protects start stop, c.Has protects start stop →
          Within start stop offset →
          stop ∈ reading.targets (startOf listing encoded.code.length (k + 1)) →
            reading.leaves = true) ∧
      ∃ d l s₁, (layOut (.ofBody src keepsSymbols m b) b).Runs s (d, l) s₁ ∧ l.bytes = encoded.code ∧
        d.clauses.toList.map (·.clause l) = encoded.clauses ∧
        ∀ (k number : Nat) form place,
          d.code.instructions[k]? = some (.branch .leave (.internal number) form) →
          d.code.position? (.internal number) = some place →
          ∀ c ∈ encoded.clauses, ∀ protects start, c.Has protects start (l.offset place) →
            Within start (l.offset place) (l.offset k) → protects = false ∧
              ∀ c' ∈ encoded.clauses, ∀ protects' start' stop', c'.Has protects' start' stop' →
                Within start' stop' (l.offset k) → start' ≤ start ∧ l.offset place ≤ stop' := by
  obtain ⟨token, d, l, s₁, locals, laidOut, _, rfl, rfl⟩ := layOut_of_encodeBody run
  obtain ⟨x, wider, rfl, rfl, rfl, size, h⟩ :=
    Built.of_layOut laidOut (MethodBody.length_code_lt encodes) False.elim
  refine ⟨_, h.compiles.disassemble h.room, ?_, ?_, ?_, x.draft, wider.layout, x.session, laidOut, rfl,
    rfl, ?_⟩ <;> simp only [size]
  · obtain ⟨k, i, last, hi, transfers⟩ := Draft.exists_transfer h.shut
    have ends := h.endsControl hi transfers (Nat.zero_le k)
    rw [← last, ← h.stop_eq, layout_offset_zero] at ends
    exact ends
  · intro c kept protects start stop' has full
    obtain ⟨z, R, a, e, spans, kind, rfl, rfl, _⟩ := h.range kept has
    obtain ⟨first, last⟩ := h.le_stop spans
    obtain ⟨k, i, rfl, hi, transfers⟩ := h.steps.ended spans.2
    refine h.endsControl hi transfers (Nat.le_of_lt_succ ?_)
    rcases full with part | full
    · exact h.lt_of_part spans (by simp [← kind, part])
    · exact (layout_offset_lt_iff wider first last).1 full
  · intro k offset reading line c kept protects start stop' has inside goes
    by_contra stays
    exact Nat.lt_irrefl _ ((h.crosses line goes kept has).2 (Bool.not_eq_true _ ▸ stays) inside).2
  · intro k number form place hi there c kept protects start has inside
    have before : k < x.draft.code.stop := (Array.getElem?_eq_some_iff.1 hi).1
    have within : k ≤ wider.stop := h.stop_eq ▸ Nat.le_of_lt before
    obtain ⟨P, n, here⟩ := h.nested.written.exists_of_lt before
    obtain ⟨c, listed, rfl⟩ := List.mem_map.1 kept
    have kept := Array.mem_toList_iff.1 listed
    obtain ⟨a, e, has', rfl, same, first, last⟩ := h.exists_has kept has
    obtain rfl : place = e := layout_offset_inj wider (h.stop_eq ▸ h.labelled.le there) last same
    obtain ⟨part, innermost⟩ :=
      h.handler_of_leave kept has' hi here ((within_offset wider first last within).1 inside) there
    refine ⟨part, fun c' kept' protects' start' stop' has' inside' => ?_⟩
    obtain ⟨z, R, a', e', spans, _, rfl, rfl, within'⟩ := h.range kept' has'
    have outer := innermost spans ((within' k within).1 inside')
    exact ⟨layout_offset_mono wider outer.1 first,
      layout_offset_mono wider outer.2 (h.le_stop spans).2⟩

/-- The handler of the delivery ends by leaving, and what cleans up by going on with the exception. -/
theorem ranges_end_control_delivery :
    ∃ bytes listing, delivered.encode = .ok bytes ∧
      Reading.disassemble delivered.code = some listing ∧ EndsControl listing 164 0 164 ∧
      EndsControl listing 164 8 153 ∧ EndsControl listing 164 153 161 ∧
      EndsControl listing 164 161 163 := by
  obtain ⟨symbols, s', run⟩ := encodes_delivery
  obtain ⟨bytes, encodes⟩ := delivered_encode
  obtain ⟨listing, listed, whole, ranges, _⟩ := ranges_end_control run encodes
  exact ⟨bytes, listing, encodes, listed, whole,
    ranges _ List.mem_cons_self _ _ _ .attempt (by decide),
    ranges _ List.mem_cons_self _ _ _ .handler (by decide),
    ranges _ (List.mem_cons_of_mem _ List.mem_cons_self) _ _ _ .handler (by decide)⟩

end Compile
end Cil
