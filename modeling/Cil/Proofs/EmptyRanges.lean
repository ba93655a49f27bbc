import Cil.Proofs.RangeEnds

/-!
Which ranges are empty. Filters and handlers never are. A protected block is empty if nothing is compiled
in it and control does not get to its start: then it gets no instruction that leaves it. So an empty block
stands behind an instruction that transfers control.
-/

namespace Cil
namespace Compile

open Code

/-- Filters and handlers are not empty. A protected block is empty only where the instruction before it is
one that control does not go on behind. -/
theorem empty_ranges_unreached {src : Source} {keepsSymbols : Bool} {row : Nat} {m : Method}
    {b : Body} {s s' : Session} {encoded : MethodBody} {symbols : Option MethodSymbols}
    {bytes : Bytes} (run : (encodeBody src keepsSymbols row m b).Runs s (encoded, symbols) s')
    (encodes : encoded.encode = .ok bytes) :
    ∃ listing, Reading.disassemble encoded.code = some listing ∧ ∀ c ∈ encoded.clauses,
      0 < c.handlerLength ∧ (c.flags = Clause.filterFlag → c.classOrFilter.toNat < c.handlerOffset) ∧
      (c.tryLength = 0 → EndsControl listing encoded.code.length 0 c.tryOffset) := by
  obtain ⟨token, d, l, s₁, locals, laidOut, _, rfl, rfl⟩ := layOut_of_encodeBody run
  obtain ⟨x, wider, rfl, rfl, rfl, size, h⟩ :=
    Built.of_layOut laidOut (MethodBody.length_code_lt encodes) False.elim
  have part {c : Clause} (kept : c ∈ x.draft.clauses.toList.map (·.clause wider.layout))
      {start stop : Nat} (has : c.Has false start stop) : start < stop := by
    obtain ⟨z, R, a, e, spans, kind, rfl, rfl, _⟩ := h.range kept has
    exact layout_offset_lt wider (h.lt_of_part spans (by simp [← kind])) (h.le_stop spans).2
  refine ⟨_, h.compiles.disassemble h.room, fun c kept => ⟨?_, ?_, fun empty => ?_⟩⟩
  · exact Nat.pos_of_lt_add_right (part kept .handler)
  · exact fun filters => part kept (.filter filters)
  · obtain ⟨z, R, a, e, spans, _, start, stop, _⟩ := h.range kept .attempt
    obtain ⟨k, i, rfl, hi, transfers⟩ := h.steps.ended spans.2
    have ends := h.endsControl hi transfers (Nat.zero_le k)
    rw [layout_offset_zero, ← stop, empty, Nat.add_zero] at ends
    rwa [size]

def idle : Body where
  root := .mk ⟨0⟩ [.exit none, .guarded (.mk ⟨1⟩ [] [] none) [] (.finallyBlock (.mk ⟨2⟩ [] [] none))] []
    none

def idling : MethodBody where
  code := [0x2A, 0xDC]
  maxStack := 0
  initLocals := idle.initLocals
  clauses := [⟨Clause.finallyFlag, 1, 0, 1, 1, 0⟩]

theorem encodes_idle : ∃ symbols s', (encodeBody courierSource false 1 { name := "Idle" } idle).Runs
    (.ofModule courier) (idling, symbols) s' := encodes_of_toOption (by decide +kernel)

/-- The protected block is empty, and stands behind the return. -/
theorem empty_ranges_unreached_idle :
    ∃ bytes listing, idling.encode = .ok bytes ∧ Reading.disassemble idling.code = some listing ∧
      ∀ c ∈ idling.clauses, c.tryLength = 0 ∧ 0 < c.handlerLength ∧
        EndsControl listing 2 0 c.tryOffset := by
  obtain ⟨symbols, s', run⟩ := encodes_idle
  obtain ⟨bytes, encodes⟩ : ∃ bytes, idling.encode = .ok bytes := ⟨_, rfl⟩
  obtain ⟨listing, listed, ranges⟩ := empty_ranges_unreached run encodes
  refine ⟨bytes, listing, encodes, listed, fun c hc => ?_⟩
  have empty : c.tryLength = 0 := by
    rw [List.mem_singleton.1 hc]
  exact ⟨empty, (ranges c hc).1, (ranges c hc).2.2 empty⟩

end Compile
end Cil
