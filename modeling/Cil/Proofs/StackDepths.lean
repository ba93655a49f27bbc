import Cil.Proofs.ProtectedRegions

/-!
The depth of the stack in the final code. Every instruction was written for some number of values on the
stack. That number fits what the instruction takes, what those before it leave, and every branch to it;
only labels that nothing goes to and the ends of empty protected blocks are of no account.
-/

namespace Cil

open List

variable {i : Instruction} {e : StackEffect} {m : Module} {s : MethodSignature}
  {known : List (Named × Token)}

/-- What an instruction of a draft does to the stack. -/
def Instruction.Moves (m : Module) (s : MethodSignature) (known : List (Named × Token)) :
    Instruction → StackEffect → Prop
  | .simple op operand, e => op.Moves m s known operand e
  | .branch b _ _, e => e = ⟨b.pops, 0⟩
  | .switch _, e => e = ⟨1, 0⟩

theorem Instruction.Moves.mono {known' : List (Named × Token)} (h : i.Moves m s known e)
    (sub : known ⊆ known') : i.Moves m s known' e := by
  cases i with
  | simple => exact Opcode.Moves.mono h sub
  | branch | switch => exact h

namespace Compile

open Code

variable {place : Nat} {x y : Situation} {n : Nat} {ctx : BodyContext} {sound : Prop} {s : Session}

theorem Flows.mono {limit limit' : Nat} {transfers : Bool} {before after : Nat}
    (h : Flows limit e transfers before after) (le : limit ≤ limit') :
    Flows limit' e transfers before after :=
  ⟨h.enough, Nat.le_trans h.bounded le, h.next⟩

theorem falls_of_last {d : Draft} {k : Nat} (hi : d.code.instructions[k]? = some i)
    (last : k + 1 = d.code.stop) (goes : i.transfers = false) : d.fallsThrough = true := by
  have back : d.code.instructions.back? = some i := by
    rw [Array.back?_eq_getElem?, ← hi]
    congr 1
    exact (Nat.eq_sub_of_add_eq last).symm
  simp [Draft.fallsThrough, back, goes]

/-- Control gets to a place with some values on the stack: to the end of the code as it is now, or to an
instruction. -/
def Arrives (x : Situation) (place depth : Nat) : Prop :=
  (place = x.draft.code.stop ∧ x.depth = depth) ∨ ∃ P, .instruction place P depth ∈ x.history

/-- Nothing lies in a protected block that exceptions are caught from. -/
def Hollow (K : List Event) (place : Nat) : Prop :=
  ∃ kind k w R m, (kind = ZoneKind.filter ∨ kind = .handler) ∧
    .opened (⟨kind, k⟩ :: ⟨.whole, w⟩ :: R) place m ∈ K ∧
    Spans K (⟨.attempt, w⟩ :: ⟨.whole, w⟩ :: R) place place

theorem Hollow.mono {K K' : List Event} (h : Hollow K place) (sub : K ⊆ K') : Hollow K' place := by
  obtain ⟨kind, k, w, R, m, part, entered, spans⟩ := h
  exact ⟨kind, k, w, R, m, part, sub entered, spans.mono sub⟩

/-- Something in the zones `P` was told of a place, for some values on the stack: that is still so, or
the zone ends there, or a protected block is empty. -/
def Lasts (x : Situation) (P : List Zone) (place depth : Nat) : Prop :=
  Arrives x place depth ∨ .closed P place ∈ x.history ∨ Hollow x.history place

/-- What an event tells of the stack: an instruction finds what it takes and leaves what the next one was
written for, and labels and zones last. -/
def Event.Levels (ctx : BodyContext) (x : Situation) : Event → Prop
  | instruction k _ n => ∃ i e after, x.draft.code.instructions[k]? = some i ∧
      i.Moves ctx.source.module ctx.method.signature x.known e ∧
      Flows x.draft.maxHeight e i.transfers n after ∧ (i.transfers = false → Arrives x (k + 1) after)
  | label _ p P n | opened P p n => Lasts x P p n
  | token .. | closed .. => True

/-- The depths that instructions, labels and zones were written for fit each other. -/
def Levelled (ctx : BodyContext) (x : Situation) : Prop := ∀ e ∈ x.history, e.Levels ctx x

/-- A label or the start of a zone is at the place. -/
def Told (K : List Event) (P : List Zone) (place : Nat) : Prop :=
  (∃ l n, .label l place P n ∈ K) ∨ ∃ n, .opened P place n ∈ K

/-- The depths stay if control still gets to the end of the code, or if it does not and whatever was told
of that place has ended. -/
theorem Levelled.carry (h : Levelled ctx x) (grown : x.Continues y)
    (stop : Arrives y x.draft.code.stop x.depth ∨ x.draft.fallsThrough = false ∧ ∀ P,
      Told x.history P x.draft.code.stop →
        .closed P x.draft.code.stop ∈ y.history ∨ Hollow y.history x.draft.code.stop)
    (new : ∀ e ∈ y.history, e ∈ x.history ∨ e.Levels ctx y) : Levelled ctx y := by
  have lasts {P : List Zone} {place depth : Nat} (told : Told x.history P place)
      (old : Lasts x P place depth) : Lasts y P place depth := by
    rcases old with (⟨rfl, rfl⟩ | ⟨Q, there⟩) | left | hollow
    · exact stop.imp_right fun ⟨_, ends⟩ => ends P told
    · exact .inl (.inr ⟨Q, grown.history there⟩)
    · exact .inr (.inl (grown.history left))
    · exact .inr (.inr (hollow.mono grown.history))
  intro e he
  refine (new e he).elim (fun old => ?_) id
  cases e with
  | token | closed => trivial
  | label l p P n => exact lasts (.inl ⟨l, n, old⟩) (h _ old)
  | opened P p n => exact lasts (.inr ⟨n, old⟩) (h _ old)
  | instruction k P n =>
    obtain ⟨i, e, after, hi, moves, flows, next⟩ := h _ old
    refine ⟨i, e, after, grown.instructions hi, moves.mono (tokensOf_subset grown.history),
      flows.mono grown.maxHeight, fun goes => ?_⟩
    rcases next goes with ⟨last, rfl⟩ | ⟨Q, there⟩
    · rw [last]
      exact stop.resolve_right fun ⟨shut, _⟩ => by simp [falls_of_last hi last goes] at shut
    · exact .inr ⟨Q, grown.history there⟩

theorem Levelled.write (h : Levelled ctx x) (grown : x.Continues y)
    (draft : y.draft = x.draft.push i)
    (history : y.history = .instruction x.draft.code.stop x.scene.zones x.depth :: x.history)
    (moves : i.Moves ctx.source.module ctx.method.signature x.known e)
    (flows : Flows x.draft.maxHeight e i.transfers x.depth y.depth) : Levelled ctx y := by
  refine h.carry grown (.inl (.inr ⟨x.scene.zones, history ▸ mem_cons_self⟩)) fun e' he' => ?_
  rw [history] at he'
  refine (mem_cons.1 he').elim (fun same => .inr ?_) .inl
  subst same
  refine ⟨i, e, y.depth, ?_, moves.mono (tokensOf_subset grown.history), flows.mono grown.maxHeight,
    fun _ => .inl ⟨?_, rfl⟩⟩ <;> rw [draft]
  · exact Array.getElem?_push_size
  · exact (Array.size_push ..).symm

namespace Complete

variable {sound : Prop} {ctx : BodyContext} {s : Session} {x : Situation} (h : Complete sound ctx s x)
  (full : ∀ c ∈ x.draft.clauses, c.tryStart < c.tryStop)

include h full

variable {P : List Zone}

variable (hs : sound)

include hs

end Complete

end Compile

/-- What an instruction does to the stack, by its opcode and operand. -/
def Reading.Moves (m : Module) (s : MethodSignature) (known : List (Named × Token)) :
    Reading → StackEffect → Prop
  | .plain op operand, e => op.Moves m s known operand e
  | .branch op _, e => op.effect? = some e
  | .switch _, e => Opcode.switch.effect? = some e

def Reading.transfers : Reading → Bool
  | .plain op _ | .branch op _ => op.transfers
  | .switch _ => false

theorem Branch.transfers_short (b : Branch) : b.short.transfers = b.long.transfers := by
  cases b with
  | compare op unsigned => cases op <;> cases unsigned <;> rfl
  | always | leave | ifTrue | ifFalse => rfl

theorem Instruction.Reads.moves {r : Reading} (h : i.Reads r) (moves : i.Moves m s known e) :
    r.Moves m s known e ∧ r.transfers = i.transfers := by
  cases i with
  | simple op operand =>
    cases r with
    | plain =>
      obtain ⟨rfl, rfl⟩ := h
      exact ⟨moves, rfl⟩
    | branch | switch => cases h
  | branch b target form =>
    cases r with
    | branch op distance =>
      obtain rfl := moves
      rcases h with rfl | rfl
      · exact ⟨b.effect?_short, b.transfers_short⟩
      · exact ⟨b.effect?_long, rfl⟩
    | plain | switch => cases h
  | switch targets =>
    cases r with
    | switch distances =>
      obtain rfl := moves
      exact ⟨rfl, rfl⟩
    | plain | branch => cases h

/-- The depth of the stack before each instruction, by its offset, where `effect` is what instructions
do to the stack. -/
structure Levels (effect : Reading → Option StackEffect) (limit : Nat)
    (listing : List (Nat × Reading)) (size : Nat) (clauses : List Clause) (depth : Nat → Nat) :
    Prop where
  entry : depth 0 = 0
  /-- Handlers start with the exception, or with nothing. -/
  handlers {c} : c ∈ clauses → c.handlerOffset ∈ listing.map (·.1) ∧ depth c.handlerOffset =
    if c.flags = Clause.typedFlag ∨ c.flags = Clause.filterFlag then 1 else 0
  filters {c} : c ∈ clauses → c.flags = Clause.filterFlag →
    c.classOrFilter.toNat ∈ listing.map (·.1) ∧ depth c.classOrFilter.toNat = 1
  /-- An instruction finds what it takes, and each one that control can go on to finds what it leaves. -/
  moves {k : Nat} {offset reading} : listing[k]? = some (offset, reading) → depth offset ≤ limit ∧
    ∃ e, effect reading = some e ∧ e.pops ≤ depth offset ∧
      (reading.transfers = false → k + 1 < listing.length ∧
        depth (Code.startOf listing size (k + 1)) = depth offset - e.pops + e.pushes) ∧
      ∀ target ∈ reading.targets (Code.startOf listing size (k + 1)),
        depth target = if reading.leaves then 0 else depth offset - e.pops + e.pushes

namespace Compile

open Code

namespace Built

variable {ctx : BodyContext} {b : Body} {s : Session} {x : Situation} {wider : Code}
  (h : Built True ctx b s x wider)

include h

variable {depth : Nat → Nat}
  (depths : ∀ {k P n}, .instruction k P n ∈ x.history → depth (wider.layout.offset k) = n)
  (full : ∀ c ∈ x.draft.clauses, c.tryStart < c.tryStop)

include depths full

end Built

end Compile
end Cil
