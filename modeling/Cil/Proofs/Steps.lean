import Cil.Proofs.Operands
import Cil.Proofs.Runs
import Mathlib.Logic.Relation

/-!
What compilation can do, as a relation of its own. `Step` lists the changes that one action makes to a
draft and its session, each with what is known when it happens. What each step keeps is kept by whole
bodies, and a proof of that need not look at expressions and statements.

A situation holds more than the state. Its scene says which labels still have to be placed, which
protected blocks and handlers lie around the place, and which regions have been found; the depth is the
number of values on the stack there; and its history tells what has been written so far, and where.
-/

namespace Cil

/-- The type that guards a handler has a token. -/
def DraftClause.Guarded (c : DraftClause) (known : List (Named × Token)) : Prop :=
  ∀ value, c.guard = .exceptionType value →
    ∃ t token, (.type t, token) ∈ known ∧ token.encode = .ok value

def Label.isInternal : Label → Bool
  | block _ => false
  | internal _ => true

/-- What a stretch of code is to a protected block. -/
inductive ZoneKind
  /-- The protected block with its filters and handlers. -/
  | whole
  /-- The protected block itself. -/
  | attempt
  | filter
  | handler
  /-- What cleans up behind the whole of a number. -/
  | cleanup (whole : Nat)
  deriving DecidableEq

/-- A stretch of code that clauses are about. Its number is that of its region; a protected block and
the whole that it is part of have one number. -/
structure Zone where
  kind : ZoneKind
  number : Nat
  deriving DecidableEq

namespace Zone

/-- The region of a place, by the zones around it, innermost first. A whole is no region. -/
def region (zones : List Zone) : Region := (zones.filter (·.kind ≠ .whole)).map (·.number)

def handling : List Zone → Bool
  | [] => false
  | z :: zones =>
    match z.kind with
    | .whole | .attempt => handling zones
    | .handler => true
    | .filter | .cleanup _ => false

/-- There is code only within the parts of a whole. -/
def Writable (zones : List Zone) : Prop := ∀ z ∈ zones.head?, z.kind ≠ .whole

/-- The zones around a whole, for a place in its protected block or in one of its handlers. -/
def Departs (zones outer : List Zone) : Prop :=
  ∃ kind k w, (kind = .attempt ∨ kind = .handler) ∧ zones = ⟨kind, k⟩ :: ⟨.whole, w⟩ :: outer

theorem Departs.suffix {zones outer : List Zone} (h : Departs zones outer) : outer <:+ zones := by
  obtain ⟨kind, k, w, _, rfl⟩ := h
  exact (List.suffix_cons ..).trans (List.suffix_cons ..)

end Zone

namespace Compile

/-- A label that still has to be placed: in which zones, and for how many values on the stack. -/
structure Pending where
  label : Label
  zones : List Zone
  depth : Nat

/-- What surrounds a place in the code. -/
structure Scene where
  pending : List Pending := []
  zones : List Zone := []
  found : Regions := {}

/-- What has been done. A zone is named by the zones around its inside. -/
inductive Event
  | token (named : Named) (token : Token)
  | instruction (place : Nat) (zones : List Zone) (depth : Nat)
  | label (l : Label) (place : Nat) (zones : List Zone) (depth : Nat)
  | opened (zones : List Zone) (place depth : Nat)
  | closed (zones : List Zone) (place : Nat)

def Event.token? : Event → Option (Named × Token)
  | token named t => some (named, t)
  | _ => none

def tokensOf (K : List Event) : List (Named × Token) := K.filterMap Event.token?

@[simp] theorem mem_tokensOf {K : List Event} {named : Named} {token : Token} :
    (named, token) ∈ tokensOf K ↔ .token named token ∈ K := by
  rw [tokensOf, List.mem_filterMap]
  constructor
  · rintro ⟨e, he, same⟩
    cases e with
    | token n t =>
      cases same
      exact he
    | _ => cases same
  · exact fun h => ⟨_, h, rfl⟩

theorem tokensOf_subset {K K' : List Event} (h : K ⊆ K') : tokensOf K ⊆ tokensOf K' := by
  rintro ⟨named, token⟩ member
  exact mem_tokensOf.2 (h (mem_tokensOf.1 member))

/-- A zone reaches from one place to another. -/
def Spans (K : List Event) (zones : List Zone) (start stop : Nat) : Prop :=
  (∃ depth, .opened zones start depth ∈ K) ∧ .closed zones stop ∈ K

/-- The places in a clause are those of zones: the protected block and one of its handlers, or the whole
and what cleans up behind it. -/
inductive Covers (K : List Event) (c : DraftClause) : List Zone → Prop
  | typed {k n rest token} (guard : c.guard = .exceptionType token)
      (protects : Spans K (⟨.attempt, k⟩ :: ⟨.whole, k⟩ :: rest) c.tryStart c.tryStop)
      (start : .opened (⟨.handler, n⟩ :: ⟨.whole, k⟩ :: rest) c.handlerStart 1 ∈ K) :
      Covers K c (⟨.handler, n⟩ :: ⟨.whole, k⟩ :: rest)
  | filtered {k m n rest place} (guard : c.guard = .filter place)
      (protects : Spans K (⟨.attempt, k⟩ :: ⟨.whole, k⟩ :: rest) c.tryStart c.tryStop)
      (filter : Spans K (⟨.filter, m⟩ :: ⟨.whole, k⟩ :: rest) place c.handlerStart)
      (start : .opened (⟨.handler, n⟩ :: ⟨.whole, k⟩ :: rest) c.handlerStart 1 ∈ K) :
      Covers K c (⟨.handler, n⟩ :: ⟨.whole, k⟩ :: rest)
  | cleanup {k n rest} (guard : c.guard = .anyExit ∨ c.guard = .anyException)
      (protects : Spans K (⟨.whole, k⟩ :: rest) c.tryStart c.tryStop)
      (start : .opened (⟨.cleanup k, n⟩ :: rest) c.handlerStart 0 ∈ K) :
      Covers K c (⟨.cleanup k, n⟩ :: rest)

structure Situation where
  scene : Scene
  depth : Nat
  history : List Event
  draft : Draft
  session : Session

namespace Situation

def known (x : Situation) : List (Named × Token) := tokensOf x.history

def pending (x : Situation) : List Label := x.scene.pending.map (·.label)

end Situation

/-- The place lies in a block of which the table of regions says so. -/
def InBlock (ctx : BodyContext) (K : List Event) (zones : List Zone) (p : Region → Prop) : Prop :=
  ∃ id place depth, .label (.block id) place zones depth ∈ K ∧
    ∀ region, ctx.regions.region? id = some region → p region

/-- An instruction can go to a label with some values on the stack. An internal label is pending, for
this place or for the end of the whole around it; the regions of blocks have been compared. -/
def Reaches (sound : Prop) (ctx : BodyContext) (K : List Event) (s : Scene) (leaving : Bool)
    (depth : Nat) : Label → Prop
  | .internal n => ∃ p ∈ s.pending, p.label = .internal n ∧
      (if leaving then Zone.Departs s.zones p.zones else p.zones = s.zones) ∧ (sound → p.depth = depth)
  | .block id => (sound → depth = 0) ∧ InBlock ctx K s.zones fun here =>
    ∀ there, ctx.regions.region? id = some there →
      if leaving then here.within there = true else there = here

/-- An instruction finds its values on a stack that is no higher than `limit`, and the next one finds
what it leaves. -/
structure Flows (limit : Nat) (e : StackEffect) (transfers : Bool) (before after : Nat) : Prop where
  enough : e.pops ≤ before
  bounded : before ≤ limit
  next : transfers = false → after = before - e.pops + e.pushes

/-- One change. What is said of the depth holds if the body is `sound`. -/
inductive Step (sound : Prop) (ctx : BodyContext) : Situation → Situation → Prop
  | guess {s n K d t} (depth : Nat) (h : ¬ sound) :
      Step sound ctx ⟨s, n, K, d, t⟩ ⟨s, depth, K, d, t⟩
  | heights {s n K d t} (height maxHeight leftBehind : Nat) (h : d.maxHeight ≤ maxHeight) :
      Step sound ctx ⟨s, n, K, d, t⟩ ⟨s, n, K, { d with height, maxHeight, leftBehind }, t⟩
  | scope {s n K d t} (event : ScopeEvent)
      (h : ∀ place, event = .opened place ∨ event = .closed place → place = d.code.stop) :
      Step sound ctx ⟨s, n, K, d, t⟩ ⟨s, n, K, { d with scopes := d.scopes.push event }, t⟩
  | point {s n K d t} (span : SourceSpan) :
      Step sound ctx ⟨s, n, K, d, t⟩ ⟨s, n, K, d.addPoint span, t⟩
  | plain {s n K d t} (op : Opcode) (operand : Bytes) (depth : Nat) (writable : Zone.Writable s.zones)
      (takes : op.Takes (tokensOf K) operand)
      (exits : op = .ret → s.zones = [] ∨ InBlock ctx K s.zones (· = .outermost))
      (rethrows : op = .rethrow → Zone.handling s.zones = true)
      (flows : sound → ∃ e,
        op.Moves ctx.source.module ctx.method.signature (tokensOf K) operand e ∧
          Flows d.maxHeight e op.transfers n depth)
      (stays : op ≠ .jmp) :
      Step sound ctx ⟨s, n, K, d, t⟩
        ⟨s, depth, .instruction d.code.stop s.zones n :: K, d.push (.simple op operand), t⟩
  | branch {s n K d t} (b : Branch) (target : Label) (form : BranchForm) (depth : Nat)
      (writable : Zone.Writable s.zones)
      (reaches : Reaches sound ctx K s (b = .leave) (if b = .leave then 0 else n - b.pops) target)
      (flows : sound → Flows d.maxHeight ⟨b.pops, 0⟩ b.long.transfers n depth) :
      Step sound ctx ⟨s, n, K, d, t⟩
        ⟨s, depth, .instruction d.code.stop s.zones n :: K, d.push (.branch b target form), t⟩
  | switch {s n K d t} (targets : List BlockId) (depth : Nat) (writable : Zone.Writable s.zones)
      (reaches : ∀ id ∈ targets, Reaches sound ctx K s false (n - 1) (.block id))
      (flows : sound → Flows d.maxHeight ⟨1, 0⟩ false n depth) :
      Step sound ctx ⟨s, n, K, d, t⟩
        ⟨s, depth, .instruction d.code.stop s.zones n :: K,
          d.push (.switch (targets.map .block)), t⟩
  | label {s n K d t} (depth : Nat) :
      Step sound ctx ⟨s, n, K, d, t⟩
        ⟨{ s with pending := ⟨.internal d.internalLabels, s.zones, depth⟩ :: s.pending }, n, K,
          { d with internalLabels := d.internalLabels + 1 }, t⟩
  | place {s n K d t} (p : Pending) (rest : List Pending) (writable : Zone.Writable s.zones)
      (perm : s.pending.Perm (p :: rest)) (zones : p.zones = s.zones) (depth : sound → n = p.depth) :
      Step sound ctx ⟨s, n, K, d, t⟩
        ⟨{ s with pending := rest }, n, .label p.label d.code.stop s.zones p.depth :: K,
          d.place p.label, t⟩
  | block {s n K d t} (id : BlockId) (writable : Zone.Writable s.zones)
      (fresh : d.code.isPlaced (.block id) = false) (depth : sound → n = 0) :
      Step sound ctx ⟨s, n, K, d, t⟩
        ⟨{ s with found := { s.found with blocks := s.found.blocks.insert id (Zone.region s.zones) } },
          n, .label (.block id) d.code.stop s.zones 0 :: K, d.place (.block id), t⟩
  | named {s n K d t} (named : Named) (token : Token) (t' : Session)
      (h : (named.token ctx.source).Runs t token t') :
      Step sound ctx ⟨s, n, K, d, t⟩ ⟨s, n, .token named token :: K, d, t'⟩
  | blob {s n K d t} (type : TypeSig) (bytes : Bytes) (t' : Session)
      (h : (typeBlob ctx.source type).Runs t bytes t') :
      Step sound ctx ⟨s, n, K, d, t⟩ ⟨s, n, K, d, t'⟩
  /-- A protected block starts. -/
  | openAttempt {s n K d t k} (number : k = s.found.count + 1) (writable : Zone.Writable s.zones)
      (depth : sound → n = 0) :
      Step sound ctx ⟨s, n, K, d, t⟩
        ⟨{ s with
            zones := ⟨.attempt, k⟩ :: ⟨.whole, k⟩ :: s.zones
            found := { s.found with count := k } }, n,
          .opened (⟨.attempt, k⟩ :: ⟨.whole, k⟩ :: s.zones) d.code.stop 0 ::
            .opened (⟨.whole, k⟩ :: s.zones) d.code.stop 0 :: K, d, t⟩
  /-- A protected block ends where control does not get. -/
  | closeAttempt {s n K d t} (k : Nat) (rest : List Zone) (top : s.zones = ⟨.attempt, k⟩ :: rest)
      (shut : d.fallsThrough = false) :
      Step sound ctx ⟨s, n, K, d, t⟩
        ⟨{ s with zones := rest }, n, .closed s.zones d.code.stop :: K, d, t⟩
  /-- A filter or a handler starts, with an exception on the stack. -/
  | openPart {s n K d t k} (kind : ZoneKind) (w : Nat) (rest : List Zone)
      (number : k = s.found.count + 1) (top : s.zones = ⟨.whole, w⟩ :: rest)
      (part : kind = .filter ∨ kind = .handler) (depth : sound → n = 0) :
      Step sound ctx ⟨s, n, K, d, t⟩
        ⟨{ s with zones := ⟨kind, k⟩ :: s.zones, found := { s.found with count := k } }, 1,
          .opened (⟨kind, k⟩ :: s.zones) d.code.stop 1 :: K, d, t⟩
  /-- A filter ends, and its handler starts. -/
  | closeFilter {s n K d t k} (m w : Nat) (rest : List Zone) (number : k = s.found.count + 1)
      (top : s.zones = ⟨.filter, m⟩ :: ⟨.whole, w⟩ :: rest)
      (ran : ∃ place depth, .instruction place s.zones depth ∈ K) (shut : d.fallsThrough = false)
      (depth : sound → n = 0) :
      Step sound ctx ⟨s, n, K, d, t⟩
        ⟨{ s with
            zones := ⟨.handler, k⟩ :: ⟨.whole, w⟩ :: rest
            found := { s.found with count := k } }, 1,
          .opened (⟨.handler, k⟩ :: ⟨.whole, w⟩ :: rest) d.code.stop 1 ::
            .closed s.zones d.code.stop :: K, d, t⟩
  /-- The whole ends, and what cleans up starts. -/
  | openCleanup {s n K d t k} (w : Nat) (rest : List Zone) (number : k = s.found.count + 1)
      (top : s.zones = ⟨.whole, w⟩ :: rest) (depth : sound → n = 0) :
      Step sound ctx ⟨s, n, K, d, t⟩
        ⟨{ s with zones := ⟨.cleanup w, k⟩ :: rest, found := { s.found with count := k } }, n,
          .opened (⟨.cleanup w, k⟩ :: rest) d.code.stop 0 :: .closed s.zones d.code.stop :: K, d, t⟩
  | closeWhole {s n K d t} (w : Nat) (rest : List Zone) (top : s.zones = ⟨.whole, w⟩ :: rest) :
      Step sound ctx ⟨s, n, K, d, t⟩
        ⟨{ s with zones := rest }, n, .closed s.zones d.code.stop :: K, d, t⟩
  /-- A handler or what cleans up ends, and has its clause. -/
  | clause {s n K d t} (c : DraftClause) (z : Zone) (rest : List Zone) (top : s.zones = z :: rest)
      (stop : c.handlerStop = d.code.stop) (guarded : c.Guarded (tokensOf K))
      (covers : Covers K c s.zones) (ran : ∃ place depth, .instruction place s.zones depth ∈ K)
      (shut : d.fallsThrough = false) :
      Step sound ctx ⟨s, n, K, d, t⟩
        ⟨{ s with zones := rest }, n, .closed s.zones d.code.stop :: K,
          { d with clauses := d.clauses.push c }, t⟩

abbrev Steps (sound : Prop) (ctx : BodyContext) : Situation → Situation → Prop :=
  Relation.ReflTransGen (Step sound ctx)

theorem Steps.keeps {sound : Prop} {ctx : BodyContext} {p : Situation → Prop}
    (step : ∀ x y, Step sound ctx x y → p x → p y) {x y : Situation} (h : Steps sound ctx x y)
    (hx : p x) : p y := by
  induction h with
  | refl => exact hx
  | tail _ last ih => exact step _ _ last ih

end Compile
end Cil
