import Cil.Proofs.NumberedRows

/-!
Facts about a session that every later one keeps, and what actions do with them. `Gives` says of an
action that, from a sound session in which some facts hold, each of its runs ends in a sound session
that has grown, and in which the facts about its result hold as well. The rules follow the text of the
actions, and facts are carried along by their names.
-/

namespace Cil

open Populate (genericParamRow)

variable {k : CodedIndex.Kind} {t : Table}

/-- The row of an owner of attributes is there. -/
def Owner.Known (src : Source) (late : Bool) (s : Session) : Owner → Prop
  | row parent => (Cell.coded parent).Resolves (s.reach src) .none
  | interface owner implemented =>
    ∃ r ∈ s.tables.interfaceImpl, r.owner.number = owner ∧ r.interface = implemented
  | genericParam owner number =>
    ∃ r ∈ s.tables.genericParam, r.owner = owner ∧ r.number = number
  | constraint owner number constraining => late = true ∧
    ∃ r ∈ s.tables.genericParamConstraint,
      r.owner.number = genericParamRow s.tables owner number ∧ r.constraint = constraining

theorem Owner.Known.mono {src : Source} {late : Bool} {s s' : Session} (h : s.Grows late s')
    {owner : Owner} (known : owner.Known src late s) : owner.Known src late s' := by
  cases owner with
  | row parent => exact Cell.Resolves.mono (h.reach src) known
  | interface owner implemented =>
    obtain ⟨r, member, same⟩ := known
    exact ⟨r, h.rows (t := .interfaceImpl) member, same⟩
  | genericParam owner number =>
    obtain ⟨r, member, same⟩ := known
    exact ⟨r, h.rows (t := .genericParam) member, same⟩
  | constraint owner number constraining =>
    obtain ⟨isLate, r, member, same⟩ := known
    refine ⟨isLate, r, h.rows (t := .genericParamConstraint) member, ?_⟩
    rwa [genericParamRow, h.genericParam isLate]

/-- Whatever the session has points at what is there, or will be there by its number. -/
structure Session.Sound (src : Source) (late : Bool) (s : Session) : Prop where
  numbered : src.Numbered
  rows {t : Table} {row : t.Row} : row ∈ s.tables.rows t → TableRow.Resolves (s.reach src) t row
  strings : s.strings.Kept StringHeap.encode
  blobs : s.blobs.Kept BlobHeap.encode
  userStrings : s.userStrings.Kept UserStringHeap.encode
  assemblyRefs {i row : Nat} : s.assemblyRefs.row? i = some row →
    (s.reach src).HasRow .assemblyRef row
  moduleRefs {i row : Nat} : s.moduleRefs.row? i = some row → (s.reach src).HasRow .moduleRef row
  typeRefs {i row : Nat} : s.typeRefs.row? i = some row → (s.reach src).HasRow .typeRef row
  primitiveRefs {p : Primitive} {row : Nat} : (p, row) ∈ s.primitiveRefs →
    (s.reach src).HasRow .typeRef row
  attributes {owner : Owner} {a : Attribute} : (owner, a) ∈ s.attributes →
    owner.Known src late s

/-- What a session has, every later one has. -/
structure Fact (late : Bool) where
  holds : Session → Prop
  keeps {s s' : Session} : s.Grows late s' → holds s → holds s'

namespace Fact

variable {late : Bool} (src : Source)

def row (t : Table) (n : Nat) : Fact late where
  holds s := (s.reach src).HasRow t n
  keeps h held := held.mono (h.reach src)

def next (t : Table) (n : Nat) : Fact late where
  holds s := 1 ≤ n ∧ n ≤ (s.reach src).rows t + 1
  keeps h held := ⟨held.1, Nat.le_trans held.2 (Nat.add_le_add_right ((h.reach src).rows t) 1)⟩

def index {k : CodedIndex.Kind} (i : CodedIndex k) : Fact late where
  holds s := (Cell.coded i).Resolves (s.reach src) .none
  keeps h held := held.mono (h.reach src)

def entry {kind : HeapKind} (i : HeapIndex kind) : Fact late where
  holds s := i.offset = 0 ∨ s.extent.entry kind i.offset
  keeps h held := held.imp_right h.extent.entry

def owner (o : Owner) : Fact late where
  holds s := o.Known src late s
  keeps h held := held.mono h

def token (kind : TokenKind) (token : Token) : Fact late where
  holds s := token.Resolves (s.reach src) kind
  keeps h held := held.mono (h.reach src)

def numbered (o : CodedIndex .typeOrMethodDef) (number : UInt16) (row : Nat) : Fact late where
  holds s := late = true ∧ genericParamRow s.tables o number = row
  keeps h held := ⟨held.1, by rw [genericParamRow, h.genericParam held.1]; exact held.2⟩

def present (t : Table) (row : t.Row) : Fact late where
  holds s := row ∈ s.tables.rows t
  keeps h held := h.rows held

def atLeast (t : Table) (n : Nat) : Fact late where
  holds s := n ≤ s.tables.count t
  keeps h held := Nat.le_trans held (h.extent.rows t)

@[simp] theorem index_row (t : Table) (n : Nat) (mem : t ∈ k.tables) :
    (index src (.row t n mem : CodedIndex k) : Fact late) = row src t n := rfl

@[simp] theorem owner_row (parent : CodedIndex .hasCustomAttribute) :
    (owner src (.row parent) : Fact late) = index src parent := rfl

/-- The fact follows from others. -/
def Follows (N : List (Fact late)) (f : Fact late) : Prop :=
  ∀ s, (∀ g ∈ N, g.holds s) → f.holds s

theorem Follows.of_mem {N : List (Fact late)} {f : Fact late} (h : f ∈ N) : f.Follows N :=
  fun _ holds => holds f h

theorem token_row {kind : TokenKind} {n : Nat} {N : List (Fact late)} (mem : t ∈ kind.tables)
    (known : row src t n ∈ N) : (token src kind (.row t n)).Follows N :=
  fun _ facts => ⟨mem, facts _ known⟩

theorem token_index {kind : TokenKind} {i : CodedIndex k} {N : List (Fact late)}
    (sub : ∀ t ∈ k.tables, t ∈ kind.tables) (known : index src i ∈ N) :
    (token src kind i.token).Follows N := by
  intro s facts
  have held := facts _ known
  cases i with
  | null => cases held
  | row t n mem => exact ⟨sub t mem, held⟩

end Fact

/-- A cell resolves by the facts. -/
def Cell.KnownBy (src : Source) {late : Bool} (N : List (Fact late)) (slack : Slack) : Cell → Prop
  | number .. => True
  | heap i => .entry i ∈ N
  | @row t i => .row src t i.number ∈ N ∨ slack = .pastEnd ∧ .next src t i.number ∈ N
  | coded i => .index src i ∈ N ∨ slack = .null ∧ i = .null

section

variable {src : Source} {late : Bool} {N : List (Fact late)} {slack : Slack}

@[simp] theorem Cell.knownBy_byte (v : UInt8) : (Cell.byte v).KnownBy src N slack := trivial

@[simp] theorem Cell.knownBy_half (v : UInt16) : (Cell.half v).KnownBy src N slack := trivial

@[simp] theorem Cell.knownBy_word (v : UInt32) : (Cell.word v).KnownBy src N slack := trivial

@[simp] theorem Cell.knownBy_heap {kind : HeapKind} (i : HeapIndex kind) :
    (Cell.heap i).KnownBy src N slack ↔ .entry i ∈ N := .rfl

@[simp] theorem Cell.knownBy_row (i : RowIndex t) : (Cell.row i).KnownBy src N slack ↔
    .row src t i.number ∈ N ∨ slack = .pastEnd ∧ .next src t i.number ∈ N := .rfl

@[simp] theorem Cell.knownBy_coded (i : CodedIndex k) :
    (Cell.coded i).KnownBy src N slack ↔ .index src i ∈ N ∨ slack = .null ∧ i = .null := .rfl

end

theorem Cell.KnownBy.resolves {src : Source} {late : Bool} {N : List (Fact late)} {slack : Slack}
    {c : Cell} (known : c.KnownBy src N slack) {s : Session} (facts : ∀ f ∈ N, f.holds s) :
    c.Resolves (s.reach src) slack := by
  cases c with
  | number => trivial
  | heap i => exact facts _ known
  | row i =>
    rcases known with within | ⟨rfl, next⟩
    · have held := facts _ within
      exact ⟨held.1, Nat.le_trans held.2 (Nat.le_add_right ..)⟩
    · exact facts _ next
  | coded i =>
    rcases known with known | ⟨rfl, rfl⟩
    · have held := facts _ known
      cases i with
      | null => cases held
      | row => exact held
    · rfl

/-- The row may be written: its table is still open, and what its cells point at is known. -/
def TableRow.Writable (src : Source) {late : Bool} (N : List (Fact late)) (t : Table) (row : t.Row) :
    Prop :=
  (t = .genericParam → late = false) ∧ ∀ x ∈ (cells row).zipIdx, x.1.KnownBy src N (t.slack x.2)

theorem TableRow.Writable.mono {src : Source} {late : Bool} {M N : List (Fact late)} (h : M ⊆ N)
    {row : t.Row} (writable : TableRow.Writable src M t row) : TableRow.Writable src N t row := by
  refine ⟨writable.1, fun ⟨c, column⟩ hx => ?_⟩
  have cell := writable.2 ⟨c, column⟩ hx
  cases c with
  | number => trivial
  | heap i => exact h cell
  | row i => exact cell.imp (h ·) (.imp_right (h ·))
  | coded i => exact cell.imp_left (h ·)

structure Gives {α : Type} (src : Source) {late : Bool} (N : List (Fact late)) (c : Emit α)
    (Q : α → List (Fact late)) : Prop where
  run {s : Session} {a : α} {s' : Session} : s.Sound src late → (∀ f ∈ N, f.holds s) →
    c.Runs s a s' → s'.Sound src late ∧ s.Grows late s' ∧ ∀ f ∈ Q a, f.holds s'

namespace Gives

open Emit

variable {α β : Type} {src : Source} {late : Bool} {N : List (Fact late)}

variable {c : Emit α} {Q : α → List (Fact late)} {f : α → Emit β} {R : β → List (Fact late)}

theorem bind (hc : Gives src N c Q) (hf : ∀ a, Gives src (Q a ++ N) (f a) R) :
    Gives src N (c >>= f) R where
  run sound facts run := by
    obtain ⟨a, s₁, first, second⟩ := runs_bind.1 run
    obtain ⟨sound₁, grows₁, facts₁⟩ := hc.run sound facts first
    have all : ∀ f ∈ Q a ++ N, f.holds s₁ := by
      intro f hf
      rcases List.mem_append.1 hf with new | old
      · exact facts₁ f new
      · exact f.keeps grows₁ (facts f old)
    obtain ⟨sound₂, grows₂, facts₂⟩ := (hf a).run sound₁ all second
    exact ⟨sound₂, grows₁.trans grows₂, facts₂⟩

theorem pure {a : α} (h : ∀ f ∈ Q a, f.Follows N) : Gives src N (pure a) Q where
  run {s a s'} sound facts run := by
    obtain ⟨rfl, rfl⟩ := runs_pure.1 run
    exact ⟨sound, .refl s, fun f hf => h f hf s facts⟩

theorem pure_of_mem {a : α} (h : ∀ f ∈ Q a, f ∈ N) : Gives src N (Pure.pure a) Q :=
  pure fun f hf => .of_mem (h f hf)

theorem throw {e : Error} : Gives src N (throw e) Q where
  run _ _ run := absurd run runs_throw

theorem bind_throw {e : Error} {Q : β → List (Fact late)} :
    Gives src N ((throwThe Error e : Emit α) >>= f) Q where
  run _ _ run := by
    obtain ⟨_, _, first, _⟩ := runs_bind.1 run
    exact absurd first runs_throw

theorem ite {c : Prop} [Decidable c] {x y : Emit α} (hx : c → Gives src N x Q)
    (hy : ¬ c → Gives src N y Q) : Gives src N (if c then x else y) Q := by
  split
  · exact hx ‹c›
  · exact hy ‹¬ c›

theorem weaken {M : List (Fact late)} {R : α → List (Fact late)} (hc : Gives src M c R)
    (before : ∀ f ∈ M, f.Follows N) (after : ∀ a, ∀ f ∈ Q a, f.Follows (R a)) : Gives src N c Q where
  run sound facts run := by
    obtain ⟨sound', grows, facts'⟩ := hc.run sound (fun f hf => before f hf _ facts) run
    exact ⟨sound', grows, fun f hf => after _ f hf _ facts'⟩

theorem drop {R : α → List (Fact late)} (hc : Gives src N c R) (h : ∀ a, ∀ f ∈ Q a, f ∈ R a) :
    Gives src N c Q :=
  hc.weaken (fun _ => .of_mem) fun a f hf => .of_mem (h a f hf)

theorem supply {M : List (Fact late)} (hc : Gives src M c Q) (h : ∀ f ∈ M, f ∈ N) :
    Gives src N c Q :=
  hc.weaken (fun f hf => .of_mem (h f hf)) fun _ _ => .of_mem

theorem keep (hc : Gives src N c Q) : Gives src N c fun a => Q a ++ N where
  run sound facts run := by
    obtain ⟨sound', grows, facts'⟩ := hc.run sound facts run
    refine ⟨sound', grows, fun f hf => ?_⟩
    exact (List.mem_append.1 hf).elim (facts' f) fun old => f.keeps grows (facts f old)

theorem infer (f : Fact late) (h : f.Follows N) (hc : Gives src (f :: N) c Q) : Gives src N c Q :=
  hc.weaken (List.forall_mem_cons.2 ⟨h, fun _ => .of_mem⟩) fun _ _ => .of_mem

theorem of_numbered (h : src.Numbered → Gives src N c Q) : Gives src N c Q where
  run sound facts run := (h sound.numbered).run sound facts run

theorem assume (fs : List (Fact late)) (h : src.Numbered → ∀ f ∈ fs, ∀ s, f.holds s)
    (hc : Gives src (fs ++ N) c Q) : Gives src N c Q where
  run sound facts run := hc.run sound
    (fun f hf => (List.mem_append.1 hf).elim (h sound.numbered f · _) (facts f)) run

theorem define {n : Nat} (h : src.Numbered → src.Defines t n)
    (hc : Gives src (.row src t n :: N) c Q) : Gives src N c Q :=
  .assume [.row src t n] (fun numbered => List.forall_mem_singleton.2 fun _ =>
    ⟨(h numbered).1, Nat.le_trans (Nat.le_of_lt_succ (h numbered).2) (Nat.le_max_left ..)⟩) hc

theorem bind_ofExcept {r : Except Error α} {Q : β → List (Fact late)}
    (hf : ∀ a, r = .ok a → Gives src N (f a) Q) : Gives src N (Emit.ofExcept r >>= f) Q where
  run sound facts run := by
    obtain ⟨a, _, first, second⟩ := runs_bind.1 run
    obtain ⟨rfl, rfl⟩ := runs_ofExcept.1 first
    exact (hf a rfl).run sound facts second

theorem bind_ofEncoding {r : Except EncodingError α} {Q : β → List (Fact late)}
    (hf : ∀ a, r = .ok a → Gives src N (f a) Q) : Gives src N (Emit.ofEncoding r >>= f) Q where
  run sound facts run := by
    obtain ⟨a, _, first, second⟩ := runs_bind.1 run
    obtain ⟨rfl, rfl⟩ := runs_ofEncoding.1 first
    exact (hf a rfl).run sound facts second

theorem ofEncoding {r : Except EncodingError α} : Gives src N (Emit.ofEncoding r) fun _ => [] where
  run {s a s'} sound _ run := by
    obtain ⟨_, rfl⟩ := runs_ofEncoding.1 run
    exact ⟨sound, .refl s, by simp⟩

theorem bind_get {f : Session → Emit β} (Q : Session → List (Fact late))
    (h : ∀ s, s.Sound src late → (∀ g ∈ N, g.holds s) → ∀ f ∈ Q s, f.holds s)
    (hf : ∀ s, Gives src (Q s ++ N) (f s) R) : Gives src N (get >>= f) R where
  run {s a s'} sound facts run := by
    obtain ⟨_, _, first, second⟩ := runs_bind.1 run
    obtain ⟨rfl, rfl⟩ := runs_get.1 first
    exact (hf s).run sound
      (fun f hf => (List.mem_append.1 hf).elim (h s sound facts f) (facts f)) second

theorem bind_get_row {f : Session → Emit β} (t : Table) (look : Session → Option Nat)
    (h : ∀ {s row}, s.Sound src late → look s = some row → (s.reach src).HasRow t row)
    (hf : ∀ s, Gives src (((look s).map (.row src t)).toList ++ N) (f s) R) :
    Gives src N (get >>= f) R := by
  refine bind_get _ (fun s sound _ f hf => ?_) hf
  obtain ⟨row, found, rfl⟩ := Option.map_eq_some_iff.1 (Option.mem_toList.1 hf)
  exact h sound found

theorem update {f : Session → Session} {Q : List (Fact late)}
    (h : ∀ s, s.Sound src late → (∀ g ∈ N, g.holds s) →
      (f s).Sound src late ∧ s.Grows late (f s) ∧ ∀ g ∈ Q, g.holds (f s)) :
    Gives src N (modify f) fun _ => Q where
  run {s a s'} sound facts run := by
    cases runs_modify.1 run
    exact h s sound facts

theorem updateGet {f : Session → α × Session} (h : ∀ s, s.Sound src late → (∀ g ∈ N, g.holds s) →
      (f s).2.Sound src late ∧ s.Grows late (f s).2 ∧ ∀ g ∈ Q (f s).1, g.holds (f s).2) :
    Gives src N (modifyGet f) Q where
  run {s a s'} sound facts run := by
    have result := h s sound facts
    rwa [runs_modifyGet.1 run] at result

end Gives
end Cil
