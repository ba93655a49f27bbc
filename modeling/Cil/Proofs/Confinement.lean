import Cil.Proofs.BodyTokens

/-!
What actions leave alone. An action is confined to some parts of a session if all others are as they
were; the heaps of names and blobs, the resources and the initial values keep their bytes, so that what
stands at an offset stays there. Nor does such an action end with the error of a branch that is out of
range.
-/

namespace Cil

variable {t : Table}

namespace Heap

variable {α : Type} {encode : α → Except EncodingError Bytes} {h h' : Heap α}

/-- The encoding of the entry stands at the offset. -/
def Has (encode : α → Except EncodingError Bytes) (h : Heap α) (offset : Nat) (entry : α) : Prop :=
  ∃ encoding, encode entry = .ok encoding ∧ encoding <+: h.bytes.toList.drop offset

/-- The later heap starts with the bytes of the earlier one. -/
def Under (h h' : Heap α) : Prop := h.bytes.toList <+: h'.bytes.toList

theorem Under.refl (h : Heap α) : h.Under h := List.prefix_refl _

theorem Under.trans {h₁ : Heap α} (first : h.Under h₁) (second : h₁.Under h') : h.Under h' :=
  List.IsPrefix.trans first second

theorem Has.mono (under : h.Under h') {offset : Nat} {entry : α} (has : h.Has encode offset entry) :
    h'.Has encode offset entry := by
  obtain ⟨encoding, encoded, stands⟩ := has
  obtain ⟨more, bytes⟩ := under
  refine ⟨encoding, encoded, stands.trans ?_⟩
  rw [← bytes, List.drop_append]
  exact List.prefix_append ..

/-- The heap has its reserved byte, and each entry where it says. -/
structure Faithful (encode : α → Except EncodingError Bytes) (h : Heap α) : Prop where
  reserved : [0] <+: h.bytes.toList
  entries {x : α × Nat} : x ∈ h.entries → h.Has encode x.2 x.1

/-- An entry has been written. -/
structure Wrote (encode : α → Except EncodingError Bytes) (h : Heap α) (entry : α)
    (r : Nat × Heap α) : Prop where
  faithful : r.2.Faithful encode
  under : h.Under r.2
  has : r.2.Has encode r.1 entry

theorem Faithful.intern [BEq α] [LawfulBEq α] (faithful : h.Faithful encode) {entry : α}
    {encoding : Bytes} (encoded : encode entry = .ok encoding) :
    h.Wrote encode entry (h.intern entry encoding) := by
  rw [Heap.intern]
  split
  case h_1 offset found =>
    obtain ⟨x, first, rfl⟩ := Option.map_eq_some_iff.1 found
    have same : x.1 = entry := by simpa using Array.find?_some first
    exact ⟨faithful, .refl h, same ▸ faithful.entries (Array.mem_of_find?_eq_some first)⟩
  case h_2 =>
    have under : h.Under ⟨h.bytes ++ encoding, h.entries.push (entry, h.size)⟩ := by
      simp [Under]
    have new : Has encode ⟨h.bytes ++ encoding, h.entries.push (entry, h.size)⟩ h.size entry :=
      ⟨encoding, encoded, by simp [size]⟩
    refine ⟨⟨faithful.reserved.trans under, fun {x} hx => ?_⟩, under, new⟩
    rcases Array.mem_push.1 hx with old | rfl
    · exact (faithful.entries old).mono under
    · exact new

end Heap

theorem StringHeap.wrote_write {h : StringHeap} (faithful : h.Faithful encode) (text : String) :
    h.Wrote encode text (write h text) := by
  rw [write]
  split
  case isTrue empty =>
    have same : text = "" := by simpa using empty
    exact ⟨faithful, .refl h, [0], by rw [same]; rfl, by simpa using faithful.reserved⟩
  case isFalse => exact faithful.intern rfl

theorem BlobHeap.wrote_add {h : BlobHeap} (faithful : h.Faithful encode) {blob encoding : Bytes}
    (encoded : encode blob = .ok encoding) : h.Wrote encode blob (add h blob encoding) := by
  rw [add]
  split
  case isTrue empty =>
    have same : blob = [] := by simpa using empty
    exact ⟨faithful, .refl h, [0], by rw [same]; rfl, by simpa using faithful.reserved⟩
  case isFalse => exact faithful.intern encoded

/-- What a write changes: the rows of a table, or the attributes that wait for theirs. -/
inductive Part
  | rows (t : Table)
  | attributes
  deriving DecidableEq

namespace Session

/-- Names and blobs are where the heaps say. -/
structure Faithful (s : Session) : Prop where
  strings : s.strings.Faithful StringHeap.encode
  blobs : s.blobs.Faithful BlobHeap.encode

/-- Names, blobs, resources and initial values are where they were. -/
structure Under (s s' : Session) : Prop where
  strings : s.strings.Under s'.strings
  blobs : s.blobs.Under s'.blobs
  resources : s.resources.bytes.toList <+: s'.resources.bytes.toList
  data (place : DataSection) :
    (s.staticData.buffer place).toList <+: (s'.staticData.buffer place).toList

theorem Under.refl (s : Session) : s.Under s :=
  ⟨.refl _, .refl _, List.prefix_refl _, fun _ => List.prefix_refl _⟩

theorem Under.trans {s s₁ s' : Session} (h : s.Under s₁) (h' : s₁.Under s') : s.Under s' :=
  ⟨h.strings.trans h'.strings, h.blobs.trans h'.blobs, h.resources.trans h'.resources,
    fun place => (h.data place).trans (h'.data place)⟩

/-- Only the parts in `A` are not as before. The places of initial values change with the rows that they
belong to. -/
structure Extends (A : Part → Prop) (s s' : Session) : Prop extends s.Under s' where
  rows {t : Table} : ¬ A (.rows t) → s'.tables.rows t = s.tables.rows t
  fieldData : ¬ A (.rows .fieldRva) → s'.fieldData = s.fieldData
  attributes : ¬ A .attributes → s'.attributes = s.attributes

variable {A : Part → Prop} {s s₁ s' : Session}

theorem Extends.refl (s : Session) : s.Extends A s where
  toUnder := .refl s
  rows _ := rfl
  fieldData _ := rfl
  attributes _ := rfl

theorem Extends.trans (h : s.Extends A s₁) (h' : s₁.Extends A s') : s.Extends A s' where
  toUnder := h.toUnder.trans h'.toUnder
  rows other := (h'.rows other).trans (h.rows other)
  fieldData other := (h'.fieldData other).trans (h.fieldData other)
  attributes other := (h'.attributes other).trans (h.attributes other)

theorem Extends.mono {A' : Part → Prop} (h : s.Extends A s') (more : ∀ part, A part → A' part) :
    s.Extends A' s' where
  toUnder := h.toUnder
  rows other := h.rows (mt (more _) other)
  fieldData other := h.fieldData (mt (more _) other)
  attributes other := h.attributes (mt (more _) other)

/-- All but the rows that references have been given, and the heaps of GUIDs and user strings. -/
def kept (s : Session) :
    Tables × StringHeap × BlobHeap × Array (Owner × Attribute) × StaticData ×
      Array (DataSection × Nat) × Resources :=
  (s.tables, s.strings, s.blobs, s.attributes, s.staticData, s.fieldData, s.resources)

theorem Extends.of_eq (same : s'.kept = s.kept) : s.Extends A s' := by
  simp only [kept, Prod.mk.injEq] at same
  obtain ⟨tables, strings, blobs, attributes, data, fieldData, resources⟩ := same
  exact {
    strings := strings ▸ .refl _
    blobs := blobs ▸ .refl _
    resources := resources ▸ List.prefix_refl _
    data := fun _ => data ▸ List.prefix_refl _
    rows := fun _ => by rw [tables]
    fieldData := fun _ => fieldData
    attributes := fun _ => attributes }

theorem Extends.of_modify (allowed : A (.rows t)) (f : Array t.Row → Array t.Row) :
    s.Extends A { s with tables := s.tables.modify t f } where
  toUnder := { Under.refl s with }
  rows {u} other := by
    apply Tables.rows_modify_of_ne
    rintro rfl
    exact other allowed
  fieldData _ := rfl
  attributes _ := rfl

end Session

def Error.isOutOfRange : Error → Bool
  | branchOutOfRange _ => true
  | _ => false

/-- The only errors are those in `E`. -/
structure Except.Fails (E : Error → Prop) {α : Type} (r : Except Error α) : Prop where
  holds {e : Error} : r = .error e → E e

namespace Except.Fails

variable {E : Error → Prop} {α β : Type}

theorem ok (a : α) : Fails E (.ok a) where
  holds := nofun

theorem error {e : Error} (h : E e) : Fails E (.error e : Except Error α) where
  holds same := by
    cases same
    exact h

theorem bind {r : Except Error α} {f : α → Except Error β} (hr : Fails E r)
    (hf : ∀ a, Fails E (f a)) : Fails E (r >>= f) := by
  cases r with
  | error e => exact error (hr.holds rfl)
  | ok a => exact hf a

end Except.Fails

def Table.isReference : Table → Bool
  | typeRef | memberRef | standAloneSig | moduleRef | typeSpec | assemblyRef | methodSpec => true
  | _ => false

/-- References may be written: their tables are among the parts in `A`, and all errors but those of
branches are among those in `E`. -/
structure Permits (A : Part → Prop) (E : Error → Prop) : Prop where
  table {t : Table} : t.isReference = true → A (.rows t)
  error {e : Error} : e.isOutOfRange = false → E e

theorem Permits.encoding {A : Part → Prop} {E : Error → Prop} (permits : Permits A E)
    (e : EncodingError) : E (.encoding e) := permits.error rfl

section

variable {A : Part → Prop} {E : Error → Prop} (permits : Permits A E)

include permits

theorem fails_typeInfo (m : Module) (id : TypeId) : Except.Fails E (m.typeInfo id) := by
  rw [Module.typeInfo]
  split
  · exact .ok _
  · exact .error (permits.error rfl)

theorem fails_fieldDef (m : Module) (id : FieldId) : Except.Fails E (m.fieldDef id) := by
  refine (fails_typeInfo permits m id.parent).bind fun t => ?_
  split
  · exact .ok _
  · exact .error (permits.error rfl)

theorem fails_methodDef (m : Module) (id : MethodId) : Except.Fails E (m.methodDef id) := by
  refine (fails_typeInfo permits m id.parent).bind fun t => ?_
  split
  · exact .ok _
  · exact .error (permits.error rfl)

theorem fails_typeRow (n : Numbering) (id : TypeId) : Except.Fails E (n.typeRow id) := by
  rw [Numbering.typeRow]
  split
  · exact .ok _
  · exact .error (permits.error rfl)

theorem fails_fieldRow (n : Numbering) (id : FieldId) : Except.Fails E (n.fieldRow id) := by
  rw [Numbering.fieldRow]
  split
  · exact .ok _
  · exact .error (permits.error rfl)

theorem fails_methodRow (n : Numbering) (id : MethodId) : Except.Fails E (n.methodRow id) := by
  rw [Numbering.methodRow]
  split
  · exact .ok _
  · exact .error (permits.error rfl)

end

namespace Emit

variable {α β : Type} {A : Part → Prop} {E : Error → Prop}

variable {c : Emit α} {f : α → Emit β}

theorem error_of_bind {s : Session} {e : Error} (h : ((c >>= f).run s).1 = .error e) :
    (c.run s).1 = .error e ∨ ∃ a s₁, c.Runs s a s₁ ∧ ((f a).run s₁).1 = .error e := by
  rw [Service.run_bind] at h
  rcases run : c.run s with ⟨r, s₁⟩
  rw [run] at h
  cases r with
  | ok a => exact .inr ⟨a, s₁, run, h⟩
  | error e' =>
    cases h
    exact .inl rfl

/-- The action changes only the parts in `A`, and fails only with the errors in `E`. -/
structure Confined (A : Part → Prop) (E : Error → Prop) (c : Emit α) : Prop where
  run {s : Session} {a : α} {s' : Session} : s.Faithful → c.Runs s a s' →
    s'.Faithful ∧ s.Extends A s'
  fails (s : Session) : Except.Fails E (c.run s).1

namespace Confined

theorem bind (hc : c.Confined A E) (hf : ∀ a, (f a).Confined A E) : (c >>= f).Confined A E where
  run faithful run := by
    obtain ⟨a, s₁, first, second⟩ := runs_bind.1 run
    obtain ⟨faithful₁, extends₁⟩ := hc.run faithful first
    obtain ⟨faithful₂, extends₂⟩ := (hf a).run faithful₁ second
    exact ⟨faithful₂, extends₁.trans extends₂⟩
  fails s := by
    refine ⟨fun failed => ?_⟩
    rcases error_of_bind failed with first | ⟨a, s₁, _, second⟩
    · exact (hc.fails s).holds first
    · exact ((hf a).fails s₁).holds second

theorem pure (a : α) : Confined A E (Pure.pure a) where
  run {s _ _} faithful run := by
    obtain ⟨rfl, rfl⟩ := runs_pure.1 run
    exact ⟨faithful, .refl s⟩
  fails _ := .ok a

theorem get : Confined A E (MonadState.get : Emit Session) where
  run {s _ _} faithful run := by
    obtain ⟨rfl, rfl⟩ := runs_get.1 run
    exact ⟨faithful, .refl s⟩
  fails s := .ok s

theorem ofExcept {r : Except Error α} (h : Except.Fails E r) : (ofExcept r).Confined A E where
  run {s _ _} faithful run := by
    obtain ⟨_, rfl⟩ := runs_ofExcept.1 run
    exact ⟨faithful, .refl s⟩
  fails _ := h

theorem lookup (r : Except Error α) : (Emit.ofExcept r).Confined A fun _ => True :=
  ofExcept ⟨fun _ => trivial⟩

theorem ofEncoding (encoding : ∀ e, E (.encoding e)) (r : Except EncodingError α) :
    (ofEncoding r).Confined A E := by
  apply ofExcept
  cases r with
  | ok a => exact .ok a
  | error e => exact .error (encoding e)

theorem bind_ofEncoding (encoding : ∀ e, E (.encoding e)) {r : Except EncodingError α}
    (hf : ∀ a, r = .ok a → (f a).Confined A E) : (Emit.ofEncoding r >>= f).Confined A E where
  run faithful run := by
    obtain ⟨a, _, first, second⟩ := runs_bind.1 run
    obtain ⟨encoded, rfl⟩ := runs_ofEncoding.1 first
    exact (hf a encoded).run faithful second
  fails s := by
    refine ⟨fun failed => ?_⟩
    rcases error_of_bind failed with first | ⟨a, s₁, ran, second⟩
    · exact ((ofEncoding (A := A) encoding r).fails s).holds first
    · exact ((hf a (runs_ofEncoding.1 ran).1).fails s₁).holds second

theorem updateGet {f : Session → α × Session}
    (h : ∀ s, s.Faithful → (f s).2.Faithful ∧ s.Extends A (f s).2) :
    Confined A E (modifyGet f : Emit α) where
  run {s a s'} faithful run := by
    have result := h s faithful
    rwa [runs_modifyGet.1 run] at result
  fails s := .ok (f s).1

theorem update {f : Session → Session} (h : ∀ s, (f s).kept = s.kept) :
    Confined A E (modify f : Emit Unit) where
  run {s a s'} faithful run := by
    cases runs_modify.1 run
    have same := h s
    refine ⟨?_, .of_eq same⟩
    simp only [Session.kept, Prod.mk.injEq] at same
    exact ⟨same.2.1 ▸ faithful.strings, same.2.2.1 ▸ faithful.blobs⟩
  fails _ := .ok ()

theorem mono {A' : Part → Prop} (hc : c.Confined A E) (more : ∀ t, A t → A' t) :
    c.Confined A' E where
  run faithful run := by
    obtain ⟨faithful', extends'⟩ := hc.run faithful run
    exact ⟨faithful', extends'.mono more⟩
  fails := hc.fails

theorem forM {l : List α} {f : α → Emit Unit} (h : ∀ a, (f a).Confined A E) :
    (l.forM f).Confined A E := by
  induction l with
  | nil => exact pure ()
  | cons a l ih => exact (h a).bind fun _ => ih

theorem string (text : String) : (Emit.string text).Confined A E := by
  refine .updateGet fun s faithful => ?_
  have wrote := StringHeap.wrote_write faithful.strings text
  exact ⟨⟨wrote.faithful, faithful.blobs⟩,
    { toUnder := { Session.Under.refl s with strings := wrote.under }
      rows := fun _ => rfl
      fieldData := fun _ => rfl
      attributes := fun _ => rfl }⟩

theorem string? (text : Option String) : (Emit.string? text).Confined A E := by
  cases text with
  | none => exact pure _
  | some text => exact string text

theorem blob (encoding : ∀ e, E (.encoding e)) (bytes : Bytes) : (Emit.blob bytes).Confined A E := by
  rw [Emit.blob_eq]
  refine .bind_ofEncoding encoding fun bytes' encoded => .updateGet fun s faithful => ?_
  have wrote := BlobHeap.wrote_add faithful.blobs encoded
  have written := Session.blobs_withBlob (s := s) encoded
  exact ⟨⟨faithful.strings, written ▸ wrote.faithful⟩,
    { toUnder := { Session.Under.refl s with blobs := written ▸ wrote.under }
      rows := fun _ => rfl
      fieldData := fun _ => rfl
      attributes := fun _ => rfl }⟩

theorem blob? (encoding : ∀ e, E (.encoding e)) (bytes : Option Bytes) :
    (Emit.blob? bytes).Confined A E := by
  cases bytes with
  | none => exact pure _
  | some bytes => exact blob encoding bytes

theorem userString (encoding : ∀ e, E (.encoding e)) (text : String) :
    (Emit.userString text).Confined A E := by
  rw [Emit.userString_eq]
  refine (ofEncoding encoding _).bind fun _ => .updateGet fun s faithful => ?_
  exact ⟨⟨faithful.strings, faithful.blobs⟩, .of_eq rfl⟩

theorem push (allowed : A (.rows t)) (row : t.Row) : (Emit.push t row).Confined A E := by
  refine .updateGet fun s faithful => ?_
  exact ⟨⟨faithful.strings, faithful.blobs⟩, .of_modify allowed _⟩

theorem intern (allowed : A (.rows t)) (row : t.Row) : (Emit.intern t row).Confined A E := by
  refine get.bind fun s => ?_
  split
  · exact pure _
  · exact push allowed row

theorem internSpec (allowed : A (.rows t)) (key : SpecKeys → UInt64)
    (same : Session → t.Row → Bool) (row : t.Row) :
    (Emit.internSpec t key same row).Confined A E := by
  refine get.bind fun s => ?_
  split
  · exact pure _
  · exact (push allowed row).bind fun _ => .bind (.update fun _ => rfl) fun _ => pure _

theorem insert [SortedRow t.Row] (allowed : A (.rows t)) (row : t.Row) :
    (Emit.insert t row).Confined A E := by
  refine .updateGet fun s faithful => ?_
  exact ⟨⟨faithful.strings, faithful.blobs⟩, .of_modify allowed _⟩

theorem attach (waits : A .attributes) (owner : Owner) (attributes : List Attribute) :
    (Populate.attach owner attributes).Confined A E where
  run {s a s'} faithful run := by
    cases runs_modify.1 run
    exact ⟨⟨faithful.strings, faithful.blobs⟩,
      { toUnder := { Session.Under.refl s with }
        rows := fun _ => rfl
        fieldData := fun _ => rfl
        attributes := fun other => absurd waits other }⟩
  fails _ := .ok ()

theorem constant (own : A (.rows .constant)) (parent : CodedIndex .hasConstant) (v : Constant) :
    (Populate.constant parent v).Confined A fun _ => True :=
  (blob (fun _ => trivial) _).bind fun _ => (insert own _).bind fun _ => pure _

theorem marshal (own : A (.rows .fieldMarshal)) (parent : CodedIndex .hasFieldMarshal)
    (descriptor : Bytes) : (Populate.marshal parent descriptor).Confined A fun _ => True :=
  (blob (fun _ => trivial) _).bind fun _ => (insert own _).bind fun _ => pure _

end Confined
end Emit

end Cil
