import Cil.Proofs.Logs
import Cil.Proofs.Writes

/-!
What the tables of definitions hold in the end: for each defined type in its turn one row that describes
it, and one for each of its members.
-/

namespace Cil

open List Session

/-- The index of a row of a table; there is none if the kind has no such rows. -/
def CodedIndex.of {k : Kind} (t : Table) (n : Nat) : CodedIndex k := (ofRow? k t n).getD .null

/-- The name at an index; an absent one has the offset 0. -/
def StringHeap.Names (h : StringHeap) (i : StringIndex) : Option String → Prop
  | some text => h.Has encode i.offset text
  | none => i.offset = 0

/-- The blob at an index is one that the action makes. -/
def BlobHeap.Signs (h : BlobHeap) (i : BlobIndex) (c : Emit Bytes) : Prop :=
  ∃ bytes, (∃ s s', c.Runs s bytes s') ∧ h.Has encode i.offset bytes

section

variable (src : Source) (strings : StringHeap) (blobs : BlobHeap)

/-- What is written for the base of a type. -/
def TypeInfo.HasBase (t : TypeInfo) (index : TypeDefOrRef) : Prop :=
  match t.base with
  | some base => ∃ s s', (typeToken src base).Runs s index s'
  | none => index = .null

/-- The row says what the type is. -/
structure TypeInfo.DescribedBy (t : TypeInfo) (row : Row.TypeDef) : Prop where
  flags : row.flags = t.flagMask
  name : strings.Has StringHeap.encode row.name.offset t.name
  typeNamespace : strings.Names row.typeNamespace t.typeNamespace
  base : t.HasBase src row.base

structure FieldDef.DescribedBy (f : FieldDef) (row : Row.Field) : Prop where
  flags : row.flags = f.flags
  name : strings.Has StringHeap.encode row.name.offset f.name
  signature : blobs.Signs row.signature (fieldBlob src f)

structure Method.DescribedBy (m : Method) (row : Row.MethodDef) : Prop where
  implFlags : row.implFlags = m.implFlags.mask
  flags : row.flags = m.flags
  name : strings.Has StringHeap.encode row.name.offset m.name
  signature : blobs.Signs row.signature (methodBlob src m.signature m.genericParameters.length [])

/-- The row says what the parameter of a number is; the returned value has the number 0. -/
structure Parameter.DescribedBy (p : Parameter) (sequence : Nat) (row : Row.Param) : Prop where
  flags : row.flags = p.flags
  sequence : row.sequence = .ofNat sequence
  name : strings.Names row.name p.name

structure Property.DescribedBy (p : Property) (row : Row.Property) : Prop where
  flags : row.flags = p.flags
  name : strings.Has StringHeap.encode row.name.offset p.name
  signature : blobs.Signs row.signature (propertyBlob src p)

structure Event.DescribedBy (e : Event) (row : Row.Event) : Prop where
  flags : row.flags = e.flags
  name : strings.Has StringHeap.encode row.name.offset e.name
  kind : ∃ s s', (typeToken src e.delegateType).Runs s row.kind s'

end

def Method.described (m : Method) : List (Parameter × Nat) :=
  m.returnInfo.toList.map (·, 0) ++ m.parameters.zipIdx 1

def Definition.propertyMap (d : Definition) : List Row.PropertyMap :=
  if d.info.properties.isEmpty then []
  else [{ parent := ⟨d.rows.row⟩, propertyList := ⟨d.rows.firstProperty⟩ }]

def Definition.eventMap (d : Definition) : List Row.EventMap :=
  if d.info.events.isEmpty then []
  else [{ parent := ⟨d.rows.row⟩, eventList := ⟨d.rows.firstEvent⟩ }]

namespace Emit.Fills

open Populate

theorem bind_string? {α β : Type} {log : Log α} {text : Option String} {f : StringIndex → Emit β}
    {R : Session → List α → Prop}
    (hf : ∀ i, Fills log (f i) fun later new => later.strings.Names i text → R later new) :
    Fills log (Emit.string? text >>= f) R := by
  cases text with
  | some text => exact bind_string hf
  | none =>
    exact bind (.pure _) fun i made => by
      obtain ⟨s, s', run⟩ := made
      obtain ⟨rfl, _⟩ := runs_pure.1 run
      exact (hf _).weaken fun later new h => h rfl

variable (src : Source) (d : Definition)

theorem typeDef : Fills (.rows .typeDef) (typeDef src d) fun later rows => ∃ row, rows = [row] ∧
    d.info.DescribedBy src later.strings row ∧ row.fieldList.number = d.rows.firstField ∧
      row.methodList.number = d.rows.firstMethod := by
  have row (base : TypeDefOrRef) (known : d.info.HasBase src base) :
      Fills (.rows .typeDef) (typeDefRow d base) fun later rows =>
        ∃ row, rows = [row] ∧ d.info.DescribedBy src later.strings row ∧
          row.fieldList.number = d.rows.firstField ∧ row.methodList.number = d.rows.firstMethod := by
    refine bind_string? fun typeNamespace => bind_string fun name =>
      bind_right (push fun later named inNamespace => ?_) fun _ => .attach (by simp) ..
    exact ⟨_, rfl, ⟨rfl, named, inNamespace, known⟩, rfl, rfl⟩
  unfold Populate.typeDef
  split
  case h_1 b base =>
    refine bind ((Asks.typeToken b).confined (.besides .typeDef rfl)) fun index made => ?_
    exact row index (by rwa [TypeInfo.HasBase, base])
  case h_2 base => exact row .null (by rw [TypeInfo.HasBase, base])

theorem fields : Fills (.rows .field) (fields src d) fun later rows =>
    List.Forall₂ (FieldDef.DescribedBy src later.strings later.blobs) d.info.fields.toList rows := by
  refine forM_zipIdx fun x => ?_
  refine bind ((Asks.fieldBlob x.1).confined (.besides .field rfl)) fun blob made =>
    bind_string fun name => bind_blob fun signature =>
      bind_right (push fun later signed named => ?_) fun _ => .attach (by simp) ..
  exact ⟨_, rfl, rfl, named, blob, made, signed⟩

theorem methods : Fills (.rows .methodDef) (methods src d) fun later rows => List.Forall₂
    (fun x row => Method.DescribedBy src later.strings later.blobs x.1 row ∧
      row.paramList.number = x.2) (d.info.methods.toList.zip d.rows.firstParams.toList) rows := by
  have each : Fills (.rows .methodDef) (Populate.methods src d) fun later rows => List.Forall₂
      (fun x row => Method.DescribedBy src later.strings later.blobs x.1.1 row ∧
        row.paramList.number = x.2) (d.methods.zip d.rows.firstParams.toList) rows := by
    refine forM_each fun x => ?_
    refine bind ((Asks.methodBlob ..).confined (.besides .methodDef rfl)) fun blob made =>
      bind_string fun name => bind_blob fun signature =>
        bind_right (push fun later signed named => ?_) fun _ => .attach (by simp) ..
    exact ⟨_, rfl, ⟨rfl, rfl, named, blob, made, signed⟩, rfl⟩
  refine each.weaken fun later rows h => ?_
  have forget : d.info.methods.toList.zip d.rows.firstParams.toList =
      (d.methods.zip d.rows.firstParams.toList).map (Prod.map Prod.fst id) := by
    rw [← zip_map_left, Definition.methods, zipIdx_map_fst]
  rw [forget, forall₂_map_left_iff]
  exact h

include src in
theorem param (sequence : Nat) (p : Parameter) :
    Fills (.rows .param) (param sequence p) fun later rows =>
      ∃ row, rows = [row] ∧ p.DescribedBy later.strings sequence row := by
  refine bind_string? fun name => bind_right (push fun later named => ?_) fun row => ?_
  · exact ⟨_, rfl, rfl, rfl, named⟩
  · exact (Writes.paramParts src (by simp) (by simp) (by simp) p row).confined

include src in
theorem params : Fills (.rows .param) (params d) fun later rows => List.Forall₂
    (fun x => x.1.DescribedBy later.strings x.2)
    (d.info.methods.toList.flatMap (·.described)) rows := by
  refine forM fun m => ?_
  have returned : Fills (.rows .param) (m.returnInfo.toList.forM (Populate.param 0)) fun later rows =>
      List.Forall₂ (fun p => p.DescribedBy later.strings 0) m.returnInfo.toList rows :=
    forM_each fun p => param src 0 p
  have declared : Fills (.rows .param) ((m.parameters.zipIdx 1).forM fun x => Populate.param x.2 x.1)
      fun later rows => List.Forall₂ (fun x => x.1.DescribedBy later.strings x.2)
        (m.parameters.zipIdx 1) rows :=
    forM_each fun x => param src x.2 x.1
  refine (returned.append fun _ => declared).weaken ?_
  rintro later _ ⟨_, _, rfl, first, rest⟩
  exact rel_append (forall₂_map_left_iff.2 first) rest

theorem propertyMap : Fills (.rows .propertyMap) (properties src d) fun _ rows =>
    List.Forall₂ Eq d.propertyMap rows := by
  refine bind_right ?_ fun _ =>
    (Writes.propertyRows (.besides .propertyMap rfl) (by simp) (by simp) (by simp) d).confined
  unfold Populate.propertyMap Definition.propertyMap
  split
  · exact nothing (.pure _) fun _ => .nil
  · exact bind_right (push fun _ => .cons rfl .nil) fun _ => .pure _

theorem properties : Fills (.rows .property) (properties src d) fun later rows => List.Forall₂
    (Property.DescribedBy src later.strings later.blobs) d.info.properties.toList rows :=
  bind (Writes.propertyMap src (by simp) d).confined fun _ _ => forM_zipIdx fun x =>
    bind ((Asks.propertyBlob x.1).confined (.besides .property rfl)) fun blob made => bind_string fun _ =>
      bind_blob fun _ => bind_right
        (push fun _ signed named => ⟨_, rfl, rfl, named, blob, made, signed⟩) fun _ =>
          (Confined.forM fun _ => .constant (by simp) ..).bind fun _ => .attach (by simp) ..

theorem eventMap : Fills (.rows .eventMap) (events src d) fun _ rows =>
    List.Forall₂ Eq d.eventMap rows := by
  refine bind_right ?_ fun _ =>
    (Writes.eventRows (.besides .eventMap rfl) (by simp) (by simp) d).confined
  unfold Populate.eventMap Definition.eventMap
  split
  · exact nothing (.pure _) fun _ => .nil
  · exact bind_right (push fun _ => .cons rfl .nil) fun _ => .pure _

theorem events : Fills (.rows .event) (events src d) fun later rows => List.Forall₂
    (Event.DescribedBy src later.strings) d.info.events.toList rows :=
  bind (Writes.eventMap src (by simp) d).confined fun _ _ => forM_zipIdx fun x =>
    bind ((Asks.typeToken x.1.delegateType).confined (.besides .event rfl)) fun _ made =>
      bind_string fun _ => bind_right (push fun _ named => ⟨_, rfl, rfl, named, made⟩) fun _ => .attach (by simp) ..

end Emit.Fills

section

variable (src : Source) (key : Option Bytes)

variable {ps : List (List Part × Emit Unit)} {s : Session} {area : CodeArea} {keepsSymbols : Bool}

variable {after : List (List Part × Emit Unit)} {p : List Part × Emit Unit}

/-- The passes that fill the tables, each with the parts of the session that it changes besides the
tables of references. -/
def Populate.passes : List (List Part × Emit Unit) :=
  let types := src.definitions
  [([.attributes], attach (.row (.of .module 1)) src.module.attributes),
    ([.rows .typeDef, .attributes], types.forM (typeDef src)),
    ([.rows .field, .attributes], types.forM (fields src)),
    ([.rows .methodDef, .attributes], types.forM (methods src)),
    ([.rows .param, .rows .constant, .rows .fieldMarshal, .attributes], types.forM params),
    ([.rows .interfaceImpl, .rows .constant, .rows .fieldMarshal, .rows .declSecurity,
      .rows .classLayout, .rows .fieldLayout, .attributes], types.forM (members src)),
    ([.rows .propertyMap, .rows .property, .rows .constant, .attributes],
      types.forM (properties src)),
    ([.rows .eventMap, .rows .event, .attributes], types.forM (events src)),
    ([.rows .methodSemantics], types.forM (accessors src)),
    ([.rows .methodImpl], types.forM (methodImpls src)),
    ([.rows .implMap], types.forM (implMaps src)),
    ([.rows .fieldRva], types.forM fieldRvas),
    ([.rows .assembly, .rows .declSecurity, .rows .manifestResource, .rows .file,
      .rows .exportedType, .attributes], manifest src key),
    ([.rows .nestedClass], types.forM (nestedClass src)),
    ([.rows .genericParam, .rows .genericParamConstraint, .attributes], generics src),
    ([.attributes], references src),
    ([.rows .customAttribute, .attributes], customAttributes src)]

theorem Populate.all_eq_passes :
    Populate.all src key = (passes src key).forM (·.2) := by
  simp only [Populate.all, passes, forM_eq_forM, forM_cons, forM_nil, bind_pure_unit]
  rfl

/-- A pass changes only its own parts, and tables of references. -/
def Populate.Pass (p : List Part × Emit Unit) : Prop :=
  p.2.Writes src fun part => (∃ t : Table, t.isReference = true ∧ part = .rows t) ∨ part ∈ p.1

theorem Populate.permits_pass {parts : List Part} :
    Permits (fun part => (∃ t : Table, t.isReference = true ∧ part = .rows t) ∨ part ∈ parts)
      fun _ => True :=
  .of_references fun h => .inl ⟨_, h, rfl⟩

theorem Populate.pass_of_mem : ∀ p ∈ passes src key, Pass src p := by
  simp only [passes, forall_mem_cons]
  refine ⟨.attach (by simp) .., .forM fun d => .typeDef permits_pass (by simp) (by simp) d,
    .forM fun d => .fields permits_pass (by simp) (by simp) d,
    .forM fun d => .methods permits_pass (by simp) (by simp) d,
    .forM fun d => .params src (by simp) (by simp) (by simp) (by simp) d,
    .forM fun d => .members permits_pass (by simp) (by simp) d,
    .forM fun d => .properties permits_pass (by simp) (by simp) (by simp) (by simp) d,
    .forM fun d => .events permits_pass (by simp) (by simp) (by simp) d,
    .forM fun d => .accessors (by simp) d, .forM fun d => .methodImpls permits_pass (by simp) d,
    .forM fun d => .implMaps permits_pass (by simp) d, .forM fun d => .fieldRvas src (by simp) d,
    .manifest permits_pass (by simp) (by simp) key, .forM fun d => .nestedClass (by simp) d,
    .generics permits_pass (by simp) (by simp) (by simp), .references permits_pass (by simp),
    .customAttributes permits_pass (by simp) (by simp), by simp⟩

namespace Emit.Fills

open Populate

variable {α ε : Type} {log : Log α} {R : Session → ε → α → Prop}

variable {items : List (List ε)}

/-- The passes that change a log add to it one after another, and the others leave it alone. -/
theorem passes (each : ∀ p ∈ ps, Pass src p)
    (own : ∀ t : Table, t.isReference = true → log.part ≠ .rows t)
    (fills : List.Forall₂ (fun p items => Fills log p.2 (Each R items))
      (ps.filter (log.part ∈ ·.1)) items) : Fills log (ps.forM (·.2)) (Each R items.flatten) := by
  induction ps generalizing items with
  | nil =>
    obtain rfl := forall₂_nil_left_iff.1 fills
    exact nothing (.pure ()) fun _ => .nil
  | cons p ps ih =>
    obtain ⟨first, rest⟩ := forall_mem_cons.1 each
    rw [filter_cons] at fills
    split at fills
    case isTrue =>
      obtain ⟨front, back, here, others, rfl⟩ := forall₂_cons_left_iff.1 fills
      refine (here.append fun _ => ih rest others).weaken ?_
      rintro later _ ⟨new, new', rfl, holds, holds'⟩
      exact rel_append holds holds'
    case isFalse foreign =>
      refine bind (first.confined.mono fun part allowed => ?_) fun _ _ => ih rest fills
      rintro rfl
      rcases allowed with ⟨t, reference, same⟩ | member
      · exact own t reference same
      · exact foreign (by simpa using member)

theorem emit (own : ∀ t : Table, t.isReference = true ∨ t = .module → log.part ≠ .rows t)
    (fills : List.Forall₂ (fun p items => Fills log p.2 (Each R items))
      ((Populate.passes src key).filter (log.part ∈ ·.1)) items) :
    Fills log (Module.emit src key keepsSymbols) (Each R items.flatten) := by
  have references : Permits (· ≠ log.part) fun _ => True :=
    .of_references fun h same => own _ (.inl h) same.symm
  have all : Fills log (Populate.all src key) (Each R items.flatten) := by
    rw [all_eq_passes]
    exact passes src (pass_of_mem src key) (fun t h => own t (.inl h)) fills
  exact bind (Writes.moduleRow src (fun same => own .module (.inr rfl) same.symm) src.module).confined
    fun _ _ => bind (Writes.bodies references keepsSymbols).confined fun _ _ => bind_right all fun _ =>
      .pure _

end Emit.Fills

namespace Populate

variable {s' : Session}

/-- What passes change: their own parts, and tables of references. -/
def Touched (ps : List (List Part × Emit Unit)) (part : Part) : Prop :=
  (∃ t : Table, (t.isReference = true ∨ t = .module) ∧ part = .rows t) ∨ ∃ p ∈ ps, part ∈ p.1

theorem not_touched {t : Table} (own : t.isReference = false) (other : t ≠ .module)
    (idle : ∀ p ∈ ps, Part.rows t ∉ p.1) : ¬ Touched ps (.rows t) := by
  rintro (⟨u, foreign, same⟩ | ⟨p, hp, member⟩)
  · cases same
    rcases foreign with reference | rfl
    · rw [own] at reference
      cases reference
    · exact other rfl
  · exact idle p hp member

theorem rows_eq (h : s.Extends (Touched ps) s') (t : Table) (own : t.isReference = false)
    (other : t ≠ .module) (idle : ∀ p ∈ ps, Part.rows t ∉ p.1) :
    s'.tables.rows t = s.tables.rows t :=
  h.rows (not_touched own other idle)

theorem writes_passes (each : ∀ p ∈ ps, Pass src p) : (ps.forM (·.2)).Writes src (Touched ps) := by
  induction ps with
  | nil => exact .pure ()
  | cons p ps ih =>
    obtain ⟨first, rest⟩ := forall_mem_cons.1 each
    refine (first.mono fun part allowed => ?_).bind fun _ => (ih rest).mono fun part allowed => ?_
    · rcases allowed with ⟨t, reference, same⟩ | member
      · exact .inl ⟨t, .inl reference, same⟩
      · exact .inr ⟨p, mem_cons_self, member⟩
    · exact allowed.imp_right fun ⟨q, hq, member⟩ => ⟨q, mem_cons_of_mem p hq, member⟩

def start (keepsSymbols : Bool) : Emit CodeArea := do
  moduleRow src.module
  Compile.bodies src keepsSymbols

theorem writes_start (keepsSymbols : Bool) : (start src keepsSymbols).Writes src (Touched []) :=
  (Emit.Writes.moduleRow src (.inl ⟨_, .inr rfl, rfl⟩) src.module).bind fun _ =>
    .bodies (.of_references fun h => .inl ⟨_, .inl h, rfl⟩) keepsSymbols

theorem stages_of_emit (h : (Module.emit src key keepsSymbols).Runs s area s') :
    ∃ s₀, (start src keepsSymbols).Runs s area s₀ ∧
      ((passes src key).forM (·.2)).Runs s₀ () s' := by
  simp only [Module.emit, all_eq_passes, Emit.runs_bind, Emit.runs_pure] at h
  obtain ⟨_, s₁, first, _, s₂, compiled, _, _, filled, rfl, rfl⟩ := h
  exact ⟨s₂, Emit.runs_bind.2 ⟨_, s₁, first, compiled⟩, filled⟩

theorem runs_forM_append {front back : List (List Part × Emit Unit)} :
    ((front ++ back).forM (·.2)).Runs s () s' ↔
      ∃ s₁, (front.forM (·.2)).Runs s () s₁ ∧ (back.forM (·.2)).Runs s₁ () s' := by
  rw [show (front ++ back).forM (·.2) = (front.forM (·.2) >>= fun _ => back.forM (·.2)) from
    forM_append, Emit.runs_bind]
  exact ⟨fun ⟨(), s₁, h⟩ => ⟨s₁, h⟩, fun ⟨s₁, h⟩ => ⟨(), s₁, h⟩⟩

end Populate

/-- The tables of definitions in the end. They hold the rows of one type behind those of another, and
those of each describe its members. -/
structure Session.Lists (s : Session) : Prop where
  types : List.Forall₂ (fun d row => d.info.DescribedBy src s.strings row ∧
    row.fieldList.number = d.rows.firstField ∧ row.methodList.number = d.rows.firstMethod)
    src.definitions (s.tables.rows .typeDef).toList
  fields : List.Forall₂ (FieldDef.DescribedBy src s.strings s.blobs)
    (src.definitions.flatMap (·.info.fields.toList)) (s.tables.rows .field).toList
  methods : List.Forall₂ (fun x row => x.1.DescribedBy src s.strings s.blobs row ∧
      row.paramList.number = x.2)
    (src.definitions.flatMap fun d => d.info.methods.toList.zip d.rows.firstParams.toList)
    (s.tables.rows .methodDef).toList
  params : List.Forall₂ (fun x => x.1.DescribedBy s.strings x.2)
    (src.definitions.flatMap fun d => d.info.methods.toList.flatMap (·.described))
    (s.tables.rows .param).toList
  propertyMaps : (s.tables.rows .propertyMap).toList = src.definitions.flatMap (·.propertyMap)
  properties : List.Forall₂ (Property.DescribedBy src s.strings s.blobs)
    (src.definitions.flatMap (·.info.properties.toList)) (s.tables.rows .property).toList
  eventMaps : (s.tables.rows .eventMap).toList = src.definitions.flatMap (·.eventMap)
  events : List.Forall₂ (Event.DescribedBy src s.strings)
    (src.definitions.flatMap (·.info.events.toList)) (s.tables.rows .event).toList

theorem Session.around_pass (i : Nat)
    (split : Populate.passes src key = (Populate.passes src key).take i ++ p :: after)
    (h : (Module.emit src key keepsSymbols).Runs (.ofModule src.module) area s) :
    ∃ s₀ s₁ s₂, s₀.Catalogued src ∧
      (ofModule src.module).Extends (Populate.Touched []) s₀ ∧
      (((Populate.passes src key).take i).forM (·.2)).Runs s₀ () s₁ ∧ s₁.Catalogued src ∧
      s₀.Extends (Populate.Touched ((Populate.passes src key).take i)) s₁ ∧
      p.2.Runs s₁ () s₂ ∧ s₂.Catalogued src ∧ (after.forM (·.2)).Runs s₂ () s ∧
      s₂.Extends (Populate.Touched after) s := by
  obtain ⟨s₀, started, ran⟩ := Populate.stages_of_emit src key h
  have each := Populate.pass_of_mem src key
  rw [split] at ran
  nth_rewrite 1 [split] at each
  obtain ⟨s₁, front, rest⟩ := Populate.runs_forM_append.1 ran
  obtain ⟨_, s₂, here, back⟩ := Emit.runs_bind.1 rest
  have start := Populate.writes_start src keepsSymbols
  have before := Populate.writes_passes src fun q hq => each q (mem_append_left _ hq)
  have one : Populate.Pass src p := each p (mem_append_right _ mem_cons_self)
  have behind := Populate.writes_passes src fun q hq =>
    each q (mem_append_right _ (mem_cons_of_mem p hq))
  obtain ⟨cat₀, _⟩ := start.keeps (catalogued_ofModule src _) started
  obtain ⟨cat₁, _⟩ := before.keeps cat₀ front
  obtain ⟨cat₂, _⟩ := one.keeps cat₁ here
  have extends₀ := (start.confined.run (faithful_ofModule src.module) started).2
  exact ⟨s₀, s₁, s₂, cat₀, extends₀, front, cat₁, (before.confined.run cat₀.faithful front).2, here,
    cat₂, back, (behind.confined.run cat₂.faithful back).2⟩

/-- What a log holds if the first pass that fills it starts from something known, which depends on one
part of the session. -/
theorem Session.fills_of_emit {α ε : Type} {log : Log α} {R : Session → ε → α → Prop}
    {P Q : Session → Prop} {x : Part} {items : List ε} {others : List (List ε)} (i : Nat)
    (h : (Module.emit src key keepsSymbols).Runs (.ofModule src.module) area s)
    (first : Emit.FillsFrom P log p.2 Q (Each R items))
    (fills : List.Forall₂ (fun p items => Emit.Fills log p.2 (Each R items))
      (after.filter (log.part ∈ ·.1)) others)
    (split : Populate.passes src key = (Populate.passes src key).take i ++ p :: after)
    (idle : ¬ Populate.Touched ((Populate.passes src key).take i) log.part)
    (quiet : ¬ Populate.Touched ((Populate.passes src key).take i) x)
    (stable : ∀ {s s' : Session}, s.Extends (· ≠ x) s' → P s → P s')
    (begins : P (.ofModule src.module)) :
    ∃ new, log.view s = new.foldl log.add (log.view (.ofModule src.module)) ∧
      List.Forall₂ (R s) (items ++ others.flatten) new ∧
      ∃ s₁, Q s₁ ∧ s₁.Extends (Populate.Touched after) s := by
  obtain ⟨s₀, s₁, s₂, _, extends₀, _, cat₁, extends₁, here, cat₂, back, extends₃⟩ :=
    around_pass src key i split h
  have untouched : (ofModule src.module).Extends
      (Populate.Touched ((Populate.passes src key).take i)) s₁ :=
    (extends₀.mono fun part touched => touched.imp_right (by simp)).trans extends₁
  have same : log.view s₁ = log.view (.ofModule src.module) := by
    refine log.spared (untouched.mono fun part touched equal => idle ?_)
    rwa [equal] at touched
  have known : P s₁ := by
    refine stable (untouched.mono fun part touched equal => quiet ?_) begins
    rwa [equal] at touched
  obtain ⟨_, _, known₂, new, added, holds⟩ := first.run cat₁.faithful known here
  have own : ∀ t : Table, t.isReference = true → log.part ≠ .rows t := fun t reference equal =>
    idle (.inl ⟨t, .inl reference, equal⟩)
  have later : ∀ q ∈ after, Populate.Pass src q := fun q hq =>
    Populate.pass_of_mem src key q (split ▸ mem_append_right _ (mem_cons_of_mem p hq))
  obtain ⟨_, under, new', added', holds'⟩ := (Emit.Fills.passes src later own fills).run
    cat₂.faithful back
  refine ⟨new ++ new', ?_, rel_append (holds s under) (holds' s (.refl s)), s₂, known₂, extends₃⟩
  rw [added', added, same, foldl_append]

theorem Session.rows_of_emit (t : Table) {ε : Type} {R : Session → ε → t.Row → Prop}
    {items : List ε} {parts : List Part} {c : Emit Unit}
    (h : (Module.emit src key keepsSymbols).Runs (.ofModule src.module) area s)
    (own : t.isReference = false) (other : t ≠ .module)
    (one : (Populate.passes src key).filter (.rows t ∈ ·.1) = [(parts, c)])
    (fills : Emit.Fills (.rows t) c (Each R items)) :
    List.Forall₂ (R s) items (s.tables.rows t).toList := by
  have all : Emit.Fills (.rows t) (Module.emit src key keepsSymbols) (Each R [items].flatten) := by
    refine .emit src key (fun u foreign same => ?_) ?_
    · cases same
      rcases foreign with reference | rfl
      · rw [own] at reference
        cases reference
      · exact other rfl
    · rw [show (Populate.passes src key).filter ((Log.rows t).part ∈ ·.1) = _ from one]
      exact .cons fills .nil
  obtain ⟨_, _, rows, added, holds⟩ := all.run (faithful_ofModule src.module) h
  have none : ((ofModule src.module).tables.rows t).toList = [] := by cases t <;> rfl
  have same : (s.tables.rows t).toList = rows := by
    have := added.trans (foldl_append_one _ rows)
    rwa [show (Log.rows t).view (ofModule src.module) = [] from none] at this
  rw [same]
  simpa using holds s (.refl s)

theorem Session.lists_of_emit
    (h : (Module.emit src key keepsSymbols).Runs (.ofModule src.module) area s) : s.Lists src := by
  have propertyMaps := rows_of_emit src key .propertyMap h rfl (by simp) rfl (.forM (.propertyMap src))
  have eventMaps := rows_of_emit src key .eventMap h rfl (by simp) rfl (.forM (.eventMap src))
  rw [forall₂_eq_eq_eq] at propertyMaps eventMaps
  exact {
    types := rows_of_emit src key .typeDef h rfl (by simp) rfl (.forM_each (.typeDef src))
    fields := rows_of_emit src key .field h rfl (by simp) rfl (.forM (.fields src))
    methods := rows_of_emit src key .methodDef h rfl (by simp) rfl (.forM (.methods src))
    params := rows_of_emit src key .param h rfl (by simp) rfl (.forM (.params src))
    propertyMaps := propertyMaps.symm
    properties := rows_of_emit src key .property h rfl (by simp) rfl (.forM (.properties src))
    eventMaps := eventMaps.symm
    events := rows_of_emit src key .event h rfl (by simp) rfl (.forM (.events src)) }

end

end Cil
