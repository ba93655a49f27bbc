import Cil.Proofs.Composition

/-!
What a write is made of. The passes over a module ask for references, lay out bodies, and add rows to
the tables of definitions; each of them writes to a few parts of the session. Whatever they do, the
references that have been given rows keep them.
-/

namespace Cil

namespace StaticData

theorem prefix_append (d : StaticData) (data : Bytes) (place other : DataSection) :
    (d.buffer other).toList <+: ((d.append data place).2.buffer other).toList := by
  cases place <;> cases other <;> simp [append, buffer, alignEight]

end StaticData

theorem Resources.prefix_append (r : Resources) (data : Bytes) :
    r.bytes.toList <+: (r.append data).2.bytes.toList := by
  simp [append, alignEight]

/-- What a session has beside its tables and what references need. -/
structure Session.Aside where
  guids : GuidHeap
  attributes : Array (Owner × Attribute)
  staticData : StaticData
  fieldData : Array (DataSection × Nat)
  resources : Resources

/-- Only the parts in `A` are not as before. -/
structure Session.Aside.Extends (A : Part → Prop) (x x' : Aside) : Prop where
  resources : x.resources.bytes.toList <+: x'.resources.bytes.toList
  data (place : DataSection) :
    (x.staticData.buffer place).toList <+: (x'.staticData.buffer place).toList
  fieldData : ¬ A (.rows .fieldRva) → x'.fieldData = x.fieldData
  attributes : ¬ A .attributes → x'.attributes = x.attributes

namespace Session

variable {src : Source} {s s' : Session}

theorem Aside.Extends.refl {A : Part → Prop} (x : Aside) : x.Extends A x :=
  ⟨List.prefix_refl _, fun _ => List.prefix_refl _, fun _ => rfl, fun _ => rfl⟩

def aside (s : Session) : Aside where
  guids := s.guids
  attributes := s.attributes
  staticData := s.staticData
  fieldData := s.fieldData
  resources := s.resources

def withAside (s : Session) (x : Aside) : Session :=
  { s with
    guids := x.guids
    attributes := x.attributes
    staticData := x.staticData
    fieldData := x.fieldData
    resources := x.resources }

theorem extends_withAside {A : Part → Prop} {x : Aside} (h : s.aside.Extends A x) :
    s.Extends A (s.withAside x) where
  strings := .refl _
  blobs := .refl _
  resources := h.resources
  data := h.data
  rows _ := rfl
  fieldData := h.fieldData
  attributes := h.attributes

/-- The references are as before, and the heaps. -/
structure Aloof (s s' : Session) : Prop extends s.Same s' where
  strings : s'.strings = s.strings
  blobs : s'.blobs = s.blobs
  userStrings : s'.userStrings = s.userStrings

theorem aloof_withAside (s : Session) (x : Aside) : s.Aloof (s.withAside x) :=
  ⟨⟨fun _ => rfl, rfl, rfl, rfl, rfl, rfl⟩, rfl, rfl, rfl⟩

theorem aloof_modify {t : Table} (other : t.isReference = false) (f : Array t.Row → Array t.Row) :
    s.Aloof { s with tables := s.tables.modify t f } := by
  refine ⟨⟨fun {u} reference => Tables.rows_modify_of_ne _ _ ?_, rfl, rfl, rfl, rfl, rfl⟩, rfl, rfl,
    rfl⟩
  rintro rfl
  rw [other] at reference
  cases reference

theorem Aloof.before (aloof : s.Aloof s') : s.Before s' :=
  aloof.toSame.before (aloof.strings ▸ .refl _) (aloof.blobs ▸ .refl _) (aloof.userStrings ▸ .refl _)

theorem Catalogued.aloof (cat : s.Catalogued src) (aloof : s.Aloof s') : s'.Catalogued src := by
  refine cat.carry aloof.toSame aloof.before ⟨?_, ?_⟩ ?_ ?_
  · rw [aloof.strings]
    exact cat.faithful.strings
  · rw [aloof.blobs]
    exact cat.faithful.blobs
  · rw [aloof.strings]
    exact cat.strings
  · rw [aloof.blobs]
    exact cat.blobs

theorem rows_ofModule_eq (m : Module) (search : SpecSearch) (t : Table) :
    (ofModule m search).tables.rows t = #[] := by
  cases t <;> rfl

theorem row?_ofModule (m : Module) (search : SpecSearch) (x : Referent) :
    x.row? (ofModule m search) = none := by
  cases x with
  | assembly | module | type =>
    simp only [Referent.row?, ofModule, RowMap.ofSize, RowMap.row?, Array.getElem?_replicate]
    split <;> rfl
  | primitive => rfl

theorem faithful_ofModule (m : Module) {search : SpecSearch} : (ofModule m search).Faithful := by
  constructor <;> constructor <;> simp [ofModule, blobs, HeapWriter.heap]

theorem catalogued_ofModule (src : Source) (search : SpecSearch) :
    (ofModule src.module search).Catalogued src where
  faithful := faithful_ofModule _
  strings := by
    constructor <;> simp [ofModule, Heap.size]
  blobs := by
    constructor <;> simp [ofModule, blobs, HeapWriter.heap, Heap.size]
  fits {x} known := by
    cases x with
    | assembly | module | type => simpa [ofModule, RowMap.ofSize, Referent.Fits,
      Referent.Known] using known
    | primitive => trivial
  described {x n} remembered := by
    rw [row?_ofModule] at remembered
    cases remembered
  apart {x y n} remembered := by
    rw [row?_ofModule] at remembered
    cases remembered
  distinct {t} _ := by
    rw [rows_ofModule_eq]
    exact List.nodup_nil
  indexed {t i row} _ stands := by
    rw [rows_ofModule_eq] at stands
    cases stands

end Session

namespace Compile

variable {ctx : BodyContext}

section

variable {A : Part → Prop} {E : Error → Prop} (permits : Permits A E) {sound : Prop} {x y : Situation}

include permits

theorem Step.extends (h : Step sound ctx x y) (faithful : x.session.Faithful) :
    y.session.Faithful ∧ x.session.Extends A y.session := by
  cases h with
  | named n token s' run => exact ((Emit.Asks.named n).confined permits).run faithful run
  | blob t bytes s' run => exact ((Emit.Asks.typeBlob t).confined permits).run faithful run
  | guess | heights | scope | point | plain | branch | «switch» | label | place | block
  | openAttempt | closeAttempt | closeFilter | openPart | openCleanup | closeWhole | clause =>
    exact ⟨faithful, .refl _⟩

theorem Steps.extends (h : Steps sound ctx x y) (faithful : x.session.Faithful) :
    y.session.Faithful ∧ x.session.Extends A y.session := by
  induction h with
  | refl => exact ⟨faithful, .refl _⟩
  | tail _ last ih =>
    obtain ⟨faithful₁, extends₁⟩ := ih
    obtain ⟨faithful₂, extends₂⟩ := last.extends permits faithful₁
    exact ⟨faithful₂, extends₁.trans extends₂⟩

end

/-- What compilation has asked for stays as it is: a body that has been compiled gives the same draft in
every later session, and leaves that as it is. -/
theorem Composed.lasts {α : Type} {marks : List Mark} {c : Compile α} (h : c.Composed ctx marks)
    {σ σ' : State} {a : α} (cat : σ.session.Catalogued ctx.source) (run : c.Runs σ a σ') :
    σ'.session.Catalogued ctx.source ∧ σ.session.Before σ'.session ∧
      ∀ {t : Session}, t.Catalogued ctx.source → σ'.session.Before t →
        c.Runs ⟨σ.draft, t⟩ a ⟨σ'.draft, t⟩ := by
  induction h generalizing σ σ' with
  | pure b =>
    obtain ⟨rfl, rfl⟩ := runs_pure.1 run
    exact ⟨cat, .refl _, fun _ _ => runs_pure.2 ⟨rfl, rfl⟩⟩
  | bind _ _ ihc ihf =>
    obtain ⟨b, σ₁, first, second⟩ := runs_bind.1 run
    obtain ⟨cat₁, before₁, again₁⟩ := ihc cat first
    obtain ⟨cat₂, before₂, again₂⟩ := ihf b cat₁ second
    exact ⟨cat₂, before₁.trans before₂, fun cat' later =>
      runs_bind.2 ⟨b, _, again₁ cat' (before₂.trans later), again₂ cat' later⟩⟩
  | get =>
    obtain ⟨rfl, rfl⟩ := runs_get.1 run
    exact ⟨cat, .refl _, fun _ _ => runs_get.2 ⟨rfl, rfl⟩⟩
  | modify f =>
    cases runs_modify.1 run
    exact ⟨cat, .refl _, fun _ _ => runs_modify.2 rfl⟩
  | modifyGet f =>
    obtain ⟨rfl, rfl⟩ := runs_modifyGet.1 run
    exact ⟨cat, .refl _, fun _ _ => runs_modifyGet.2 ⟨rfl, rfl⟩⟩
  | emit asks =>
    obtain ⟨s, ran, rfl⟩ := runs_emit.1 run
    obtain ⟨cat₁, before, again⟩ := asks.lasts.run cat ran
    exact ⟨cat₁, before, fun cat' later => runs_emit.2 ⟨_, again cat' later, rfl⟩⟩
  | fault _ cause => exact absurd run runs_fault
  | passed =>
    obtain ⟨rfl, rfl⟩ := runs_pure.1 run
    exact ⟨cat, .refl _, fun _ _ => runs_pure.2 ⟨rfl, rfl⟩⟩
  | value _ ih | fork _ ih => exact ih cat run

end Compile

theorem Permits.of_references {A : Part → Prop}
    (own : ∀ {t : Table}, t.isReference = true → A (.rows t)) :
    Permits A fun _ => True :=
  ⟨own, fun _ => trivial⟩

/-- The actions that a write is made of, with the parts that they write to. -/
inductive Emit.Writes (src : Source) (A : Part → Prop) : {α : Type} → Emit α → Prop
  | pure {α : Type} (a : α) : Writes src A (Pure.pure a : Emit α)
  | ofExcept {α : Type} (r : Except Error α) : Writes src A (Emit.ofExcept r)
  | bind {α β : Type} {c : Emit α} {f : α → Emit β} (hc : Writes src A c)
      (hf : ∀ a, Writes src A (f a)) : Writes src A (c >>= f)
  | string (text : String) : Writes src A (Emit.string text)
  | blob (bytes : Bytes) : Writes src A (Emit.blob bytes)
  | asks {α : Type} {c : Emit α} (permits : Permits A fun _ => True) (h : c.Asks src) : Writes src A c
  | push {t : Table} (own : A (.rows t)) (other : t.isReference = false) (row : t.Row) :
      Writes src A (Emit.push t row)
  | insert {t : Table} [SortedRow t.Row] (own : A (.rows t)) (other : t.isReference = false)
      (row : t.Row) : Writes src A (Emit.insert t row)
  | read {α : Type} {f : Session → Emit α} (sees : ∀ s s', s'.tables = s.tables → f s' = f s)
      (hf : ∀ s, Writes src A (f s)) : Writes src A (get >>= f)
  | aside {α : Type} {f : Session.Aside → α × Session.Aside}
    (h : ∀ x : Session.Aside, x.Extends A (f x).2) :
      Writes src A (modifyGet fun s => ((f s.aside).1, s.withAside (f s.aside).2))
  | layOut {ctx : BodyContext} (permits : Permits A fun _ => True) (source : ctx.source = src)
      (b : Body) : Writes src A (Compile.layOut ctx b)

namespace Emit.Writes

variable {α : Type} {src : Source} {A : Part → Prop}

variable {c : Emit α}

theorem confined (h : c.Writes src A) : c.Confined A fun _ => True := by
  induction h with
  | pure a => exact .pure a
  | ofExcept r => exact .ofExcept ⟨fun _ => trivial⟩
  | bind _ _ ihc ihf => exact ihc.bind ihf
  | string text => exact .string text
  | blob bytes => exact .blob (fun _ => trivial) bytes
  | asks permits h => exact h.confined permits
  | push own _ row => exact .push own row
  | insert own _ row => exact .insert own row
  | read _ _ ih => exact Confined.get.bind ih
  | aside h =>
    refine .updateGet fun s faithful => ⟨⟨faithful.strings, faithful.blobs⟩, ?_⟩
    exact Session.extends_withAside (h s.aside)
  | layOut permits _ b =>
    refine ⟨fun {s x s'} faithful run => ?_, fun _ => ⟨fun _ => trivial⟩⟩
    obtain ⟨wider, _, compiles⟩ := Compile.compiles_of_layOut run
    obtain ⟨K, steps, _⟩ := compiles.steps False.elim
    exact steps.extends permits faithful

theorem mono {A' : Part → Prop} (h : c.Writes src A) (more : ∀ part, A part → A' part) :
    c.Writes src A' := by
  have permitted (permits : Permits A fun _ => True) : Permits A' fun _ => True :=
    .of_references fun reference => more _ (permits.table reference)
  induction h with
  | pure a => exact .pure a
  | ofExcept r => exact .ofExcept r
  | bind _ _ ihc ihf => exact ihc.bind ihf
  | string text => exact .string text
  | blob bytes => exact .blob bytes
  | asks permits h => exact .asks (permitted permits) h
  | push own other row => exact .push (more _ own) other row
  | insert own other row => exact .insert (more _ own) other row
  | read sees _ ih => exact .read sees ih
  | aside h =>
    refine .aside fun x => ⟨(h x).resources, (h x).data, fun other => ?_, fun other => ?_⟩
    · exact (h x).fieldData (mt (more _) other)
    · exact (h x).attributes (mt (more _) other)
  | layOut permits source b => exact .layOut (permitted permits) source b

theorem keeps (h : c.Writes src A) {s s' : Session} {a : α} (cat : s.Catalogued src)
    (run : c.Runs s a s') : s'.Catalogued src ∧ s.Before s' := by
  induction h generalizing s s' with
  | pure a =>
    obtain ⟨_, rfl⟩ := runs_pure.1 run
    exact ⟨cat, .refl _⟩
  | ofExcept r =>
    obtain ⟨_, rfl⟩ := runs_ofExcept.1 run
    exact ⟨cat, .refl _⟩
  | bind _ _ ihc ihf =>
    obtain ⟨b, s₁, first, second⟩ := runs_bind.1 run
    obtain ⟨cat₁, before₁⟩ := ihc cat first
    obtain ⟨cat₂, before₂⟩ := ihf b cat₁ second
    exact ⟨cat₂, before₁.trans before₂⟩
  | string text =>
    obtain ⟨cat', before, _⟩ := string_runs cat run
    exact ⟨cat', before⟩
  | blob bytes =>
    obtain ⟨cat', before, _⟩ := blob_runs cat run
    exact ⟨cat', before⟩
  | asks _ h =>
    obtain ⟨cat', before, _⟩ := h.lasts.run cat run
    exact ⟨cat', before⟩
  | push _ other row =>
    obtain ⟨_, rfl⟩ := runs_push.1 run
    have aloof := Session.aloof_modify (s := s) other (·.push row)
    exact ⟨cat.aloof aloof, aloof.before⟩
  | insert _ other row =>
    obtain ⟨_, rfl⟩ := Prod.mk.inj (runs_modifyGet.1 run)
    have aloof := Session.aloof_modify (s := s) other (SortedRow.insert · row)
    exact ⟨cat.aloof aloof, aloof.before⟩
  | read _ _ ih =>
    obtain ⟨_, _, got, rest⟩ := runs_bind.1 run
    obtain ⟨rfl, rfl⟩ := runs_get.1 got
    exact ih _ cat rest
  | aside _ =>
    obtain ⟨_, rfl⟩ := Prod.mk.inj (runs_modifyGet.1 run)
    exact ⟨cat.aloof (Session.aloof_withAside ..), (Session.aloof_withAside ..).before⟩
  | @layOut ctx _ source b =>
    subst source
    obtain ⟨d, l⟩ := a
    obtain ⟨cat', before, _⟩ :=
      (Compile.composed_body ctx b).lasts cat (Compile.runs_of_layOut run).1
    exact ⟨cat', before⟩

end Emit.Writes

namespace Emit.Writes

open Populate

variable {α : Type} {src : Source} {A : Part → Prop}

theorem throw (e : Error) : (throw e : Emit α).Writes src A := ofExcept (.error e)

theorem ofEncoding (r : Except EncodingError α) : (Emit.ofEncoding r).Writes src A := ofExcept _

theorem forM {l : List α} {f : α → Emit Unit} (h : ∀ a, (f a).Writes src A) :
    (l.forM f).Writes src A := by
  induction l with
  | nil => exact pure ()
  | cons a l ih => exact (h a).bind fun _ => ih

theorem string? (text : Option String) : (Emit.string? text).Writes src A := by
  cases text with
  | none => exact pure _
  | some text => exact string text

theorem blob? (bytes : Option Bytes) : (Emit.blob? bytes).Writes src A := by
  cases bytes with
  | none => exact pure _
  | some bytes => exact blob bytes

theorem guid (g : Guid) : (Emit.guid g).Writes src A := by
  let f (x : Session.Aside) : GuidIndex × Session.Aside :=
    (⟨(x.guids.write g).1⟩, { x with guids := (x.guids.write g).2 })
  exact aside (f := f) fun x => { Session.Aside.Extends.refl x with }

theorem attach (waits : A .attributes) (owner : Owner) (attributes : List Attribute) :
    (Populate.attach owner attributes).Writes src A := by
  let f (x : Session.Aside) : Unit × Session.Aside :=
    ((), { x with attributes := attributes.foldl (fun as a => as.push (owner, a)) x.attributes })
  exact aside (f := f) fun x => { Session.Aside.Extends.refl x with
    attributes := fun other => absurd waits other }

theorem constant (src : Source) (own : A (.rows .constant)) (parent : CodedIndex .hasConstant)
    (v : Constant) :
    (constant parent v).Writes src A :=
  (blob _).bind fun _ => (insert own rfl _).bind fun _ => pure _

theorem marshal (src : Source) (own : A (.rows .fieldMarshal)) (parent : CodedIndex .hasFieldMarshal)
    (descriptor : Bytes) : (marshal parent descriptor).Writes src A :=
  (blob _).bind fun _ => (insert own rfl _).bind fun _ => pure _

theorem security (own : A (.rows .declSecurity)) (parent : CodedIndex .hasDeclSecurity)
    (declarations : List SecurityDeclaration) : (security src parent declarations).Writes src A :=
  forM fun _ => (ofExcept _).bind fun _ => (blob _).bind fun _ =>
    (insert own rfl _).bind fun _ => pure _

theorem moduleRow (src : Source) (own : A (.rows .module)) (m : Module) : (moduleRow m).Writes src A :=
  (string _).bind fun _ => (guid _).bind fun _ => (push own rfl _).bind fun _ => pure _

theorem paramParts (src : Source) (waits : A .attributes) (constants : A (.rows .constant))
    (marshals : A (.rows .fieldMarshal)) (p : Parameter) (row : Nat) :
    (paramParts p row).Writes src A :=
  (forM fun _ => constant src constants ..).bind fun _ =>
    (forM fun _ => marshal src marshals ..).bind fun _ => attach waits ..

theorem param (src : Source) (waits : A .attributes) (own : A (.rows .param))
    (constants : A (.rows .constant))
    (marshals : A (.rows .fieldMarshal)) (sequence : Nat) (p : Parameter) :
    (param sequence p).Writes src A :=
  (string? _).bind fun _ => (push own rfl _).bind fun _ => paramParts src waits constants marshals ..

theorem params (src : Source) (waits : A .attributes) (own : A (.rows .param))
    (constants : A (.rows .constant))
    (marshals : A (.rows .fieldMarshal)) (d : Definition) : (params d).Writes src A :=
  have one := param src waits own constants marshals
  forM fun _ => (forM fun _ => one ..).bind fun _ => forM fun _ => one ..

theorem fieldParts (src : Source) (constants : A (.rows .constant)) (marshals : A (.rows .fieldMarshal))
    (d : Definition) : (fieldParts d).Writes src A :=
  forM fun _ => (forM fun _ => constant src constants ..).bind fun _ =>
    forM fun _ => marshal src marshals ..

theorem classLayout (src : Source) (own : A (.rows .classLayout)) (d : Definition) :
    (classLayout d).Writes src A :=
  forM fun _ => (insert own rfl _).bind fun _ => pure _

theorem fieldLayouts (src : Source) (own : A (.rows .fieldLayout)) (d : Definition) :
    (fieldLayouts d).Writes src A :=
  forM fun _ => forM fun _ => (insert own rfl _).bind fun _ => pure _

theorem propertyMap (src : Source) (own : A (.rows .propertyMap)) (d : Definition) :
    (propertyMap d).Writes src A := by
  unfold Populate.propertyMap
  split
  · exact pure _
  · exact (push own rfl _).bind fun _ => pure _

theorem eventMap (src : Source) (own : A (.rows .eventMap)) (d : Definition) :
    (eventMap d).Writes src A := by
  unfold Populate.eventMap
  split
  · exact pure _
  · exact (push own rfl _).bind fun _ => pure _

theorem accessors (own : A (.rows .methodSemantics)) (d : Definition) :
    (accessors src d).Writes src A := by
  have tie (association : CodedIndex .hasSemantics) (semantics : UInt16) (ms : List MethodId) :
      (ms.forM (Populate.accessor src association semantics)).Writes src A :=
    forM fun _ => (ofExcept _).bind fun _ => (insert own rfl _).bind fun _ => pure _
  refine (forM fun _ => ?_).bind fun _ => forM fun _ => ?_
  · exact (tie ..).bind fun _ => (tie ..).bind fun _ => tie ..
  · exact (tie ..).bind fun _ => (tie ..).bind fun _ => (tie ..).bind fun _ => tie ..

theorem fieldRvas (src : Source) (own : A (.rows .fieldRva)) (d : Definition) :
    (fieldRvas d).Writes src A := by
  refine forM fun x => forM fun initial => ?_
  let store (y : Session.Aside) : Nat × Session.Aside :=
    ((y.staticData.append initial.data initial.place).1,
      { y with staticData := (y.staticData.append initial.data initial.place).2 })
  let note (position offset : Nat) (y : Session.Aside) : Unit × Session.Aside :=
    ((), { y with
      fieldData := y.fieldData.insertIdxIfInBounds position (initial.place, offset) })
  refine bind (aside (f := store) fun y => ?_) fun offset => (insert own rfl _).bind fun position =>
    aside (f := note position offset) fun y => ?_
  · exact { Session.Aside.Extends.refl y with
      data := fun other => y.staticData.prefix_append initial.data initial.place other }
  · exact { Session.Aside.Extends.refl y with fieldData := fun other => absurd own other }

theorem nestedClass (own : A (.rows .nestedClass)) (d : Definition) :
    (nestedClass src d).Writes src A :=
  forM fun _ => (ofExcept _).bind fun _ => (insert own rfl _).bind fun _ => pure _

theorem assembly (waits : A .attributes) (own : A (.rows .assembly))
    (secures : A (.rows .declSecurity)) (publicKey : Option Bytes) (a : Assembly) :
    (assembly src publicKey a).Writes src A :=
  (blob? _).bind fun _ => (string? _).bind fun _ => (string _).bind fun _ =>
    (push own rfl _).bind fun _ => (security secures ..).bind fun _ => attach waits ..

theorem embed (src : Source) (data : Bytes) : Writes src A (modifyGet fun s =>
    let (offset, resources) := s.resources.append data
    (offset, { s with resources })) := by
  let f (x : Session.Aside) : Nat × Session.Aside :=
    ((x.resources.append data).1, { x with resources := (x.resources.append data).2 })
  exact aside (f := f) fun x => { Session.Aside.Extends.refl x with
    resources := x.resources.prefix_append data }

theorem file (src : Source) (waits : A .attributes) (own : A (.rows .file)) (f : File) :
    (file f).Writes src A :=
  (blob _).bind fun _ => (string _).bind fun _ => (push own rfl _).bind fun _ => attach waits ..

theorem genericParam (src : Source) (waits : A .attributes) (own : A (.rows .genericParam))
    (owner : CodedIndex .typeOrMethodDef) (number : UInt16) (p : GenericParameter) :
    (genericParam owner number p).Writes src A :=
  (string _).bind fun _ => (insert own rfl _).bind fun _ => attach waits ..

section

variable (permits : Permits A fun _ => True)

include permits

theorem encodeBody (keepsSymbols : Bool) (row : Nat) (m : Method) (b : Body) :
    (Compile.encodeBody src keepsSymbols row m b).Writes src A := by
  have source : (BodyContext.ofBody src keepsSymbols m b).source = src := rfl
  rw [Compile.encodeBody_eq]
  exact (ofEncoding _).bind fun _ => (layOut permits source b).bind fun _ =>
    (asks permits (.localSignature b.locals)).bind fun _ => pure _

theorem method (keepsSymbols : Bool) (area : CodeArea) (id : MethodId) (m : Method) :
    (Compile.method src keepsSymbols area id m).Writes src A := by
  unfold Compile.method
  split
  · exact pure _
  · split
    · exact (throw _).bind fun _ => (ofExcept _).bind fun _ => (encodeBody permits ..).bind fun _ =>
        (ofEncoding _).bind fun _ => pure _
    · exact (ofExcept _).bind fun _ => (encodeBody permits ..).bind fun _ =>
        (ofEncoding _).bind fun _ => pure _

theorem methodsFrom (keepsSymbols : Bool) (parent : TypeId) (index : Nat) (area : CodeArea)
    (ms : List Method) : (Compile.methods src keepsSymbols parent index area ms).Writes src A := by
  induction ms generalizing index area with
  | nil => exact pure _
  | cons m ms ih => exact (method permits ..).bind fun _ => ih ..

theorem typesMethods (keepsSymbols : Bool) (area : CodeArea) (ids : List TypeId) :
    (Compile.typesMethods src keepsSymbols area ids).Writes src A := by
  induction ids generalizing area with
  | nil => exact pure _
  | cons id ids ih => exact (ofExcept _).bind fun _ => (methodsFrom permits ..).bind fun _ => ih _

theorem bodies (keepsSymbols : Bool) : (Compile.bodies src keepsSymbols).Writes src A :=
  typesMethods permits ..

theorem methodImpls (own : A (.rows .methodImpl)) (d : Definition) : (methodImpls src d).Writes src A :=
  forM fun _ => (asks permits (.methodDefOrRef _)).bind fun _ =>
    (asks permits (.methodDefOrRef _)).bind fun _ => (insert own rfl _).bind fun _ => pure _

theorem implMaps (own : A (.rows .implMap)) (d : Definition) : (implMaps src d).Writes src A := by
  have map (memberForwarded : CodedIndex .memberForwarded) (p : PlatformInvoke) :
      (Populate.implMap src memberForwarded p).Writes src A :=
    (asks permits (.moduleRef _)).bind fun _ => (string _).bind fun _ =>
      (insert own rfl _).bind fun _ => pure _
  exact (forM fun _ => forM fun _ => map ..).bind fun _ => forM fun _ => forM fun _ => map ..

theorem customAttribute (own : A (.rows .customAttribute)) (owner : Owner) (a : Attribute) :
    (customAttribute src owner a).Writes src A :=
  read (fun s s' same => by simp only [same]) fun _ =>
    (asks permits (.attributeConstructor _)).bind fun _ => (ofExcept _).bind fun _ =>
      (blob _).bind fun _ => (insert own rfl _).bind fun _ => pure _

variable (waits : A .attributes)

include waits

omit permits in
theorem typeDefRow (src : Source) (own : A (.rows .typeDef)) (d : Definition) (base : TypeDefOrRef) :
    (typeDefRow d base).Writes src A :=
  (string? _).bind fun _ => (string _).bind fun _ => (push own rfl _).bind fun _ => attach waits ..

theorem typeDef (own : A (.rows .typeDef)) (d : Definition) : (typeDef src d).Writes src A := by
  unfold Populate.typeDef
  split
  · exact (asks permits (.typeToken _)).bind (typeDefRow waits src own d)
  · exact typeDefRow waits src own d _

theorem fields (own : A (.rows .field)) (d : Definition) : (fields src d).Writes src A :=
  forM fun _ => (asks permits (.fieldBlob _)).bind fun _ => (string _).bind fun _ =>
    (blob _).bind fun _ => (push own rfl _).bind fun _ => attach waits ..

theorem methods (own : A (.rows .methodDef)) (d : Definition) : (methods src d).Writes src A :=
  forM fun _ => (asks permits (.methodBlob ..)).bind fun _ => (string _).bind fun _ =>
    (blob _).bind fun _ => (push own rfl _).bind fun _ => attach waits ..

theorem interfaces (own : A (.rows .interfaceImpl)) (d : Definition) :
    (interfaces src d).Writes src A :=
  forM fun _ => (asks permits (.typeToken _)).bind fun _ => (insert own rfl _).bind fun _ =>
    attach waits ..

theorem members (own : ∀ t ∈ [Table.interfaceImpl, .constant, .fieldMarshal, .declSecurity,
      .classLayout, .fieldLayout], A (.rows t)) (d : Definition) : (members src d).Writes src A :=
  (interfaces permits waits (own _ (by simp)) d).bind fun _ =>
    (fieldParts src (own _ (by simp)) (own _ (by simp)) d).bind fun _ =>
      (security (own _ (by simp)) ..).bind fun _ =>
        (forM fun _ => security (own _ (by simp)) ..).bind fun _ =>
          (classLayout src (own _ (by simp)) d).bind fun _ => fieldLayouts src (own _ (by simp)) d

theorem propertyRows (own : A (.rows .property)) (constants : A (.rows .constant)) (d : Definition) :
    (propertyRows src d).Writes src A :=
  forM fun _ => (asks permits (.propertyBlob _)).bind fun _ => (string _).bind fun _ =>
    (blob _).bind fun _ => (push own rfl _).bind fun _ =>
      (forM fun _ => constant src constants ..).bind fun _ => attach waits ..

theorem properties (own : A (.rows .property)) (map : A (.rows .propertyMap))
    (constants : A (.rows .constant)) (d : Definition) : (properties src d).Writes src A :=
  (propertyMap src map d).bind fun _ => propertyRows permits waits own constants d

theorem eventRows (own : A (.rows .event)) (d : Definition) : (eventRows src d).Writes src A :=
  forM fun _ => (asks permits (.typeToken _)).bind fun _ => (string _).bind fun _ =>
    (push own rfl _).bind fun _ => attach waits ..

theorem events (own : A (.rows .event)) (map : A (.rows .eventMap)) (d : Definition) :
    (events src d).Writes src A :=
  (eventMap src map d).bind fun _ => eventRows permits waits own d

omit waits in
theorem resourcePlace (data : ResourceData) : (resourcePlace src data).Writes src A := by
  cases data with
  | embedded => exact (embed src _).bind fun _ => pure _
  | file => exact (ofExcept _).bind fun _ => pure _
  | assembly => exact (asks permits (.assemblyRef _)).bind fun _ => pure _

theorem resource (own : A (.rows .manifestResource)) (r : Resource) : (resource src r).Writes src A :=
  (resourcePlace permits _).bind fun _ => (string _).bind fun _ => (push own rfl _).bind fun _ =>
    attach waits ..

omit waits in
theorem exportedPlace (i : TypeImplementation) : (exportedPlace src i).Writes src A := by
  cases i with
  | file => exact (ofExcept _).bind fun _ => pure _
  | forwarder => exact (asks permits (.assemblyRef _)).bind fun _ => pure _
  | nested enclosing =>
    rw [Populate.exportedPlace]
    split
    · exact pure _
    · exact throw _

theorem exportedType (own : A (.rows .exportedType)) (t : ExportedType) :
    (exportedType src t).Writes src A :=
  (exportedPlace permits _).bind fun _ => (string? _).bind fun _ => (string _).bind fun _ =>
    (push own rfl _).bind fun _ => attach waits ..

theorem manifest (own : ∀ t ∈ [Table.assembly, .declSecurity, .manifestResource, .file, .exportedType],
      A (.rows t)) (publicKey : Option Bytes) : (manifest src publicKey).Writes src A :=
  (forM fun a => assembly waits (own _ (by simp)) (own _ (by simp)) publicKey a).bind fun _ =>
    (forM fun r => resource permits waits (own _ (by simp)) r).bind fun _ =>
      (forM fun f => file src waits (own _ (by simp)) f).bind fun _ =>
        forM fun t => exportedType permits waits (own _ (by simp)) t

theorem constraints (own : A (.rows .genericParamConstraint)) (owner : CodedIndex .typeOrMethodDef)
    (number : UInt16) (p : GenericParameter) : (constraints src owner number p).Writes src A := by
  refine read (fun s s' same => by simp only [same]) fun s => forM fun _ => ?_
  exact (asks permits (.typeToken _)).bind fun _ => (insert own rfl _).bind fun _ => attach waits ..

theorem generics (own : A (.rows .genericParam)) (bounds : A (.rows .genericParamConstraint)) :
    (generics src).Writes src A :=
  (forM fun _ => genericParam src waits own ..).bind fun _ =>
    forM fun _ => constraints permits waits bounds ..

theorem references : (references src).Writes src A :=
  (forM fun _ => (asks permits (.assemblyRef _)).bind fun _ => attach waits ..).bind fun _ =>
    forM fun _ => (asks permits (.moduleRef _)).bind fun _ => attach waits ..

theorem customAttributes (own : A (.rows .customAttribute)) : (customAttributes src).Writes src A := by
  let take (x : Session.Aside) : Array (Owner × Attribute) × Session.Aside :=
    (x.attributes, { x with attributes := #[] })
  refine bind (aside (f := take) fun x => ?_) fun _ => forM fun _ => customAttribute permits own ..
  exact { Session.Aside.Extends.refl x with attributes := fun other => absurd waits other }

end

end Emit.Writes

/-- The sessions that a write comes to. -/
inductive Session.Reached (src : Source) : Session → Prop
  | start (search : SpecSearch) : Reached src (ofModule src.module search)
  | write {s s' : Session} {α : Type} {c : Emit α} {A : Part → Prop} {a : α} (h : Reached src s)
      (writes : c.Writes src A) (run : c.Runs s a s') : Reached src s'

theorem Session.Reached.catalogued {src : Source} {s : Session} (h : s.Reached src) :
    s.Catalogued src := by
  induction h with
  | start search => exact catalogued_ofModule src search
  | write _ writes run ih => exact (writes.keeps ih run).1

end Cil
