import Cil.Proofs.SortedRows
import Cil.Proofs.TokenLogs

/-!
Custom attributes. The passes leave the attributes of what they write for later, in the order in which
they come to it; the last pass writes them, when all rows that may own an attribute are in place.
-/

namespace Cil

open List

variable {owner : Owner}

/-- What may have attributes. -/
inductive Bearer
  | row (parent : CodedIndex .hasCustomAttribute)
  | interface (owner : Nat) (interface : TypeSig)
  | genericParam (owner : CodedIndex .typeOrMethodDef) (number : UInt16)
  | constraint (owner : CodedIndex .typeOrMethodDef) (number : UInt16) (constraint : TypeSig)
  | assemblyRef (id : AssemblyRefId)
  | moduleRef (id : ModuleRefId)

/-- The owner under which attributes wait: with the indices that have been given to what it names. -/
def Bearer.WaitsAs (src : Source) : Bearer → Owner → Prop
  | row parent, owner => owner = .row parent
  | interface n t, owner => ∃ i, (∃ s s', (typeToken src t).Runs s i s') ∧ owner = .interface n i
  | genericParam o n, owner => owner = .genericParam o n
  | constraint o n t, owner =>
    ∃ i, (∃ s s', (typeToken src t).Runs s i s') ∧ owner = .constraint o n i
  | assemblyRef id, owner =>
    ∃ i, (∃ s s', (Cil.assemblyRef src id).Runs s i s') ∧ owner = .row (.of .assemblyRef i)
  | moduleRef id, owner =>
    ∃ i, (∃ s s', (Cil.moduleRef src id).Runs s i s') ∧ owner = .row (.of .moduleRef i)

/-- The owner under which attributes wait, with the indices that the session gives to what it names. -/
def Bearer.WaitsIn (src : Source) (s : Session) : Bearer → Owner → Prop
  | row parent, owner => owner = .row parent
  | interface n t, owner => ∃ i, (typeToken src t).Runs s i s ∧ owner = .interface n i
  | genericParam o n, owner => owner = .genericParam o n
  | constraint o n t, owner => ∃ i, (typeToken src t).Runs s i s ∧ owner = .constraint o n i
  | assemblyRef id, owner =>
    ∃ i, (Cil.assemblyRef src id).Runs s i s ∧ owner = .row (.of .assemblyRef i)
  | moduleRef id, owner => ∃ i, (Cil.moduleRef src id).Runs s i s ∧ owner = .row (.of .moduleRef i)

theorem Bearer.WaitsIn.waitsAs {src : Source} {s : Session} {bearer : Bearer}
    (h : bearer.WaitsIn src s owner) : bearer.WaitsAs src owner := by
  cases bearer with
  | row | genericParam => exact h
  | interface | constraint | assemblyRef | moduleRef =>
    obtain ⟨i, run, same⟩ := h
    exact ⟨i, ⟨s, s, run⟩, same⟩

namespace Definition

variable (d : Definition)

def typeAttributes : List (Bearer × Attribute) :=
  d.info.attributes.map (.row (.of .typeDef d.rows.row), ·)

def fieldAttributes : List (Bearer × Attribute) :=
  d.fields.flatMap fun x => x.1.attributes.map (.row (.of .field x.2), ·)

def methodAttributes : List (Bearer × Attribute) :=
  d.methods.flatMap fun x => x.1.attributes.map (.row (.of .methodDef x.2), ·)

def interfaceAttributes : List (Bearer × Attribute) :=
  d.info.interfaces.flatMap fun i => i.attributes.map (.interface d.rows.row i.interface, ·)

def propertyAttributes : List (Bearer × Attribute) :=
  d.properties.flatMap fun x => x.1.attributes.map (.row (.of .property x.2), ·)

def eventAttributes : List (Bearer × Attribute) :=
  d.events.flatMap fun x => x.1.attributes.map (.row (.of .event x.2), ·)

end Definition

namespace Source

variable (src : Source)

def manifestAttributes : List (Bearer × Attribute) :=
  (src.module.assembly.toList.flatMap fun a => a.attributes.map (.row (.of .assembly 1), ·)) ++
    (((src.module.resources.zipIdx 1).flatMap fun x =>
      x.1.attributes.map (.row (.of .manifestResource x.2), ·)) ++
    (((src.module.files.toList.zipIdx 1).flatMap fun x =>
      x.1.attributes.map (.row (.of .file x.2), ·)) ++
    ((src.module.exportedTypes.toList.zipIdx 1).flatMap fun x =>
      x.1.attributes.map (.row (.of .exportedType x.2), ·))))

/-- The attributes of generic parameters, and then those of their constraints. -/
def genericAttributes : List (Bearer × Attribute) :=
  let parameters := src.definitions.flatMap Populate.genericParameters
  (parameters.flatMap fun x => x.2.2.attributes.map (.genericParam x.1 x.2.1, ·)) ++
    parameters.flatMap fun x => x.2.2.constraints.flatMap fun c =>
      c.attributes.map (.constraint x.1 x.2.1 c.constraint, ·)

def referenceAttributes : List (Bearer × Attribute) :=
  (src.module.assemblyReferences.toList.zipIdx.flatMap fun x =>
    x.1.attributes.map (.assemblyRef ⟨x.2⟩, ·)) ++
    src.module.moduleReferences.toList.zipIdx.flatMap fun x =>
      x.1.attributes.map (.moduleRef ⟨x.2⟩, ·)

def attributes : List (Bearer × Attribute) :=
  [src.module.attributes.map (.row (.of .module 1), ·), src.definitions.flatMap (·.typeAttributes),
    src.definitions.flatMap (·.fieldAttributes), src.definitions.flatMap (·.methodAttributes),
    src.parameters.flatMap fun x => x.1.attributes.map (.row (.of .param x.2), ·),
    src.definitions.flatMap (·.interfaceAttributes), src.definitions.flatMap (·.propertyAttributes),
    src.definitions.flatMap (·.eventAttributes), src.manifestAttributes, src.genericAttributes,
    src.referenceAttributes].flatten

end Source

/-- An attribute that waits is one that is declared. -/
def Source.Waits (src : Source) (s : Session) (x : Bearer × Attribute) (y : Owner × Attribute) : Prop :=
  x.1.WaitsIn src s y.1 ∧ y.2 = x.2

namespace Emit.Fills

open Populate

variable (src : Source) (d : Definition)

theorem waits_if (bearer : Bearer) {S : Session → Prop}
    (h : ∀ later, S later → bearer.WaitsIn src later owner) (attributes : List Attribute) :
    Fills .attributes (Populate.attach owner attributes) fun later new =>
      S later → List.Forall₂ (src.Waits later) (attributes.map (bearer, ·)) new := by
  refine attach fun later known => ?_
  rw [forall₂_map_left_iff, forall₂_map_right_iff, forall₂_same]
  exact fun _ _ => ⟨h later known, rfl⟩

theorem waits (bearer : Bearer) (h : ∀ later, bearer.WaitsIn src later owner)
    (attributes : List Attribute) : Fills .attributes (Populate.attach owner attributes)
      (Each src.Waits (attributes.map (bearer, ·))) :=
  (waits_if src bearer (S := fun _ => True) (fun later _ => h later) attributes).weaken
    fun _ _ h => h trivial

theorem permits_references : Permits (· ≠ Log.attributes.part) fun _ => True :=
  .of_references fun _ => (by simp)

theorem typeAttributes : Fills .attributes (Populate.typeDef src d)
    (Each src.Waits d.typeAttributes) := by
  have row (base : TypeDefOrRef) : Fills .attributes (typeDefRow d base)
      (Each src.Waits d.typeAttributes) :=
    bind (.string? _) fun _ _ => bind (.string _) fun _ _ => bind (.push (by simp) _) fun _ _ =>
      waits src (.row _) (fun _ => rfl) _
  unfold Populate.typeDef
  split
  · exact bind ((Asks.typeToken _).confined permits_references) fun _ _ => row _
  · exact row _

theorem fieldAttributes : Fills .attributes (Populate.fields src d)
    (Each src.Waits d.fieldAttributes) := by
  refine forM fun x => ?_
  exact bind ((Asks.fieldBlob _).confined permits_references) fun _ _ => bind (.string _) fun _ _ =>
    bind (.blob (fun _ => trivial) _) fun _ _ => bind (.push (by simp) _) fun _ _ =>
      waits src (.row _) (fun _ => rfl) _

theorem methodAttributes : Fills .attributes (Populate.methods src d)
    (Each src.Waits ((d.methods.zip d.rows.firstParams.toList).flatMap fun x =>
      x.1.1.attributes.map (.row (.of .methodDef x.1.2), ·))) := by
  refine forM fun x => ?_
  exact bind ((Asks.methodBlob ..).confined permits_references) fun _ _ => bind (.string _) fun _ _ =>
    bind (.blob (fun _ => trivial) _) fun _ _ => bind (.push (by simp) _) fun _ _ =>
      waits src (.row _) (fun _ => rfl) _

theorem paramAttributes (p : Parameter) (row : Nat) :
    Fills .attributes (paramParts p row)
      (Each src.Waits (p.attributes.map (.row (.of .param row), ·))) :=
  bind (.forM fun _ => .constant (by simp) ..) fun _ _ => bind (.forM fun _ => .marshal (by simp) ..)
    fun _ _ => waits src (.row _) (fun _ => rfl) _

theorem propertyAttributes : Fills .attributes (Populate.properties src d)
    (Each src.Waits d.propertyAttributes) :=
  bind (Writes.propertyMap src (by simp) d).confined fun _ _ => forM fun x =>
    bind ((Asks.propertyBlob x.1).confined permits_references) fun _ _ => bind (.string _) fun _ _ =>
      bind (.blob (fun _ => trivial) _) fun _ _ => bind (.push (by simp) _) fun _ _ =>
        bind (.forM fun _ => .constant (by simp) ..) fun _ _ => waits src (.row _) (fun _ => rfl) _

theorem eventAttributes : Fills .attributes (Populate.events src d)
    (Each src.Waits d.eventAttributes) :=
  bind (Writes.eventMap src (by simp) d).confined fun _ _ => forM fun x =>
    bind ((Asks.typeToken _).confined permits_references) fun _ _ => bind (.string _) fun _ _ =>
      bind (.push (by simp) _) fun _ _ => waits src (.row _) (fun _ => rfl) _

theorem genericParamAttributes (owner : CodedIndex .typeOrMethodDef) (number : UInt16)
    (p : GenericParameter) : Fills .attributes (genericParam owner number p)
      (Each src.Waits (p.attributes.map (.genericParam owner number, ·))) :=
  bind (.string _) fun _ _ => bind (.insert (by simp) _) fun _ _ =>
    waits src (.genericParam ..) (fun _ => rfl) _

end Emit.Fills

namespace Emit.FillsFrom

open Populate

variable (src : Source)

theorem row {t : Table} {k : Nat} {row : t.Row} (mem : t ∈ CodedIndex.Kind.hasCustomAttribute.tables)
    (attributes : List Attribute) :
    FillsFrom (·.Next t k) .attributes
      (Emit.push t row >>= fun n => Populate.attach (.row (.row t n mem)) attributes)
      (·.Next t (k + 1)) (Each src.Waits (attributes.map (.row (.row t k mem), ·))) :=
  push (by simp) (.waits src (.row _) (fun _ => rfl) _) (.attach (by simp) ..)

theorem permits_references {t : Table} (own : t.isReference = false) :
    Permits (fun part => part ≠ Log.attributes.part ∧ part ≠ .rows t) fun _ => True := by
  refine .of_references fun {u} reference => ⟨(by simp), ?_⟩
  rintro ⟨⟩
  rw [own] at reference
  cases reference

theorem resources (rs : List Resource) :
    FillsFrom (·.Next .manifestResource 1) .attributes (rs.forM (resource src)) (fun _ => True)
      (Each src.Waits ((rs.zipIdx 1).flatMap fun x =>
        x.1.attributes.map (.row (.of .manifestResource x.2), ·))) := by
  refine forM_rows fun r k => ?_
  exact bind_rows (Writes.resourcePlace (permits_references rfl) _).confined fun _ =>
    bind_rows (.string _) fun _ => row src _ _

theorem files (fs : List File) :
    FillsFrom (·.Next .file 1) .attributes (fs.forM file) (fun _ => True)
      (Each src.Waits ((fs.zipIdx 1).flatMap fun x =>
        x.1.attributes.map (.row (.of .file x.2), ·))) := by
  refine forM_rows fun f k => ?_
  exact bind_rows (.blob (fun _ => trivial) _) fun _ =>
    bind_rows (.string _) fun _ => row src _ _

theorem exportedTypes (ts : List ExportedType) :
    FillsFrom (·.Next .exportedType 1) .attributes (ts.forM (exportedType src)) (fun _ => True)
      (Each src.Waits ((ts.zipIdx 1).flatMap fun x =>
        x.1.attributes.map (.row (.of .exportedType x.2), ·))) := by
  refine forM_rows fun t k => ?_
  exact bind_rows (Writes.exportedPlace (permits_references rfl) _).confined fun _ =>
    bind_rows (.string? _) fun _ => bind_rows (.string _) fun _ => row src _ _

theorem manifestAttributes (key : Option Bytes) :
    FillsFrom (·.Fresh [.manifestResource, .file, .exportedType]) .attributes (manifest src key)
      (·.Fresh []) (Each src.Waits src.manifestAttributes) := by
  have assemblies : Fills .attributes (src.module.assembly.toList.forM (assembly src key))
      (Each src.Waits (src.module.assembly.toList.flatMap fun a =>
        a.attributes.map (.row (.of .assembly 1), ·))) := by
    refine .forM fun a => .bind (.blob? (fun _ => trivial) _) fun _ _ => .bind (.string? _) fun _ _ =>
      .bind (.string _) fun _ _ => .bind (.push (by simp) _) fun _ _ =>
        .bind (Writes.security (by simp) ..).confined fun _ _ => .waits src (.row _) (fun _ => rfl) _
  exact append (of_fills assemblies (Confined.forM fun a =>
      (Writes.assembly (by simp) (by simp) (by simp) key a).confined).fresh) fun _ =>
    append ((resources src _).fresh (.forM fun r =>
      (Writes.resource .beside (by simp) (by simp) r).confined)) fun _ =>
    append ((files src _).fresh (.forM fun f =>
      (Writes.file src (by simp) (by simp) f).confined)) fun _ =>
    (exportedTypes src _).fresh (.forM fun t =>
      (Writes.exportedType .beside (by simp) (by simp) t).confined)

theorem passes_fresh (ps : List (List Part × Emit Unit)) {items : List (List (Bearer × Attribute))}
    (ts : List Table) (each : ∀ p ∈ ps, Pass src p)
    (idle : ∀ t ∈ ts, t.isReference = false ∧ t ≠ .module ∧ ∀ p ∈ ps, Part.rows t ∉ p.1)
    (fills : List.Forall₂ (fun p items => Fills .attributes p.2 (Each src.Waits items))
      (ps.filter (.attributes ∈ ·.1)) items) :
    FillsFrom (·.Fresh ts) .attributes (ps.forM (·.2)) (·.Fresh ts) (Each src.Waits items.flatten) := by
  refine of_fills (.passes src each (by simp) fills) (Confined.fresh ?_)
  refine (writes_passes src each).confined.mono fun part touched t ht same => ?_
  obtain ⟨own, other, quiet⟩ := idle t ht
  rw [same] at touched
  exact not_touched own other quiet touched

end Emit.FillsFrom

namespace Emit.Registers

open Populate

variable (src : Source)

theorem attach (bearer : Bearer) {S : Session → Prop}
    (h : ∀ later, S later → bearer.WaitsIn src later owner) (attributes : List Attribute) :
    Registers src (fun _ => True) .attributes (Populate.attach owner attributes) (fun _ => True)
      fun later new => S later → List.Forall₂ (src.Waits later) (attributes.map (bearer, ·)) new :=
  of_fills (A := fun _ => True) (.waits_if src bearer h attributes) (.attach trivial ..)
    fun _ _ _ => trivial

theorem interfaceAttributes (d : Definition) :
    Registers src (fun _ => True) .attributes (interfaces src d) (fun _ => True)
      (Each src.Waits d.interfaceAttributes) :=
  forM fun i => bind_asks (.typeToken i.interface) Fills.permits_references fun interface =>
    bind (.insert (by simp) rfl _) fun _ =>
      attach src (.interface d.rows.row i.interface) (fun _ run => ⟨interface, run, rfl⟩) _

theorem memberAttributes (d : Definition) :
    Registers src (fun _ => True) .attributes (members src d) (fun _ => True)
      (Each src.Waits d.interfaceAttributes) := by
  have others : ∀ p ∈ (memberPasses src d).tail, Pass src p := fun p hp =>
    pass_of_mem_memberPasses src d p (mem_of_mem_tail hp)
  rw [members_eq_passes]
  refine (interfaceAttributes src d).bind_right fun _ => (writes_passes src others).mono ?_
  rintro part (⟨t, _, rfl⟩ | ⟨p, hp, member⟩) same
  · cases same
  · cases same
    revert p
    simp [memberPasses]

theorem constraintAttributes (owner : CodedIndex .typeOrMethodDef) (number : UInt16)
    (p : GenericParameter) :
    Registers src (fun _ => True) .attributes (constraints src owner number p) (fun _ => True)
      (Each src.Waits (p.constraints.flatMap fun c =>
        c.attributes.map (.constraint owner number c.constraint, ·))) :=
  bind_get fun _ _ => forM fun c =>
    bind_asks (.typeToken c.constraint) Fills.permits_references fun constraint =>
      bind (.insert (by simp) rfl _) fun _ =>
        attach src (.constraint owner number c.constraint) (fun _ run => ⟨constraint, run, rfl⟩) _

theorem genericAttributes : Registers src (fun _ => True) .attributes (generics src) (fun _ => True)
    (Each src.Waits src.genericAttributes) :=
  append (forM fun x => of_fills (.genericParamAttributes src x.1 x.2.1 x.2.2)
    (Writes.genericParam (A := fun _ => True) src trivial trivial ..) fun _ _ _ => trivial) fun _ =>
      forM fun x => constraintAttributes src x.1 x.2.1 x.2.2

theorem referenceAttributes :
    Registers src (fun _ => True) .attributes (references src) (fun _ => True)
      (Each src.Waits src.referenceAttributes) := by
  refine append (forM fun x => ?_) fun _ => forM fun x => ?_
  · exact bind_asks (.assemblyRef ⟨x.2⟩) Fills.permits_references fun row =>
      attach src (.assemblyRef ⟨x.2⟩) (fun _ run => ⟨row, run, rfl⟩) _
  · exact bind_asks (.moduleRef ⟨x.2⟩) Fills.permits_references fun row =>
      attach src (.moduleRef ⟨x.2⟩) (fun _ run => ⟨row, run, rfl⟩) _

section

variable {α ε : Type} {log : Log α} {R : Session → ε → α → Prop} {P P' Q : Session → Prop}
  {items items' : List ε}

theorem passes_cons {p : List Part × Emit Unit} {ps : List (List Part × Emit Unit)}
    (h : Registers src P log p.2 P' (Each R items))
    (h' : Registers src P' log (ps.forM (·.2)) Q (Each R items')) :
    Registers src P log ((p :: ps).forM (·.2)) Q (Each R (items ++ items')) :=
  append h fun _ => h'

theorem passes_append {front back : List (List Part × Emit Unit)}
    (h : Registers src P log (front.forM (·.2)) P' (Each R items))
    (h' : Registers src P' log (back.forM (·.2)) Q (Each R items')) :
    Registers src P log ((front ++ back).forM (·.2)) Q (Each R (items ++ items')) := by
  rw [show (front ++ back).forM (·.2) = (front.forM (·.2) >>= fun _ => back.forM (·.2)) from
    forM_append]
  exact append h fun _ => h'

end

theorem attributes (key : Option Bytes)
    (lengths : ∀ d ∈ src.definitions, d.info.methods.toList.length = d.rows.firstParams.toList.length) :
    Registers src (·.Fresh [.param, .manifestResource, .file, .exportedType]) .attributes
      (((passes src key).take 16).forM (·.2)) (·.Fresh []) (Each src.Waits src.attributes) := by
  have each {p : List Part × Emit Unit} {i j : Nat} (hp : p ∈ ((passes src key).drop i).take j) :
      Pass src p := pass_of_mem src key p (mem_of_mem_drop (mem_of_mem_take hp))
  have front := of_fillsFrom (FillsFrom.passes_fresh src (((passes src key).drop 0).take 4)
    [.param, .manifestResource, .file, .exportedType] (fun _ => each)
    (by simp [passes, Table.isReference])
    (show List.Forall₂ _ [_, _, _, _] _ from .cons (.waits src (.row (.of .module 1)) (fun _ => rfl) _)
      (.cons (.forM (.typeAttributes src)) (.cons (.forM (.fieldAttributes src))
        (.cons (.forM (.methodAttributes src)) .nil))))) (writes_passes src fun _ => each)
  have parameters : Registers src (·.Fresh [.param, .manifestResource, .file, .exportedType])
      .attributes (src.definitions.forM Populate.params)
      (·.Fresh [.manifestResource, .file, .exportedType])
        (Each src.Waits (src.parameters.flatMap fun x =>
          x.1.attributes.map (.row (.of .param x.2), ·))) := by
    have writes (d : Definition) : (Populate.params d).Writes src
        (Part.Beside [.manifestResource, .file, .exportedType]) :=
      .params src (by simp) (by simp) (by simp) (by simp) d
    exact of_fillsFrom ((FillsFrom.params src (by simp) fun p row => .paramAttributes src p row).fresh
      (.forM fun d => (writes d).confined)) (.forM writes)
  have members : Registers src (·.Fresh [.manifestResource, .file, .exportedType]) .attributes
      (src.definitions.forM (Populate.members src))
      (·.Fresh [.manifestResource, .file, .exportedType])
        (Each src.Waits (src.definitions.flatMap (·.interfaceAttributes))) :=
    forM fun d => (memberAttributes src d).leading (fun _ => trivial) (Writes.members
      .beside (by simp) (by simp)
      d).confined.fresh
  have middle := of_fillsFrom (FillsFrom.passes_fresh src (((passes src key).drop 6).take 6)
    [.manifestResource, .file, .exportedType] (fun _ => each) (by simp [passes, Table.isReference])
    (show List.Forall₂ _ [_, _] _ from .cons (.forM (.propertyAttributes src))
      (.cons (.forM (.eventAttributes src)) .nil))) (writes_passes src fun _ => each)
  have manifest := of_fillsFrom (FillsFrom.manifestAttributes src key)
    (Writes.manifest (A := fun _ => True) (.of_references fun _ => trivial) trivial
      (fun _ _ => trivial) key)
  have nested := of_fillsFrom (FillsFrom.passes_fresh src (((passes src key).drop 13).take 1) []
    (fun _ => each) (by simp) (show List.Forall₂ _ [] _ from .nil)) (writes_passes src fun _ => each)
  have fresh {c : Emit Unit} : Leads (·.Fresh []) c (·.Fresh []) :=
    fun _ _ _ _ none => absurd none not_mem_nil
  have generics := (genericAttributes src).leading (P := (·.Fresh [])) (fun _ => trivial) fresh
  have references := (referenceAttributes src).leading (P := (·.Fresh [])) (fun _ => trivial) fresh
  have methods : (src.definitions.flatMap fun d => (d.methods.zip d.rows.firstParams.toList).flatMap
      fun x => x.1.1.attributes.map ((.row (.of .methodDef x.1.2) : Bearer), ·)) =
      src.definitions.flatMap (·.methodAttributes) := by
    refine flatMap_congr fun d hd => ?_
    have first : (d.methods.zip d.rows.firstParams.toList).map (·.1) = d.methods :=
      map_fst_zip (by simp [Definition.methods, ← lengths d hd])
    conv_rhs => rw [Definition.methodAttributes, ← first, flatMap_map]
  have all : Registers src (·.Fresh [.param, .manifestResource, .file, .exportedType]) .attributes
      (((passes src key).take 16).forM (·.2)) (·.Fresh []) _ :=
    passes_append src front (passes_cons src parameters (passes_cons src members
      (passes_append src middle (passes_cons src manifest (passes_append src nested
        (passes_cons src generics (passes_cons src references pure)))))))
  refine all.weaken fun _ new h => ?_
  rw [methods] at h
  simpa [Source.attributes] using h

end Emit.Registers

/-- The row of an attribute that has waited: its parent is the row that its owner has in the tables. -/
structure Row.CustomAttribute.Carries (src : Source) (tables : Tables) (s : Session)
    (x : Owner × Attribute) (row : Row.CustomAttribute) : Prop where
  parent : row.parent = Populate.ownerRow tables x.1
  kind : (attributeConstructor src x.2.constructor).Runs s row.kind s
  value : ∃ blob, AttributeBlob.ofAttribute src.module x.2 = .ok blob ∧
    s.blobs.Has BlobHeap.encode row.value.offset blob

theorem Populate.ownerRow_congr {ts ts' : Tables}
    (same : ∀ t ∈ [Table.interfaceImpl, .genericParam, .genericParamConstraint],
      ts'.rows t = ts.rows t) : ownerRow ts' = ownerRow ts := by
  have interfaces : ts'.interfaceImpl = ts.interfaceImpl := same .interfaceImpl (by simp)
  have parameters : ts'.genericParam = ts.genericParam := same .genericParam (by simp)
  have constraints : ts'.genericParamConstraint = ts.genericParamConstraint :=
    same .genericParamConstraint (by simp)
  funext owner
  cases owner <;> simp [ownerRow, genericParamRow, interfaces, parameters, constraints]

namespace Emit.Registers

open Populate

theorem customAttributes (src : Source) (tables : Tables) (waiting : List (Owner × Attribute)) :
    Registers src (fun s => ownerRow s.tables = ownerRow tables) (.sorted .customAttribute)
      (waiting.forM fun x => customAttribute src x.1 x.2)
      (fun s => ownerRow s.tables = ownerRow tables)
        (Each (Row.CustomAttribute.Carries src tables) waiting) := by
  have each (x : Owner × Attribute) :
      Registers src (fun s => ownerRow s.tables = ownerRow tables) (.sorted .customAttribute)
        (Populate.customAttribute src x.1 x.2) (fun s => ownerRow s.tables = ownerRow tables)
        (Each (Row.CustomAttribute.Carries src tables) [x]) := by
    refine (bind_get (Q := fun _ => True) fun s known => bind_asks (.attributeConstructor _)
      (.besides .customAttribute rfl) fun kind => ?_).leading id fun faithful known run => ?_
    · refine of_fills (A := fun _ => True) (.bind (.lookup _) fun blob encoded =>
        .bind_blob fun value =>
        .bind_right (.insert fun later has made => .cons ⟨by rw [known], made, blob, ?_, has⟩ .nil)
          fun _ => .pure _) ?_ fun _ _ _ => trivial
      · obtain ⟨s, s', run⟩ := encoded
        exact (runs_ofExcept.1 run).1
      · exact .bind (.ofExcept _) fun _ => .bind (.blob _) fun _ =>
          .bind (.insert trivial rfl _) fun _ => .pure _
    · have frame := (Writes.customAttribute (A := Part.Beside
        [.interfaceImpl, .genericParam, .genericParamConstraint])
          .beside
        (by simp) x.1 x.2).confined.run faithful run
      rw [ownerRow_congr fun t ht => frame.2.rows fun beside => beside t ht rfl, known]
  refine (forM each).weaken fun later new h => ?_
  rwa [flatMap_singleton'] at h

end Emit.Registers
end Cil
