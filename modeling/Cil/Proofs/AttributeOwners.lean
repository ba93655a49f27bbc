import Cil.Proofs.ManifestTables
import Cil.Proofs.MethodRanges
import Cil.Proofs.RowKeys
import Cil.Proofs.SortedTables

/-!
Attributes and generic constraints reach what they belong to. Everything that has attributes has a row in
the final tables, also where rows have moved since its attributes were declared, and this row is the
parent of the rows of its attributes.
-/

namespace Cil

open List Source Cil.Numbering.Counters

variable {n : Nat} {γ : Type}

/-- What attributes are attached to, beside its row where that follows from its place. -/
inductive Carrier
  | module (m : Module)
  | type (d : Definition)
  | field (f : FieldDef) (row : Nat)
  | method (m : Method) (row : Nat)
  | parameter (p : Parameter) (sequence row : Nat)
  | interface (d : Definition) (i : InterfaceImplementation)
  | property (p : Property) (row : Nat)
  | event (e : Event) (row : Nat)
  | assembly (a : Assembly)
  | resource (r : Resource) (row : Nat)
  | file (f : File) (row : Nat)
  | exportedType (t : ExportedType) (row : Nat)
  | genericParam (owner : CodedIndex .typeOrMethodDef) (number : UInt16) (p : GenericParameter)
  | constraint (owner : CodedIndex .typeOrMethodDef) (number : UInt16) (p : GenericParameter)
    (c : GenericConstraint)
  | assemblyRef (r : AssemblyReference) (id : AssemblyRefId)
  | moduleRef (r : ModuleReference) (id : ModuleRefId)

namespace Carrier

def attributes : Carrier → List Attribute
  | module m => m.attributes
  | type d => d.info.attributes
  | field f _ => f.attributes
  | method m _ => m.attributes
  | parameter p _ _ => p.attributes
  | interface _ i => i.attributes
  | property p _ => p.attributes
  | event e _ => e.attributes
  | assembly a => a.attributes
  | resource r _ => r.attributes
  | file f _ => f.attributes
  | exportedType t _ => t.attributes
  | genericParam _ _ p => p.attributes
  | constraint _ _ _ c => c.attributes
  | assemblyRef r _ => r.attributes
  | moduleRef r _ => r.attributes

def bearer : Carrier → Bearer
  | module _ => .row (.of .module 1)
  | type d => .row (.of .typeDef d.rows.row)
  | field _ row => .row (.of .field row)
  | method _ row => .row (.of .methodDef row)
  | parameter _ _ row => .row (.of .param row)
  | interface d i => .interface d.rows.row i.interface
  | property _ row => .row (.of .property row)
  | event _ row => .row (.of .event row)
  | assembly _ => .row (.of .assembly 1)
  | resource _ row => .row (.of .manifestResource row)
  | file _ row => .row (.of .file row)
  | exportedType _ row => .row (.of .exportedType row)
  | genericParam owner number _ => .genericParam owner number
  | constraint owner number _ c => .constraint owner number c.constraint
  | assemblyRef _ id => .assemblyRef id
  | moduleRef _ id => .moduleRef id

end Carrier

/-- The described parameters of the methods of a type, each with its number and its row. -/
def Definition.parameters (d : Definition) : List ((Parameter × Nat) × Nat) :=
  (d.info.methods.toList.zip d.rows.firstParams.toList).flatMap fun x => x.1.described.zipIdx x.2

namespace Source

variable (src : Source)

def genericParameters : List (CodedIndex .typeOrMethodDef × UInt16 × GenericParameter) :=
  src.definitions.flatMap Populate.genericParameters

def carriers : List Carrier :=
  [[.module src.module], src.definitions.map .type,
    src.definitions.flatMap fun d => d.fields.map fun x => .field x.1 x.2,
    src.definitions.flatMap fun d => d.methods.map fun x => .method x.1 x.2,
    src.definitions.flatMap fun d => d.parameters.map fun x => .parameter x.1.1 x.1.2 x.2,
    src.definitions.flatMap fun d => d.info.interfaces.map (.interface d),
    src.definitions.flatMap fun d => d.properties.map fun x => .property x.1 x.2,
    src.definitions.flatMap fun d => d.events.map fun x => .event x.1 x.2,
    src.module.assembly.toList.map .assembly,
    (src.module.resources.zipIdx 1).map fun x => .resource x.1 x.2,
    (src.module.files.toList.zipIdx 1).map fun x => .file x.1 x.2,
    (src.module.exportedTypes.toList.zipIdx 1).map fun x => .exportedType x.1 x.2,
    src.genericParameters.map fun x => .genericParam x.1 x.2.1 x.2.2,
    src.genericParameters.flatMap fun x => x.2.2.constraints.map (.constraint x.1 x.2.1 x.2.2),
    src.module.assemblyReferences.toList.zipIdx.map fun x => .assemblyRef x.1 ⟨x.2⟩,
    src.module.moduleReferences.toList.zipIdx.map fun x => .moduleRef x.1 ⟨x.2⟩].flatten

def carried : List (Carrier × Attribute) :=
  src.carriers.flatMap fun c => c.attributes.map (c, ·)

def constrained :
    List ((CodedIndex .typeOrMethodDef × UInt16 × GenericParameter) × GenericConstraint) :=
  src.genericParameters.flatMap fun x => x.2.2.constraints.map (x, ·)

theorem constraints_eq : src.constraints = src.constrained.map fun x =>
    (x.1.1, x.1.2.1, x.2.constraint) := by
  simp [constraints, constrained, genericParameters, map_flatMap]
  rfl

end Source

theorem flatMap_zipIdx {δ : Type} {ds : List δ} {first : δ → Nat} {g : δ → List γ}
    (placed : ds.map first = Numbering.starts n (ds.map fun d => (g d).length)) :
    (ds.flatMap fun d => (g d).zipIdx (first d)) = (ds.flatMap g).zipIdx n := by
  induction ds generalizing n with
  | nil => rfl
  | cons d ds ih =>
    obtain ⟨here, rest⟩ := List.cons.inj placed
    rw [flatMap_cons, flatMap_cons, ih rest, here, zipIdx_append]

section

variable {src : Source} {ts : List TypeInfo}
  (placed : src.definitions = ({} : Numbering.Counters).place ts)

include placed

theorem Source.parameters_eq : src.definitions.flatMap (·.parameters) =
    (src.definitions.flatMap (·.described)).zipIdx 1 := by
  have same : (src.definitions.flatMap fun d =>
      d.info.methods.toList.zip d.rows.firstParams.toList).flatMap (·.1.described) =
        src.definitions.flatMap (·.described) := by
    rw [flatMap_assoc]
    refine flatMap_congr fun d hd => ?_
    have methods := (methods_place d (placed ▸ hd)).1
    rw [Definition.described]
    conv_rhs => rw [← methods, flatMap_map]
  have firsts := @Numbering.Counters.params_place {} ts
  rw [← placed] at firsts
  rw [← same, ← flatMap_zipIdx firsts, flatMap_assoc]
  rfl

theorem Source.attributes_eq_carried :
    src.attributes = src.carried.map fun x => (x.1.bearer, x.2) := by
  have parameters : (src.parameters.flatMap fun x =>
      x.1.attributes.map ((.row (.of .param x.2) : Bearer), ·)) =
      src.definitions.flatMap fun d => d.parameters.flatMap fun x =>
        x.1.1.attributes.map ((.row (.of .param x.2) : Bearer), ·) := by
    rw [← flatMap_assoc, parameters_eq placed, parameters, zipIdx_map, flatMap_map]
    rfl
  simp only [attributes, parameters, carried, carriers, flatten_cons, flatten_nil,
    flatMap_append, map_append, flatMap_cons, flatMap_nil, append_nil,
    flatMap_map, map_flatMap, flatMap_assoc, map_map, Function.comp_def,
    Carrier.attributes, Carrier.bearer, manifestAttributes, genericAttributes, referenceAttributes,
    genericParameters, append_assoc]
  rfl

end

def Definition.generic (d : Definition) : List (CodedIndex .typeOrMethodDef × List GenericParameter) :=
  (.of .typeDef d.rows.row, d.info.genericParameters) ::
    d.methods.map fun x => (.of .methodDef x.2, x.1.genericParameters)

theorem Populate.genericParameters_eq (d : Definition) : genericParameters d =
    d.generic.flatMap fun x => x.2.zipIdx.map fun y => (x.1, UInt16.ofNat y.2, y.1) := by
  simp [genericParameters, Definition.generic, flatMap_map]
  rfl

theorem nodup_ofNat (few : n ≤ 65536) : ((List.range n).map UInt16.ofNat).Nodup := by
  refine List.Nodup.map_on (fun i hi j hj same => ?_) nodup_range
  have numbers := congrArg UInt16.toNat same
  rw [mem_range] at hi hj
  simpa [Nat.mod_eq_of_lt (Nat.lt_of_lt_of_le hi few), Nat.mod_eq_of_lt (Nat.lt_of_lt_of_le hj few)]
    using numbers

/-- At most as many generic parameters as there are numbers for them. -/
def TypeInfo.FewParameters (t : TypeInfo) : Prop :=
  t.genericParameters.length ≤ 65536 ∧ ∀ m ∈ t.methods, m.genericParameters.length ≤ 65536

instance (t : TypeInfo) : Decidable t.FewParameters := inferInstanceAs (Decidable (_ ∧ _))

section

variable {src : Source} {ts : List TypeInfo}
  (placed : src.definitions = ({} : Numbering.Counters).place ts)

include placed

theorem Source.nodup_generic : ((src.definitions.flatMap (·.generic)).map (·.1)).Nodup := by
  let type (d : Definition) : CodedIndex .typeOrMethodDef := .of .typeDef d.rows.row
  let method (x : Method × Nat) : CodedIndex .typeOrMethodDef := .of .methodDef x.2
  have types : (src.definitions.map type).Nodup := by
    have rows := Session.Lists.distinct_rows placed
    rw [List.Nodup, pairwise_map] at rows ⊢
    exact rows.imp fun other same => other (show (type _).number = (type _).number by rw [same])
  have methods : ((src.definitions.flatMap (·.methods)).map method).Nodup := by
    have rows : ((src.definitions.flatMap (·.methods)).map (·.2)).Nodup := by
      rw [placed, Compile.rows_methods]
      exact nodup_range'
    rw [List.Nodup, pairwise_map] at rows ⊢
    exact rows.imp fun other same => other (show (method _).number = (method _).number by rw [same])
  have apart : (src.definitions.map type ++
      (src.definitions.flatMap (·.methods)).map method).Nodup := by
    refine nodup_append.2 ⟨types, methods, fun a ha b hb same => ?_⟩
    obtain ⟨d, _, rfl⟩ := mem_map.1 ha
    obtain ⟨x, _, rfl⟩ := mem_map.1 hb
    cases same
  have perm := map_append_flatMap_perm src.definitions type fun d => d.methods.map method
  rw [map_flatMap] at apart ⊢
  have owners : (src.definitions.flatMap fun d => type d :: d.methods.map method) =
      src.definitions.flatMap fun d => d.generic.map (·.1) :=
    flatMap_congr fun d _ => by simp [Definition.generic, type, method]
  exact owners ▸ perm.nodup apart

theorem Source.nodup_genericParameters (few : ∀ d ∈ src.definitions, d.info.FewParameters) :
    (src.genericParameters.map fun x => (x.1, x.2.1)).Nodup := by
  have keys : (src.genericParameters.map fun x => (x.1, x.2.1)) =
      (src.definitions.flatMap (·.generic)).flatMap fun x =>
        ((List.range x.2.length).map UInt16.ofNat).map (x.1, ·) := by
    rw [genericParameters, flatMap_congr fun d _ => Populate.genericParameters_eq d,
      ← flatMap_assoc, map_flatMap]
    refine flatMap_congr fun x _ => ?_
    rw [map_map, range_eq_range', ← zipIdx_map_snd, map_map, map_map]
    rfl
  rw [keys, nodup_flatMap]
  constructor
  · intro x hx
    obtain ⟨d, hd, member⟩ := mem_flatMap.1 hx
    refine (nodup_ofNat ?_).map fun _ _ same => (Prod.mk.inj same).2
    rcases mem_cons.1 member with rfl | method
    · exact (few d hd).1
    · obtain ⟨y, hy, rfl⟩ := mem_map.1 method
      exact (few d hd).2 y.1 (by simpa using fst_mem_of_mem_zipIdx hy)
  · have owners := nodup_generic placed
    rw [List.Nodup, pairwise_map] at owners
    refine owners.imp fun {x y} other => ?_
    intro key inFirst inSecond
    obtain ⟨_, _, rfl⟩ := mem_map.1 inFirst
    obtain ⟨_, _, same⟩ := mem_map.1 inSecond
    exact other (Prod.mk.inj same).1.symm

end

namespace Session

variable (s : Session)

/-- The number is that of the one row of a generic parameter. -/
def IsParameter (x : CodedIndex .typeOrMethodDef × UInt16 × GenericParameter) (n : Nat) : Prop :=
  s.HoldsAt .genericParam (fun i row => row.IsFor s.strings x ∧
    ∀ j other, s.tables.genericParam[j]? = some other → other.owner = x.1 → other.number = x.2.1 →
      j = i) (.row .genericParam n)

end Session

/-- The index is that of the row that the carrier has in the tables. -/
def Carrier.IsRow (src : Source) (s : Session) (c : Carrier) (index : CodedIndex .hasCustomAttribute) :
    Prop :=
  match c with
  | module m => s.HoldsAt .module (fun _ row => m.DescribedBy s.strings row) index.token
  | type d => s.HoldsAt .typeDef (fun i row => i + 1 = d.rows.row ∧
      d.info.DescribedBy src s.strings row) index.token
  | field f n => s.HoldsAt .field (fun i row => i + 1 = n ∧
      f.DescribedBy src s.strings s.blobs row) index.token
  | method m n => s.HoldsAt .methodDef (fun i row => i + 1 = n ∧
      m.DescribedBy src s.strings s.blobs row) index.token
  | parameter p sequence n => s.HoldsAt .param (fun i row => i + 1 = n ∧
      p.DescribedBy s.strings sequence row) index.token
  | interface d i => s.HoldsAt .interfaceImpl (fun _ row => row.owner.number = d.rows.row ∧
      (typeToken src i.interface).Runs s row.interface s) index.token
  | property p n => s.HoldsAt .property (fun i row => i + 1 = n ∧
      p.DescribedBy src s.strings s.blobs row) index.token
  | event e n => s.HoldsAt .event (fun i row => i + 1 = n ∧
      e.DescribedBy src s.strings row) index.token
  | assembly a => s.HoldsAt .assembly (fun _ row => a.DescribedBy s.strings row) index.token
  | resource r n => s.HoldsAt .manifestResource (fun i row => i + 1 = n ∧
      r.DescribedBy s.strings row) index.token
  | file f n => s.HoldsAt .file (fun i row => i + 1 = n ∧
      f.DescribedBy s.strings s.blobs row) index.token
  | exportedType t n => s.HoldsAt .exportedType (fun i row => i + 1 = n ∧
      t.DescribedBy s.strings row) index.token
  | genericParam owner number p => ∃ n, index.token = .row .genericParam n ∧
      s.IsParameter (owner, number, p) n
  | constraint owner number p c => s.HoldsAt .genericParamConstraint (fun _ row =>
    s.IsParameter (owner, number, p) row.owner.number ∧
      (typeToken src c.constraint).Runs s row.constraint s) index.token
  | assemblyRef r id => s.HoldsAt .assemblyRef (fun i row =>
    (Referent.assembly id).row? s = some (i + 1) ∧ s.DescribesAssembly r row) index.token
  | moduleRef r id => s.HoldsAt .moduleRef (fun i row =>
    (Referent.module id).row? s = some (i + 1) ∧
      s.strings.Has StringHeap.encode row.name.offset r.name) index.token

namespace Session

variable {src : Source} {s : Session}

variable {t : Table} {R : γ → t.Row → Prop} {x : γ}

theorem holdsAt_of_zipIdx {l : List γ} (each : List.Forall₂ R l (s.tables.rows t).toList)
    (member : (x, n) ∈ l.zipIdx 1) : s.HoldsAt t (fun i row => i + 1 = n ∧ R x row) (.row t n) := by
  obtain ⟨positive, found⟩ := mk_mem_zipIdx_iff_le_and_getElem?_sub.1 member
  obtain ⟨size, each⟩ := forall₂_iff_get.1 each
  obtain ⟨inside, rfl⟩ := List.getElem?_eq_some_iff.1 found
  have number : n - 1 + 1 = n := by omega
  have row : n - 1 < (s.tables.rows t).toList.length := size ▸ inside
  refine ⟨n - 1, (s.tables.rows t).toList.get ⟨n - 1, row⟩, by rw [number], ?_, number,
    each (n - 1) inside row⟩
  rw [← Array.getElem?_toList, get_eq_getElem, List.getElem?_eq_getElem row]

theorem holdsAt_findIdx {p : t.Row → Bool} {r : t.Row} (member : r ∈ s.tables.rows t)
    (is : p r = true) :
    s.HoldsAt t (fun i row => i = (s.tables.rows t).findIdx p ∧ p row = true)
      (.row t ((s.tables.rows t).findIdx p + 1)) := by
  have inside := Array.findIdx_lt_size_of_exists ⟨r, member, is⟩
  exact ⟨_, (s.tables.rows t)[(s.tables.rows t).findIdx p], rfl, by simp, rfl,
    Array.findIdx_getElem⟩

theorem HoldsAt.imp {p q : Nat → t.Row → Prop} {token : Token} (h : s.HoldsAt t p token)
    (weaker : ∀ i row, p i row → q i row) : s.HoldsAt t q token := by
  obtain ⟨i, row, same, stands, holds⟩ := h
  exact ⟨i, row, same, stands, weaker i row holds⟩

theorem exists_row_of_arranges {items : List γ} (arranges : s.tables.Arranges t R items)
    (member : x ∈ items) : ∃ row ∈ s.tables.rows t, R x row := by
  obtain ⟨inserted, each, arranged⟩ := arranges
  obtain ⟨row, inserted, holds⟩ := exists_of_forall₂ each.flip member
  exact ⟨row, by simpa using arranged.perm.mem_iff.2 inserted, holds⟩

/-- The row that is looked up for a generic parameter is its row, and no other has its owner and its
number. -/
theorem isParameter_of_mem
    (parameters : s.tables.Arranges .genericParam (Row.GenericParam.IsFor s.strings)
      src.genericParameters)
    (distinct : (src.genericParameters.map fun x => (x.1, x.2.1)).Nodup)
    {x : CodedIndex .typeOrMethodDef × UInt16 × GenericParameter} (member : x ∈ src.genericParameters) :
    s.IsParameter x (Populate.genericParamRow s.tables x.1 x.2.1) := by
  have keys : (s.tables.genericParam.toList.map fun row => (row.owner, row.number)).Nodup := by
    obtain ⟨inserted, each, arranged⟩ := parameters
    have same : (inserted.map fun row => (row.owner, row.number)) =
        src.genericParameters.map fun x => (x.1, x.2.1) :=
      map_eq_of_forall₂ each fun _ _ h => Prod.ext h.owner h.number
    exact (arranged.perm.map _).nodup_iff.2 (same ▸ distinct)
  have one {i j : Nat} {row other : Row.GenericParam} (first : s.tables.genericParam[i]? = some row)
      (second : s.tables.genericParam[j]? = some other) (owner : other.owner = row.owner)
      (number : other.number = row.number) : j = i := by
    rw [← Array.getElem?_toList] at first second
    refine (List.getElem?_inj ?_ keys).1 ?_
    · simpa using (List.getElem?_eq_some_iff.1 second).1
    · simp [first, second, owner, number]
  obtain ⟨own, inTable, isFor⟩ := exists_row_of_arranges parameters member
  obtain ⟨_, found, _, stands, rfl, is⟩ := holdsAt_findIdx (t := .genericParam)
    (p := fun r : Row.GenericParam => r.owner == x.1 && r.number == x.2.1) inTable
    (by simp [isFor.owner, isFor.number])
  obtain ⟨owner, number⟩ : found.owner = x.1 ∧ found.number = x.2.1 := by simpa using is
  obtain ⟨j, there⟩ := Array.getElem?_of_mem inTable
  have here := one stands there (isFor.owner.trans owner.symm) (isFor.number.trans number.symm)
  subst here
  obtain rfl := Option.some.inj (stands.symm.trans there)
  exact ⟨_, _, rfl, stands, isFor, fun k other at' sameOwner sameNumber =>
    one stands at' (sameOwner.trans owner.symm) (sameNumber.trans number.symm)⟩

/-- What is known of the tables in which a module has been written down. -/
structure Records (src : Source) (s : Session) : Prop where
  catalogued : s.Catalogued src
  lists : s.Lists src
  manifests : s.Manifests src
  interfaces : s.tables.Arranges .interfaceImpl (Row.InterfaceImpl.Binds src s)
    (src.definitions.flatMap (·.interfaceImpls))
  parameters : s.tables.Arranges .genericParam (Row.GenericParam.IsFor s.strings) src.genericParameters
  constraints : s.tables.Arranges .genericParamConstraint
    (Row.GenericParamConstraint.Binds src s s.tables) src.constraints

theorem records_of_emit {key : Option Bytes} {keepsSymbols : Bool} {area : CodeArea}
    (h : (Module.emit src key keepsSymbols).Runs (.ofModule src.module) area s) : s.Records src where
  catalogued := by
    obtain ⟨_, _, _, _, _, _, _, _, _, cat, back, _⟩ := around_pass src key 16 rfl h
    obtain ⟨_, rfl⟩ := Emit.runs_pure.1 back
    exact cat
  lists := lists_of_emit src key h
  manifests := manifests_of_emit h
  interfaces := bound_interfaceImpls h
  parameters := arranges_of_pass h rfl rfl (.genericParams src)
  constraints := bound_constraints h

end Session

section

variable {src : Source} {ts : List TypeInfo}
  (placed : src.definitions = ({} : Numbering.Counters).place ts)

include placed

variable {d : Definition}

theorem Source.mem_zipIdx (next : Numbering.Counters → Nat) (first : TypeRows → Nat)
    {g : TypeInfo → List γ} {x : γ}
    (member : ∃ d ∈ src.definitions, (x, n) ∈ (g d.info).zipIdx (first d.rows))
    (step : ∀ c t, next (c.add t) = next c + (g t).length := by exact fun _ _ => rfl)
    (here : ∀ c t, first (c.rows t) = next c := by exact fun _ _ => rfl) :
    (x, n) ∈ (src.definitions.flatMap fun d => g d.info).zipIdx (next {}) := by
  have starts : src.definitions.map (fun d => first d.rows) =
      Numbering.starts (next {}) (src.definitions.map fun d => (g d.info).length) := by
    rw [placed]
    exact map_place next first step here
  rw [← flatMap_zipIdx starts]
  exact mem_flatMap.2 member

theorem Source.mem_zipIdx_definitions (hd : d ∈ src.definitions) :
    (d, d.rows.row) ∈ src.definitions.zipIdx 1 := by
  have rows : src.definitions.map (·.rows.row) = List.range' 1 src.definitions.length := by
    rw [placed, row_place, length_place]
  rw [zipIdx_eq_zip_range', ← rows, zip_map_right, List.zip, zipWith_self, map_map]
  exact mem_map.2 ⟨d, hd, rfl⟩

namespace Session.Records

variable {s : Session} (records : s.Records src) {token : TypeDefOrRef}

include records

theorem methods : List.Forall₂ (Method.DescribedBy src s.strings s.blobs)
    (src.definitions.flatMap (·.info.methods.toList)) (s.tables.rows .methodDef).toList := by
  have all : src.definitions.flatMap (·.info.methods.toList) = (src.definitions.flatMap fun d =>
      d.info.methods.toList.zip d.rows.firstParams.toList).map (·.1) := by
    rw [map_flatMap]
    exact flatMap_congr fun d hd => (methods_place d (placed ▸ hd)).1.symm
  rw [all, forall₂_map_left_iff]
  exact records.lists.methods.imp fun _ _ h => h.1

omit placed

theorem interface (hd : d ∈ src.definitions) {i : InterfaceImplementation}
    (hi : i ∈ d.info.interfaces) (run : (typeToken src i.interface).Runs s token s) :
    (Carrier.interface d i).IsRow src s
      (Populate.ownerRow s.tables (.interface d.rows.row token)) := by
  obtain ⟨row, inTable, bound⟩ := exists_row_of_arranges records.interfaces
    (mem_flatMap.2 ⟨d, hd, mem_map.2 ⟨i, hi, rfl⟩⟩)
  refine (holdsAt_findIdx (t := .interfaceImpl) (p := fun r : Row.InterfaceImpl =>
    r.owner.number == d.rows.row && r.interface == token) inTable ?_).imp fun _ found h => ?_
  · simp [bound.owner, (run.iff.1 bound.interface).1]
  · obtain ⟨owner, interface⟩ : found.owner.number = d.rows.row ∧ found.interface = token := by
      simpa using h.2
    exact ⟨owner, interface ▸ run⟩

theorem constraint (distinct : (src.genericParameters.map fun x => (x.1, x.2.1)).Nodup)
    {o : CodedIndex .typeOrMethodDef} {n : UInt16} {p : GenericParameter}
    (hx : (o, n, p) ∈ src.genericParameters) {c : GenericConstraint} (hc : c ∈ p.constraints)
    (run : (typeToken src c.constraint).Runs s token s) :
    (Carrier.constraint o n p c).IsRow src s
      (Populate.ownerRow s.tables (.constraint o n token)) := by
  obtain ⟨row, inTable, bound⟩ := exists_row_of_arranges records.constraints
    (mem_flatMap.2 ⟨_, hx, mem_map.2 ⟨c, hc, rfl⟩⟩)
  refine (holdsAt_findIdx (t := .genericParamConstraint) (p := fun r : Row.GenericParamConstraint =>
    r.owner.number == Populate.genericParamRow s.tables o n && r.constraint == token)
      inTable ?_).imp fun _ found h => ?_
  · simp [bound.owner, (run.iff.1 bound.constraint).1]
  · obtain ⟨owner, constraint⟩ : found.owner.number = Populate.genericParamRow s.tables o n ∧
        found.constraint = token := by
      simpa using h.2
    exact ⟨owner ▸ isParameter_of_mem records.parameters distinct hx, constraint ▸ run⟩

theorem assemblyRef {r : AssemblyReference} {id : AssemblyRefId}
    (declared : src.module.assemblyReferences[id.index]? = some r)
    (run : (Cil.assemblyRef src id).Runs s n s) :
    (Carrier.assemblyRef r id).IsRow src s (.of .assemblyRef n) := by
  have known := (Emit.assemblyRef_runs records.catalogued run).1
  obtain ⟨i, row, rfl, stands, _, own, described⟩ := records.catalogued.described known
  obtain rfl := Option.some.inj (declared.symm.trans own)
  exact ⟨i, row, rfl, stands, known, described⟩

theorem moduleRef {r : ModuleReference} {id : ModuleRefId}
    (declared : src.module.moduleReferences[id.index]? = some r)
    (run : (Cil.moduleRef src id).Runs s n s) :
    (Carrier.moduleRef r id).IsRow src s (.of .moduleRef n) := by
  have known := (Emit.moduleRef_runs records.catalogued run).1
  obtain ⟨i, row, rfl, stands, _, own, described⟩ := records.catalogued.described known
  obtain rfl := Option.some.inj (declared.symm.trans own)
  exact ⟨i, row, rfl, stands, known, described⟩

include placed

theorem isRow (distinct : (src.genericParameters.map fun x => (x.1, x.2.1)).Nodup) {c : Carrier}
    (member : c ∈ src.carriers) {owner : Owner} (waits : c.bearer.WaitsIn src s owner) :
    c.IsRow src s (Populate.ownerRow s.tables owner) := by
  cases c with
  | module m =>
    obtain rfl := waits
    obtain rfl : m = src.module := by simpa [carriers] using member
    exact (holdsAt_of_zipIdx (n := 1) records.manifests.module (by simp)).imp fun _ _ h => h.2
  | type d =>
    obtain rfl := waits
    have hd : d ∈ src.definitions := by simpa [carriers] using member
    exact (holdsAt_of_zipIdx records.lists.types (mem_zipIdx_definitions placed hd)).imp
      fun _ _ h => ⟨h.1, h.2.1⟩
  | field f n =>
    obtain rfl := waits
    have hx : ∃ d ∈ src.definitions, (f, n) ∈ d.fields := by simpa [carriers] using member
    exact holdsAt_of_zipIdx records.lists.fields (mem_zipIdx placed (·.field) (·.firstField) hx)
  | method m n =>
    obtain rfl := waits
    have hx : ∃ d ∈ src.definitions, (m, n) ∈ d.methods := by simpa [carriers] using member
    exact holdsAt_of_zipIdx (records.methods placed) (mem_zipIdx placed (·.method) (·.firstMethod) hx)
  | parameter p sequence n =>
    obtain rfl := waits
    obtain ⟨d, hd, hx⟩ : ∃ d ∈ src.definitions, ((p, sequence), n) ∈ d.parameters := by
      simpa [carriers] using member
    have counted := mem_flatMap.2 ⟨d, hd, hx⟩
    rw [parameters_eq placed] at counted
    exact holdsAt_of_zipIdx (t := .param) (R := fun x => x.1.DescribedBy s.strings x.2)
      records.lists.params counted
  | interface d i =>
    obtain ⟨token, run, rfl⟩ := waits
    obtain ⟨hd, hi⟩ : d ∈ src.definitions ∧ i ∈ d.info.interfaces := by
      simpa [carriers] using member
    exact records.interface hd hi run
  | property p n =>
    obtain rfl := waits
    have hx : ∃ d ∈ src.definitions, (p, n) ∈ d.properties := by simpa [carriers] using member
    exact holdsAt_of_zipIdx records.lists.properties (mem_zipIdx placed (·.property) (·.firstProperty) hx)
  | event e n =>
    obtain rfl := waits
    have hx : ∃ d ∈ src.definitions, (e, n) ∈ d.events := by simpa [carriers] using member
    exact holdsAt_of_zipIdx records.lists.events (mem_zipIdx placed (·.event) (·.firstEvent) hx)
  | assembly a =>
    obtain rfl := waits
    have ha : src.module.assembly = some a := by simpa [carriers] using member
    exact (holdsAt_of_zipIdx (n := 1) records.manifests.assembly (by simp [ha])).imp fun _ _ h => h.2
  | resource r n =>
    obtain rfl := waits
    exact holdsAt_of_zipIdx records.manifests.resources (by simpa [carriers] using member)
  | file f n =>
    obtain rfl := waits
    exact holdsAt_of_zipIdx records.manifests.files (by simpa [carriers] using member)
  | exportedType t n =>
    obtain rfl := waits
    exact holdsAt_of_zipIdx records.manifests.exportedTypes (by simpa [carriers] using member)
  | genericParam o n p =>
    obtain rfl := waits
    have hx : (o, n, p) ∈ src.genericParameters := by simpa [carriers] using member
    exact ⟨_, rfl, isParameter_of_mem records.parameters distinct hx⟩
  | constraint o n p c =>
    obtain ⟨token, run, rfl⟩ := waits
    obtain ⟨hx, hc⟩ : (o, n, p) ∈ src.genericParameters ∧ c ∈ p.constraints := by
      simpa [carriers] using member
    exact records.constraint distinct hx hc run
  | assemblyRef r id =>
    obtain ⟨n, run, rfl⟩ := waits
    obtain ⟨i, hi, rfl⟩ : ∃ i, (r, i) ∈ src.module.assemblyReferences.toList.zipIdx ∧
        AssemblyRefId.mk i = id := by
      simpa [carriers] using member
    exact records.assemblyRef (by simpa using mk_mem_zipIdx_iff_getElem?.1 hi) run
  | moduleRef r id =>
    obtain ⟨n, run, rfl⟩ := waits
    obtain ⟨i, hi, rfl⟩ : ∃ i, (r, i) ∈ src.module.moduleReferences.toList.zipIdx ∧
        ModuleRefId.mk i = id := by
      simpa [carriers] using member
    exact records.moduleRef (by simpa using mk_mem_zipIdx_iff_getElem?.1 hi) run

end Session.Records

end

/-- The row of an attribute: its parent is the row of what the attribute is attached to. -/
structure Row.CustomAttribute.BelongsTo (src : Source) (s : Session) (x : Carrier × Attribute)
    (row : Row.CustomAttribute) : Prop where
  parent : x.1.IsRow src s row.parent
  kind : (attributeConstructor src x.2.constructor).Runs s row.kind s
  value : ∃ blob, AttributeBlob.ofAttribute src.module x.2 = .ok blob ∧
    s.blobs.Has BlobHeap.encode row.value.offset blob

/-- The row of a constraint: its owner is the row of the generic parameter. -/
structure Row.GenericParamConstraint.BelongsTo (src : Source) (s : Session)
    (x : (CodedIndex .typeOrMethodDef × UInt16 × GenericParameter) × GenericConstraint)
    (row : Row.GenericParamConstraint) : Prop where
  owner : s.IsParameter x.1 row.owner.number
  constraint : (typeToken src x.2.constraint).Runs s row.constraint s

section

variable {src : Source} {ts : List TypeInfo}
  (placed : src.definitions = ({} : Numbering.Counters).place ts)
  {key : Option Bytes} {keepsSymbols : Bool} {area : CodeArea} {s : Session}
  (ran : (Module.emit src key keepsSymbols).Runs (.ofModule src.module) area s)
  (few : ∀ d ∈ src.definitions, d.info.FewParameters)

include placed ran few

theorem Session.owned_customAttributes :
    ∃ rows, List.Forall₂ (Row.CustomAttribute.BelongsTo src s) src.carried rows ∧
      rows.Perm s.tables.customAttribute.toList := by
  have lengths : ∀ d ∈ src.definitions,
      d.info.methods.toList.length = d.rows.firstParams.toList.length := fun d hd =>
    (methods_place d (placed ▸ hd)).2
  obtain ⟨rows, each, arranged⟩ := bound_customAttributes ran lengths
  rw [attributes_eq_carried placed, forall₂_map_left_iff] at each
  refine ⟨rows, ?_, arranged.perm.symm⟩
  refine ((forall₂_and_left _ _).2 ⟨fun x hx => hx, each⟩).imp fun x row h => ?_
  obtain ⟨member, bound⟩ := h
  obtain ⟨c, hc, hx⟩ := mem_flatMap.1 member
  obtain ⟨a, _, rfl⟩ := mem_map.1 hx
  obtain ⟨owner, waits, parent⟩ := bound.parent
  have isRow := (records_of_emit ran).isRow placed (nodup_genericParameters placed few) hc waits
  exact ⟨parent ▸ isRow, bound.kind, bound.value⟩

theorem Session.owned_constraints :
    ∃ rows, List.Forall₂ (Row.GenericParamConstraint.BelongsTo src s) src.constrained rows ∧
      rows.Perm s.tables.genericParamConstraint.toList := by
  have records := records_of_emit ran
  obtain ⟨rows, each, arranged⟩ := records.constraints
  rw [constraints_eq, forall₂_map_left_iff] at each
  refine ⟨rows, ?_, arranged.perm.symm⟩
  refine ((forall₂_and_left _ _).2 ⟨fun x hx => hx, each⟩).imp fun x row h => ?_
  obtain ⟨member, bound⟩ := h
  obtain ⟨p, hp, hx⟩ := mem_flatMap.1 member
  obtain ⟨c, _, rfl⟩ := mem_map.1 hx
  have isParameter := isParameter_of_mem records.parameters
    (nodup_genericParameters placed few) hp
  exact ⟨bound.owner ▸ isParameter, bound.constraint⟩

end

namespace Module

open Cil.Numbering

theorem attributes_reach_owners {σ : Type} {m : Module} {options : Options}
    {writer : Option (SymbolWriter σ)} {image : Image} {state state' : σ}
    (few : ∀ t ∈ m.types, t.isDefined = true → t.FewParameters)
    (h : (m.assemble options writer).run state = (.ok image, state')) :
    ∃ (n : Numbering) (key : Option Bytes) (area : CodeArea) (s : Session),
      Numbering.ofModule m = .ok n ∧
      (emit ⟨m, n⟩ key options.debugSymbols).Runs (.ofModule m) area s ∧
      image.tables = s.tables ∧ image.strings = s.strings ∧ image.blobs = s.blobs ∧
      Lists m n.order ∧ List.Forall₂ (Assigned m n.rows) n.order (Source.definitions ⟨m, n⟩) ∧
      (∃ rows, List.Forall₂ (Row.CustomAttribute.BelongsTo ⟨m, n⟩ s) (Source.carried ⟨m, n⟩) rows ∧
        rows.Perm image.tables.customAttribute.toList) ∧
      ∃ rows, List.Forall₂ (Row.GenericParamConstraint.BelongsTo ⟨m, n⟩ s)
          (Source.constrained ⟨m, n⟩) rows ∧
        rows.Perm image.tables.genericParamConstraint.toList := by
  obtain ⟨symbols, made⟩ := image_of_assemble h
  obtain ⟨n, key, area, s, entryPoint, numbering, ran, _, rfl⟩ := image_eq_ok made
  obtain ⟨order, ts, placed, assigned⟩ := Source.definitions_eq_place numbering
  have fewHere : ∀ d ∈ Source.definitions ⟨m, n⟩, d.info.FewParameters := by
    intro d hd
    obtain ⟨id, listed, known, _⟩ := exists_of_forall₂ assigned hd
    obtain ⟨t, found, isDefined⟩ := order.mem_iff.1 listed
    obtain rfl := Option.some.inj (known.symm.trans found)
    exact few d.info (Array.mem_of_getElem? found) isDefined
  exact ⟨n, key, area, s, numbering, ran, rfl, rfl, rfl, order, assigned,
    Session.owned_customAttributes placed ran fewHere, Session.owned_constraints placed ran fewHere⟩

def mark : Attribute where
  constructor := { method := ⟨⟨1⟩, 0⟩ }

/-- A module with attributes at what is looked up in the end: an interface, generic parameters, one of a
type and one of a method, and a constraint, and at a reference. -/
def emblems : Module where
  name := "Emblems"
  types := #[
    .globals,
    { name := "Mark", scope := .assembly ⟨0⟩, methods := #[.ofConstructor []] },
    { name := "Frame", scope := .assembly ⟨0⟩ },
    { name := "Shape"
      interfaces := [
        { interface := .named ⟨2⟩, attributes := [mark] },
        { interface := .named ⟨1⟩ }]
      genericParameters := [{ name := "T" }, { name := "U", attributes := [mark] }]
      methods := #[
        { name := "Scale"
          signature := { isInstance := true, parameters := [Primitive.int32] }
          isAbstract := true
          parameters := [{ attributes := [mark] }]
          genericParameters := [
            { name := "V"
              constraints := [
                { constraint := .named ⟨1⟩ },
                { constraint := .named ⟨2⟩, attributes := [mark] }]
              attributes := [mark] }] }]
      attributes := [mark] }]
  assemblyReferences := #[{ name := "mscorlib", attributes := [mark] }]

/-- The parents of its attributes, by their tags and numbers, and the owners of its constraints. -/
theorem evaluates_emblems : (emblems.image {}).toOption.map (fun made =>
    (made.1.tables.customAttribute.toList.map fun row => (row.parent.tag, row.parent.number),
      made.1.tables.genericParamConstraint.toList.map (·.owner.number))) =
      some ([(4, 1), (5, 1), (15, 1), (19, 1), (3, 2), (20, 2), (19, 3)], [1, 1]) := by
  decide +kernel

theorem attributes_reach_owners_emblems :
    (∀ t ∈ emblems.types, t.isDefined = true → t.FewParameters) ∧
    ∃ image, (emblems.assemble {} none : Service Unit Image).run () = (.ok image, ()) ∧
      (image.tables.customAttribute.toList.map fun row => (row.parent.tag, row.parent.number)) =
        [(4, 1), (5, 1), (15, 1), (19, 1), (3, 2), (20, 2), (19, 3)] ∧
      image.tables.genericParamConstraint.toList.map (·.owner.number) = [1, 1] ∧
      ∃ (n : Numbering) (s : Session), Numbering.ofModule emblems = .ok n ∧ image.tables = s.tables ∧
        (∃ rows, List.Forall₂ (Row.CustomAttribute.BelongsTo ⟨emblems, n⟩ s)
            (Source.carried ⟨emblems, n⟩) rows ∧
          rows.Perm image.tables.customAttribute.toList) ∧
        ∃ rows, List.Forall₂ (Row.GenericParamConstraint.BelongsTo ⟨emblems, n⟩ s)
            (Source.constrained ⟨emblems, n⟩) rows ∧
          rows.Perm image.tables.genericParamConstraint.toList := by
  have few : ∀ t ∈ emblems.types, t.isDefined = true → t.FewParameters := by decide
  obtain ⟨⟨image, symbols⟩, made, values⟩ := Option.map_eq_some_iff.1 evaluates_emblems
  obtain ⟨parents, owners⟩ := Prod.mk.inj values
  have assembled := assemble_of_toOption made
  obtain ⟨n, _, _, s, numbering, _, tables, _, _, _, _, attributes, constraints⟩ :=
    attributes_reach_owners few assembled
  exact ⟨few, image, assembled, parents, owners, n, s, numbering, tables, attributes, constraints⟩

def borrowed : Module where
  name := "Borrowed"
  types := #[
    .globals,
    { name := "Mark"
      scope := .assembly ⟨0⟩
      methods := #[.ofConstructor []]
      attributes := [mark] }]
  assemblyReferences := #[{ name := "mscorlib" }]

/-- Nothing is written for the attributes of types that are defined elsewhere. -/
theorem borrowed_attribute_unwritten :
    (∀ t ∈ borrowed.types, t.isDefined = true → t.FewParameters) ∧
    (borrowed.types.toList.flatMap (·.attributes)).length = 1 ∧
    ∃ image, (borrowed.assemble {} none : Service Unit Image).run () = (.ok image, ()) ∧
      image.tables.customAttribute.size = 0 :=
  ⟨by decide, rfl, exists_assembled (by decide +kernel)⟩

end Module
end Cil
