import Cil.Proofs.MemberTables
import Cil.Proofs.StableInsertion

/-!
The rows of sorted tables: what a module declares for each of these tables, in the order in which it is
written, and the rows that are inserted for it.
-/

namespace Cil

open List

def Property.semantics (p : Property) : List (UInt16 × MethodId) :=
  p.setter.toList.map (0x1, ·) ++ (p.getter.toList.map (0x2, ·) ++ p.other.map (0x4, ·))

def Event.semantics (e : Event) : List (UInt16 × MethodId) :=
  e.addListener.toList.map (0x8, ·) ++ (e.removeListener.toList.map (0x10, ·) ++
    (e.raiseEvent.toList.map (0x20, ·) ++ e.other.map (0x4, ·)))

namespace Definition

variable (d : Definition)

def described : List (Parameter × Nat) := d.info.methods.toList.flatMap (·.described)

def interfaceImpls : List (Nat × TypeSig) := d.info.interfaces.map fun i => (d.rows.row, i.interface)

def fieldConstants : List (CodedIndex .hasConstant × Constant) :=
  d.fields.flatMap fun x => x.1.default.toList.map (.of .field x.2, ·)

def propertyConstants : List (CodedIndex .hasConstant × Constant) :=
  d.properties.flatMap fun x => x.1.default.toList.map (.of .property x.2, ·)

def fieldMarshals : List (CodedIndex .hasFieldMarshal × Bytes) :=
  d.fields.flatMap fun x => x.1.marshal.toList.map (.of .field x.2, ·)

def security : List (CodedIndex .hasDeclSecurity × SecurityDeclaration) :=
  d.info.security.map (.of .typeDef d.rows.row, ·) ++
    d.methods.flatMap fun x => x.1.security.map (.of .methodDef x.2, ·)

def classLayouts : List Row.ClassLayout :=
  d.info.classLayout.toList.map fun layout =>
    { packingSize := layout.packingSize, classSize := layout.classSize, parent := ⟨d.rows.row⟩ }

def fieldLayouts : List Row.FieldLayout :=
  d.fields.flatMap fun x => x.1.offset.toList.map fun offset => { offset, field := ⟨x.2⟩ }

def semantics : List (CodedIndex .hasSemantics × UInt16 × MethodId) :=
  (d.properties.flatMap fun x => x.1.semantics.map (.of .property x.2, ·)) ++
    d.events.flatMap fun x => x.1.semantics.map (.of .event x.2, ·)

def overrides : List (Nat × MethodOverride) := d.info.overrides.map (d.rows.row, ·)

def platformInvokes : List (CodedIndex .memberForwarded × PlatformInvoke) :=
  (d.fields.flatMap fun x => x.1.platformInvoke.toList.map (.of .field x.2, ·)) ++
    d.methods.flatMap fun x => x.1.platformInvoke.toList.map (.of .methodDef x.2, ·)

def enclosing : List (Nat × TypeId) := d.info.declaringType.toList.map (d.rows.row, ·)

end Definition

namespace Source

variable (src : Source)

def parameters : List (Parameter × Nat) :=
  ((src.definitions.flatMap (·.described)).map (·.1)).zipIdx 1

/-- The constants of parameters, then those of fields, and last those of properties. -/
def constants : List (CodedIndex .hasConstant × Constant) :=
  (src.parameters.flatMap fun x => x.1.default.toList.map (.of .param x.2, ·)) ++
    (src.definitions.flatMap (·.fieldConstants) ++ src.definitions.flatMap (·.propertyConstants))

def marshals : List (CodedIndex .hasFieldMarshal × Bytes) :=
  (src.parameters.flatMap fun x => x.1.marshal.toList.map (.of .param x.2, ·)) ++
    src.definitions.flatMap (·.fieldMarshals)

/-- The permission sets of types and methods, and then those of the assembly. -/
def security : List (CodedIndex .hasDeclSecurity × SecurityDeclaration) :=
  src.definitions.flatMap (·.security) ++
    src.module.assembly.toList.flatMap fun a => a.security.map (.of .assembly 1, ·)

end Source

section

variable (src : Source) (strings : StringHeap) (blobs : BlobHeap)

structure Row.InterfaceImpl.IsFor (x : Nat × TypeSig) (row : Row.InterfaceImpl) : Prop where
  owner : row.owner.number = x.1
  interface : ∃ s s', (typeToken src x.2).Runs s row.interface s'

structure Row.Constant.IsFor (x : CodedIndex .hasConstant × Cil.Constant) (row : Row.Constant) :
    Prop where
  kind : row.kind = x.2.elementType
  padding : row.padding = 0
  parent : row.parent = x.1
  value : blobs.Has BlobHeap.encode row.value.offset x.2.bytes

structure Row.FieldMarshal.IsFor (x : CodedIndex .hasFieldMarshal × Bytes) (row : Row.FieldMarshal) :
    Prop where
  parent : row.parent = x.1
  nativeType : blobs.Has BlobHeap.encode row.nativeType.offset x.2

structure Row.DeclSecurity.IsFor (x : CodedIndex .hasDeclSecurity × SecurityDeclaration)
    (row : Row.DeclSecurity) : Prop where
  action : row.action = x.2.action.code
  parent : row.parent = x.1
  permissionSet : ∃ blob, AttributeBlob.ofPermissionSet src.module x.2.permissionSet = .ok blob ∧
    blobs.Has BlobHeap.encode row.permissionSet.offset blob

structure Row.MethodSemantics.IsFor (x : CodedIndex .hasSemantics × UInt16 × MethodId)
    (row : Row.MethodSemantics) : Prop where
  association : row.association = x.1
  semantics : row.semantics = x.2.1
  method : src.numbering.methodRow x.2.2 = .ok row.method.number

structure Row.MethodImpl.IsFor (x : Nat × MethodOverride) (row : Row.MethodImpl) : Prop where
  owner : row.owner.number = x.1
  body : ∃ s s', (methodDefOrRef src x.2.implementation).Runs s row.body s'
  declaration : ∃ s s', (methodDefOrRef src x.2.declaration).Runs s row.declaration s'

structure Row.ImplMap.IsFor (x : CodedIndex .memberForwarded × PlatformInvoke) (row : Row.ImplMap) :
    Prop where
  flags : row.flags = x.2.flags
  memberForwarded : row.memberForwarded = x.1
  importName : strings.Has StringHeap.encode row.importName.offset x.2.importName
  importScope : ∃ s s', (moduleRef src x.2.module).Runs s row.importScope.number s'

structure Row.NestedClass.IsFor (x : Nat × TypeId) (row : Row.NestedClass) : Prop where
  nested : row.nested.number = x.1
  enclosing : src.numbering.typeRow x.2 = .ok row.enclosing.number

structure Row.GenericParam.IsFor (x : CodedIndex .typeOrMethodDef × UInt16 × GenericParameter)
    (row : Row.GenericParam) : Prop where
  owner : row.owner = x.1
  number : row.number = x.2.1
  flags : row.flags = x.2.2.flags
  name : strings.Has StringHeap.encode row.name.offset x.2.2.name

end

namespace Populate

def memberPasses (src : Source) (d : Definition) : List (List Part × Emit Unit) :=
  [([.rows .interfaceImpl, .attributes], interfaces src d),
    ([.rows .constant, .rows .fieldMarshal], fieldParts d),
    ([.rows .declSecurity], security src (.of .typeDef d.rows.row) d.info.security),
    ([.rows .declSecurity], d.methods.forM fun x => security src (.of .methodDef x.2) x.1.security),
    ([.rows .classLayout], classLayout d),
    ([.rows .fieldLayout], fieldLayouts d)]

theorem members_eq_passes (src : Source) (d : Definition) :
    members src d = (memberPasses src d).forM (·.2) := by
  simp only [memberPasses, forM_eq_forM, forM_cons, forM_nil, bind_pure_unit]
  rfl

theorem pass_of_mem_memberPasses (src : Source) (d : Definition) :
    ∀ p ∈ memberPasses src d, Pass src p := by
  simp only [memberPasses, forall_mem_cons]
  exact ⟨.interfaces permits_pass (by simp) (by simp) d, .fieldParts src (by simp) (by simp) d,
    .security (by simp) .., .forM fun _ => .security (by simp) .., .classLayout src (by simp) d,
    .fieldLayouts src (by simp) d, by simp⟩

theorem forM_flatMap {α β : Type} (l : List α) (g : α → List β) (f : β → Emit Unit) :
    (l.flatMap g).forM f = l.forM fun a => (g a).forM f := by
  induction l with
  | nil => rfl
  | cons a l ih =>
    rw [flatMap_cons]
    exact forM_append.trans (congrArg (fun c => (g a).forM f >>= fun _ => c) ih)

theorem params_eq (d : Definition) : params d = d.described.forM fun x => param x.2 x.1 := by
  rw [Definition.described, forM_flatMap]
  refine congrArg _ (funext fun m => ?_)
  unfold Method.described
  cases m.returnInfo with
  | none => rfl
  | some p => exact bind_assoc (param 0 p) ..

end Populate

namespace Emit.Fills

open Populate

section

variable {α β ε δ : Type} {log : Log α} {R : Session → ε → α → Prop}

theorem toList {o : Option δ} {f : δ → Emit Unit} {g : δ → ε}
    (h : ∀ a, Fills log (f a) (Each R [g a])) :
    Fills log (o.toList.forM f) (Each R (o.toList.map g)) := by
  cases o with
  | none => exact nothing (.pure _) fun _ => .nil
  | some a => exact bind_right (h a) fun _ => .pure _

theorem append_items {c : Emit Unit} {f : Unit → Emit Unit} {front back : List ε}
    (hc : Fills log c (Each R front))
    (hf : ∀ u, Fills log (f u) (Each R back)) :
    Fills log (c >>= f) (Each R (front ++ back)) := by
  refine (hc.append hf).weaken ?_
  rintro later _ ⟨new, new', rfl, first, rest⟩
  exact rel_append first rest

end

variable (src : Source) (d : Definition) {α ε : Type} {log : Log α} {R : Session → ε → α → Prop}

theorem constant (parent : CodedIndex .hasConstant) (v : Constant) :
    Fills (.sorted .constant) (constant parent v) fun later new =>
      List.Forall₂ (Row.Constant.IsFor later.blobs) [(parent, v)] new :=
  bind_blob fun _ => bind_right (insert fun _ has => .cons ⟨rfl, rfl, rfl, has⟩ .nil) fun _ => .pure _

theorem marshal (parent : CodedIndex .hasFieldMarshal) (descriptor : Bytes) :
    Fills (.sorted .fieldMarshal) (marshal parent descriptor) fun later new =>
      List.Forall₂ (Row.FieldMarshal.IsFor later.blobs) [(parent, descriptor)] new :=
  bind_blob fun _ => bind_right (insert fun _ has => .cons ⟨rfl, has⟩ .nil) fun _ => .pure _

theorem security (parent : CodedIndex .hasDeclSecurity) (declarations : List SecurityDeclaration) :
    Fills (.sorted .declSecurity) (security src parent declarations) fun later new =>
      List.Forall₂ (Row.DeclSecurity.IsFor src later.blobs) (declarations.map (parent, ·)) new := by
  have each : Fills (.sorted .declSecurity) (Populate.security src parent declarations)
      fun later new => List.Forall₂ (fun d => Row.DeclSecurity.IsFor src later.blobs (parent, d))
        declarations new := by
    refine forM_each fun declaration => bind (.lookup _) fun blob made => ?_
    obtain ⟨s, s', run⟩ := made
    obtain ⟨encoded, rfl⟩ := runs_ofExcept.1 run
    exact bind_blob fun permissionSet => bind_right
      (insert fun _ has => ⟨_, rfl, rfl, rfl, blob, encoded, has⟩) fun _ => .pure _
  refine each.weaken fun later new h => ?_
  rwa [forall₂_map_left_iff]

theorem interfaces : Fills (.sorted .interfaceImpl) (interfaces src d) fun _ new =>
    List.Forall₂ (Row.InterfaceImpl.IsFor src) d.interfaceImpls new := by
  have each : Fills (.sorted .interfaceImpl) (Populate.interfaces src d) fun _ new =>
      List.Forall₂ (fun i => Row.InterfaceImpl.IsFor src (d.rows.row, i.interface))
        d.info.interfaces new := by
    refine forM_each fun i => ?_
    refine bind ((Asks.typeToken _).confined (.besides .interfaceImpl rfl)) fun interface made =>
      bind_right (insert fun _ => ⟨_, rfl, rfl, made⟩) fun _ => .attach (by simp) ..
  refine each.weaken fun later new h => ?_
  rwa [Definition.interfaceImpls, forall₂_map_left_iff]

theorem fieldConstants : Fills (.sorted .constant) (fieldParts d) fun later new =>
    List.Forall₂ (Row.Constant.IsFor later.blobs) d.fieldConstants new :=
  forM fun _ => bind_right (toList fun _ => constant ..) fun _ => .forM fun _ => .marshal (by simp) ..

theorem fieldMarshals : Fills (.sorted .fieldMarshal) (fieldParts d) fun later new =>
    List.Forall₂ (Row.FieldMarshal.IsFor later.blobs) d.fieldMarshals new :=
  forM fun _ => bind (.forM fun _ => .constant (by simp) ..) fun _ _ => toList fun _ => marshal ..

theorem classLayout : Fills (.sorted .classLayout) (classLayout d) fun _ new =>
    List.Forall₂ Eq d.classLayouts new :=
  toList fun _ => bind_right (insert fun _ => .cons rfl .nil) fun _ => .pure _

theorem fieldLayouts : Fills (.sorted .fieldLayout) (fieldLayouts d) fun _ new =>
    List.Forall₂ Eq d.fieldLayouts new :=
  forM fun _ => toList fun _ => bind_right (insert fun _ => .cons rfl .nil) fun _ => .pure _

theorem members {items : List (List ε)}
    (own : ∀ t : Table, t.isReference = true → log.part ≠ .rows t)
    (fills : List.Forall₂ (fun p items => Fills log p.2 (Each R items))
      ((memberPasses src d).filter (log.part ∈ ·.1)) items) :
    Fills log (members src d) (Each R items.flatten) := by
  rw [members_eq_passes]
  exact passes src (pass_of_mem_memberPasses src d) own fills

theorem member {items : List ε} {parts : List Part} {c : Emit Unit}
    (own : ∀ t : Table, t.isReference = true → log.part ≠ .rows t)
    (one : (memberPasses src d).filter (log.part ∈ ·.1) = [(parts, c)])
    (fills : Fills log c (Each R items)) : Fills log (Populate.members src d) (Each R items) := by
  have all : Fills log (Populate.members src d) (Each R [items].flatten) :=
    members src d own (one ▸ .cons fills .nil)
  simpa using all

theorem own_sorted {t : Table} [SortedRow t.Row] (own : t.isReference = false) :
    ∀ u : Table, u.isReference = true → (Log.sorted t).part ≠ .rows u := by
  intro u reference same
  cases same
  rw [own] at reference
  cases reference

theorem memberInterfaces : Fills (.sorted .interfaceImpl) (Populate.members src d) fun _ new =>
    List.Forall₂ (Row.InterfaceImpl.IsFor src) d.interfaceImpls new :=
  member src d (own_sorted rfl) rfl (interfaces src d)

theorem memberConstants : Fills (.sorted .constant) (Populate.members src d) fun later new =>
    List.Forall₂ (Row.Constant.IsFor later.blobs) d.fieldConstants new :=
  member src d (own_sorted rfl) rfl (fieldConstants d)

theorem memberMarshals : Fills (.sorted .fieldMarshal) (Populate.members src d) fun later new =>
    List.Forall₂ (Row.FieldMarshal.IsFor later.blobs) d.fieldMarshals new :=
  member src d (own_sorted rfl) rfl (fieldMarshals d)

theorem memberClassLayouts : Fills (.sorted .classLayout) (Populate.members src d) fun _ new =>
    List.Forall₂ Eq d.classLayouts new :=
  member src d (own_sorted rfl) rfl (classLayout d)

theorem memberFieldLayouts : Fills (.sorted .fieldLayout) (Populate.members src d) fun _ new =>
    List.Forall₂ Eq d.fieldLayouts new :=
  member src d (own_sorted rfl) rfl (fieldLayouts d)

theorem memberSecurity : Fills (.sorted .declSecurity) (Populate.members src d) fun later new =>
    List.Forall₂ (Row.DeclSecurity.IsFor src later.blobs) d.security new := by
  have methods : Fills (.sorted .declSecurity)
      (d.methods.forM fun x => Populate.security src (.of .methodDef x.2) x.1.security)
      fun later new => List.Forall₂ (Row.DeclSecurity.IsFor src later.blobs)
        (d.methods.flatMap fun x => x.1.security.map (.of .methodDef x.2, ·)) new :=
    forM fun _ => security src ..
  have all := members src d (own_sorted (t := .declSecurity) rfl) <| show List.Forall₂ _ [_, _] _ from
    .cons (security src (.of .typeDef d.rows.row) d.info.security) (.cons methods .nil)
  simpa [Definition.security] using all

theorem propertyConstants : Fills (.sorted .constant) (Populate.properties src d) fun later new =>
    List.Forall₂ (Row.Constant.IsFor later.blobs) d.propertyConstants new :=
  bind (Writes.propertyMap src (by simp) d).confined fun _ _ => forM fun x =>
    bind ((Asks.propertyBlob x.1).confined (.besides .constant rfl)) fun _ _ => bind (.string _) fun _ _ =>
      bind (.blob (fun _ => trivial) _) fun _ _ => bind (.push (by simp) _) fun _ _ =>
        bind_right (toList fun _ => constant ..) fun _ => .attach (by simp) ..

theorem accessors : Fills (.sorted .methodSemantics) (accessors src d) fun _ new =>
    List.Forall₂ (Row.MethodSemantics.IsFor src) d.semantics new := by
  have tie (association : CodedIndex .hasSemantics) (semantics : UInt16) (ms : List MethodId) :
      Fills (.sorted .methodSemantics) (ms.forM (Populate.accessor src association semantics))
        fun _ new => List.Forall₂ (fun x => Row.MethodSemantics.IsFor src (association, x))
          (ms.map (semantics, ·)) new := by
    have each : Fills (.sorted .methodSemantics)
        (ms.forM (Populate.accessor src association semantics)) fun _ new => List.Forall₂
          (fun m => Row.MethodSemantics.IsFor src (association, semantics, m)) ms new := by
      refine forM_each fun m => bind (.lookup _) fun row made => ?_
      obtain ⟨s, s', run⟩ := made
      obtain ⟨known, rfl⟩ := runs_ofExcept.1 run
      exact bind_right (insert fun _ => ⟨_, rfl, rfl, rfl, known⟩) fun _ => .pure _
    refine each.weaken fun later new h => ?_
    rwa [forall₂_map_left_iff]
  refine append_items (forM fun x => ?_) fun _ => forM fun x => ?_
  · refine (append_items (tie ..) fun _ => append_items (tie ..) fun _ => tie ..).weaken
      fun later new h => ?_
    rw [Each, forall₂_map_left_iff]
    exact h
  · refine (append_items (tie ..) fun _ => append_items (tie ..) fun _ => append_items (tie ..)
      fun _ => tie ..).weaken fun later new h => ?_
    rw [Each, forall₂_map_left_iff]
    exact h

theorem methodImpls : Fills (.sorted .methodImpl) (methodImpls src d) fun _ new =>
    List.Forall₂ (Row.MethodImpl.IsFor src) d.overrides new := by
  have each : Fills (.sorted .methodImpl) (Populate.methodImpls src d) fun _ new =>
      List.Forall₂ (fun o => Row.MethodImpl.IsFor src (d.rows.row, o)) d.info.overrides new := by
    refine forM_each fun o => ?_
    exact bind ((Asks.methodDefOrRef _).confined (.besides .methodImpl rfl)) fun body made =>
      bind ((Asks.methodDefOrRef _).confined (.besides .methodImpl rfl)) fun declaration made' =>
        bind_right (insert fun _ => ⟨_, rfl, rfl, made, made'⟩) fun _ => .pure _
  refine each.weaken fun later new h => ?_
  rwa [Definition.overrides, forall₂_map_left_iff]

theorem implMaps : Fills (.sorted .implMap) (implMaps src d) fun later new =>
    List.Forall₂ (Row.ImplMap.IsFor src later.strings) d.platformInvokes new := by
  have map (memberForwarded : CodedIndex .memberForwarded) (p : PlatformInvoke) :
      Fills (.sorted .implMap) (Populate.implMap src memberForwarded p) fun later new =>
        List.Forall₂ (Row.ImplMap.IsFor src later.strings) [(memberForwarded, p)] new :=
    bind ((Asks.moduleRef _).confined (.besides .implMap rfl)) fun scope made => bind_string fun _ =>
      bind_right (insert fun _ named => .cons ⟨rfl, rfl, named, made⟩ .nil) fun _ => .pure _
  exact append_items (forM fun _ => toList fun _ => map ..) fun _ =>
    forM fun _ => toList fun _ => map ..

theorem nestedClass : Fills (.sorted .nestedClass) (nestedClass src d) fun _ new =>
    List.Forall₂ (Row.NestedClass.IsFor src) d.enclosing new := by
  refine toList fun _ => bind (.lookup _) fun row made => ?_
  obtain ⟨s, s', run⟩ := made
  obtain ⟨known, rfl⟩ := runs_ofExcept.1 run
  exact bind_right (insert fun _ => .cons ⟨rfl, known⟩ .nil) fun _ => .pure _

theorem genericParams : Fills (.sorted .genericParam) (generics src) fun later new =>
    List.Forall₂ (Row.GenericParam.IsFor later.strings) (src.definitions.flatMap genericParameters)
      new := by
  refine bind_right (forM_each fun x => ?_) fun _ => .forM fun x => ?_
  · exact bind_string fun _ => bind_right (insert fun _ named => ⟨_, rfl, rfl, rfl, rfl, named⟩)
      fun _ => .attach (by simp) ..
  · exact (Writes.constraints (.besides .genericParam rfl) (by simp) (by simp) ..).confined

theorem paramConstants (p : Parameter) (row : Nat) :
    Fills (.sorted .constant) (paramParts p row) fun later new =>
      List.Forall₂ (Row.Constant.IsFor later.blobs) (p.default.toList.map (.of .param row, ·)) new :=
  bind_right (toList fun _ => constant ..) fun _ =>
    (Confined.forM fun _ => .marshal (by simp) ..).bind fun _ => .attach (by simp) ..

theorem paramMarshals (p : Parameter) (row : Nat) :
    Fills (.sorted .fieldMarshal) (paramParts p row) fun later new =>
      List.Forall₂ (Row.FieldMarshal.IsFor later.blobs) (p.marshal.toList.map (.of .param row, ·))
        new :=
  bind (.forM fun _ => .constant (by simp) ..) fun _ _ =>
    bind_right (toList fun _ => marshal ..) fun _ => .attach (by simp) ..

theorem manifestSecurity (key : Option Bytes) :
    Fills (.sorted .declSecurity) (Populate.manifest src key) fun later new =>
      List.Forall₂ (Row.DeclSecurity.IsFor src later.blobs)
        (src.module.assembly.toList.flatMap fun a => a.security.map (.of .assembly 1, ·)) new := by
  have refs : Permits (· ≠ (Log.sorted .declSecurity).part) fun _ => True :=
    .besides .declSecurity rfl
  refine bind_right (forM fun a => ?_) fun _ => ?_
  · exact bind (.blob? (fun _ => trivial) _) fun _ _ => bind (.string? _) fun _ _ =>
      bind (.string _) fun _ _ => bind (.push (by simp) _) fun _ _ =>
        bind_right (security src ..) fun _ => .attach (by simp) ..
  · exact ((Writes.forM fun r => .resource refs (by simp) (by simp) r).bind fun _ =>
      (Writes.forM fun f => .file src (by simp) (by simp) f).bind fun _ =>
        .forM fun t => .exportedType refs (by simp) (by simp) t).confined

end Emit.Fills

namespace Emit.FillsFrom

open Populate

variable {α ε : Type} {log : Log α} {R : Session → ε → α → Prop} {items : Parameter × Nat → List ε}

theorem params (src : Source) (other : Part.rows .param ≠ log.part)
    (parts : ∀ p row, Fills log (paramParts p row) (Each R (items (p, row)))) :
    FillsFrom (·.Next .param 1) log (src.definitions.forM params) (fun _ => True)
      (Each R (src.parameters.flatMap items)) := by
  have one (x : Parameter × Nat) (k : Nat) : FillsFrom (·.Next .param k) log (param x.2 x.1)
      (·.Next .param (k + 1)) (Each R (items (x.1, k))) :=
    bind_rows (.string? _) fun _ =>
      push other (parts x.1 k) (Writes.paramParts src (by simp) (by simp) (by simp) x.1 k).confined
  have all (l : List (Parameter × Nat)) : FillsFrom (·.Next .param 1) log
      (l.forM fun x => param x.2 x.1) (fun _ => True)
        (Each R ((l.zipIdx 1).flatMap fun y => items (y.1.1, y.2))) :=
    forM_rows (g := fun y : (Parameter × Nat) × Nat => items (y.1.1, y.2)) one
  have program : src.definitions.forM Populate.params =
      (src.definitions.flatMap (·.described)).forM fun x => param x.2 x.1 := by
    rw [forM_flatMap]
    exact congrArg _ (funext params_eq)
  have spelled : src.parameters.flatMap items =
      ((src.definitions.flatMap (·.described)).zipIdx 1).flatMap fun y => items (y.1.1, y.2) := by
    rw [Source.parameters, zipIdx_map, flatMap_map]
    rfl
  rw [program, spelled]
  exact all _

end Emit.FillsFrom
end Cil
