import Cil.Table

/-!
The kinds of coded index. A coded index names a row of one of a few tables: the tag in its low
bits is the position of the table among the slots of its kind, and some slots are unused.
-/

namespace Cil
namespace CodedIndex

inductive Kind
  | typeDefOrRef | hasConstant | hasCustomAttribute | hasFieldMarshal | hasDeclSecurity
  | memberRefParent | hasSemantics | methodDefOrRef | memberForwarded | implementation
  | customAttributeType | resolutionScope | typeOrMethodDef
  deriving DecidableEq

namespace Kind

def name : Kind → String
  | typeDefOrRef => "TypeDefOrRef"
  | hasConstant => "HasConstant"
  | hasCustomAttribute => "HasCustomAttribute"
  | hasFieldMarshal => "HasFieldMarshal"
  | hasDeclSecurity => "HasDeclSecurity"
  | memberRefParent => "MemberRefParent"
  | hasSemantics => "HasSemantics"
  | methodDefOrRef => "MethodDefOrRef"
  | memberForwarded => "MemberForwarded"
  | implementation => "Implementation"
  | customAttributeType => "CustomAttributeType"
  | resolutionScope => "ResolutionScope"
  | typeOrMethodDef => "TypeOrMethodDef"

def all : List Kind :=
  [typeDefOrRef, hasConstant, hasCustomAttribute, hasFieldMarshal, hasDeclSecurity,
    memberRefParent, hasSemantics, methodDefOrRef, memberForwarded, implementation,
    customAttributeType, resolutionScope, typeOrMethodDef]

def ofName? (s : String) : Option Kind := all.find? (·.name == s)

/-- The tables by tag; an unused tag has none. -/
def slots : Kind → List (Option Table)
  | typeDefOrRef => [.typeDef, .typeRef, .typeSpec].map some
  | hasConstant => [.field, .param, .property].map some
  | hasCustomAttribute =>
    [.methodDef, .field, .typeRef, .typeDef, .param, .interfaceImpl, .memberRef, .module,
      .declSecurity, .property, .event, .standAloneSig, .moduleRef, .typeSpec, .assembly,
      .assemblyRef, .file, .exportedType, .manifestResource, .genericParam,
      .genericParamConstraint, .methodSpec].map some
  | hasFieldMarshal => [.field, .param].map some
  | hasDeclSecurity => [.typeDef, .methodDef, .assembly].map some
  | memberRefParent => [.typeDef, .typeRef, .moduleRef, .methodDef, .typeSpec].map some
  | hasSemantics => [.event, .property].map some
  | methodDefOrRef => [.methodDef, .memberRef].map some
  | memberForwarded => [.field, .methodDef].map some
  | implementation => [.file, .assemblyRef, .exportedType].map some
  | customAttributeType => [none, none, some .methodDef, some .memberRef, none]
  | resolutionScope => [.module, .moduleRef, .assemblyRef, .typeRef].map some
  | typeOrMethodDef => [.typeDef, .methodDef].map some

def tables (k : Kind) : List Table := k.slots.filterMap id

/-- The fewest bits that tell all slots of the kind apart. -/
def tagBits (k : Kind) : Nat := Nat.log2 (k.slots.length - 1) + 1

def tag (k : Kind) (t : Table) : Nat := k.slots.idxOf (some t)

/-- The table under a tag, if that tag is used. -/
def table? (k : Kind) (tag : Nat) : Option Table := k.slots[tag]?.join

theorem some_mem_slots {k : Kind} {t : Table} (h : t ∈ k.tables) : some t ∈ k.slots := by
  simpa [tables] using h

theorem table?_tag {k : Kind} {t : Table} (h : t ∈ k.tables) : k.table? (k.tag t) = some t := by
  have bound : k.tag t < k.slots.length := List.idxOf_lt_length_of_mem (some_mem_slots h)
  rw [table?, List.getElem?_eq_getElem bound]
  simp [tag]

theorem mem_tables {k : Kind} {tag : Nat} {t : Table} (h : k.table? tag = some t) :
    t ∈ k.tables := by
  have slot : k.slots[tag]? = some (some t) := by
    simpa [table?, Option.join_eq_some_iff] using h
  exact List.mem_filterMap.2 ⟨some t, List.mem_of_getElem? slot, rfl⟩

end Kind
end CodedIndex
end Cil
