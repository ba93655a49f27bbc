import Cil.Model.Id
import Cil.Signature.Resolved

/-!
Types and method signatures as a module describes them: references are identifiers, not yet rows.
-/

namespace Cil

/-- Types that a signature names by a single byte. -/
inductive Primitive
  | void | boolean | char | int8 | uint8 | int16 | uint16 | int32 | uint32 | int64 | uint64
  | float32 | float64 | intPtr | uintPtr | object | string | typedReference
  deriving DecidableEq

namespace Primitive

/-- The name of the type in the namespace `System`. -/
def systemName : Primitive → String
  | void => "Void"
  | boolean => "Boolean"
  | char => "Char"
  | int8 => "SByte"
  | uint8 => "Byte"
  | int16 => "Int16"
  | uint16 => "UInt16"
  | int32 => "Int32"
  | uint32 => "UInt32"
  | int64 => "Int64"
  | uint64 => "UInt64"
  | float32 => "Single"
  | float64 => "Double"
  | intPtr => "IntPtr"
  | uintPtr => "UIntPtr"
  | object => "Object"
  | string => "String"
  | typedReference => "TypedReference"

def elementType : Primitive → UInt8
  | void => ElementType.void
  | boolean => ElementType.boolean
  | char => ElementType.char
  | int8 => ElementType.int8
  | uint8 => ElementType.uint8
  | int16 => ElementType.int16
  | uint16 => ElementType.uint16
  | int32 => ElementType.int32
  | uint32 => ElementType.uint32
  | int64 => ElementType.int64
  | uint64 => ElementType.uint64
  | float32 => ElementType.float32
  | float64 => ElementType.float64
  | intPtr => ElementType.intPtr
  | uintPtr => ElementType.uintPtr
  | object => ElementType.object
  | string => ElementType.string
  | typedReference => ElementType.typedReference

end Primitive

/-- The bounds of an array. Sizes and lower bounds may be fewer than dimensions. -/
structure ArrayShape where
  rank : Nat
  sizes : List Nat := []
  lowerBounds : List Int := []
  deriving DecidableEq

inductive CallingConvention
  | default | varArgs | c | stdCall | thisCall | fastCall
  deriving DecidableEq

/-- A type. A function pointer holds the parts of its signature. -/
inductive TypeSig
  | primitive (p : Primitive)
  | named (type : TypeId)
  | generic (type : TypeId) (arguments : List TypeSig)
  | array (element : TypeSig) (shape : ArrayShape)
  /-- An array of one dimension that starts at 0. -/
  | vector (element : TypeSig)
  /-- An unmanaged pointer; without a pointee it points to anything. -/
  | pointer (pointee : Option TypeSig)
  | reference (inner : TypeSig)
  | pinned (inner : TypeSig)
  | modified (modifier : TypeId) (required : Bool) (inner : TypeSig)
  | typeParameter (number : Nat)
  | methodParameter (number : Nat)
  | functionPointer (isInstance explicitThis : Bool) (convention : CallingConvention)
      (returnType : TypeSig) (parameters : List TypeSig)

namespace TypeSig

instance : Coe Primitive TypeSig := ⟨primitive⟩

instance : Inhabited TypeSig := ⟨Primitive.void⟩

def primitive? : TypeSig → Option Primitive
  | primitive p => some p
  | _ => none

mutual

/-- Whether two types are the same. -/
def same : TypeSig → TypeSig → Bool
  | primitive p, primitive q => p == q
  | named i, named j => i == j
  | generic i as, generic j bs => i == j && sameAll as bs
  | array a s, array b t => same a b && s == t
  | vector a, vector b => same a b
  | pointer none, pointer none => true
  | pointer (some a), pointer (some b) => same a b
  | reference a, reference b => same a b
  | pinned a, pinned b => same a b
  | modified i r a, modified j q b => i == j && r == q && same a b
  | typeParameter n, typeParameter m => n == m
  | methodParameter n, methodParameter m => n == m
  | functionPointer i e k r as, functionPointer j f l q bs =>
    i == j && e == f && k == l && same r q && sameAll as bs
  | _, _ => false

def sameAll : List TypeSig → List TypeSig → Bool
  | [], [] => true
  | a :: as, b :: bs => same a b && sameAll as bs
  | _, _ => false

end

mutual

theorem eq_of_same : ∀ (a b : TypeSig), same a b = true → a = b
  | primitive _, b, h => by cases b <;> simp_all [same]
  | named _, b, h => by cases b <;> simp_all [same]
  | generic _ as, b, h => by
    cases b with
    | generic _ bs => simp only [same, Bool.and_eq_true, beq_iff_eq] at h
                      rw [h.1, eq_of_sameAll as bs h.2]
    | _ => simp [same] at h
  | array a _, b, h => by
    cases b with
    | array b _ => simp only [same, Bool.and_eq_true, beq_iff_eq] at h
                   rw [h.2, eq_of_same a b h.1]
    | _ => simp [same] at h
  | vector a, b, h => by
    cases b with
    | vector b => rw [eq_of_same a b (by simpa [same] using h)]
    | _ => simp [same] at h
  | pointer none, b, h => by
    cases b with
    | pointer b => cases b <;> simp_all [same]
    | _ => simp [same] at h
  | pointer (some a), b, h => by
    cases b with
    | pointer b =>
      cases b with
      | none => simp [same] at h
      | some b => rw [eq_of_same a b (by simpa [same] using h)]
    | _ => simp [same] at h
  | reference a, b, h => by
    cases b with
    | reference b => rw [eq_of_same a b (by simpa [same] using h)]
    | _ => simp [same] at h
  | pinned a, b, h => by
    cases b with
    | pinned b => rw [eq_of_same a b (by simpa [same] using h)]
    | _ => simp [same] at h
  | modified _ _ a, b, h => by
    cases b with
    | modified _ _ b => simp only [same, Bool.and_eq_true, beq_iff_eq] at h
                        rw [h.1.1, h.1.2, eq_of_same a b h.2]
    | _ => simp [same] at h
  | typeParameter _, b, h => by cases b <;> simp_all [same]
  | methodParameter _, b, h => by cases b <;> simp_all [same]
  | functionPointer _ _ _ r as, b, h => by
    cases b with
    | functionPointer _ _ _ q bs =>
      simp only [same, Bool.and_eq_true, beq_iff_eq] at h
      rw [h.1.1.1.1, h.1.1.1.2, h.1.1.2, eq_of_same r q h.1.2, eq_of_sameAll as bs h.2]
    | _ => simp [same] at h

theorem eq_of_sameAll : ∀ (as bs : List TypeSig), sameAll as bs = true → as = bs
  | [], [], _ => rfl
  | [], _ :: _, h => by simp [sameAll] at h
  | _ :: _, [], h => by simp [sameAll] at h
  | a :: as, b :: bs, h => by
    simp only [sameAll, Bool.and_eq_true] at h
    rw [eq_of_same a b h.1, eq_of_sameAll as bs h.2]

end

mutual

theorem same_self : ∀ a : TypeSig, same a a = true
  | primitive _ | named _ | typeParameter _ | methodParameter _ | pointer none => by simp [same]
  | generic _ as => by simp [same, sameAll_self as]
  | array a _ => by simp [same, same_self a]
  | vector a | pointer (some a) | reference a | pinned a => by simp [same, same_self a]
  | modified _ _ a => by simp [same, same_self a]
  | functionPointer _ _ _ r as => by simp [same, same_self r, sameAll_self as]

theorem sameAll_self : ∀ as : List TypeSig, sameAll as as = true
  | [] => rfl
  | a :: as => by simp [sameAll, same_self a, sameAll_self as]

end

instance : DecidableEq TypeSig := fun a b =>
  if h : same a b then .isTrue (eq_of_same a b h)
  else .isFalse fun e => h (e ▸ same_self a)

/-- The type without its custom modifiers and pins. -/
def unmodified : TypeSig → TypeSig
  | modified _ _ inner => inner.unmodified
  | pinned inner => inner.unmodified
  | t => t

/-- Whether only a signature, and no row of a definition or reference, can name the type. -/
def isStructural : TypeSig → Bool
  | generic .. | array .. | vector _ | pointer _ | reference _ | pinned _ | modified ..
  | typeParameter _ | methodParameter _ | functionPointer .. => true
  | primitive _ | named _ => false

end TypeSig

structure MethodSignature where
  isInstance : Bool := false
  explicitThis : Bool := false
  convention : CallingConvention := .default
  returnType : TypeSig := Primitive.void
  parameters : List TypeSig := []

namespace MethodSignature

def functionPointer (s : MethodSignature) : TypeSig :=
  .functionPointer s.isInstance s.explicitThis s.convention s.returnType s.parameters

def returnsVoid (s : MethodSignature) : Bool :=
  s.returnType.unmodified.primitive? == some .void

end MethodSignature
end Cil
