import Cil.Proofs.FieldsTold
import Cil.Proofs.Runs

/-!
The types of attribute arguments. All that is written of a declared type is an `ArgumentType`, which its
code tells. Where any object can stand a value has the code of its own type in front; elsewhere it `Owns`
the declared type. So two values that can stand in one place, after what goes in front of them, are `Kin`.
-/

namespace Cil

open Cil.Except

/-- A type of arguments: all that is written of a declared type. -/
inductive ArgumentType
  | object
  | type
  | primitive (p : Primitive)
  | enumeration (id : TypeId)
  | vector (element : ArgumentType)
  deriving DecidableEq

namespace AttributeBlob

variable {v : AttributeValue} {a : ArgumentType} {bytes front bytes' : Bytes} {d t : TypeSig}

/-- The argument type that a declared type stands for, if arguments can be of it. -/
def argumentType (m : Module) : TypeSig → Option ArgumentType
  | .modified _ _ inner => argumentType m inner
  | .pinned inner => argumentType m inner
  | .primitive .object => some .object
  | .primitive p => if isArgument p then some (.primitive p) else none
  | .vector element => (argumentType m element).map .vector
  | .named id =>
    match m.typeInfo id with
    | .ok t =>
      if t.kind = .enum then some (.enumeration id)
      else if t.fullName = "System.Type" then some .type
      else none
    | .error _ => none
  | _ => none

/-- Types that are the same but for modifiers, or stand for one argument type. -/
def Alike (m : Module) (t t' : TypeSig) : Prop :=
  t.unmodified = t'.unmodified ∨ ∃ a, argumentType m t = some a ∧ argumentType m t' = some a

/-- The type that arrays of arrays of a type hold in the end, if it has a name. -/
def namedTypes : TypeSig → List TypeId
  | .modified _ _ inner | .pinned inner | .vector inner => namedTypes inner
  | .named id => [id]
  | _ => []

/-- The type is an enumeration with the given name. -/
def IsEnumeration (m : Module) (id : TypeId) (name : String) : Prop :=
  (∃ t, m.typeInfo id = .ok t ∧ t.kind = .enum) ∧ TypeName.serialized m (.named id) = .ok name

/-- The enumerations among some types have instance fields, which say of which type their values are, are
not mistaken for `System.Type`, and are told by names that are not too long. -/
structure Clear (m : Module) (ids : List TypeId) : Prop where
  field : ∀ id ∈ ids, ∀ t, m.typeInfo id = .ok t → t.kind = .enum → ∃ f ∈ t.fields, f.isStatic = false
  apart : ∀ id ∈ ids, ∀ t, m.typeInfo id = .ok t → t.kind = .enum → t.fullName ≠ "System.Type"
  short : ∀ id ∈ ids, ∀ name, IsEnumeration m id name → name.utf8ByteSize < 0x100000000
  distinct : ∀ id ∈ ids, ∀ id' ∈ ids, ∀ name, IsEnumeration m id name → IsEnumeration m id' name →
    id = id'

open Bytes

theorem tell_text {s s' : Option String} (here : text s = .ok bytes) (there : text s' = .ok bytes')
    (short : ∀ t ∈ s, t.utf8ByteSize < 0x100000000)
    (short' : ∀ t ∈ s', t.utf8ByteSize < 0x100000000) : Tell bytes bytes' (s = s') := by
  have joined {s : Option String} {bytes : Bytes} (h : text s = .ok bytes) :
      Field.join (serializedText s) = .ok bytes := by
    rw [text] at h
    cases written : Field.join (serializedText s) with
    | error e => rw [written] at h; cases h
    | ok list => rw [written] at h; cases h; rfl
  exact (Field.tell_serializedText short short').bytes (joined here) (joined there)

def code (m : Module) : ArgumentType → Except Error Bytes
  | .object => return [boxedTag]
  | .type => return [typeTag]
  | .primitive p => return [p.elementType]
  | .enumeration id => enumType m id
  | .vector element => return ElementType.vector :: (← code m element)

theorem declaredType_eq_ok {m : Module} (h : declaredType m t = .ok bytes) :
    ∃ a, argumentType m t = some a ∧ code m a = .ok bytes := by
  fun_induction declaredType m t generalizing bytes with
  | case1 _ _ inner ih | case2 inner ih =>
    rw [argumentType]
    exact ih h
  | case3 => exact ⟨.object, rfl, h⟩
  | case4 p different argument =>
    refine ⟨.primitive p, ?_, h⟩
    rw [argumentType, if_pos argument]
    exact different
  | case5 => cases h
  | case6 element ih =>
    obtain ⟨code, inner, rest⟩ := bind_eq_ok.1 h
    obtain ⟨a, known, written⟩ := ih inner
    refine ⟨.vector a, ?_, ?_⟩
    · rw [argumentType, known]
      rfl
    · rw [AttributeBlob.code, written]
      exact rest
  | case7 id =>
    obtain ⟨t, found, rest⟩ := bind_eq_ok.1 h
    split at rest
    case isTrue isEnum =>
      refine ⟨.enumeration id, ?_, rest⟩
      simp only [argumentType, found, isEnum, if_true]
    case isFalse isEnum =>
      split at rest
      case isTrue isType =>
        refine ⟨.type, ?_, rest⟩
        simp only [argumentType, found, isEnum, isType, if_true, if_false]
      case isFalse => cases rest
  | case8 => cases h

def tag : ArgumentType → UInt8
  | .object => boxedTag
  | .type => typeTag
  | .primitive p => p.elementType
  | .enumeration _ => enumTag
  | .vector _ => ElementType.vector

theorem enumType_eq_ok {m : Module} {id : TypeId} (h : enumType m id = .ok bytes) :
    ∃ name more, TypeName.serialized m (.named id) = .ok name ∧ text (some name) = .ok more ∧
      bytes = [enumTag] ++ more := by
  obtain ⟨name, named, rest⟩ := bind_eq_ok.1 h
  obtain ⟨more, written, last⟩ := bind_eq_ok.1 rest
  cases last
  exact ⟨name, more, named, written, rfl⟩

theorem exists_code {m : Module} (h : code m a = .ok bytes) : ∃ more, bytes = tag a :: more := by
  cases a with
  | object | type | primitive p =>
    cases h
    exact ⟨[], rfl⟩
  | enumeration id =>
    obtain ⟨_, more, _, _, whole⟩ := enumType_eq_ok h
    exact ⟨more, whole⟩
  | vector element =>
    obtain ⟨inner, -, last⟩ := bind_eq_ok.1 h
    cases last
    exact ⟨inner, rfl⟩

/-- The ways in which an argument type is made. -/
inductive Kind
  | object | type | primitive | enumeration | vector
  deriving DecidableEq

def kind : ArgumentType → Kind
  | .object => .object
  | .type => .type
  | .primitive _ => .primitive
  | .enumeration _ => .enumeration
  | .vector _ => .vector

def Kind.ofTag (b : UInt8) : Kind :=
  ([(boxedTag, object), (typeTag, type), (enumTag, enumeration), (ElementType.vector, vector)].lookup
    b).getD primitive

theorem ofTag_tag (a : ArgumentType) : Kind.ofTag (tag a) = kind a := by
  cases a with
  | primitive p => cases p <;> rfl
  | _ => rfl

theorem elementType_injective : Function.Injective Primitive.elementType := by
  let all : List Primitive := [.void, .boolean, .char, .int8, .uint8, .int16, .uint16, .int32, .uint32,
    .int64, .uint64, .float32, .float64, .intPtr, .uintPtr, .object, .string, .typedReference]
  have back (p : Primitive) : all.find? (·.elementType == p.elementType) = some p := by
    cases p <;> rfl
  intro p q same
  have found := back p
  rw [same, back q] at found
  exact (Option.some.inj found).symm

variable {m : Module} {ids : List TypeId} {id : TypeId} {a' : ArgumentType} {v' : AttributeValue}

/-- The enumerations of an argument type are such, and are among some types. -/
def Known (m : Module) (ids : List TypeId) : ArgumentType → Prop
  | .object | .type | .primitive _ => True
  | .enumeration id => id ∈ ids ∧ ∃ t, m.typeInfo id = .ok t ∧ t.kind = .enum
  | .vector element => Known m ids element

theorem tell_enumType (clear : Clear m ids) {id' : TypeId} (known : Known m ids (.enumeration id))
    (known' : Known m ids (.enumeration id')) (here : enumType m id = .ok bytes)
    (there : enumType m id' = .ok bytes') : Tell bytes bytes' (id = id') := by
  obtain ⟨name, more, named, written, rfl⟩ := enumType_eq_ok here
  obtain ⟨name', more', named', written', rfl⟩ := enumType_eq_ok there
  have is : IsEnumeration m id name := ⟨known.2, named⟩
  have is' : IsEnumeration m id' name' := ⟨known'.2, named'⟩
  have names : Tell more more' (some name = some name') :=
    tell_text written written' (by simpa using clear.short id known.1 name is)
      (by simpa using clear.short id' known'.1 name' is')
  apply ((tell_of_length rfl).append fun _ => names).imp
  rintro ⟨-, same⟩
  obtain rfl := Option.some.inj same
  exact clear.distinct id known.1 id' known'.1 name is is'

theorem tell_of_kind_ne (here : code m a = .ok bytes) (there : code m a' = .ok bytes')
    (different : kind a ≠ kind a') {p : Prop} : Tell bytes bytes' p := by
  obtain ⟨more, rfl⟩ := exists_code here
  obtain ⟨more', rfl⟩ := exists_code there
  apply tell_of_ne
  intro same
  rw [← ofTag_tag, ← ofTag_tag, same] at different
  exact different rfl

theorem tell_code (clear : Clear m ids) (known : Known m ids a) (known' : Known m ids a')
    (here : code m a = .ok bytes) (there : code m a' = .ok bytes') : Tell bytes bytes' (a = a') := by
  induction a generalizing a' bytes bytes' <;> cases a' <;>
    try (refine tell_of_kind_ne here there ?_; simp [kind]; done)
  case object.object | type.type =>
    cases here
    cases there
    exact (tell_of_length rfl).imp fun _ => rfl
  case primitive.primitive p q =>
    cases here
    cases there
    have front : Tell [p.elementType] [q.elementType] _ := tell_of_length rfl
    apply front.imp
    intro same
    rw [elementType_injective (List.cons.inj same).1]
  case enumeration.enumeration id id' =>
    apply (tell_enumType clear known known' here there).imp
    intro same
    rw [same]
  case vector.vector element ih element' =>
    obtain ⟨inner, written, last⟩ := bind_eq_ok.1 here
    obtain ⟨inner', written', last'⟩ := bind_eq_ok.1 there
    cases last
    cases last'
    have front : Tell [ElementType.vector] [ElementType.vector] _ := tell_of_length rfl
    have behind : Tell inner inner' (element = element') := ih known known' written written'
    apply (front.append fun _ => behind).imp
    rintro ⟨-, same⟩
    rw [same]

theorem known_of_argumentType (h : argumentType m t = some a) (named : namedTypes t ⊆ ids) :
    Known m ids a := by
  fun_induction argumentType m t generalizing a with
  | case1 _ _ inner ih | case2 inner ih => exact ih h (by rwa [namedTypes] at named)
  | case3 | case4 =>
    cases h
    trivial
  | case6 element ih =>
    obtain ⟨inner, known, rfl⟩ := Option.map_eq_some_iff.1 h
    have element : Known m ids inner := ih known (by rwa [namedTypes] at named)
    exact element
  | case7 id t found isEnum =>
    cases h
    exact ⟨named (List.mem_singleton_self id), t, found, isEnum⟩
  | case8 =>
    cases h
    trivial
  | case5 | case9 | case10 | case11 => cases h

/-- The type that a value carries where any object can stand. -/
inductive Owns (m : Module) : AttributeValue → ArgumentType → Prop
  | scalar {v : Scalar} {p : Primitive} (same : v.type = p) : Owns m (.scalar v) (.primitive p)
  | string (s : Option String) : Owns m (.string s) (.primitive .string)
  | type (t : Option TypeSig) : Owns m (.type t) .type
  | enumeration (id : TypeId) (u : AttributeValue) : Owns m (.enumeration id u) (.enumeration id)
  | array {e : TypeSig} {a : ArgumentType} (element : argumentType m e = some a)
      (items : Option (List AttributeValue)) : Owns m (.array e items) (.vector a)

theorem ownType_eq_ok (h : ownType m v = .ok bytes) : ∃ a, Owns m v a ∧ code m a = .ok bytes := by
  cases v with
  | scalar v => exact ⟨.primitive v.type, .scalar rfl, h⟩
  | string s => exact ⟨.primitive .string, .string s, h⟩
  | type t => exact ⟨.type, .type t, h⟩
  | enumeration id underlying => exact ⟨.enumeration id, .enumeration id underlying, h⟩
  | array element items =>
    obtain ⟨inner, declared, last⟩ := bind_eq_ok.1 h
    obtain ⟨a, known, written⟩ := declaredType_eq_ok declared
    refine ⟨.vector a, .array known items, ?_⟩
    rw [code, written]
    exact last

/-- Values of one type, as far as arguments have types. -/
inductive Kin (m : Module) : AttributeValue → AttributeValue → Prop
  | scalar {v v' : Scalar} (same : v.type = v'.type) : Kin m (.scalar v) (.scalar v')
  | string (s s' : Option String) : Kin m (.string s) (.string s')
  | type (t t' : Option TypeSig) : Kin m (.type t) (.type t')
  | enumeration (id : TypeId) (u u' : AttributeValue) : Kin m (.enumeration id u) (.enumeration id u')
  | array {e e' : TypeSig} (element : Alike m e e') (items items' : Option (List AttributeValue)) :
      Kin m (.array e items) (.array e' items')

theorem type_ne_string (v : Scalar) : v.type ≠ .string := by
  intro same
  cases v <;> cases same

theorem Owns.kin (here : Owns m v a) (there : Owns m v' a) : Kin m v v' := by
  cases here with
  | scalar same =>
    cases there with
    | scalar same' => exact .scalar (same.trans same'.symm)
    | string s' => exact absurd same (type_ne_string _)
  | string s =>
    cases there with
    | scalar same' => exact absurd same' (type_ne_string _)
    | string s' => exact .string s s'
  | type t =>
    cases there with
    | type t' => exact .type t t'
  | enumeration id u =>
    cases there with
    | enumeration _ u' => exact .enumeration id u u'
  | array element items =>
    cases there with
    | array element' items' => exact .array (.inr ⟨_, element, element'⟩) items items'

theorem owns_of_isOfPrimitive (h : isOfPrimitive t v) :
    ∃ p, t = .primitive p ∧ Owns m v (.primitive p) := by
  cases v with
  | scalar v => exact ⟨v.type, beq_iff_eq.1 h, .scalar rfl⟩
  | string s => exact ⟨.string, beq_iff_eq.1 h, .string s⟩
  | _ => cases h

theorem kin_of_isOfPrimitive (here : isOfPrimitive t v) (there : isOfPrimitive t v') : Kin m v v' := by
  obtain ⟨p, rfl, owns⟩ := owns_of_isOfPrimitive (m := m) here
  obtain ⟨p', same, owns'⟩ := owns_of_isOfPrimitive (m := m) there
  cases same
  exact owns.kin owns'

/-- How a type lets a value stand in its place, and what goes in front of the value. -/
inductive Accepts (m : Module) : TypeSig → AttributeValue → Bytes → Prop
  | boxed {v : AttributeValue} {front : Bytes} (own : ownType m v = .ok front) :
      Accepts m (.primitive .object) v front
  | array {e i : TypeSig} (same : i.unmodified = e.unmodified) (items : Option (List AttributeValue)) :
      Accepts m (.vector e) (.array i items) []
  | enumeration {id : TypeId} {t : TypeInfo} (info : m.typeInfo id = .ok t) (isEnum : t.kind = .enum)
      (u : AttributeValue) : Accepts m (.named id) (.enumeration id u) []
  | type {id : TypeId} {t : TypeInfo} (info : m.typeInfo id = .ok t)
    (isType : t.fullName = "System.Type")
      (v : Option TypeSig) : Accepts m (.named id) (.type v) []
  | primitive {p : Primitive} {v : AttributeValue} (owns : Owns m v (.primitive p)) :
      Accepts m (.primitive p) v []

theorem accepts_of_accept (h : accept m d v = .ok front) : Accepts m d.unmodified v front := by
  simp only [accept] at h
  split at h
  case h_1 whole =>
    rw [whole]
    exact .boxed h
  case h_2 element itemType items whole =>
    rw [whole]
    split at h
    case isTrue same =>
      cases h
      exact .array same items
    case isFalse => cases h
  case h_3 id whole =>
    rw [whole]
    obtain ⟨t, info, rest⟩ := bind_eq_ok.1 h
    split at rest
    case h_1 e u =>
      split at rest
      case isTrue both =>
        cases rest
        obtain ⟨rfl, isEnum⟩ := both
        exact .enumeration info isEnum u
      case isFalse => cases rest
    case h_2 v =>
      split at rest
      case isTrue isType =>
        cases rest
        exact .type info isType v
      case isFalse => cases rest
    case h_3 => cases rest
  case h_4 =>
    split at h
    case isTrue fits =>
      cases h
      obtain ⟨p, whole, owns⟩ := owns_of_isOfPrimitive (m := m) fits
      rw [whole]
      exact .primitive owns
    case isFalse => cases h

theorem unmodified_eq {α : Type} {f : TypeSig → α} (t : TypeSig)
    (modified : ∀ modifier required inner, f (.modified modifier required inner) = f inner)
    (pinned : ∀ inner, f (.pinned inner) = f inner) : f t.unmodified = f t := by
  fun_induction TypeSig.unmodified t with
  | case1 modifier required inner ih => rw [ih, modified]
  | case2 inner ih => rw [ih, pinned]
  | case3 => rfl

theorem argumentType_unmodified (t : TypeSig) : argumentType m t.unmodified = argumentType m t :=
  unmodified_eq t (fun _ _ _ => by rw [argumentType]) fun _ => by rw [argumentType]

theorem namedTypes_unmodified (t : TypeSig) : namedTypes t.unmodified = namedTypes t :=
  unmodified_eq t (fun _ _ _ => by rw [namedTypes]) fun _ => by rw [namedTypes]

theorem argumentType_congr {t' : TypeSig} (same : t.unmodified = t'.unmodified) :
    argumentType m t = argumentType m t' := by
  rw [← argumentType_unmodified, same, argumentType_unmodified]

theorem argumentType_named {t : TypeInfo} (info : m.typeInfo id = .ok t) :
    argumentType m (.named id) =
      if t.kind = .enum then some (.enumeration id)
      else if t.fullName = "System.Type" then some .type
      else none := by
  simp only [argumentType, info]

theorem argumentType_of_owns {p : Primitive} (h : Owns m v (.primitive p)) :
    argumentType m (.primitive p) = some (.primitive p) := by
  cases h with
  | @scalar v p same => cases v <;> (cases same; rfl)
  | string => rfl

/-- Where the type is one of arguments, the value is of that type, or has its own type in front. -/
theorem Accepts.owns (clear : Clear m ids) (h : Accepts m d v front)
    (known : argumentType m d = some a) (named : namedTypes d ⊆ ids) :
    a = .object ∧ ownType m v = .ok front ∨ Owns m v a ∧ front = [] := by
  cases h with
  | boxed own =>
    cases known
    exact .inl ⟨rfl, own⟩
  | @array e i same items =>
    rw [argumentType] at known
    obtain ⟨inner, element, rfl⟩ := Option.map_eq_some_iff.1 known
    rw [← argumentType_congr same] at element
    exact .inr ⟨.array element items, rfl⟩
  | @enumeration id t info isEnum u =>
    rw [argumentType_named info, if_pos isEnum] at known
    cases known
    exact .inr ⟨.enumeration id u, rfl⟩
  | @type id t info isType v =>
    have noEnum : t.kind ≠ .enum := fun isEnum =>
      clear.apart id (named (List.mem_singleton_self id)) t info isEnum isType
    rw [argumentType_named info, if_neg noEnum, if_pos isType] at known
    cases known
    exact .inr ⟨.type v, rfl⟩
  | primitive owns =>
    rw [argumentType_of_owns owns] at known
    cases known
    exact .inr ⟨owns, rfl⟩

theorem Accepts.array_of_none (h : Accepts m d v front) (unknown : argumentType m d = none) :
    ∃ e i items, d = .vector e ∧ v = .array i items ∧ i.unmodified = e.unmodified ∧ front = [] := by
  cases h with
  | boxed => cases unknown
  | @array e i same items => exact ⟨e, i, items, rfl, rfl, same, rfl⟩
  | enumeration info isEnum =>
    rw [argumentType_named info, if_pos isEnum] at unknown
    cases unknown
  | type info isType =>
    rw [argumentType_named info, if_pos isType] at unknown
    split at unknown <;> cases unknown
  | primitive owns =>
    rw [argumentType_of_owns owns] at unknown
    cases unknown

end AttributeBlob
end Cil
