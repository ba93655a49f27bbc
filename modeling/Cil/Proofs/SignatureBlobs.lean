import Cil.Model.TypeSig
import Cil.Proofs.FieldsTold

/-!
Signatures are known by their bytes. The first byte of a type tells which type it is, and each field behind
it tells its number or its row; so, part by part, the bytes of a signature tell all of it. Only a pointer to
anything and a pointer to `void` are written alike.
-/

namespace Cil

open List Option
variable {pointee : Option ResolvedType}

namespace ResolvedType

variable {ts vs vs' : List ResolvedType} {t inner inner' : ResolvedType} {p : Prop}
  {ps ps' : List ResolvedType} {c c' : UInt8} {arity arity' : Nat}

mutual

def plain : ResolvedType → ResolvedType
  | pointer none => pointer (some (element ElementType.void))
  | pointer (some pointee) => pointer (some (plain pointee))
  | generic isValueType template arguments => generic isValueType template (plainAll arguments)
  | array inner rank sizes lowerBounds => array (plain inner) rank sizes lowerBounds
  | vector inner => vector (plain inner)
  | byRef inner => byRef (plain inner)
  | pinned inner => pinned (plain inner)
  | modified required modifier inner => modified required modifier (plain inner)
  | functionPointer convention genericArity returnType parameters varArgs =>
    functionPointer convention genericArity (plain returnType) (plainAll parameters) (plainAll varArgs)
  | element tag => element tag
  | reference row => reference row
  | valueType row => valueType row
  | typeParameter number => typeParameter number
  | methodParameter number => methodParameter number

def plainAll : List ResolvedType → List ResolvedType
  | [] => []
  | t :: ts => plain t :: plainAll ts

end

mutual

/-- A type that signatures can hold: its tags are those of primitive types, its rows have numbers, its
lists can be counted, and only what is generic has a number of type parameters. -/
def Valid : ResolvedType → Prop
  | element tag => ∃ p : Primitive, tag = p.elementType
  | reference row | valueType row => row = .null ∨ 1 ≤ row.number
  | generic _ template arguments =>
    (template = .null ∨ 1 ≤ template.number) ∧ arguments.length < 0x100000000 ∧ ValidAll arguments
  | array inner _ sizes lowerBounds =>
    Valid inner ∧ sizes.length < 0x100000000 ∧ lowerBounds.length < 0x100000000
  | vector inner | byRef inner | pinned inner | pointer (some inner) => Valid inner
  | modified _ modifier inner => (modifier = .null ∨ 1 ≤ modifier.number) ∧ Valid inner
  | pointer none | typeParameter _ | methodParameter _ => True
  | functionPointer convention genericArity returnType parameters varArgs =>
    (convention &&& Convention.generic = 0 → genericArity = 0) ∧
      parameters.length + varArgs.length < 0x100000000 ∧ Valid returnType ∧ ValidAll parameters ∧
      ValidAll varArgs

def ValidAll : List ResolvedType → Prop
  | [] => True
  | t :: ts => Valid t ∧ ValidAll ts

end

attribute [local simp] plain plainAll Valid ValidAll fields fieldsAll

def parts : ResolvedType → List ResolvedType
  | generic _ _ arguments => arguments
  | array inner _ _ _ | vector inner | byRef inner | pinned inner | modified _ _ inner => [inner]
  | pointer pointee => pointee.toList
  | functionPointer _ _ returnType parameters varArgs => returnType :: parameters ++ varArgs
  | element _ | reference _ | valueType _ | typeParameter _ | methodParameter _ => []

theorem sizeOf_lt_of_mem_parts {u : ResolvedType} (h : u ∈ t.parts) : sizeOf u < sizeOf t := by
  cases t with
  | generic isValueType template arguments =>
    have := sizeOf_lt_of_mem (show u ∈ arguments from h)
    simp only [generic.sizeOf_spec]
    omega
  | array inner | vector inner | byRef inner | pinned inner | modified required modifier inner =>
    obtain rfl := mem_singleton.1 h
    simp only [array.sizeOf_spec, vector.sizeOf_spec, byRef.sizeOf_spec, pinned.sizeOf_spec,
      modified.sizeOf_spec]
    omega
  | pointer pointee =>
    obtain rfl := mem_toList.1 h
    simp only [pointer.sizeOf_spec, Option.some.sizeOf_spec]
    omega
  | functionPointer convention genericArity returnType parameters varArgs =>
    simp only [functionPointer.sizeOf_spec]
    simp only [parts, mem_append, mem_cons] at h
    rcases h with (rfl | h) | h
    · omega
    · have := sizeOf_lt_of_mem h
      omega
    · have := sizeOf_lt_of_mem h
      omega
  | element | reference | valueType | typeParameter | methodParameter => cases h

theorem of_parts {P : ResolvedType → Prop} (h : ∀ t, (∀ u ∈ t.parts, P u) → P t) (t : ResolvedType) :
    P t :=
  h t fun u _ => of_parts h u
termination_by sizeOf t
decreasing_by exact sizeOf_lt_of_mem_parts ‹_›

def firstByte : ResolvedType → UInt8
  | element tag => tag
  | reference _ => ElementType.reference
  | valueType _ => ElementType.valueType
  | generic .. => ElementType.genericInstance
  | array .. => ElementType.array
  | vector _ => ElementType.vector
  | pointer _ => ElementType.pointer
  | byRef _ => ElementType.byRef
  | pinned _ => ElementType.pinned
  | modified required .. =>
    if required then ElementType.requiredModifier else ElementType.optionalModifier
  | typeParameter _ => ElementType.typeParameter
  | methodParameter _ => ElementType.methodParameter
  | functionPointer .. => ElementType.functionPointer

theorem exists_fields (t : ResolvedType) : ∃ more, t.fields = .byte t.firstByte :: more := by
  cases t with
  | pointer pointee => cases pointee <;> exact ⟨_, by rw [fields]; rfl⟩
  | _ => exact ⟨_, by rw [fields]; rfl⟩

/-- The ways in which a type is made. -/
inductive Form
  | element | reference | valueType | generic | array | vector | pointer | byRef | pinned | modified
  | typeParameter | methodParameter | functionPointer
  deriving DecidableEq

def form : ResolvedType → Form
  | element _ => .element
  | reference _ => .reference
  | valueType _ => .valueType
  | generic .. => .generic
  | array .. => .array
  | vector _ => .vector
  | pointer _ => .pointer
  | byRef _ => .byRef
  | pinned _ => .pinned
  | modified .. => .modified
  | typeParameter _ => .typeParameter
  | methodParameter _ => .methodParameter
  | functionPointer .. => .functionPointer

def Form.ofByte (b : UInt8) : Form :=
  ([(ElementType.reference, reference), (ElementType.valueType, valueType),
    (ElementType.genericInstance, generic), (ElementType.array, array), (ElementType.vector, vector),
    (ElementType.pointer, pointer), (ElementType.byRef, byRef), (ElementType.pinned, pinned),
    (ElementType.requiredModifier, modified), (ElementType.optionalModifier, modified),
    (ElementType.typeParameter, typeParameter), (ElementType.methodParameter, methodParameter),
    (ElementType.functionPointer, functionPointer)].lookup b).getD element

theorem ofByte_firstByte (valid : t.Valid) : Form.ofByte t.firstByte = t.form := by
  cases t with
  | element tag =>
    rw [Valid] at valid
    obtain ⟨p, rfl⟩ := valid
    cases p <;> rfl
  | modified required => cases required <;> rfl
  | _ => rfl

theorem firstByte_ne_sentinel (valid : t.Valid) : t.firstByte ≠ ElementType.sentinel := by
  cases t with
  | element tag =>
    rw [Valid] at valid
    obtain ⟨p, rfl⟩ := valid
    cases p <;> decide
  | modified required => cases required <;> simp [firstByte] <;> decide
  | _ => simp [firstByte]; decide

open Cil.Field

theorem tell_of_form_ne {t' : ResolvedType} (valid : t.Valid) (valid' : t'.Valid)
    (different : t.form ≠ t'.form) : Tell t.fields t'.fields p := by
  obtain ⟨more, here⟩ := t.exists_fields
  obtain ⟨more', there⟩ := t'.exists_fields
  rw [here, there]
  apply tell_of_byte_ne
  intro same
  rw [← ofByte_firstByte valid, ← ofByte_firstByte valid', same] at different
  exact different rfl

/-- The bytes of the type tell it, as far as they do. -/
def Told (t : ResolvedType) : Prop :=
  ∀ t' : ResolvedType, t.Valid → t'.Valid → Tell t.fields t'.fields (t.plain = t'.plain)

theorem tell_fieldsAll {ts' : List ResolvedType} (each : ∀ t ∈ ts, Told t) (valid : ValidAll ts)
    (valid' : ValidAll ts') (length : ts.length = ts'.length) :
    Tell (fieldsAll ts) (fieldsAll ts') (plainAll ts = plainAll ts') := by
  induction ts generalizing ts' with
  | nil =>
    cases ts' with
    | nil => exact Tell.nil.imp fun _ => rfl
    | cons t' ts' => cases length
  | cons t ts ih =>
    cases ts' with
    | nil => cases length
    | cons t' ts' =>
      rw [ValidAll] at valid valid'
      obtain ⟨first, others⟩ := forall_mem_cons.1 each
      rw [fieldsAll, fieldsAll, plainAll, plainAll]
      apply ((first t' valid.1 valid'.1).append
        fun _ => ih others valid.2 valid'.2 (Nat.succ.inj length)).imp
      rintro ⟨same, rest⟩
      rw [same, rest]

theorem sentinelFields_of_ne_nil (h : ts ≠ []) :
    sentinelFields ts = .byte ElementType.sentinel :: fieldsAll ts := by
  cases ts with
  | nil => exact absurd rfl h
  | cons t ts => rw [sentinelFields, fieldsAll]

theorem tell_of_parameter (valid : t.Valid) (some : vs ≠ []) {more : List Field} :
    Tell (t.fields ++ more) (sentinelFields vs) p := by
  obtain ⟨others, here⟩ := t.exists_fields
  rw [here, sentinelFields_of_ne_nil some]
  exact tell_of_byte_ne (firstByte_ne_sentinel valid)

theorem tell_sentinelFields (each : ∀ t ∈ vs, Told t) (valid : ValidAll vs) (valid' : ValidAll vs')
    (length : vs.length = vs'.length) :
    Tell (sentinelFields vs) (sentinelFields vs') (plainAll vs = plainAll vs') := by
  by_cases none : vs = []
  · subst none
    rw [eq_nil_of_length_eq_zero length.symm, sentinelFields]
    exact Tell.nil.imp fun _ => rfl
  · have none' : vs' ≠ [] := by
      rintro rfl
      exact none (eq_nil_of_length_eq_zero length)
    rw [sentinelFields_of_ne_nil none, sentinelFields_of_ne_nil none']
    exact ((tell_byte _ _).cons fun _ => tell_fieldsAll each valid valid' length).imp And.right

/-- The arguments of a method are one counted list, with the sentinel in front of some of them. -/
theorem tell_arguments (eachParameter : ∀ t ∈ ps, Told t) (eachMore : ∀ t ∈ vs, Told t)
    (valid : ValidAll ps) (validMore : ValidAll vs) (valid' : ValidAll ps')
    (validMore' : ValidAll vs') (length : ps.length + vs.length = ps'.length + vs'.length) :
    Tell (fieldsAll ps ++ sentinelFields vs) (fieldsAll ps' ++ sentinelFields vs')
      (plainAll ps = plainAll ps' ∧ plainAll vs = plainAll vs') := by
  induction ps generalizing ps' with
  | nil =>
    cases ps' with
    | nil =>
      simp only [length_nil, Nat.zero_add] at length
      simp only [fieldsAll, nil_append, true_and]
      exact tell_sentinelFields eachMore validMore validMore' length
    | cons t' ps' =>
      have some : vs ≠ [] := by
        rintro rfl
        simp only [length_nil, length_cons] at length
        omega
      rw [fieldsAll, fieldsAll, nil_append, append_assoc]
      exact (tell_of_parameter valid'.1 some).symm
  | cons t ps ih =>
    cases ps' with
    | nil =>
      have some : vs' ≠ [] := by
        rintro rfl
        simp only [length_nil, length_cons] at length
        omega
      rw [fieldsAll, fieldsAll, nil_append, append_assoc]
      exact tell_of_parameter valid.1 some
    | cons t' ps' =>
      obtain ⟨first, others⟩ := forall_mem_cons.1 eachParameter
      simp only [length_cons] at length
      have behind := ih others valid.2 valid'.2 (by omega)
      rw [fieldsAll, fieldsAll, append_assoc, append_assoc, plainAll, plainAll]
      apply ((first t' valid.1 valid'.1).append fun _ => behind).imp
      rintro ⟨same, rest, more⟩
      rw [same, rest]
      exact ⟨rfl, more⟩

theorem tell_conventionFields {n n' : Nat} (plain : c &&& Convention.generic = 0 → arity = 0)
    (plain' : c' &&& Convention.generic = 0 → arity' = 0) (small : n < 0x100000000)
    (small' : n' < 0x100000000) :
    Tell (conventionFields c arity n) (conventionFields c' arity' n')
      (c = c' ∧ arity = arity' ∧ n = n') := by
  refine (tell_byte c c').cons ?_
  rintro rfl
  by_cases bit : c &&& Convention.generic = 0
  · simp only [bit, bne_self_eq_false, Bool.false_eq_true, if_false, nil_append, plain bit,
      plain' bit, true_and]
    exact tell_count small small'
  · simp only [bne_iff_ne, ne_eq, bit, not_false_eq_true, if_true]
    exact (tell_unsigned arity arity').append fun _ => tell_count small small'

theorem tell_signature {r r' : ResolvedType} (valid : (functionPointer c arity r ps vs).Valid)
    (valid' : (functionPointer c' arity' r' ps' vs').Valid)
    (each : ∀ t ∈ (functionPointer c arity r ps vs).parts, Told t) :
    Tell
      (conventionFields c arity (ps.length + vs.length) ++ r.fields ++ fieldsAll ps ++
        sentinelFields vs)
      (conventionFields c' arity' (ps'.length + vs'.length) ++ r'.fields ++ fieldsAll ps' ++
        sentinelFields vs')
      ((functionPointer c arity r ps vs).plain = (functionPointer c' arity' r' ps' vs').plain) := by
  rw [Valid] at valid valid'
  obtain ⟨generic, small, validResult, validParameters, validMore⟩ := valid
  obtain ⟨generic', small', validResult', validParameters', validMore'⟩ := valid'
  simp only [parts, forall_mem_append, forall_mem_cons] at each
  obtain ⟨⟨result, parameters⟩, more⟩ := each
  simp only [append_assoc]
  apply ((tell_conventionFields generic generic' small small').append fun known =>
    (result r' validResult validResult').append fun _ =>
      tell_arguments parameters more validParameters validMore validParameters' validMore'
        known.2.2).imp
  rintro ⟨⟨rfl, rfl, -⟩, sameResult, sameParameters, sameMore⟩
  simp only [plain, sameResult, sameParameters, sameMore]

theorem tell_wrapped (each : Told inner) (valid : inner.Valid) (valid' : inner'.Valid) (b : UInt8) :
    Tell (.byte b :: inner.fields) (.byte b :: inner'.fields) (inner.plain = inner'.plain) :=
  ((tell_byte b b).cons fun _ => each inner' valid valid').imp And.right

theorem told_element (tag : UInt8) : Told (element tag) := by
  intro t' valid valid'
  by_cases same : (element tag).form = t'.form
  · cases t' with
    | element tag' =>
      simp only [fields, plain, element.injEq]
      exact tell_byte tag tag'
    | _ => cases same
  · exact tell_of_form_ne valid valid' same

theorem fields_pointer (pointee : Option ResolvedType) :
    (pointer pointee).fields =
      .byte ElementType.pointer :: (pointee.getD (element ElementType.void)).fields := by
  cases pointee with
  | none => simp only [fields, getD_none]
  | some t => rw [fields, getD_some]

theorem plain_pointer (pointee : Option ResolvedType) :
    (pointer pointee).plain = pointer (some (pointee.getD (element ElementType.void)).plain) := by
  cases pointee with
  | none => simp only [plain, getD_none]
  | some t => rw [plain, getD_some]

theorem valid_pointee (valid : (pointer pointee).Valid) :
    (pointee.getD (element ElementType.void)).Valid := by
  cases pointee with
  | none =>
    rw [getD_none, Valid]
    exact ⟨.void, rfl⟩
  | some t => rwa [Valid] at valid

theorem tell_pointer {pointee' : Option ResolvedType} (valid : (pointer pointee).Valid)
    (valid' : (pointer pointee').Valid) (each : ∀ t ∈ pointee.toList, Told t) :
    Tell (pointer pointee).fields (pointer pointee').fields
      ((pointer pointee).plain = (pointer pointee').plain) := by
  have known : Told (pointee.getD (element ElementType.void)) := by
    cases pointee with
    | none => exact told_element _
    | some t => exact each t (mem_singleton_self t)
  rw [fields_pointer, fields_pointer, plain_pointer, plain_pointer]
  simp only [pointer.injEq, Option.some.injEq]
  exact tell_wrapped known (valid_pointee valid) (valid_pointee valid') _

theorem tell_array {rank rank' : Nat} {sizes sizes' : List Nat} {bounds bounds' : List Int}
    (valid : (array inner rank sizes bounds).Valid)
    (valid' : (array inner' rank' sizes' bounds').Valid) (each : Told inner) :
    Tell (array inner rank sizes bounds).fields (array inner' rank' sizes' bounds').fields
      ((array inner rank sizes bounds).plain = (array inner' rank' sizes' bounds').plain) := by
  rw [Valid] at valid valid'
  simp only [fields, append_assoc]
  apply ((tell_byte _ _).cons fun _ => (each inner' valid.1 valid'.1).append fun _ =>
    (tell_unsigned rank rank').cons fun _ => (tell_count valid.2.1 valid'.2.1).cons fun count =>
      (tell_map tell_unsigned count).append fun _ =>
        (tell_count valid.2.2 valid'.2.2).cons fun count => tell_map tell_signed count).imp
  rintro ⟨-, same, rfl, -, rfl, -, rfl⟩
  simp only [plain, same]

theorem tell_generic {isValueType isValueType' : Bool} {template template' : TypeDefOrRef}
    {arguments arguments' : List ResolvedType}
    (valid : (generic isValueType template arguments).Valid)
    (valid' : (generic isValueType' template' arguments').Valid)
    (each : ∀ t ∈ arguments, Told t) :
    Tell (generic isValueType template arguments).fields
      (generic isValueType' template' arguments').fields
      ((generic isValueType template arguments).plain =
        (generic isValueType' template' arguments').plain) := by
  have tag : Tell [classOrValue isValueType] [classOrValue isValueType'] (isValueType = isValueType') :=
    tell_choice (by decide) isValueType isValueType'
  rw [Valid] at valid valid'
  rw [fields, fields]
  apply ((tell_byte _ _).cons fun _ => tag.cons fun _ =>
    (tell_compressed valid.1 valid'.1).cons fun _ =>
    (tell_count valid.2.1 valid'.2.1).cons fun count =>
      tell_fieldsAll each valid.2.2 valid'.2.2 count).imp
  rintro ⟨-, rfl, rfl, -, same⟩
  simp only [plain, same]

theorem tell_modified {required required' : Bool} {modifier modifier' : TypeDefOrRef}
    (valid : (modified required modifier inner).Valid)
    (valid' : (modified required' modifier' inner').Valid) (each : Told inner) :
    Tell (modified required modifier inner).fields (modified required' modifier' inner').fields
      ((modified required modifier inner).plain = (modified required' modifier' inner').plain) := by
  rw [Valid] at valid valid'
  rw [fields, fields]
  apply ((tell_choice (by decide) required required').cons fun _ =>
    (tell_compressed valid.1 valid'.1).cons fun _ => each inner' valid.2 valid'.2).imp
  rintro ⟨rfl, rfl, same⟩
  simp only [plain, same]

theorem told (t : ResolvedType) : Told t := by
  induction t using of_parts with | h t each => ?_
  intro t' valid valid'
  by_cases same : t.form = t'.form
  · cases t with
    | element tag => exact told_element tag t' valid valid'
    | reference row =>
      cases t' with
      | reference row' =>
        rw [Valid] at valid valid'
        simp only [fields, plain, reference.injEq]
        exact ((tell_byte _ _).cons fun _ => tell_compressed valid valid').imp And.right
      | _ => cases same
    | valueType row =>
      cases t' with
      | valueType row' =>
        rw [Valid] at valid valid'
        simp only [fields, plain, valueType.injEq]
        exact ((tell_byte _ _).cons fun _ => tell_compressed valid valid').imp And.right
      | _ => cases same
    | typeParameter number =>
      cases t' with
      | typeParameter number' =>
        simp only [fields, plain, typeParameter.injEq]
        exact ((tell_byte _ _).cons fun _ => tell_unsigned number number').imp And.right
      | _ => cases same
    | methodParameter number =>
      cases t' with
      | methodParameter number' =>
        simp only [fields, plain, methodParameter.injEq]
        exact ((tell_byte _ _).cons fun _ => tell_unsigned number number').imp And.right
      | _ => cases same
    | vector inner =>
      cases t' with
      | vector inner' =>
        rw [Valid] at valid valid'
        simp only [fields, plain, vector.injEq]
        exact tell_wrapped (each inner (mem_singleton_self inner)) valid valid' _
      | _ => cases same
    | byRef inner =>
      cases t' with
      | byRef inner' =>
        rw [Valid] at valid valid'
        simp only [fields, plain, byRef.injEq]
        exact tell_wrapped (each inner (mem_singleton_self inner)) valid valid' _
      | _ => cases same
    | pinned inner =>
      cases t' with
      | pinned inner' =>
        rw [Valid] at valid valid'
        simp only [fields, plain, pinned.injEq]
        exact tell_wrapped (each inner (mem_singleton_self inner)) valid valid' _
      | _ => cases same
    | pointer pointee =>
      cases t' with
      | pointer pointee' => exact tell_pointer valid valid' each
      | _ => cases same
    | array inner rank sizes bounds =>
      cases t' with
      | array inner' rank' sizes' bounds' =>
        exact tell_array valid valid' (each inner (mem_singleton_self inner))
      | _ => cases same
    | generic isValueType template arguments =>
      cases t' with
      | generic isValueType' template' arguments' => exact tell_generic valid valid' each
      | _ => cases same
    | modified required modifier inner =>
      cases t' with
      | modified required' modifier' inner' =>
        exact tell_modified valid valid' (each inner (mem_singleton_self inner))
      | _ => cases same
    | functionPointer convention arity result parameters more =>
      cases t' with
      | functionPointer convention' arity' result' parameters' more' =>
        rw [fields, fields]
        exact ((tell_byte _ _).cons fun _ => tell_signature valid valid' each).imp And.right
      | _ => cases same
  · exact tell_of_form_ne valid valid' same

@[simp] theorem length_plainAll (ts : List ResolvedType) : (plainAll ts).length = ts.length := by
  induction ts with
  | nil => rfl
  | cons t ts ih => rw [plainAll, length_cons, length_cons, ih]

theorem fieldsAll_plainAll (each : ∀ t ∈ ts, t.plain.fields = t.fields) :
    fieldsAll (plainAll ts) = fieldsAll ts := by
  induction ts with
  | nil => rfl
  | cons t ts ih =>
    obtain ⟨first, others⟩ := forall_mem_cons.1 each
    rw [plainAll, fieldsAll, fieldsAll, first, ih others]

theorem sentinelFields_plainAll (each : ∀ t ∈ ts, t.plain.fields = t.fields) :
    sentinelFields (plainAll ts) = sentinelFields ts := by
  cases ts with
  | nil => rfl
  | cons t ts =>
    have same := fieldsAll_plainAll each
    rw [plainAll, fieldsAll, fieldsAll] at same
    rw [plainAll, sentinelFields, sentinelFields, same]

theorem fields_plain (t : ResolvedType) : t.plain.fields = t.fields := by
  induction t using of_parts with | h t each => ?_
  cases t with
  | pointer pointee =>
    rw [plain_pointer, fields_pointer, fields_pointer, getD_some]
    cases pointee with
    | none => simp only [getD_none, plain]
    | some t => rw [getD_some, each t (mem_singleton_self t)]
  | generic isValueType template arguments =>
    simp only [parts] at each
    simp only [plain, fields, length_plainAll, fieldsAll_plainAll each]
  | functionPointer convention arity result parameters more =>
    simp only [parts, forall_mem_append, forall_mem_cons] at each
    simp only [plain, fields, length_plainAll, each.1.1, fieldsAll_plainAll each.1.2,
      sentinelFields_plainAll each.2]
  | array inner | vector inner | byRef inner | pinned inner | modified required modifier inner =>
    simp only [plain, fields, each inner (mem_singleton_self inner)]
  | element | reference | valueType | typeParameter | methodParameter => simp only [plain]

end ResolvedType

namespace ResolvedMethod

/-- A method is written as the function pointer to it is behind its first byte. -/
def pointerTo (m : ResolvedMethod) : ResolvedType :=
  .functionPointer m.convention m.genericArity m.returnType m.parameters m.varArgs

def Valid (m : ResolvedMethod) : Prop := m.pointerTo.Valid

def plain (m : ResolvedMethod) : ResolvedMethod where
  convention := m.convention
  genericArity := m.genericArity
  returnType := m.returnType.plain
  parameters := ResolvedType.plainAll m.parameters
  varArgs := ResolvedType.plainAll m.varArgs

theorem pointerTo_plain (m : ResolvedMethod) : m.plain.pointerTo = m.pointerTo.plain := by
  rw [pointerTo, pointerTo, ResolvedType.plain]
  rfl

theorem fields_pointerTo (m : ResolvedMethod) :
    m.pointerTo.fields = .byte ElementType.functionPointer :: m.fields := by
  rw [pointerTo, ResolvedType.fields, fields]

theorem pointerTo_injective : Function.Injective pointerTo := by
  intro m m' same
  cases m
  cases m'
  simp only [pointerTo, ResolvedType.functionPointer.injEq] at same
  simp only [same]

theorem told {m m' : ResolvedMethod} (valid : m.Valid) (valid' : m'.Valid) :
    Field.Tell m.fields m'.fields (m.plain = m'.plain) := by
  apply (ResolvedType.tell_signature valid valid' fun t _ => t.told).imp
  intro same
  apply pointerTo_injective
  rw [pointerTo_plain, pointerTo_plain]
  exact same

theorem fields_plain (m : ResolvedMethod) : m.plain.fields = m.fields := by
  have same := m.pointerTo.fields_plain
  rw [← pointerTo_plain, fields_pointerTo, fields_pointerTo] at same
  exact (List.cons.inj same).2

end ResolvedMethod

/-- The bytes of a type or of a method, with anything behind them, tell the type or the method and where
it ends, up to pointers to anything, which are pointers to `void`. -/
theorem signatures_told_by_bytes :
    (∀ t t' : ResolvedType, t.Valid → t'.Valid → ∀ bytes bytes' rest rest' : Bytes,
      Field.join t.fields = .ok bytes → Field.join t'.fields = .ok bytes' →
        (bytes ++ rest = bytes' ++ rest' ↔ t.plain = t'.plain ∧ rest = rest')) ∧
    (∀ m m' : ResolvedMethod, m.Valid → m'.Valid → ∀ bytes bytes' rest rest' : Bytes,
      Field.join m.fields = .ok bytes → Field.join m'.fields = .ok bytes' →
        (bytes ++ rest = bytes' ++ rest' ↔ m.plain = m'.plain ∧ rest = rest')) := by
  constructor
  · intro t t' valid valid' bytes bytes' rest rest' here there
    constructor
    · exact ((t.told t' valid valid').bytes here there).told
    · rintro ⟨same, rfl⟩
      rw [← t.fields_plain, same, t'.fields_plain, there] at here
      rw [Except.ok.inj here]
  · intro m m' valid valid' bytes bytes' rest rest' here there
    constructor
    · exact ((ResolvedMethod.told valid valid').bytes here there).told
    · rintro ⟨same, rfl⟩
      rw [← m.fields_plain, same, m'.fields_plain, there] at here
      rw [Except.ok.inj here]

namespace ResolvedMethod

theorem typeRef_mem_tables : Table.typeRef ∈ CodedIndex.Kind.typeDefOrRef.tables := by decide

/-- A method with a parameter and, behind the sentinel, a further argument; both are pointers. -/
def printer (pointee : Option ResolvedType) : ResolvedMethod where
  convention := Convention.varArgs
  returnType := .reference (.row .typeRef 1 typeRef_mem_tables)
  parameters := [.pointer pointee]
  varArgs := [.pointer pointee]

def printed : Bytes := [0x05, 0x02, 0x12, 0x05, 0x0F, 0x01, 0x41, 0x0F, 0x01]

theorem valid_printer (valid : (ResolvedType.pointer pointee).Valid) : (printer pointee).Valid := by
  simp only [Valid, pointerTo, printer, ResolvedType.Valid, ResolvedType.ValidAll]
  exact ⟨fun _ => trivial, by simp, .inr (by decide), ⟨valid, trivial⟩, valid, trivial⟩

end ResolvedMethod

open ResolvedMethod in
theorem signatures_told_by_bytes_printer :
    Field.join (printer none).fields = .ok printed ∧
      Field.join (printer (some (.element ElementType.void))).fields = .ok printed ∧
      (printer none).plain = (printer (some (.element ElementType.void))).plain ∧
      (printer none).pointerTo.plain =
        (printer (some (.element ElementType.void))).pointerTo.plain := by
  have valid : (printer none).Valid := valid_printer (by simp only [ResolvedType.Valid])
  have valid' : (printer (some (.element ElementType.void))).Valid :=
    valid_printer (by
      simp only [ResolvedType.Valid]
      exact ⟨.void, rfl⟩)
  have here : Field.join (printer none).fields = .ok printed := rfl
  have there : Field.join (printer (some (.element ElementType.void))).fields = .ok printed := rfl
  refine ⟨here, there, ?_, ?_⟩
  · exact ((signatures_told_by_bytes.2 _ _ valid valid' _ _ [] [] here there).1 rfl).1
  · have here' : Field.join (printer none).pointerTo.fields = .ok (0x1B :: printed) := rfl
    have there' : Field.join (printer (some (.element ElementType.void))).pointerTo.fields =
        .ok (0x1B :: printed) := rfl
    exact ((signatures_told_by_bytes.1 _ _ valid valid' _ _ [] [] here' there').1 rfl).1

namespace ResolvedMethod

/-- The types of a method are valid, and each of its lists can be counted on its own. -/
structure ValidApart (m : ResolvedMethod) : Prop where
  arity : m.convention &&& Convention.generic = 0 → m.genericArity = 0
  returnType : m.returnType.Valid
  parameters : ResolvedType.ValidAll m.parameters ∧ m.parameters.length < 0x100000000
  varArgs : ResolvedType.ValidAll m.varArgs ∧ m.varArgs.length < 0x100000000

/-- A method that takes so many truth values, and is passed as many more. -/
def ofBooleans (count : Nat) : ResolvedMethod where
  convention := Convention.varArgs
  returnType := .element ElementType.void
  parameters := replicate count (.element ElementType.boolean)
  varArgs := replicate count (.element ElementType.boolean)

theorem validApart_ofBooleans {n : Nat} (short : n < 0x100000000) : (ofBooleans n).ValidApart := by
  have all (n : Nat) : ResolvedType.ValidAll (replicate n (.element ElementType.boolean)) := by
    induction n with
    | zero => simp only [replicate_zero, ResolvedType.ValidAll]
    | succ n ih =>
      rw [replicate_succ, ResolvedType.ValidAll, ResolvedType.Valid]
      exact ⟨⟨.boolean, rfl⟩, ih⟩
  have length : (replicate n (ResolvedType.element ElementType.boolean)).length < 0x100000000 := by
    rwa [length_replicate]
  refine ⟨fun _ => rfl, ?_, ⟨all n, length⟩, all n, length⟩
  rw [ofBooleans, ResolvedType.Valid]
  exact ⟨.void, rfl⟩

theorem fieldsAll_replicate (n : Nat) (tag : UInt8) :
    ResolvedType.fieldsAll (replicate n (.element tag)) = replicate n (.byte tag) := by
  induction n with
  | zero => simp only [replicate_zero, ResolvedType.fieldsAll]
  | succ n ih =>
    rw [replicate_succ, ResolvedType.fieldsAll, ih, ResolvedType.fields, replicate_succ]
    rfl

theorem join_replicate {more : List Field} {bytes : Bytes} (n : Nat) (tag : UInt8)
    (joined : Field.join more = .ok bytes) :
    Field.join (replicate n (.byte tag) ++ more) = .ok (replicate n tag ++ bytes) := by
  induction n with
  | zero => exact joined
  | succ n ih => exact Field.join_cons_eq_ok.2 ⟨[tag], _, rfl, ih, rfl⟩

theorem conventionFields_varArgs (count : Nat) :
    ResolvedType.conventionFields Convention.varArgs 0 count = [.byte Convention.varArgs, Compressed.count count] := by
  rw [ResolvedType.conventionFields, if_neg (by decide)]
  rfl

/-- Where there are 2^32 types in all, none is counted. -/
theorem join_ofBooleans {n : Nat} (full : n + n = 0x100000000) :
    Field.join (ofBooleans n).fields = .ok ([0x05, 0x00, 0x01] ++
      (replicate n ElementType.boolean ++ (0x41 :: replicate n ElementType.boolean))) := by
  obtain ⟨k, rfl⟩ : ∃ k, n = k + 1 := ⟨n - 1, by omega⟩
  have counted : Compressed.count (k + 1 + (k + 1)) = .ok [0x00] := by
    rw [Compressed.count, full]
    rfl
  have behind := @join_replicate [] _ (k + 1) ElementType.boolean rfl
  rw [append_nil] at behind
  have sentinel : ResolvedType.sentinelFields (ofBooleans (k + 1)).varArgs =
      .byte ElementType.sentinel :: replicate (k + 1) (.byte ElementType.boolean) := by
    rw [← fieldsAll_replicate, ofBooleans, replicate_succ, ResolvedType.sentinelFields,
      ResolvedType.fieldsAll]
  have fields_eq : (ofBooleans (k + 1)).fields = .byte Convention.varArgs ::
      Compressed.count (k + 1 + (k + 1)) :: .byte ElementType.void ::
        (replicate (k + 1) (.byte ElementType.boolean) ++
          (.byte ElementType.sentinel :: replicate (k + 1) (.byte ElementType.boolean))) := by
    have head (count : Nat) : ResolvedType.conventionFields (ofBooleans (k + 1)).convention
        (ofBooleans (k + 1)).genericArity count = _ := conventionFields_varArgs count
    rw [fields, sentinel, head]
    simp [ofBooleans, fieldsAll_replicate, ResolvedType.fields]
  rw [fields_eq]
  refine Field.join_cons_eq_ok.2 ⟨[0x05], _, rfl, Field.join_cons_eq_ok.2 ⟨[0x00], _, counted,
    Field.join_cons_eq_ok.2 ⟨[0x01], _, rfl, join_replicate _ _ (Field.join_cons_eq_ok.2
      ⟨[0x41], _, rfl, behind, rfl⟩), rfl⟩, rfl⟩, ?_⟩
  simp

/-- With two lists of 2^31 types, a method is written as one that takes nothing, with more behind it. -/
theorem count_of_lists_lost : ∃ (m m' : ResolvedMethod) (bytes bytes' rest : Bytes),
    m.ValidApart ∧ m'.ValidApart ∧ Field.join m.fields = .ok bytes ∧ Field.join m'.fields = .ok bytes' ∧
      bytes ++ rest = bytes' ++ [] ∧ rest ≠ [] ∧ m.plain ≠ m'.plain := by
  obtain ⟨n, full⟩ : ∃ n, n + n = 0x100000000 := ⟨0x80000000, rfl⟩
  refine ⟨ofBooleans 0, ofBooleans n, _, _, _, validApart_ofBooleans (by decide),
    validApart_ofBooleans (by omega), rfl, join_ofBooleans full, (append_nil _).symm, by simp,
    fun same => ?_⟩
  have lengths : 0 = n := by
    have := congrArg (fun m => m.parameters.length) same
    simpa [plain, ofBooleans, ResolvedType.length_plainAll] using this
  omega

end ResolvedMethod
end Cil
