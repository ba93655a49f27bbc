import Cil.Proofs.ArgumentTypes
import Mathlib.Data.List.Forall2

/-!
The values of an attribute are known by its blob. What stands in front of a value where any object can
stand tells the type of the value, and elsewhere the declared type does; with the type known, the bytes
of a value tell it. Types are known as argument types only, and types that are values by their names.
-/

namespace Cil

open List Cil.Except

namespace Scalar

def width : Primitive → Nat
  | .char | .int16 | .uint16 => 2
  | .int32 | .uint32 | .float32 => 4
  | .int64 | .uint64 | .float64 => 8
  | _ => 1

theorem length_bytes (v : Scalar) : v.bytes.length = width v.type := by
  cases v <;> simp [bytes, type, width]

def ofBytes (p : Primitive) (b : Bytes) : Option Scalar :=
  match p with
  | .boolean => some (boolean (b != [0]))
  | .char => some (char (.ofNat (Bytes.ofLe b)))
  | .int8 => some (int8 (UInt8.ofNat (Bytes.ofLe b)).toInt8)
  | .uint8 => some (uint8 (.ofNat (Bytes.ofLe b)))
  | .int16 => some (int16 (UInt16.ofNat (Bytes.ofLe b)).toInt16)
  | .uint16 => some (uint16 (.ofNat (Bytes.ofLe b)))
  | .int32 => some (int32 (UInt32.ofNat (Bytes.ofLe b)).toInt32)
  | .uint32 => some (uint32 (.ofNat (Bytes.ofLe b)))
  | .int64 => some (int64 (UInt64.ofNat (Bytes.ofLe b)).toInt64)
  | .uint64 => some (uint64 (.ofNat (Bytes.ofLe b)))
  | .float32 => some (float32 (.ofNat (Bytes.ofLe b)))
  | .float64 => some (float64 (.ofNat (Bytes.ofLe b)))
  | _ => none

theorem ofBytes_bytes (v : Scalar) : ofBytes v.type v.bytes = some v := by
  cases v with
  | boolean v => cases v <;> rfl
  | _ v => simp [ofBytes, bytes, type, Bytes.ofLe_le]

end Scalar

namespace AttributeBlob

variable {u v : AttributeValue} {vs items : List AttributeValue} {bytes bytes' : Bytes}
  {n : NamedArgument} {a : Attribute} {d e e' : TypeSig} {id : TypeId}

/-- Values that are the same, where types are `Alike` and types that are values have one name. -/
inductive Same (m : Module) : AttributeValue → AttributeValue → Prop
  | scalar (v : Scalar) : Same m (.scalar v) (.scalar v)
  | string (s : Option String) : Same m (.string s) (.string s)
  | absentType : Same m (.type none) (.type none)
  | type {t t' : TypeSig} (name : String) (here : TypeName.serialized m t = .ok name)
      (there : TypeName.serialized m t' = .ok name) : Same m (.type (some t)) (.type (some t'))
  | enumeration (id : TypeId) {u u' : AttributeValue} (underlying : Same m u u') :
      Same m (.enumeration id u) (.enumeration id u')
  | absentArray {e e' : TypeSig} (element : Alike m e e') : Same m (.array e none) (.array e' none)
  | array {e e' : TypeSig} {items items' : List AttributeValue} (element : Alike m e e')
      (each : List.Forall₂ (Same m) items items') :
      Same m (.array e (some items)) (.array e' (some items'))

structure SameNamed (m : Module) (n n' : NamedArgument) : Prop where
  target : n.target = n'.target
  name : n.name = n'.name
  argumentType : Alike m n.argumentType n'.argumentType
  value : Same m n.value n'.value

mutual

def valueTypes : AttributeValue → List TypeId
  | .scalar _ | .string _ | .type _ => []
  | .enumeration id underlying => id :: valueTypes underlying
  | .array element none => namedTypes element
  | .array element (some items) => namedTypes element ++ valueTypesAll items

def valueTypesAll : List AttributeValue → List TypeId
  | [] => []
  | v :: vs => valueTypes v ++ valueTypesAll vs

end

mutual

/-- Texts and arrays are as short as their lengths can say. -/
def Short (m : Module) : AttributeValue → Prop
  | .scalar _ => True
  | .string s => ∀ text ∈ s, text.utf8ByteSize < 0x100000000
  | .type t => ∀ s ∈ t, ∀ name, TypeName.serialized m s = .ok name → name.utf8ByteSize < 0x100000000
  | .enumeration _ underlying => Short m underlying
  | .array _ none => True
  | .array _ (some items) => items.length < 0xFFFFFFFF ∧ ShortAll m items

def ShortAll (m : Module) : List AttributeValue → Prop
  | [] => True
  | v :: vs => Short m v ∧ ShortAll m vs

end

open Bytes

variable {m : Module} {ids : List TypeId} {done all : Array UInt8} {d' : TypeSig}
  {v' : AttributeValue} {x : TypeSig × AttributeValue} {ns : List NamedArgument}

theorem checkEnumeration_eq_ok (h : checkEnumeration m id u = .ok ()) :
    ∃ t, m.typeInfo id = .ok t ∧ t.kind = .enum ∧
      ∀ f, t.fields.find? (!·.isStatic) = some f → isOfPrimitive f.fieldType.unmodified u := by
  obtain ⟨t, info, rest⟩ := bind_eq_ok.1 h
  by_cases isEnum : t.kind = .enum
  · refine ⟨t, info, isEnum, fun f first => ?_⟩
    simp only [isEnum, first, if_true] at rest
    by_contra differs
    simp only [differs] at rest
    cases rest
  · simp only [isEnum] at rest
    cases rest

theorem value_enumeration (h : value m (.enumeration id u) = .ok bytes) :
    checkEnumeration m id u = .ok () ∧ value m u = .ok bytes := by
  rw [value] at h
  obtain ⟨_, checked, written⟩ := bind_eq_ok.1 h
  exact ⟨checked, written⟩

theorem argument_eq_ok (h : argument m d v = .ok bytes) :
    ∃ front own, accept m d v = .ok front ∧ value m v = .ok own ∧ bytes = front ++ own := by
  obtain ⟨front, accepted, rest⟩ := bind_eq_ok.1 h
  obtain ⟨own, written, last⟩ := bind_eq_ok.1 rest
  cases last
  exact ⟨front, own, accepted, written, rfl⟩

theorem values_eq_ok (h : values m d done vs = .ok all) :
    ∃ each, List.Forall₂ (fun v bytes => argument m d v = .ok bytes) vs each ∧
      all.toList = done.toList ++ each.flatten := by
  induction vs generalizing done with
  | nil =>
    rw [values] at h
    cases h
    exact ⟨[], .nil, (append_nil _).symm⟩
  | cons v vs ih =>
    rw [values] at h
    obtain ⟨front, accepted, rest⟩ := bind_eq_ok.1 h
    obtain ⟨own, written, rest⟩ := bind_eq_ok.1 rest
    obtain ⟨each, others, whole⟩ := ih rest
    refine ⟨(front ++ own) :: each, .cons ?_ others, ?_⟩
    · rw [argument, accepted, written]
      rfl
    · simp only [whole, Array.toList_appendList, flatten_cons, append_assoc]

theorem value_array (h : value m (.array e (some items)) = .ok bytes) :
    ∃ each, List.Forall₂ (fun v bytes => argument m e v = .ok bytes) items each ∧
      bytes = Bytes.le 4 items.length ++ each.flatten := by
  rw [value] at h
  obtain ⟨all, written, last⟩ := bind_eq_ok.1 h
  obtain ⟨each, others, whole⟩ := values_eq_ok written
  cases last
  exact ⟨each, others, congrArg (Bytes.le 4 items.length ++ ·) whole⟩

theorem Owns.known {a : ArgumentType} (owns : Owns m v a) (written : value m v = .ok bytes)
    (types : valueTypes v ⊆ ids) : Known m ids a := by
  cases owns with
  | scalar | string | type => trivial
  | enumeration id u =>
    obtain ⟨t, info, isEnum, -⟩ := checkEnumeration_eq_ok (value_enumeration written).1
    rw [valueTypes] at types
    exact ⟨types mem_cons_self, t, info, isEnum⟩
  | @array e a element items =>
    have inner : Known m ids a := by
      apply known_of_argumentType element
      cases items with
      | none => rwa [valueTypes] at types
      | some items =>
        rw [valueTypes] at types
        exact List.Subset.trans (subset_append_left _ _) types
    exact inner

theorem tell_accept (clear : Clear m ids) {front front' : Bytes} (alike : Alike m d d')
    (here : accept m d v = .ok front) (there : accept m d' v' = .ok front')
    (written : value m v = .ok bytes) (written' : value m v' = .ok bytes')
    (named : namedTypes d ⊆ ids) (named' : namedTypes d' ⊆ ids) (types : valueTypes v ⊆ ids)
    (types' : valueTypes v' ⊆ ids) : Tell front front' (Kin m v v') := by
  have accepts := accepts_of_accept here
  have accepts' := accepts_of_accept there
  have same : argumentType m d = argumentType m d' := by
    rcases alike with same | ⟨a, known, known'⟩
    · exact argumentType_congr same
    · rw [known, known']
  cases declared : argumentType m d with
  | none =>
    have whole : d.unmodified = d'.unmodified := by
      rcases alike with whole | ⟨a, known, -⟩
      · exact whole
      · rw [declared] at known
        cases known
    rw [← whole] at accepts'
    rw [← argumentType_unmodified] at declared
    obtain ⟨e, i, items, vector, rfl, element, rfl⟩ := accepts.array_of_none declared
    obtain ⟨e', i', items', vector', rfl, element', rfl⟩ := accepts'.array_of_none declared
    rw [vector] at vector'
    cases vector'
    exact (tell_of_length rfl).imp fun _ => .array (.inl (element.trans element'.symm)) items items'
  | some a =>
    have declared' := same.symm.trans declared
    rw [← argumentType_unmodified] at declared declared'
    rw [← namedTypes_unmodified] at named named'
    rcases accepts.owns clear declared named with ⟨rfl, own⟩ | ⟨owns, rfl⟩
    · rcases accepts'.owns clear declared' named' with ⟨-, own'⟩ | ⟨owns', -⟩
      · obtain ⟨a, owns, spelled⟩ := ownType_eq_ok own
        obtain ⟨a', owns', spelled'⟩ := ownType_eq_ok own'
        apply (tell_code clear (owns.known written types) (owns'.known written' types') spelled
          spelled').imp
        rintro rfl
        exact owns.kin owns'
      · cases owns'
    · rcases accepts'.owns clear declared' named' with ⟨rfl, -⟩ | ⟨owns', rfl⟩
      · cases owns
      · exact (tell_of_length rfl).imp fun _ => owns.kin owns'

def parts : AttributeValue → List AttributeValue
  | .scalar _ | .string _ | .type _ | .array _ none => []
  | .enumeration _ underlying => [underlying]
  | .array _ (some items) => items

theorem sizeOf_lt_of_mem_parts (h : u ∈ parts v) : sizeOf u < sizeOf v := by
  cases v with
  | scalar | string | type => cases h
  | enumeration id underlying =>
    obtain rfl := mem_singleton.1 h
    simp only [AttributeValue.enumeration.sizeOf_spec]
    omega
  | array element items =>
    cases items with
    | none => cases h
    | some items =>
      have := sizeOf_lt_of_mem (show u ∈ items from h)
      simp only [AttributeValue.array.sizeOf_spec, Option.some.sizeOf_spec]
      omega

theorem of_parts {P : AttributeValue → Prop} (h : ∀ v, (∀ u ∈ parts v, P u) → P v)
    (v : AttributeValue) :
    P v :=
  h v fun u _ => of_parts h u
termination_by sizeOf v
decreasing_by exact sizeOf_lt_of_mem_parts ‹_›

/-- A value with short texts and arrays, whose types are among some. -/
structure Fit (m : Module) (ids : List TypeId) (v : AttributeValue) : Prop where
  short : Short m v
  types : valueTypes v ⊆ ids

/-- The bytes of the value tell it, if its type is known. -/
def Told (m : Module) (ids : List TypeId) (v : AttributeValue) : Prop :=
  ∀ {v' : AttributeValue} {bytes bytes' : Bytes}, Kin m v v' → Fit m ids v → Fit m ids v' →
    value m v = .ok bytes → value m v' = .ok bytes' → Tell bytes bytes' (Same m v v')

/-- A place and the value in it, which both fit. -/
structure FitPair (m : Module) (ids : List TypeId) (x : TypeSig × AttributeValue) : Prop where
  named : namedTypes x.1 ⊆ ids
  value : Fit m ids x.2

theorem tell_argument (clear : Clear m ids) (told : Told m ids v) (alike : Alike m d d')
    (fit : FitPair m ids (d, v)) (fit' : FitPair m ids (d', v')) (here : argument m d v = .ok bytes)
    (there : argument m d' v' = .ok bytes') : Tell bytes bytes' (Same m v v') := by
  obtain ⟨front, own, accepted, written, rfl⟩ := argument_eq_ok here
  obtain ⟨front', own', accepted', written', rfl⟩ := argument_eq_ok there
  have type := tell_accept clear alike accepted accepted' written written' fit.named fit'.named
    fit.value.types fit'.value.types
  exact (type.append fun kin => told kin fit.value fit'.value written written').imp And.right

/-- Where the parts of two lists tell of each other, one by one, so do the lists. -/
theorem tell_flatten {α : Type} {S R : α → α → Prop} {W W' : α → Bytes → Prop} {as as' : List α}
    {parts parts' : List Bytes} (related : List.Forall₂ S as as') (here : List.Forall₂ W as parts)
    (there : List.Forall₂ W' as' parts')
    (each : ∀ a ∈ as, ∀ a' ∈ as', ∀ b b', S a a' → W a b → W' a' b' → Tell b b' (R a a')) :
    Tell parts.flatten parts'.flatten (List.Forall₂ R as as') := by
  induction related generalizing parts parts' with
  | nil =>
    cases here
    cases there
    exact (tell_of_length rfl).imp fun _ => .nil
  | cons pair pairs ih =>
    obtain _ | ⟨written, others⟩ := here
    obtain _ | ⟨written', others'⟩ := there
    have first := each _ mem_cons_self _ mem_cons_self _ _ pair written written'
    have second := ih others others' fun a ha a' ha' =>
      each a (mem_cons_of_mem _ ha) a' (mem_cons_of_mem _ ha')
    rw [flatten_cons, flatten_cons]
    apply (first.append fun _ => second).imp
    rintro ⟨same, rest⟩
    exact .cons same rest

theorem forall₂_true {α : Type} {as as' : List α} (length : as.length = as'.length) :
    List.Forall₂ (fun _ _ => True) as as' :=
  forall₂_iff_get.2 ⟨length, fun _ _ _ => trivial⟩

theorem tell_scalar {v v' : Scalar} (same : v.type = v'.type) : Tell v.bytes v'.bytes (v = v') := by
  have length : v.bytes.length = v'.bytes.length := by
    rw [v.length_bytes, v'.length_bytes, same]
  apply (tell_of_length length).imp
  intro bytes
  have back := v.ofBytes_bytes
  rw [bytes, same, v'.ofBytes_bytes] at back
  exact (Option.some.inj back).symm

theorem fit_of_mem (short : ShortAll m vs) (types : valueTypesAll vs ⊆ ids) (member : v ∈ vs) :
    Fit m ids v := by
  induction vs with
  | nil => cases member
  | cons u vs ih =>
    rw [ShortAll] at short
    rw [valueTypesAll, append_subset] at types
    rcases mem_cons.1 member with rfl | member
    · exact ⟨short.1, types.1⟩
    · exact ih short.2 types.2 member

theorem tell_type {t t' : Option TypeSig} (short : Short m (.type t)) (short' : Short m (.type t'))
    (here : value m (.type t) = .ok bytes) (there : value m (.type t') = .ok bytes') :
    Tell bytes bytes' (Same m (.type t) (.type t')) := by
  have name {t : TypeSig} {bytes : Bytes} (short : Short m (.type (some t)))
      (h : value m (.type (some t)) = .ok bytes) :
      ∃ name, TypeName.serialized m t = .ok name ∧ text (some name) = .ok bytes ∧
        ∀ s ∈ some name, s.utf8ByteSize < 0x100000000 := by
    rw [value] at h
    rw [Short] at short
    obtain ⟨name, named, written⟩ := bind_eq_ok.1 h
    exact ⟨name, named, written, by simpa using short t rfl name named⟩
  cases t with
  | none =>
    rw [value] at here
    cases t' with
    | none =>
      rw [value] at there
      exact (tell_text here there nofun nofun).imp fun _ => .absentType
    | some t' =>
      obtain ⟨name', _, written', small'⟩ := name short' there
      exact (tell_text here written' nofun small').imp nofun
  | some t =>
    obtain ⟨n, named, written, small⟩ := name short here
    cases t' with
    | none =>
      rw [value] at there
      exact (tell_text written there small nofun).imp nofun
    | some t' =>
      obtain ⟨n', named', written', small'⟩ := name short' there
      apply (tell_text written written' small small').imp
      rintro ⟨⟩
      exact .type n named named'

theorem kin_of_checkEnumeration (clear : Clear m ids) (member : id ∈ ids) {u' : AttributeValue}
    (here : checkEnumeration m id u = .ok ()) (there : checkEnumeration m id u' = .ok ()) :
    Kin m u u' := by
  obtain ⟨t, info, isEnum, fits⟩ := checkEnumeration_eq_ok here
  obtain ⟨t', info', -, fits'⟩ := checkEnumeration_eq_ok there
  rw [info] at info'
  cases info'
  obtain ⟨f, among, isInstance⟩ := clear.field id member t info isEnum
  have some : (t.fields.find? (!·.isStatic)).isSome := by
    rw [Array.find?_isSome]
    exact ⟨f, among, by rw [isInstance]; rfl⟩
  obtain ⟨first, found⟩ := Option.isSome_iff_exists.1 some
  exact kin_of_isOfPrimitive (fits first found) (fits' first found)

theorem fitPair_of_mem (fit : Fit m ids (.array e (some items))) (member : v ∈ items) :
    FitPair m ids (e, v) := by
  have short := fit.short
  have types := fit.types
  rw [Short] at short
  rw [valueTypes, append_subset] at types
  exact ⟨types.1, fit_of_mem short.2 types.2 member⟩

theorem tell_absent {p : Prop} (short : Short m (.array e (some items)))
    (here : value m (.array e (some items)) = .ok bytes)
    (there : value m (.array e' none) = .ok bytes') : Tell bytes bytes' p := by
  obtain ⟨inner, -, rfl⟩ := value_array here
  rw [Short] at short
  rw [value] at there
  cases there
  have lengths : Tell (le 4 items.length) (le 4 0xFFFFFFFF) (items.length = 0xFFFFFFFF) :=
    tell_le (Nat.lt_trans short.1 (by decide)) (by decide)
  rw [← append_nil (le 4 0xFFFFFFFF)]
  exact (lengths.append fun same => absurd same (Nat.ne_of_lt short.1)).imp And.right

theorem tell_array (clear : Clear m ids) {items items' : Option (List AttributeValue)}
    (alike : Alike m e e') (told : ∀ v ∈ parts (.array e items), Told m ids v)
    (fit : Fit m ids (.array e items)) (fit' : Fit m ids (.array e' items'))
    (here : value m (.array e items) = .ok bytes) (there : value m (.array e' items') = .ok bytes') :
    Tell bytes bytes' (Same m (.array e items) (.array e' items')) := by
  cases items with
  | none =>
    cases items' with
    | none =>
      rw [value] at here there
      cases here
      cases there
      exact (tell_of_length rfl).imp fun _ => .absentArray alike
    | some items' => exact (tell_absent fit'.short there here).symm
  | some items =>
    cases items' with
    | none => exact tell_absent fit.short here there
    | some items' =>
      obtain ⟨_, written, rfl⟩ := value_array here
      obtain ⟨_, written', rfl⟩ := value_array there
      have short := fit.short
      have short' := fit'.short
      rw [Short] at short short'
      have lengths : Tell (le 4 items.length) (le 4 items'.length) (items.length = items'.length) :=
        tell_le (Nat.lt_trans short.1 (by decide)) (Nat.lt_trans short'.1 (by decide))
      apply (lengths.append fun length => tell_flatten (forall₂_true length) written written'
        fun v hv v' hv' _ _ _ => tell_argument clear (told v hv) alike (fitPair_of_mem fit hv)
          (fitPair_of_mem fit' hv')).imp
      rintro ⟨-, same⟩
      exact .array alike same

theorem told (clear : Clear m ids) (v : AttributeValue) : Told m ids v := by
  induction v using of_parts with | h v each => ?_
  intro v' bytes bytes' kin fit fit' here there
  cases kin with
  | scalar same =>
    rw [value] at here there
    cases here
    cases there
    apply (tell_scalar same).imp
    rintro rfl
    exact .scalar _
  | string s s' =>
    rw [value] at here there
    have short := fit.short
    have short' := fit'.short
    rw [Short] at short short'
    apply (tell_text here there short short').imp
    rintro rfl
    exact .string s
  | type t t' => exact tell_type fit.short fit'.short here there
  | enumeration id u u' =>
    obtain ⟨checked, written⟩ := value_enumeration here
    obtain ⟨checked', written'⟩ := value_enumeration there
    have short := fit.short
    have short' := fit'.short
    have types := fit.types
    have types' := fit'.types
    rw [Short] at short short'
    rw [valueTypes, cons_subset] at types types'
    have kin := kin_of_checkEnumeration clear types.1 checked checked'
    apply (each u (mem_singleton_self u) kin ⟨short, types.2⟩ ⟨short', types'.2⟩ written written').imp
    exact .enumeration id
  | array alike items items' => exact tell_array clear alike each fit fit' here there

/-- A named argument with a short name, whose types are among some. -/
structure FitNamed (m : Module) (ids : List TypeId) (n : NamedArgument) : Prop where
  name : n.name.utf8ByteSize < 0x100000000
  place : FitPair m ids (n.argumentType, n.value)

def targetTag : NamedTarget → UInt8
  | .field => fieldTag
  | .property => propertyTag

theorem targetTag_injective : Function.Injective targetTag := by
  intro t t' same
  cases t <;> cases t' <;> first | rfl | exact absurd same (by decide)

theorem namedArgument_eq_ok (h : namedArgument m n = .ok bytes) :
    ∃ type name own, declaredType m n.argumentType = .ok type ∧ text (some n.name) = .ok name ∧
      argument m n.argumentType n.value = .ok own ∧
      bytes = [targetTag n.target] ++ (type ++ (name ++ own)) := by
  obtain ⟨type, declared, rest⟩ := bind_eq_ok.1 h
  obtain ⟨name, named, rest⟩ := bind_eq_ok.1 rest
  obtain ⟨own, written, last⟩ := bind_eq_ok.1 rest
  cases last
  refine ⟨type, name, own, declared, named, written, ?_⟩
  rw [append_assoc]
  cases n.target <;> rfl

theorem tell_namedArgument (clear : Clear m ids) {n' : NamedArgument} (fit : FitNamed m ids n)
    (fit' : FitNamed m ids n') (here : namedArgument m n = .ok bytes)
    (there : namedArgument m n' = .ok bytes') : Tell bytes bytes' (SameNamed m n n') := by
  obtain ⟨type, name, own, declared, named, written, rfl⟩ := namedArgument_eq_ok here
  obtain ⟨type', name', own', declared', named', written', rfl⟩ := namedArgument_eq_ok there
  have targets : Tell [targetTag n.target] [targetTag n'.target] _ := tell_of_length rfl
  have types : Tell type type' (Alike m n.argumentType n'.argumentType) := by
    obtain ⟨a, known, spelled⟩ := declaredType_eq_ok declared
    obtain ⟨a', known', spelled'⟩ := declaredType_eq_ok declared'
    apply (tell_code clear (known_of_argumentType known fit.place.named)
      (known_of_argumentType known' fit'.place.named) spelled spelled').imp
    rintro rfl
    exact .inr ⟨a, known, known'⟩
  have names : Tell name name' (some n.name = some n'.name) :=
    tell_text named named' (by simpa using fit.name) (by simpa using fit'.name)
  apply (targets.append fun _ => types.append fun alike => names.append fun _ =>
    tell_argument clear (told clear n.value) alike fit.place fit'.place written written').imp
  rintro ⟨target, alike, name, value⟩
  exact ⟨targetTag_injective (List.cons.inj target).1, Option.some.inj name, alike, value⟩

theorem namedArguments_eq_ok (h : namedArguments m done ns = .ok all) :
    ∃ each, List.Forall₂ (fun n bytes => namedArgument m n = .ok bytes) ns each ∧
      all.toList = done.toList ++ each.flatten := by
  induction ns generalizing done with
  | nil =>
    cases h
    exact ⟨[], .nil, (append_nil _).symm⟩
  | cons n ns ih =>
    obtain ⟨bytes, written, rest⟩ := bind_eq_ok.1 h
    obtain ⟨each, others, whole⟩ := ih rest
    refine ⟨bytes :: each, .cons written others, ?_⟩
    simp only [whole, Array.toList_appendList, flatten_cons, append_assoc]

theorem fixedArguments_eq_ok {xs : List (TypeSig × AttributeValue)}
    (h : fixedArguments m xs = .ok bytes) :
    ∃ each, List.Forall₂ (fun x bytes => argument m x.1 x.2 = .ok bytes) xs each ∧
      bytes = each.flatten := by
  induction xs generalizing bytes with
  | nil =>
    cases h
    exact ⟨[], .nil, rfl⟩
  | cons x xs ih =>
    obtain ⟨own, written, rest⟩ := bind_eq_ok.1 h
    obtain ⟨_, behind, last⟩ := bind_eq_ok.1 rest
    obtain ⟨each, others, rfl⟩ := ih behind
    cases last
    exact ⟨own :: each, .cons written others, rfl⟩

/-- The types that have a name in an attribute or are declared for its arguments. -/
def involved (m : Module) (a : Attribute) : List TypeId :=
  (match m.methodDef a.constructor.method with
    | .ok method => method.signature.parameters.flatMap namedTypes
    | .error _ => []) ++
  valueTypesAll a.arguments ++
  a.named.flatMap fun n => namedTypes n.argumentType ++ valueTypes n.value

/-- Texts, names and arrays of an attribute are as short as their lengths can say. -/
structure ShortAttribute (m : Module) (a : Attribute) : Prop where
  arguments : ShortAll m a.arguments
  named : ∀ n ∈ a.named, n.name.utf8ByteSize < 0x100000000 ∧ Short m n.value

theorem ofAttribute_eq_ok {blob : Bytes} (h : ofAttribute m a = .ok blob) :
    ∃ method fixed each, m.methodDef a.constructor.method = .ok method ∧
      method.signature.parameters.length = a.arguments.length ∧ a.named.length ≤ 0xFFFF ∧
      List.Forall₂ (fun x bytes => argument m x.1 x.2 = .ok bytes)
        (method.signature.parameters.zip a.arguments) fixed ∧
      List.Forall₂ (fun n bytes => namedArgument m n = .ok bytes) a.named each ∧
      blob = le 2 1 ++ (fixed.flatten ++ (le 2 a.named.length ++ each.flatten)) := by
  obtain ⟨method, found, rest⟩ := bind_eq_ok.1 h
  by_cases count : method.signature.parameters.length = a.arguments.length
  · by_cases few : a.named.length ≤ 0xFFFF
    · simp only [count, few, if_true] at rest
      obtain ⟨_, values, rest⟩ := bind_eq_ok.1 rest
      obtain ⟨all, named, last⟩ := bind_eq_ok.1 rest
      obtain ⟨fixed, written, rfl⟩ := fixedArguments_eq_ok values
      obtain ⟨each, others, whole⟩ := namedArguments_eq_ok named
      cases last
      refine ⟨method, fixed, each, found, count, few, written, others, ?_⟩
      rw [whole]
      simp only [append_assoc, nil_append]
    · simp only [count, few] at rest
      cases rest
  · simp only [count] at rest
    cases rest

theorem fitPair_of_mem_zip {ds : List TypeSig} (short : ShortAttribute m a)
    (declared : ds.flatMap namedTypes ⊆ ids) (types : valueTypesAll a.arguments ⊆ ids)
    (member : x ∈ ds.zip a.arguments) : FitPair m ids x := by
  obtain ⟨place, value⟩ := of_mem_zip member
  exact ⟨fun id named => declared (mem_flatMap.2 ⟨x.1, place, named⟩),
    fit_of_mem short.arguments types value⟩

theorem fitNamed_of_mem (short : ShortAttribute m a)
    (types : (a.named.flatMap fun n => namedTypes n.argumentType ++ valueTypes n.value) ⊆ ids)
    (member : n ∈ a.named) : FitNamed m ids n := by
  have among : namedTypes n.argumentType ++ valueTypes n.value ⊆ ids :=
    fun id named => types (mem_flatMap.2 ⟨n, member, named⟩)
  rw [append_subset] at among
  obtain ⟨name, value⟩ := short.named n member
  exact ⟨name, among.1, value, among.2⟩

theorem involved_subset {method : Method} (found : m.methodDef a.constructor.method = .ok method)
    (h : involved m a ⊆ ids) :
    method.signature.parameters.flatMap namedTypes ⊆ ids ∧ valueTypesAll a.arguments ⊆ ids ∧
      (a.named.flatMap fun n => namedTypes n.argumentType ++ valueTypes n.value) ⊆ ids := by
  rw [involved, found, append_subset, append_subset] at h
  exact ⟨h.1.1, h.1.2, h.2⟩

/-- Attributes of one constructor with the same blob have the same arguments and the same named
arguments. -/
theorem attributes_told_by_blobs {m : Module} {a a' : Attribute} {blob : Bytes}
    (constructor : a.constructor.method = a'.constructor.method)
    (clear : Clear m (involved m a ++ involved m a')) (short : ShortAttribute m a)
    (short' : ShortAttribute m a') (here : ofAttribute m a = .ok blob)
    (there : ofAttribute m a' = .ok blob) :
    List.Forall₂ (Same m) a.arguments a'.arguments ∧ List.Forall₂ (SameNamed m) a.named a'.named := by
  obtain ⟨method, fixed, each, found, count, few, written, others, rfl⟩ := ofAttribute_eq_ok here
  obtain ⟨method', fixed', each', found', count', few', written', others', whole⟩ :=
    ofAttribute_eq_ok there
  obtain rfl : method' = method := by
    rw [constructor, found'] at found
    exact Except.ok.inj found
  obtain ⟨declared, values, named⟩ := involved_subset found (List.subset_append_left _ _)
  obtain ⟨declared', values', named'⟩ := involved_subset found' (List.subset_append_right _ _)
  have places : List.Forall₂ (fun x x' => Alike m x.1 x'.1)
      (method'.signature.parameters.zip a.arguments)
        (method'.signature.parameters.zip a'.arguments) := by
    rw [List.forall₂_iff_get]
    refine ⟨?_, fun i _ _ => .inl ?_⟩
    · rw [List.length_zip, List.length_zip, ← count, ← count']
    · simp only [List.get_eq_getElem, List.getElem_zip]
  have arguments := (tell_flatten places written written' fun x hx x' hx' _ _ alike =>
    tell_argument clear (told clear x.2) alike (fitPair_of_mem_zip short declared values hx)
      (fitPair_of_mem_zip short' declared' values' hx')).imp
        (forall₂_map_left_iff.2 <| forall₂_map_right_iff.2 ·)
  rw [List.map_snd_zip (Nat.le_of_eq count.symm),
    List.map_snd_zip (Nat.le_of_eq count'.symm)] at arguments
  have counts : Tell (le 2 a.named.length) (le 2 a'.named.length) (a.named.length = a'.named.length) :=
    tell_le (Nat.lt_of_le_of_lt few (by decide)) (Nat.lt_of_le_of_lt few' (by decide))
  have version : Tell (le 2 1) (le 2 1) (1 = 1) := tell_le (by decide) (by decide)
  have blobs := version.append fun _ => arguments.append fun _ => counts.append fun length =>
    tell_flatten (forall₂_true length) others others' fun n hn n' hn' _ _ _ =>
      tell_namedArgument clear (fitNamed_of_mem short named hn) (fitNamed_of_mem short' named' hn')
  obtain ⟨⟨-, fixedSame, -, namedSame⟩, -⟩ := blobs.told (congrArg (· ++ []) whole)
  exact ⟨fixedSame, namedSame⟩

/-- A module with an enumeration, and with an attribute that takes any object. -/
def palette : Module where
  name := "Palette"
  types := #[
    .globals,
    { name := "Color"
      kind := .enum
      fields := #[{ name := "Red", isStatic := true }, { name := "value__" }] },
    { name := "Paint"
      methods := #[{ name := ".ctor", signature := { parameters := [Primitive.object] } }] }]

/-- An attribute with a boxed array of a color, and with a type as a boxed named argument. -/
def painted (element : TypeSig) : Attribute where
  constructor := { method := ⟨⟨2⟩, 0⟩ }
  arguments := [.array element (some [.enumeration ⟨1⟩ (.scalar (.int32 2))])]
  named := [⟨.field, "Tone", Primitive.object, .type (some (.vector element))⟩]

def paint : Bytes :=
  [0x01, 0x00, 0x1D, 0x55, 0x05, 0x43, 0x6F, 0x6C, 0x6F, 0x72, 0x01, 0x00, 0x00, 0x00, 0x02, 0x00, 0x00,
    0x00, 0x01, 0x00, 0x53, 0x51, 0x04, 0x54, 0x6F, 0x6E, 0x65, 0x50, 0x07, 0x43, 0x6F, 0x6C, 0x6F, 0x72,
    0x5B, 0x5D]

theorem clear_palette {ids : List TypeId} (only : ∀ id ∈ ids, id = ⟨1⟩) : Clear palette ids where
  field id member t info _ := by
    rw [only id member] at info
    cases info
    exact ⟨{ name := "value__" }, by simp [palette], rfl⟩
  apart id member t info _ := by
    rw [only id member] at info
    cases info
    decide
  short id member name is := by
    have known : TypeName.serialized palette (.named ⟨1⟩) = .ok "Color" :=
      eq_ok_of_toOption (by decide +kernel)
    have named := is.2
    rw [only id member, known] at named
    cases named
    decide
  distinct id member id' member' _ _ _ := (only id member).trans (only id' member').symm

theorem short_painted {element : TypeSig}
    (known : (TypeName.serialized palette (.vector element)).toOption = some "Color[]") :
    ShortAttribute palette (painted element) where
  arguments := by simp [painted, ShortAll, Short]
  named n member := by
    obtain rfl := mem_singleton.1 member
    refine ⟨show "Tone".utf8ByteSize < 0x100000000 by decide, ?_⟩
    rw [Short]
    rintro _ ⟨⟩ name named
    rw [eq_ok_of_toOption known] at named
    cases named
    decide

theorem attributes_told_by_blobs_painted :
    ofAttribute palette (painted (.named ⟨1⟩)) = .ok paint ∧
      ofAttribute palette (painted (.modified ⟨2⟩ true (.named ⟨1⟩))) = .ok paint ∧
      List.Forall₂ (Same palette) (painted (.named ⟨1⟩)).arguments
        (painted (.modified ⟨2⟩ true (.named ⟨1⟩))).arguments ∧
      List.Forall₂ (SameNamed palette) (painted (.named ⟨1⟩)).named
        (painted (.modified ⟨2⟩ true (.named ⟨1⟩))).named := by
  have here : ofAttribute palette (painted (.named ⟨1⟩)) = .ok paint :=
    eq_ok_of_toOption (by decide +kernel)
  have there : ofAttribute palette (painted (.modified ⟨2⟩ true (.named ⟨1⟩))) = .ok paint :=
    eq_ok_of_toOption (by decide +kernel)
  refine ⟨here, there, ?_⟩
  exact attributes_told_by_blobs rfl (clear_palette (by decide)) (short_painted (by decide +kernel))
    (short_painted (by decide +kernel)) here there

end AttributeBlob
end Cil
