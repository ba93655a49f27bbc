import Cil.Proofs.Runs
import Mathlib.Data.List.Infix

/-!
Names of types in attribute values. A name ought to be the base of the type, suffixes and all, in front of
the assembly that the innermost type comes from. Suffixes are put into a name that is already written, in
front of its first comma and blank or at its end; the main statement says for which types that is where
they belong.
-/

namespace Cil

open List Option Cil.Except
namespace TypeName

variable {l back front : List Char} {a name : List Char} {ss : List String} {s : String} {t : TypeSig}

def bracketed (names : List String) : String :=
  "[" ++ ",".intercalate (names.map fun n => "[" ++ n ++ "]") ++ "]"

def bounds (shape : ArrayShape) : String :=
  "[" ++ String.ofList (List.replicate (shape.rank - 1) ',') ++ "]"

def base (m : Module) : TypeSig → Except Error String
  | .modified _ _ inner => base m inner
  | .pinned inner => base m inner
  | .named id => do return nested (← enclosing m (m.types.size + 1) id)
  | .generic id arguments => do
    let chain ← enclosing m (m.types.size + 1) id
    return nested chain ++ bracketed (← serializedAll m arguments)
  | .vector element => do return (← base m element) ++ "[]"
  | .array element shape => do return (← base m element) ++ bounds shape
  | .pointer (some inner) => do return (← base m inner) ++ "*"
  | .reference inner => do return (← base m inner) ++ "&"
  | .primitive p => return "System." ++ p.systemName
  | t => throw (.excess (.typeName t))

def innermost : TypeSig → TypeSig
  | .modified _ _ inner => innermost inner
  | .pinned inner => innermost inner
  | .vector element => innermost element
  | .array element _ => innermost element
  | .pointer (some inner) => innermost inner
  | .reference inner => innermost inner
  | t => t

def assembly (m : Module) : TypeSig → Except Error (Option String)
  | .named id => do outermostQualifier m (← enclosing m (m.types.size + 1) id)
  | .generic id _ => do outermostQualifier m (← enclosing m (m.types.size + 1) id)
  | _ => return none

def suffixes : TypeSig → List String
  | .modified _ _ inner => suffixes inner
  | .pinned inner => suffixes inner
  | .vector element => suffixes element ++ ["[]"]
  | .array element shape => suffixes element ++ [bounds shape]
  | .pointer (some inner) => suffixes inner ++ ["*"]
  | .reference inner => suffixes inner ++ ["&"]
  | _ => []

/-- Whether the suffixes of a type with some base and assembly stand where they belong. -/
def InPlace (t : TypeSig) (base : String) (assembly : Option String) : Prop :=
  match suffixes t, isGeneric (innermost t) with
  | [], _ => True
  | _ :: _, false => ¬ [',', ' '] <:+: base.toList
  | [_], true => assembly = none
  | _ :: _ :: _, true => assembly = none ∧ ¬ [',', ' '] <:+: base.toList

theorem splitQualifier_eq_some (h : splitQualifier l = some (front, back)) :
    l = front ++ ',' :: ' ' :: back := by
  fun_induction splitQualifier l generalizing front back with
  | case1 rest =>
    cases h
    rfl
  | case2 c rest _ ih =>
    obtain ⟨⟨x, y⟩, split, same⟩ := map_eq_some_iff.1 h
    cases same
    rw [ih split]
    rfl
  | case3 => cases h

/-- No comma and blank starts a longer text that did not start the shorter one, unless the blank is new. -/
theorem splitQualifier_cons_append {c : Char} {rest more : List Char}
    (here : ∀ tail, c = ',' → rest = ' ' :: tail → False)
    (behind : rest = [] → ∀ tail, more ≠ ' ' :: tail) :
    splitQualifier (c :: rest ++ more) =
      (splitQualifier (rest ++ more)).map fun (front, back) => (c :: front, back) := by
  rw [cons_append, splitQualifier]
  intro tail comma blank
  cases rest with
  | nil => exact behind rfl tail blank
  | cons d rest =>
    cases blank
    exact here rest comma rfl

theorem splitQualifier_append (whole : splitQualifier a = none) (back : List Char) :
    splitQualifier (a ++ ',' :: ' ' :: back) = some (a, back) := by
  fun_induction splitQualifier a with
  | case1 rest => cases whole
  | case2 c rest here ih =>
    rw [splitQualifier_cons_append here (by simp), ih (map_eq_none_iff.1 whole)]
    rfl
  | case3 => rfl

theorem splitQualifier_append_of_eq_some (split : splitQualifier a = some (front, back))
    (more : List Char) : splitQualifier (a ++ more) = some (front, back ++ more) := by
  fun_induction splitQualifier a generalizing front back with
  | case1 rest =>
    cases split
    rfl
  | case2 c rest here ih =>
    obtain ⟨⟨x, y⟩, found, same⟩ := map_eq_some_iff.1 split
    cases same
    have longer : rest ≠ [] := by
      rintro rfl
      cases found
    rw [splitQualifier_cons_append here fun none => absurd none longer, ih found]
    rfl
  | case3 => cases split

theorem splitQualifier_eq_none_iff : splitQualifier l = none ↔ ¬ [',', ' '] <:+: l := by
  constructor
  · rintro whole ⟨front, back, rfl⟩
    cases split : splitQualifier front with
    | none =>
      have found := splitQualifier_append split back
      rw [append_assoc] at whole
      cases whole.symm.trans found
    | some parts =>
      have found := splitQualifier_append_of_eq_some split ([',', ' '] ++ back)
      rw [append_assoc] at whole
      cases whole.symm.trans found
  · intro free
    cases split : splitQualifier l with
    | none => rfl
    | some parts => exact absurd ⟨parts.1, parts.2, by simp [splitQualifier_eq_some split]⟩ free

theorem splitQualifier_front (h : splitQualifier l = some (front, back)) :
    splitQualifier front = none := by
  cases split : splitQualifier front with
  | none => rfl
  | some parts =>
    have longer := splitQualifier_append_of_eq_some split (',' :: ' ' :: back)
    rw [← splitQualifier_eq_some h, h] at longer
    have same : front = parts.1 := congrArg Prod.fst (Option.some.inj longer)
    have inside := congrArg List.length (splitQualifier_eq_some split)
    rw [← same] at inside
    simp at inside

/-- What suffixes look like: there is no comma and blank in them, and they start with neither. -/
structure Tail (s : List Char) : Prop where
  whole : splitQualifier s = none
  opens : ∃ c rest, s = c :: rest ∧ c ≠ ',' ∧ c ≠ ' '

namespace Tail

variable {a s s' : List Char}

theorem append_eq_none_iff (tail : Tail s) :
    splitQualifier (a ++ s) = none ↔ splitQualifier a = none := by
  constructor
  · intro whole
    cases split : splitQualifier a with
    | none => rfl
    | some parts => cases whole.symm.trans (splitQualifier_append_of_eq_some split s)
  · intro whole
    fun_induction splitQualifier a with
    | case1 rest => cases whole
    | case2 c rest here ih =>
      obtain ⟨d, more, rfl, _, notBlank⟩ := tail.opens
      have behind : rest = [] → ∀ tail, d :: more ≠ ' ' :: tail :=
        fun _ tail same => notBlank (List.cons.inj same).1
      rw [splitQualifier_cons_append here behind, ih (map_eq_none_iff.1 whole)]
      rfl
    | case3 => exact tail.whole

theorem append (tail : Tail s) (tail' : Tail s') : Tail (s ++ s') := by
  obtain ⟨c, rest, opens, notComma, notBlank⟩ := tail.opens
  exact ⟨tail'.append_eq_none_iff.2 tail.whole, c, rest ++ s', by rw [opens]; rfl, notComma, notBlank⟩

theorem append_ne (tail : Tail s) (x y z : List Char) : x ++ (s ++ y) ≠ x ++ (',' :: z) := by
  obtain ⟨c, rest, rfl, notComma, _⟩ := tail.opens
  intro same
  exact notComma (List.cons.inj (append_cancel_left same)).1

end Tail

/-- Puts a suffix in front of the first comma and blank of a text, or at its end. -/
def insertSuffix (name suffix : List Char) : List Char :=
  match splitQualifier name with
  | some (front, back) => front ++ (suffix ++ ',' :: ' ' :: back)
  | none => name ++ suffix

theorem insertSuffix_insertSuffix {s s' : List Char} (tail : Tail s) :
    insertSuffix (insertSuffix name s) s' = insertSuffix name (s ++ s') := by
  rw [insertSuffix.eq_def name, insertSuffix.eq_def name]
  cases split : splitQualifier name with
  | none => rw [insertSuffix, tail.append_eq_none_iff.2 split, append_assoc]
  | some parts =>
    have front : splitQualifier (parts.1 ++ s) = none :=
      tail.append_eq_none_iff.2 (splitQualifier_front split)
    simp only [insertSuffix, ← append_assoc, splitQualifier_append front]

theorem toList_suffixed (element : TypeSig) (name suffix : String) :
    (suffixed element name suffix).toList =
      if isGeneric element then name.toList ++ suffix.toList
      else insertSuffix name.toList suffix.toList := by
  rw [suffixed, insertSuffix]
  cases splitQualifier name.toList with
  | none => simp
  | some parts => cases isGeneric element <;> simp

theorem insertSuffix_nil (name : List Char) : insertSuffix name [] = name := by
  rw [insertSuffix]
  cases split : splitQualifier name with
  | none => exact append_nil name
  | some parts => exact (splitQualifier_eq_some split).symm

def spelled (generic : Bool) (name : List Char) : List String → List Char
  | [] => name
  | s :: rest =>
    insertSuffix (if generic then name ++ s.toList else insertSuffix name s.toList)
      (rest.flatMap String.toList)

theorem tail_flatMap (tails : ∀ s ∈ ss, Tail s.toList) (some : ss ≠ []) :
    Tail (ss.flatMap String.toList) := by
  induction ss with
  | nil => exact absurd rfl some
  | cons s rest ih =>
    have first := tails s mem_cons_self
    cases rest with
    | nil => simpa using first
    | cons s' rest =>
      exact first.append (ih (fun s member => tails s (mem_cons_of_mem _ member)) nofun)

theorem spelled_append_singleton {generic : Bool} (tails : ∀ s ∈ ss, Tail s.toList) :
    spelled generic name (ss ++ [s]) =
      if ss = [] ∧ generic = true then name ++ s.toList
      else insertSuffix (spelled generic name ss) s.toList := by
  cases ss with
  | nil => cases generic <;> simp [spelled, insertSuffix_nil]
  | cons first rest =>
    rw [if_neg (by simp), cons_append, spelled, spelled, flatMap_append]
    cases rest with
    | nil => simp [insertSuffix_nil]
    | cons second rest =>
      have tail : Tail ((second :: rest).flatMap String.toList) :=
        tail_flatMap (fun s member => tails s (mem_cons_of_mem _ member)) nofun
      rw [insertSuffix_insertSuffix tail]
      simp

theorem tail_bounds (shape : ArrayShape) : Tail (bounds shape).toList := by
  have spelling : (bounds shape).toList = '[' :: (List.replicate (shape.rank - 1) ',' ++ [']']) := by
    simp [bounds]
  refine ⟨splitQualifier_eq_none_iff.2 fun inside => ?_, '[', _, spelling, by decide, by decide⟩
  have blank : ' ' ∈ (bounds shape).toList := inside.subset (by simp)
  simp [spelling] at blank

theorem tail_of_mem_suffixes (member : s ∈ suffixes t) : Tail s.toList := by
  have append {ss : List String} {s' : String} (old : s ∈ ss → Tail s.toList) (new : Tail s'.toList)
      (member : s ∈ ss ++ [s']) : Tail s.toList := by
    rcases mem_append.1 member with h | h
    · exact old h
    · exact mem_singleton.1 h ▸ new
  fun_induction suffixes t with
  | case1 _ _ inner ih => exact ih member
  | case2 inner ih => exact ih member
  | case3 inner ih | case5 inner ih | case6 inner ih =>
    exact append ih ⟨rfl, _, _, rfl, by decide, by decide⟩ member
  | case4 element shape ih => exact append ih (tail_bounds shape) member
  | case7 => cases member

theorem isGeneric_iff (t : TypeSig) :
    isGeneric t = true ↔ suffixes t = [] ∧ isGeneric (innermost t) = true := by
  fun_induction innermost t with
  | case1 _ _ inner ih => exact ih
  | case2 inner ih => exact ih
  | case3 | case4 | case5 | case6 => simp [isGeneric, TypeSig.unmodified, suffixes]
  | case7 t =>
    rw [suffixes]
    · simp
    all_goals assumption

/-- The name of a type with base `b` is spelled from that of the innermost type, which has base `e` and
comes from assembly `q`. -/
structure Spells (m : Module) (t : TypeSig) (name e b : String) (q : Option String) : Prop where
  inner : base m (innermost t) = .ok e
  base : base m t = .ok b
  assembly : assembly m (innermost t) = .ok q
  tails : b.toList = e.toList ++ (suffixes t).flatMap String.toList
  name : name.toList = spelled (isGeneric (innermost t)) (withQualifier e q).toList (suffixes t)

namespace Spells

variable {m : Module} {t element : TypeSig} {s name e b : String} {q : Option String}

theorem suffixed (spells : Spells m element name e b q) (same : innermost t = innermost element)
    (more : suffixes t = suffixes element ++ [s])
    (longer : TypeName.base m t = (do return (← TypeName.base m element) ++ s)) :
    Spells m t (suffixed element name s) e (b ++ s) q where
  inner := same ▸ spells.inner
  base := by
    rw [longer, spells.base]
    rfl
  assembly := same ▸ spells.assembly
  tails := by simp [more, spells.tails]
  name := by
    have generic := isGeneric_iff element
    rw [toList_suffixed, more, same, spelled_append_singleton fun s =>
      tail_of_mem_suffixes, spells.name]
    by_cases last : suffixes element = [] ∧ isGeneric (innermost element) = true
    · rw [if_pos (generic.2 last), if_pos last, last.1, spelled]
    · rw [if_neg (mt generic.1 last), if_neg last]

theorem of_plain (same : innermost t = t) (none : suffixes t = []) (known : TypeName.base m t = .ok e)
    (qualified : TypeName.assembly m t = .ok q) (written : name = withQualifier e q) :
    Spells m t name e e q where
  inner := by rw [same, known]
  base := known
  assembly := by rw [same, qualified]
  tails := by simp [none]
  name := by rw [none, spelled, written]

end Spells

theorem spells_of_serialized {m : Module} {name : String} (h : serialized m t = .ok name) :
    ∃ e b q, Spells m t name e b q := by
  fun_induction innermost t generalizing name with
  | case1 _ _ inner ih | case2 inner ih =>
    rw [serialized] at h
    obtain ⟨e, b, q, spells⟩ := ih h
    exact ⟨e, b, q, { spells with }⟩
  | case3 element ih | case5 element ih | case6 element ih | case4 element _ ih =>
    rw [serialized] at h
    obtain ⟨elementName, named, same⟩ := bind_eq_ok.1 h
    cases same
    obtain ⟨e, b, q, spells⟩ := ih named
    exact ⟨e, _, q, spells.suffixed rfl rfl rfl⟩
  | case7 t notModified notPinned notVector notArray notPointer notReference =>
    cases t with
    | named id =>
      rw [serialized] at h
      obtain ⟨chain, enclosed, h⟩ := bind_eq_ok.1 h
      obtain ⟨q, qualified, same⟩ := bind_eq_ok.1 h
      cases same
      refine ⟨_, _, q, .of_plain rfl rfl ?_ ?_ rfl⟩
      · rw [base, enclosed]
        rfl
      · rw [assembly, enclosed]
        exact qualified
    | generic id arguments =>
      rw [serialized] at h
      obtain ⟨chain, enclosed, h⟩ := bind_eq_ok.1 h
      obtain ⟨names, all, h⟩ := bind_eq_ok.1 h
      obtain ⟨q, qualified, same⟩ := bind_eq_ok.1 h
      cases same
      refine ⟨nested chain ++ bracketed names, _, q, .of_plain rfl rfl ?_ ?_ rfl⟩
      · rw [base, enclosed, all]
        rfl
      · rw [assembly, enclosed]
        exact qualified
    | primitive p =>
      rw [serialized] at h
      cases h
      exact ⟨"System." ++ p.systemName, _, none, .of_plain rfl rfl rfl rfl rfl⟩
    | modified i required inner => exact absurd rfl (notModified i required inner)
    | pinned inner => exact absurd rfl (notPinned inner)
    | vector element => exact absurd rfl (notVector element)
    | array element shape => exact absurd rfl (notArray element shape)
    | pointer pointee =>
      cases pointee with
      | none => cases h
      | some inner => exact absurd rfl (notPointer inner)
    | reference inner => exact absurd rfl (notReference inner)
    | typeParameter | methodParameter | functionPointer => cases h

def behind (q : Option String) : List Char := q.elim [] fun assembly => ',' :: ' ' :: assembly.toList

theorem toList_withQualifier (base : String) (q : Option String) :
    (withQualifier base q).toList = base.toList ++ behind q := by
  cases q <;> simp [withQualifier, behind]

section

variable {e s s' : List Char} {q : Option String}

theorem insertSuffix_behind_iff (tail : Tail s) :
    insertSuffix (e ++ behind q) s = e ++ s ++ behind q ↔ splitQualifier e = none := by
  constructor
  · intro same
    cases split : splitQualifier e with
    | none => rfl
    | some parts =>
      rw [insertSuffix, splitQualifier_append_of_eq_some split] at same
      nth_rewrite 2 [splitQualifier_eq_some split] at same
      simp only [append_assoc, cons_append] at same
      exact (tail.append_ne _ _ _ same).elim
  · intro whole
    cases q with
    | none => simp [insertSuffix, behind, whole]
    | some assembly => simp [insertSuffix, behind, splitQualifier_append whole]

theorem append_behind_iff (tail : Tail s) : e ++ behind q ++ s = e ++ s ++ behind q ↔ q = none := by
  cases q with
  | none => simp [behind]
  | some assembly =>
    refine iff_of_false (fun same => ?_) nofun
    simp only [behind, elim_some, append_assoc, cons_append] at same
    exact tail.append_ne _ _ _ same.symm

/-- If one suffix is at the end, the next ones are not behind it unless there is no assembly. -/
theorem insertSuffix_append_behind_iff (tail : Tail s) (tail' : Tail s') :
    insertSuffix (e ++ behind q ++ s) s' = e ++ (s ++ s') ++ behind q ↔
      q = none ∧ splitQualifier e = none := by
  cases q with
  | none =>
    have plain := insertSuffix_behind_iff (e := e ++ s) (q := none) tail'
    simp only [behind, elim_none, append_nil, append_assoc] at plain ⊢
    rw [plain, tail.append_eq_none_iff]
    simp
  | some assembly =>
    refine iff_of_false (fun same => ?_) nofun
    rw [append_assoc, insertSuffix] at same
    cases split : splitQualifier e with
    | some parts =>
      rw [splitQualifier_append_of_eq_some split] at same
      nth_rewrite 2 [splitQualifier_eq_some split] at same
      simp only [append_assoc, cons_append] at same
      exact tail'.append_ne _ _ _ same
    | none =>
      -- Both texts are split behind their suffixes, and one has a suffix more.
      simp only [behind, elim_some, cons_append, splitQualifier_append split,
        append_assoc, append_cancel_left_eq] at same
      have split := congrArg splitQualifier same
      rw [splitQualifier_append tail'.whole, ← append_assoc,
        splitQualifier_append (tail.append tail').whole] at split
      have fronts : s' = s ++ s' := congrArg Prod.fst (Option.some.inj split)
      obtain ⟨c, rest, rfl, _⟩ := tail.opens
      have lengths := congrArg List.length fronts
      simp at lengths
      omega

end

/-- The name of a type is its base with the assembly behind it, and so has its suffixes in front of the
assembly, if they are in place and only then. -/
theorem serialized_eq_iff {m : Module} {t : TypeSig} {name : String} (h : serialized m t = .ok name) :
    ∃ b q, base m t = .ok b ∧ assembly m (innermost t) = .ok q ∧
      (name = withQualifier b q ↔ InPlace t b q) := by
  obtain ⟨e, b, q, spells⟩ := spells_of_serialized h
  refine ⟨b, q, spells.base, spells.assembly, ?_⟩
  have tails : ∀ s ∈ suffixes t, Tail s.toList := fun s => tail_of_mem_suffixes
  rw [← String.toList_inj, spells.name, toList_withQualifier, toList_withQualifier, InPlace]
  cases ending : suffixes t with
  | nil => simp [spells.tails, ending, spelled]
  | cons s rest =>
      rw [ending] at tails
      have all : Tail ((s :: rest).flatMap String.toList) := tail_flatMap tails nofun
      have first : Tail s.toList := tails s List.mem_cons_self
      have whole : ¬ [',', ' '] <:+: b.toList ↔ splitQualifier e.toList = none := by
        rw [← splitQualifier_eq_none_iff, spells.tails, ending, all.append_eq_none_iff]
      rw [spells.tails, ending] at whole ⊢
      cases isGeneric (innermost t) with
      | false =>
          have joined : insertSuffix (insertSuffix (e.toList ++ behind q) s.toList)
              (rest.flatMap String.toList) =
                insertSuffix (e.toList ++ behind q) ((s :: rest).flatMap String.toList) :=
            insertSuffix_insertSuffix first
          simp only [spelled, Bool.false_eq_true, if_false, joined, insertSuffix_behind_iff all, whole]
      | true =>
          cases rest with
          | nil =>
              have one : e.toList ++ behind q ++ s.toList = e.toList ++ s.toList ++ behind q ↔
                  q = none :=
                append_behind_iff first
              simpa [spelled, insertSuffix_nil] using one
          | cons s' rest =>
              have others : Tail ((s' :: rest).flatMap String.toList) :=
                tail_flatMap (fun s member => tails s (List.mem_cons_of_mem _ member)) nofun
              have two := insertSuffix_append_behind_iff first others (e := e.toList) (q := q)
              simp only [spelled, if_true, whole]
              exact two

def shelf : Module where
  name := "Shelf"
  types := #[.globals,
    { name := "List`1", typeNamespace := some "System.Collections.Generic", scope := .assembly ⟨0⟩ }]
  assemblyReferences := #[{ name := "mscorlib", version := ⟨4, 0, 0, 0⟩ }]

/-- The brackets of a vector of such a type are behind the assembly. -/
theorem serialized_eq_iff_shelf :
    ∃ name b q, serialized shelf (.vector (.generic ⟨1⟩ [.primitive .int32])) = .ok name ∧
      name = "System.Collections.Generic.List`1[[System.Int32]], mscorlib, Version=4.0.0.0, " ++
        "Culture=neutral, PublicKeyToken=null[]" ∧
      base shelf (.vector (.generic ⟨1⟩ [.primitive .int32])) = .ok b ∧
      assembly shelf (.generic ⟨1⟩ [.primitive .int32]) = .ok q ∧ name ≠ withQualifier b q := by
  have known : (serialized shelf (.vector (.generic ⟨1⟩ [.primitive .int32]))).toOption =
      some ("System.Collections.Generic.List`1[[System.Int32]], mscorlib, Version=4.0.0.0, " ++
        "Culture=neutral, PublicKeyToken=null[]") := by
    decide +kernel
  have named := eq_ok_of_toOption known
  obtain ⟨b, q, hb, hq, placed⟩ := serialized_eq_iff named
  refine ⟨_, b, q, named, rfl, hb, hq, fun same => ?_⟩
  obtain rfl : q = none := placed.1 same
  have external : (assembly shelf (.generic ⟨1⟩ [.primitive .int32])).toOption ≠ some none := by
    decide +kernel
  rw [show assembly shelf (.generic ⟨1⟩ [.primitive .int32]) = .ok none from hq] at external
  exact external rfl

end TypeName
end Cil
