import Cil.Proofs.Growth
import Cil.Proofs.Runs
import Mathlib.Data.List.Nodup
import Mathlib.Data.List.Perm.Subperm
import Mathlib.Logic.Relation

/-!
The order of types. Every defined type is in it once and nothing else is; so the rows that a type is
given stay its own, and they follow those of the types before it.
-/

namespace Cil

open List
namespace Numbering

variable {i : Nat}

/-- The indices of the defined types that are declared in a type, or in none. -/
def declaredIn (outer : Option TypeId) (types : List (TypeInfo × Nat)) : List Nat :=
  (types.filter fun x => x.1.isDefined && x.1.declaringType == outer).map (·.2)

theorem mem_declaredIn {m : Module} {outer : Option TypeId} :
    i ∈ declaredIn outer m.types.toList.zipIdx ↔
      ∃ t, m.type? ⟨i⟩ = some t ∧ t.isDefined = true ∧ t.declaringType = outer := by
  simp [declaredIn, Module.type?, mem_zipIdx_iff_getElem?]

theorem nodup_filter_zipIdx (p : TypeInfo × Nat → Bool) (types : List TypeInfo) :
    ((types.zipIdx.filter p).map (·.2)).Nodup := by
  have indices : (types.zipIdx.map (·.2)).Nodup := by
    rw [zipIdx_map_snd]
    exact nodup_range'
  exact indices.sublist (filter_sublist.map _)

/-- The nesting says which types are declared where. -/
structure Nesting.Of (n : Nesting) (size : Nat) (types : List (TypeInfo × Nat)) : Prop where
  count : n.nested.size = size
  roots : n.roots = declaredIn none types
  nested {t : Nat} : t < size → n.nested[t]? = some (declaredIn (some ⟨t⟩) types)

theorem Nesting.Of.add {n : Nesting} {size index : Nat} {types : List (TypeInfo × Nat)}
    (h : n.Of size types) (t : TypeInfo) : (n.add t index).Of size ((t, index) :: types) := by
  unfold Nesting.add
  split
  case isFalse external =>
    have same (outer : Option TypeId) :
        declaredIn outer ((t, index) :: types) = declaredIn outer types := by
      simp [declaredIn, external]
    exact ⟨h.count, by rw [same, h.roots], fun inside => by rw [same, h.nested inside]⟩
  case isTrue defined =>
    have more (outer : Option TypeId) : declaredIn outer ((t, index) :: types) =
        if t.declaringType = outer then index :: declaredIn outer types
        else declaredIn outer types := by
      simp only [declaredIn, filter_cons, defined, Bool.true_and, beq_iff_eq]
      split <;> rfl
    split
    case h_1 outer declared =>
      refine ⟨by simp [h.count], by simp [more, declared, h.roots], fun {i} inside => ?_⟩
      rw [more, declared, Array.getElem?_modify, h.nested inside]
      by_cases same : outer.index = i
      · simp [← same]
      · have other : outer ≠ ⟨i⟩ := fun eq => same (congrArg TypeId.index eq)
        simp [same, other]
    case h_2 declared =>
      refine ⟨h.count, by simp [more, declared, h.roots], fun inside => ?_⟩
      rw [more, declared, if_neg (by simp), h.nested inside]

theorem Nesting.of_ofModule (m : Module) :
    (Nesting.ofModule m).Of m.types.size m.types.toList.zipIdx := by
  rw [Nesting.ofModule]
  induction m.types.toList.zipIdx with
  | nil => exact ⟨by simp, rfl, fun h => by simp [declaredIn, h]⟩
  | cons x types ih => exact ih.add x.1

theorem nodup_preorder {nested : Nat → List Nat} {outer : Nat → Option Nat}
    (inner : ∀ {t x}, x ∈ nested t → outer x = some t) (distinct : ∀ t, (nested t).Nodup)
    {fuel : Nat} {visited stack : List Nat} (h : (visited ++ stack).Nodup)
    (known : ∀ x ∈ visited ++ stack, ∀ t, outer x = some t → t ∈ visited) :
    (visited ++ preorder nested fuel stack).Nodup := by
  induction fuel generalizing visited stack with
  | zero => exact h.sublist (by simp [preorder])
  | succ fuel ih =>
    cases stack with
    | nil => simpa [preorder] using h
    | cons t stack =>
      have fresh : t ∉ visited := fun old =>
        (nodup_append.1 h).2.2 t old t mem_cons_self rfl
      have apart : ∀ x ∈ nested t, x ∉ visited ++ t :: stack := fun x hx old =>
        fresh (known x old t (inner hx))
      have shape : ((visited ++ [t]) ++ (nested t ++ stack)).Perm
          (nested t ++ (visited ++ t :: stack)) := by
        simpa using perm_append_comm_assoc (visited ++ [t]) (nested t) stack
      have next : ((visited ++ [t]) ++ preorder nested fuel (nested t ++ stack)).Nodup := by
        apply ih
        · rw [shape.nodup_iff]
          exact (distinct t).append h apart
        · intro x hx t' ht'
          rcases mem_append.1 (shape.mem_iff.1 hx) with new | old
          · obtain rfl := Option.some.inj ((inner new).symm.trans ht')
            simp
          · exact mem_append_left _ (known x old t' ht')
      simpa [preorder] using next

/-- What is reached is on the stack or nested in what is, in one step or more. -/
theorem reaches_of_mem {nested : Nat → List Nat} {fuel x : Nat} {stack : List Nat}
    (h : x ∈ preorder nested fuel stack) :
    ∃ t ∈ stack, Relation.ReflTransGen (fun outer inner => inner ∈ nested outer) t x := by
  induction fuel generalizing stack with
  | zero => cases h
  | succ fuel ih =>
    cases stack with
    | nil => cases h
    | cons t stack =>
      rcases mem_cons.1 h with rfl | later
      · exact ⟨x, mem_cons_self, .refl⟩
      · obtain ⟨t', stacked, reaches⟩ := ih later
        rcases mem_append.1 stacked with child | below
        · exact ⟨t, mem_cons_self, .head child reaches⟩
        · exact ⟨t', mem_cons_of_mem t below, reaches⟩

section

variable (m : Module)

theorem mem_roots (h : i ∈ (Nesting.ofModule m).roots) :
    ∃ t, m.type? ⟨i⟩ = some t ∧ t.isDefined = true ∧ t.declaringType = none :=
  mem_declaredIn.1 ((Nesting.of_ofModule m).roots ▸ h)

theorem nested_eq (outer : Nat) : (Nesting.ofModule m).nested.getD outer [] =
    if outer < m.types.size then declaredIn (some ⟨outer⟩) m.types.toList.zipIdx else [] := by
  have nesting := Nesting.of_ofModule m
  rw [Array.getD_eq_getD_getElem?]
  split
  case isTrue inside => rw [nesting.nested inside, Option.getD_some]
  case isFalse outside =>
    rw [Array.getElem?_eq_none (by rw [nesting.count]; omega), Option.getD_none]

theorem mem_nested {outer : Nat} (h : i ∈ (Nesting.ofModule m).nested.getD outer []) :
    ∃ t, m.type? ⟨i⟩ = some t ∧ t.isDefined = true ∧ t.declaringType = some ⟨outer⟩ := by
  rw [nested_eq] at h
  split at h
  · exact mem_declaredIn.1 h
  · cases h

theorem nodup_nested (outer : Nat) : ((Nesting.ofModule m).nested.getD outer []).Nodup := by
  rw [nested_eq]
  split
  · exact nodup_filter_zipIdx ..
  · exact .nil

def reached (fuel : Nat) : List Nat :=
  preorder (fun t => (Nesting.ofModule m).nested.getD t []) fuel (Nesting.ofModule m).roots

theorem nodup_reached (fuel : Nat) : (reached m fuel).Nodup := by
  have nodup := @nodup_preorder (fun t => (Nesting.ofModule m).nested.getD t [])
    (fun i => ((m.type? ⟨i⟩).bind (·.declaringType)).map (·.index)) (fun {t i} h => ?_)
    (nodup_nested m) fuel [] (Nesting.ofModule m).roots ?_ (fun i h t outer => ?_)
  · exact nodup
  · obtain ⟨info, known, _, declared⟩ := mem_nested m h
    simp [known, declared]
  · exact (Nesting.of_ofModule m).roots ▸ nodup_filter_zipIdx ..
  · obtain ⟨info, known, _, declared⟩ := mem_roots m h
    simp [known, declared] at outer

def defined : List Nat := (m.types.toList.zipIdx.filter (·.1.isDefined)).map (·.2)

theorem mem_defined : i ∈ defined m ↔ ∃ t, m.type? ⟨i⟩ = some t ∧ t.isDefined = true := by
  simp [defined, Module.type?, mem_zipIdx_iff_getElem?]

theorem length_defined : (defined m).length = m.types.toList.countP (·.isDefined) := by
  rw [defined, length_map, ← countP_eq_length_filter]
  conv_rhs => rw [← zipIdx_map_fst 0 m.types.toList, countP_map]
  rfl

theorem reached_subset_defined (fuel : Nat) : reached m fuel ⊆ defined m := by
  intro i h
  rw [mem_defined]
  obtain ⟨root, rooted, reaches⟩ := reaches_of_mem h
  rcases reaches.cases_tail with rfl | ⟨outer, _, child⟩
  · obtain ⟨t, known, isDefined, _⟩ := mem_roots m rooted
    exact ⟨t, known, isDefined⟩
  · obtain ⟨t, known, isDefined, _⟩ := mem_nested m child
    exact ⟨t, known, isDefined⟩

end

/-- The order lists every defined type once. -/
structure Lists (m : Module) (order : List TypeId) : Prop where
  nodup : order.Nodup
  mem_iff {id : TypeId} : id ∈ order ↔ ∃ t, m.type? id = some t ∧ t.isDefined = true

theorem lists_of_typeOrder {m : Module} {order : List TypeId} (h : typeOrder m = .ok order) :
    Lists m order := by
  obtain ⟨_, _, rest⟩ := Except.bind_eq_ok.1 h
  dsimp only at rest
  split at rest
  case isFalse => cases rest
  case isTrue complete =>
    obtain rfl := Except.ok.inj rest
    have count : (defined m).length ≤ (reached m m.types.size).length :=
      Nat.le_of_eq ((length_defined m).trans complete.symm)
    have perm := ((nodup_reached m _).subperm (reached_subset_defined m _)).perm_of_length_le count
    refine ⟨(nodup_reached m _).map fun _ _ eq => congrArg TypeId.index eq, fun {id} => ?_⟩
    rw [← mem_defined, ← perm.mem_iff]
    constructor
    · intro h
      obtain ⟨i, hi, rfl⟩ := mem_map.1 h
      exact hi
    · intro h
      exact mem_map.2 ⟨id.index, h, rfl⟩

def starts : Nat → List Nat → List Nat
  | _, [] => []
  | first, length :: rest => first :: starts (first + length) rest

theorem starts_append (first : Nat) (ks ls : List Nat) :
    starts first (ks ++ ls) = starts first ks ++ starts (first + ks.sum) ls := by
  induction ks generalizing first with
  | nil => rfl
  | cons k ks ih => simp [starts, ih, Nat.add_assoc]

def Counters.add (c : Counters) (t : TypeInfo) : Counters where
  type := c.type + 1
  field := c.field + t.fields.size
  method := c.method + t.methods.size
  param := c.param + (t.methods.toList.map paramCount).sum
  property := c.property + t.properties.size
  event := c.event + t.events.size

def Counters.after (c : Counters) (ts : List TypeInfo) : Counters := ts.foldl add c

theorem Counters.after_eq (c : Counters) (ts : List TypeInfo) : c.after ts = {
    type := c.type + ts.length
    field := c.field + (ts.map (·.fields.size)).sum
    method := c.method + (ts.map (·.methods.size)).sum
    param := c.param + (ts.map fun t => (t.methods.toList.map paramCount).sum).sum
    property := c.property + (ts.map (·.properties.size)).sum
    event := c.event + (ts.map (·.events.size)).sum } := by
  induction ts generalizing c with
  | nil => simp [after]
  | cons t ts ih =>
    rw [after, foldl_cons, ← after, ih]
    simp only [add, length_cons, map_cons, sum_cons, mk.injEq]
    omega

theorem length_starts (n : Nat) (ks : List Nat) : (starts n ks).length = ks.length := by
  induction ks generalizing n with
  | nil => rfl
  | cons k ks ih => simp [starts, ih]

theorem mem_starts {n k : Nat} {ks : List Nat} (h : k ∈ starts n ks) : n ≤ k ∧ k ≤ n + ks.sum := by
  induction ks generalizing n with
  | nil => cases h
  | cons size ks ih =>
    rw [sum_cons]
    rcases mem_cons.1 h with rfl | later
    · omega
    · have := ih later
      omega

def Counters.rows (c : Counters) (t : TypeInfo) : TypeRows where
  row := c.type
  firstField := c.field
  fieldCount := t.fields.size
  firstMethod := c.method
  methodCount := t.methods.size
  firstProperty := c.property
  firstEvent := c.event
  firstParams := (starts c.param (t.methods.toList.map paramCount)).toArray

def Counters.place : Counters → List TypeInfo → List Definition
  | _, [] => []
  | c, t :: ts => ⟨t, c.rows t⟩ :: (c.add t).place ts

theorem Counters.infos_place (c : Counters) (ts : List TypeInfo) : (c.place ts).map (·.info) = ts := by
  induction ts generalizing c with
  | nil => rfl
  | cons t ts ih => rw [place, map_cons, ih]

theorem paramRows_eq_ok {rows rows' : Array Nat} {next next' : Nat} {ms : List Method}
    (h : paramRows rows next ms = .ok (rows', next')) :
    rows'.toList = rows.toList ++ starts next (ms.map paramCount) ∧
      next' = next + (ms.map paramCount).sum := by
  induction ms generalizing rows next with
  | nil =>
    obtain ⟨rfl, rfl⟩ := Prod.mk.inj (Except.ok.inj h)
    simp [starts]
  | cons m ms ih =>
    rw [paramRows] at h
    split at h
    · cases h
    · simp [ih h, starts, Nat.add_assoc]

theorem typeRows_eq_ok {c c' : Counters} {t : TypeInfo} {r : TypeRows}
    (h : typeRows c t = .ok (r, c')) : r = c.rows t ∧ c' = c.add t := by
  obtain ⟨⟨firstParams, next⟩, params, made⟩ := Except.bind_eq_ok.1 h
  obtain ⟨rfl, rfl⟩ := Prod.mk.inj (Except.ok.inj made)
  obtain ⟨first, rfl⟩ := paramRows_eq_ok params
  obtain rfl := Array.toList_inj.1 first
  exact ⟨rfl, rfl⟩

theorem typeInfo_eq_ok {m : Module} {id : TypeId} {t : TypeInfo} (h : m.typeInfo id = .ok t) :
    m.type? id = some t := by
  rw [Module.typeInfo] at h
  cases found : m.type? id with
  | none =>
    rw [found] at h
    cases h
  | some info =>
    rw [found] at h
    exact congrArg some (Except.ok.inj h)

/-- The definition is what the module says of a type and the rows that it is given. -/
def Assigned (m : Module) (rows : Array (Option TypeRows)) (id : TypeId) (d : Definition) : Prop :=
  m.type? id = some d.info ∧ (rows[id.index]?).join = some d.rows

theorem number_eq_place {m : Module} {rows rows' : Array (Option TypeRows)} {c c' : Counters}
    {order : List TypeId} (nodup : order.Nodup) (size : rows.size = m.types.size)
    (h : number m rows c order = .ok (rows', c')) :
    (∃ ts, List.Forall₂ (Assigned m rows') order (c.place ts) ∧ c' = c.after ts) ∧
      ∀ id : TypeId, id ∉ order → rows'[id.index]? = rows[id.index]? := by
  induction order generalizing rows c with
  | nil =>
    obtain ⟨rfl, rfl⟩ := Prod.mk.inj (Except.ok.inj h)
    exact ⟨⟨[], .nil, rfl⟩, fun _ _ => rfl⟩
  | cons id order ih =>
    simp only [number, Except.bind_eq_ok] at h
    obtain ⟨t, info, ⟨r, c₁⟩, typed, rest⟩ := h
    obtain ⟨rfl, rfl⟩ := typeRows_eq_ok typed
    obtain ⟨fresh, nodup⟩ := nodup_cons.1 nodup
    obtain ⟨⟨ts, each, rfl⟩, others⟩ := ih nodup (by simpa using size) rest
    have here := typeInfo_eq_ok info
    have inside : id.index < rows.size := by
      rw [size]
      exact (Array.getElem?_eq_some_iff.1 here).1
    have own : (rows'[id.index]?).join = some (c.rows t) := by
      rw [others id fresh, Array.getElem?_setIfInBounds_self_of_lt inside]
      rfl
    refine ⟨⟨t :: ts, .cons ⟨here, own⟩ each, rfl⟩, fun id' other => ?_⟩
    rw [others id' (fun old => other (mem_cons_of_mem id old)),
      Array.getElem?_setIfInBounds_ne]
    rintro same
    exact other (mem_cons.2 (.inl (by cases id; cases id'; exact congrArg _ same.symm)))

/-- Each type is given the rows behind those of the types before it. -/
structure Placed (m : Module) (n : Numbering) (ts : List TypeInfo) : Prop where
  order : Lists m n.order
  each : List.Forall₂ (Assigned m n.rows) n.order (({} : Counters).place ts)
  only {id : TypeId} {r : TypeRows} : n.rows? id = some r → id ∈ n.order
  count : n.methodCount = (ts.map (·.methods.size)).sum

theorem placed_of_ofModule {m : Module} {n : Numbering} (h : ofModule m = .ok n) :
    ∃ ts, Placed m n ts := by
  simp only [ofModule, ofOrder, Except.bind_eq_ok] at h
  obtain ⟨_, _, order, ordered, ⟨rows, c⟩, numbered, result⟩ := h
  obtain rfl := Except.ok.inj result
  have lists := lists_of_typeOrder ordered
  obtain ⟨⟨ts, each, rfl⟩, others⟩ := number_eq_place lists.nodup (by simp) numbered
  refine ⟨ts, lists, each, fun {id r} known => by_contra fun other => ?_, ?_⟩
  · rw [rows?, others id other, Array.getElem?_replicate] at known
    split at known <;> cases known
  · rw [Counters.after_eq]
    exact Nat.add_sub_cancel_left ..

theorem Placed.definitions {m : Module} {n : Numbering} {ts : List TypeInfo} (h : Placed m n ts) :
    Source.definitions ⟨m, n⟩ = ({} : Counters).place ts := by
  have each := h.each
  rw [Source.definitions]
  dsimp only
  generalize ({} : Counters).place ts = ds at each
  generalize n.order = order at each
  induction each with
  | nil => rfl
  | cons first _ ih =>
    rw [filterMap_cons, ih, first.1, rows?, first.2]
    rfl

theorem Placed.assigned {m : Module} {n : Numbering} {ts : List TypeInfo} (h : Placed m n ts) :
    List.Forall₂ (Assigned m n.rows) n.order (Source.definitions ⟨m, n⟩) :=
  h.definitions ▸ h.each

end Numbering

open Cil.Numbering

/-- Definitions come in the order of their types, with rows that follow each other. -/
theorem Source.definitions_eq_place {m : Module} {n : Numbering} (h : Numbering.ofModule m = .ok n) :
    Lists m n.order ∧ ∃ ts, Source.definitions ⟨m, n⟩ = ({} : Counters).place ts ∧
      List.Forall₂ (Assigned m n.rows) n.order (Source.definitions ⟨m, n⟩) := by
  obtain ⟨ts, placed⟩ := placed_of_ofModule h
  exact ⟨placed.order, ts, placed.definitions, placed.assigned⟩

end Cil
