import Cil.Proofs.TypeOrder

/-!
Types and the types that are nested in them. The order of types follows them as trees: each type comes
before all that is nested in it, which follows it without a gap, and siblings come as in the module.
There is no order where some type does not lead, from declaring type to declaring type, to an outermost
one.
-/

namespace Cil

open List

/-- A defined type is declared in another one. -/
def Module.Declares (m : Module) (outer inner : TypeId) : Prop :=
  ∃ t, m.type? inner = some t ∧ t.isDefined = true ∧ t.declaringType = some outer

def Module.Defines (m : Module) (id : TypeId) : Prop := ∃ t, m.type? id = some t ∧ t.isDefined = true

/-- The type that is come to in so many steps from types to those that declare them. -/
def Module.declaring? (m : Module) : Nat → TypeId → Option TypeId
  | 0, id => some id
  | n + 1, id => ((m.type? id).bind (·.declaringType)).bind (m.declaring? n)

theorem Module.declaring?_succ {m : Module} {outer inner : TypeId} (h : m.Declares outer inner)
    (n : Nat) :
    m.declaring? (n + 1) inner = m.declaring? n outer := by
  obtain ⟨t, here, _, declared⟩ := h
  simp [declaring?, here, declared]

/-- The steps lead to a type that is not defined. -/
def Module.Escapes (m : Module) (id : TypeId) : Prop :=
  ∃ n outer, m.declaring? n id = some outer ∧ ¬ m.Defines outer

/-- The steps never end. -/
def Module.Endless (m : Module) (id : TypeId) : Prop := ∀ n, m.declaring? n id ≠ none

namespace Numbering

section

variable {nested : Nat → List Nat} {fuel x : Nat} {stack : List Nat}

/-- One part of the stack is finished before the other one is begun. -/
theorem preorder_append (front back : List Nat) : preorder nested fuel (front ++ back) =
    preorder nested fuel front ++
      preorder nested (fuel - (preorder nested fuel front).length) back := by
  induction fuel generalizing front with
  | zero => simp [preorder]
  | succ fuel ih =>
    cases front with
    | nil => simp [preorder]
    | cons t front => simp [preorder, ← append_assoc, ih]

/-- With fuel left, more fuel changes nothing. -/
theorem preorder_succ (h : (preorder nested (fuel + 1) stack).length ≤ fuel) :
    preorder nested fuel stack = preorder nested (fuel + 1) stack := by
  induction fuel generalizing stack with
  | zero => exact (length_eq_zero_iff.1 (Nat.le_zero.1 h)).symm
  | succ fuel ih =>
    cases stack with
    | nil => rfl
    | cons t stack =>
      rw [preorder, ih (by simpa [preorder] using h)]
      rfl

/-- A traversal that comes to its end keeps the order of the stack and goes into all that it meets. -/
theorem sublist_preorder (h : (preorder nested fuel stack).length < fuel) :
    stack.Sublist (preorder nested fuel stack) := by
  induction fuel generalizing stack with
  | zero => cases h
  | succ fuel ih =>
    cases stack with
    | nil => exact nil_sublist _
    | cons t stack =>
      have rest : (nested t ++ stack).Sublist _ := ih (by simpa [preorder] using h)
      exact ((sublist_append_right _ _).trans rest).cons_cons t

/-- Each type of the traversal is followed by the traversal of what is nested in it. -/
theorem preorder_split (h : (preorder nested fuel stack).length < fuel)
    (there : x ∈ preorder nested fuel stack) :
    ∃ front left back, preorder nested fuel stack = front ++
    x :: (preorder nested left (nested x) ++ back) ∧
      (preorder nested left (nested x)).length < left := by
  induction fuel generalizing stack with
  | zero => cases h
  | succ fuel ih =>
    cases stack with
    | nil => cases there
    | cons t stack =>
      rw [preorder] at h there ⊢
      have shorter := Nat.lt_of_succ_lt_succ h
      rcases mem_cons.1 there with rfl | later
      · refine ⟨[], fuel, _, by rw [preorder_append]; rfl, ?_⟩
        rw [preorder_append, length_append] at shorter
        omega
      · obtain ⟨front, left, back, split, short⟩ := ih shorter later
        exact ⟨t :: front, left, back, by rw [split]; rfl, short⟩

theorem closed_preorder (h : (preorder nested fuel stack).length < fuel) {t : Nat}
    (there : t ∈ preorder nested fuel stack) (child : x ∈ nested t) :
    x ∈ preorder nested fuel stack := by
  obtain ⟨front, left, back, split, short⟩ := preorder_split h there
  rw [split]
  simp [(sublist_preorder short).mem child]

theorem mem_of_reaches (h : (preorder nested fuel stack).length < fuel) {t : Nat} (stacked : t ∈ stack)
    (reaches : Relation.ReflTransGen (fun outer inner => inner ∈ nested outer) t x) :
    x ∈ preorder nested fuel stack := by
  induction reaches with
  | refl => exact (sublist_preorder h).mem stacked
  | tail _ child ih => exact closed_preorder h ih child

end

variable {m : Module} {i : Nat}

theorem length_reached_le (m : Module) (fuel : Nat) : (reached m fuel).length ≤ m.types.size :=
  calc (reached m fuel).length
    _ ≤ (defined m).length := ((nodup_reached m _).subperm (reached_subset_defined m _)).length_le
    _ ≤ m.types.toList.length := length_defined m ▸ countP_le_length
    _ = m.types.size := Array.length_toList

/-- The traversal of a module's types comes to its end before its fuel does. -/
theorem reached_eq {fuel : Nat} (enough : m.types.size ≤ fuel) :
    reached m fuel = reached m m.types.size := by
  induction enough with
  | refl => rfl
  | step enough ih => exact (preorder_succ (Nat.le_trans (length_reached_le m _) enough)).symm.trans ih

theorem reached_ends (m : Module) : reached m m.types.size = reached m (m.types.size + 1) ∧
    (reached m (m.types.size + 1)).length < m.types.size + 1 :=
  ⟨(reached_eq (Nat.le_succ _)).symm, Nat.lt_succ_of_le (length_reached_le m _)⟩

/-- The declaring types of defined types are there. -/
def Resolved (m : Module) : Prop := ∀ outer inner, m.Declares outer inner → (m.type? outer).isSome

theorem mem_nested_iff (h : Resolved m) {outer : Nat} :
    i ∈ (Nesting.ofModule m).nested.getD outer [] ↔ m.Declares ⟨outer⟩ ⟨i⟩ := by
  refine ⟨mem_nested m, fun declares => ?_⟩
  obtain ⟨t, there⟩ := Option.isSome_iff_exists.1 (h _ _ declares)
  rw [nested_eq, if_pos (Array.getElem?_eq_some_iff.1 there).1]
  exact mem_declaredIn.2 declares

/-- The types that are reached are those from which the steps to declaring types come to an end, through
defined types only. -/
theorem mem_reached_iff (h : Resolved m) : i ∈ reached m (m.types.size + 1) ↔
    (∃ n, m.declaring? n ⟨i⟩ = none) ∧ ∀ n outer, m.declaring? n ⟨i⟩ = some outer →
      m.Defines outer := by
  have ends := (reached_ends m).2
  constructor
  · intro there
    obtain ⟨root, rooted, reaches⟩ := reaches_of_mem there
    induction reaches with
    | refl =>
      obtain ⟨t, here, isDefined, none⟩ := mem_roots m rooted
      refine ⟨⟨1, by simp [Module.declaring?, here, none]⟩, fun n outer steps => ?_⟩
      cases n with
      | zero => exact Option.some.inj steps ▸ ⟨t, here, isDefined⟩
      | succ n => simp [Module.declaring?, here, none] at steps
    | tail below child ih =>
      obtain ⟨⟨n, stops⟩, all⟩ := ih (mem_of_reaches ends rooted below)
      have declares := mem_nested m child
      refine ⟨⟨n + 1, (Module.declaring?_succ declares n).trans stops⟩, fun n outer steps => ?_⟩
      cases n with
      | zero => exact Option.some.inj steps ▸ declares.imp fun _ h => ⟨h.1, h.2.1⟩
      | succ n => exact all n outer ((Module.declaring?_succ declares n).symm.trans steps)
  · rintro ⟨⟨n, stops⟩, all⟩
    induction n generalizing i with
    | zero => cases stops
    | succ n ih =>
      obtain ⟨t, here, isDefined⟩ := all 0 ⟨i⟩ rfl
      cases declared : t.declaringType with
      | none =>
        refine (sublist_preorder ends).mem ?_
        rw [(Nesting.of_ofModule m).roots]
        exact mem_declaredIn.2 ⟨t, here, isDefined, declared⟩
      | some outer =>
        have declares : m.Declares outer ⟨i⟩ := ⟨t, here, isDefined, declared⟩
        have next := Module.declaring?_succ declares
        have there := @ih outer.index (fun k x steps => all (k + 1) x ((next k).trans steps))
          ((next n).symm.trans stops)
        exact closed_preorder ends there ((mem_nested_iff h).2 declares)

/-- The order goes through the trees of types from outside to inside. -/
structure Follows (m : Module) (order : List TypeId) : Prop extends Lists m order where
  outerFirst {outer inner : TypeId} : m.Declares outer inner → [outer, inner].Sublist order
  together {id : TypeId} : id ∈ order → ∃ front inside back, order = front ++ id :: (inside ++ back) ∧
    ∀ x, x ∈ inside ↔ Relation.TransGen m.Declares id x
  siblings (outer : Option TypeId) :
    ((declaredIn outer m.types.toList.zipIdx).map TypeId.mk).Sublist order
  globals {t : TypeInfo} : m.type? ⟨0⟩ = some t → t.isDefined = true → t.declaringType = none →
    order.head? = some ⟨0⟩

theorem transGen_nested_iff (h : Resolved m) {id x : TypeId} :
    Relation.TransGen (fun outer inner => inner ∈ (Nesting.ofModule m).nested.getD outer []) id.index
      x.index ↔ Relation.TransGen m.Declares id x :=
  ⟨fun nested => nested.lift TypeId.mk fun _ _ => (mem_nested_iff h).1,
    fun declares => declares.lift TypeId.index fun _ _ => (mem_nested_iff h).2⟩

/-- All defined types are in an order that goes through the trees. -/
theorem follows_of_complete (h : Resolved m) {order : List Nat}
    (made : order = reached m (m.types.size + 1)) (lists : Lists m (order.map TypeId.mk)) :
    Follows m (order.map TypeId.mk) := by
  have ends := (reached_ends m).2
  have listed {outer inner : TypeId} (declares : m.Declares outer inner) : outer.index ∈ order := by
    obtain ⟨i, there, rfl⟩ := mem_map.1 (lists.mem_iff.2 (declares.imp fun _ h => ⟨h.1, h.2.1⟩))
    rw [made] at there ⊢
    obtain ⟨⟨n, stops⟩, all⟩ := (mem_reached_iff h).1 there
    have next := Module.declaring?_succ declares
    refine (mem_reached_iff h).2 ⟨?_, fun k x steps => all (k + 1) x ((next k).trans steps)⟩
    cases n with
    | zero => cases stops
    | succ n => exact ⟨n, (next n).symm.trans stops⟩
  -- what stands behind a type and its own types are what the traversal finds in it
  have split {id : TypeId} (there : id.index ∈ order) : ∃ front inside back,
      order.map TypeId.mk = front ++ id :: (inside.map TypeId.mk ++ back) ∧
      ((Nesting.ofModule m).nested.getD id.index []).Sublist inside ∧
      ∀ x : TypeId, x.index ∈ inside ↔ Relation.TransGen m.Declares id x := by
    obtain ⟨front, left, back, eq, short⟩ := preorder_split ends (made ▸ there)
    refine ⟨front.map TypeId.mk, _, back.map TypeId.mk, ?_, sublist_preorder short, fun x => ?_⟩
    · rw [made, reached, eq]
      simp
    · rw [← transGen_nested_iff h, Relation.TransGen.head'_iff]
      exact ⟨reaches_of_mem, fun ⟨t, child, reaches⟩ => mem_of_reaches short child reaches⟩
  refine ⟨lists, fun {outer inner} declares => ?_, fun {id} there => ?_, fun outer => ?_,
    fun {t} here isDefined none => ?_⟩
  · obtain ⟨front, inside, back, eq, _, all⟩ := split (listed declares)
    have there := mem_map_of_mem (f := TypeId.mk) ((all inner).2 (.single declares))
    rw [eq]
    refine List.Sublist.trans ?_ (sublist_append_right ..)
    exact (singleton_sublist.2 (mem_append_left _ there)).cons_cons outer
  · obtain ⟨i, place, rfl⟩ := mem_map.1 there
    obtain ⟨front, inside, back, eq, _, all⟩ := split place
    refine ⟨front, inside.map TypeId.mk, back, eq, fun x => ?_⟩
    rw [← all x, mem_map]
    exact ⟨fun ⟨_, inside, eq⟩ => eq ▸ inside, fun inside => ⟨_, inside, rfl⟩⟩
  · cases outer with
    | none =>
      rw [made, ← (Nesting.of_ofModule m).roots]
      exact (sublist_preorder ends).map _
    | some outer =>
      cases own : declaredIn (some outer) m.types.toList.zipIdx with
      | nil => exact nil_sublist _
      | cons i rest =>
        have declares : m.Declares outer ⟨i⟩ := mem_declaredIn.1 (own ▸ mem_cons_self)
        obtain ⟨t, here⟩ := Option.isSome_iff_exists.1 (h _ _ declares)
        obtain ⟨front, inside, back, eq, nested, _⟩ := split (listed declares)
        rw [nested_eq, if_pos (Array.getElem?_eq_some_iff.1 here).1, own] at nested
        rw [eq]
        exact ((nested.map _).trans (sublist_append_left ..)).trans
          ((sublist_cons_self ..).trans (sublist_append_right ..))
  · have roots : (Nesting.ofModule m).roots.head? = some 0 := by
      have first : m.types.toList[0]? = some t := by simpa [Module.type?] using here
      rw [(Nesting.of_ofModule m).roots]
      cases types : m.types.toList with
      | nil => simp [types] at first
      | cons t' ts =>
        obtain rfl : t' = t := by simpa [types] using first
        simp [declaredIn, isDefined, none]
    obtain ⟨rest, eq⟩ := List.head?_eq_some_iff.1 roots
    rw [made, reached, eq]
    rfl

/-- The declaring type of a type is there, if the type is defined. -/
def Attached (m : Module) (t : TypeInfo) : Prop :=
  t.isDefined = true → ∀ outer, t.declaringType = some outer → (m.type? outer).isSome

theorem resolved_iff : Resolved m ↔ ∀ t ∈ m.types.toList, Attached m t := by
  constructor
  · intro h t there isDefined outer declared
    obtain ⟨i, here⟩ := List.getElem?_of_mem there
    exact h outer ⟨i⟩ ⟨t, by simpa [Module.type?] using here, isDefined, declared⟩
  · rintro h outer inner ⟨t, here, isDefined, declared⟩
    exact h t (Array.mem_of_getElem? here).val isDefined outer declared

theorem checkDeclaring_cases (m : Module) (ts : List TypeInfo) :
    (checkDeclaring m ts = .ok () ∧ ∀ t ∈ ts, Attached m t) ∨
    (∃ id, checkDeclaring m ts = .error (.unresolved (.type id))) ∧ ¬ ∀ t ∈ ts, Attached m t := by
  induction ts with
  | nil => exact .inl ⟨rfl, fun _ h => nomatch h⟩
  | cons t ts ih =>
    by_cases attached : Attached m t
    · have skip : checkDeclaring m (t :: ts) = checkDeclaring m ts := by
        rw [checkDeclaring]
        split
        case isTrue isDefined =>
          split
          case h_1 outer declared =>
            obtain ⟨info, here⟩ := Option.isSome_iff_exists.1 (attached isDefined outer declared)
            rw [Module.typeInfo, here]
            rfl
          case h_2 => rfl
        case isFalse => rfl
      rw [skip]
      simpa [attached] using ih
    · refine .inr ⟨?_, fun all => attached (all t mem_cons_self)⟩
      simp only [Attached, Classical.not_imp, not_forall] at attached
      obtain ⟨isDefined, outer, declared, missing⟩ := attached
      refine ⟨outer, ?_⟩
      rw [checkDeclaring, if_pos isDefined, declared]
      dsimp only
      rw [Module.typeInfo, Option.not_isSome_iff_eq_none.1 missing]
      rfl

/-- A type is not reached where it leads away or on and on. -/
theorem notMem_reached_iff (h : Resolved m) :
    i ∉ reached m m.types.size ↔ m.Escapes ⟨i⟩ ∨ m.Endless ⟨i⟩ := by
  rw [(reached_ends m).1, mem_reached_iff h, not_and_or, or_comm]
  simp [Module.Escapes, Module.Endless]

/-- An order of types goes through them as trees. There is none only if a declaring type is missing, or if
some type leads to no outermost one. The traversal ends of itself: more fuel than there are types changes
nothing. -/
theorem typeOrder_follows (m : Module) : (∀ order, typeOrder m = .ok order → Follows m order) ∧
    ((∃ cause, typeOrder m = .error (.violation cause)) ↔
      Resolved m ∧ ∃ id, m.Defines id ∧ (m.Escapes id ∨ m.Endless id)) ∧
    ∀ fuel, m.types.size ≤ fuel → reached m fuel = reached m m.types.size := by
  refine and_assoc.1 ⟨?_, fun _ => reached_eq⟩
  rcases checkDeclaring_cases m m.types.toList with ⟨passes, all⟩ | ⟨⟨id, fails⟩, detached⟩
  · have resolved := resolved_iff.2 all
    have made : typeOrder m = if (reached m m.types.size).length = m.types.toList.countP
        (·.isDefined) then
        .ok ((reached m m.types.size).map TypeId.mk)
        else .error (.violation (.detachedTypes
          (m.types.toList.countP (·.isDefined) - (reached m m.types.size).length))) := by
      rw [typeOrder, passes]
      rfl
    split at made
    case isTrue complete =>
      have lists := lists_of_typeOrder made
      refine ⟨fun order ordered => ?_, fun ⟨_, fails⟩ => ?_, fun ⟨_, id, defines, leads⟩ => ?_⟩
      · obtain rfl := Except.ok.inj (made.symm.trans ordered)
        exact follows_of_complete resolved (reached_ends m).1 lists
      · cases made.symm.trans fails
      · obtain ⟨i, there, rfl⟩ := List.mem_map.1 (lists.mem_iff.2 defines)
        exact absurd there ((notMem_reached_iff resolved).2 leads)
    case isFalse short =>
      refine ⟨fun order ordered => ?_, fun _ => ⟨resolved, ?_⟩, fun _ => ⟨_, made⟩⟩
      · cases made.symm.trans ordered
      · by_contra none
        have subset : defined m ⊆ reached m m.types.size := fun i there => by
          by_contra missing
          exact none ⟨⟨i⟩, (mem_defined m).1 there, (notMem_reached_iff resolved).1 missing⟩
        have nodup : (defined m).Nodup := nodup_filter_zipIdx ..
        have more := (nodup.subperm subset).length_le
        have fewer := ((nodup_reached m m.types.size).subperm (reached_subset_defined m _)).length_le
        rw [length_defined] at more fewer
        exact short (Nat.le_antisymm fewer more)
  · have refused : typeOrder m = .error (.unresolved (.type id)) := by
      rw [typeOrder, fails]
      rfl
    refine ⟨fun order ordered => ?_, fun ⟨_, fails⟩ => ?_, fun ⟨resolved, _⟩ => ?_⟩
    · cases refused.symm.trans ordered
    · cases refused.symm.trans fails
    · exact absurd (resolved_iff.1 resolved) detached

/-- A type that stands before the one that it is nested in. -/
def library : Module where
  name := "Library"
  types := #[.globals, { name := "Book", declaringType := some ⟨3⟩ }, { name := "Desk" },
    { name := "Shelf" }]

/-- A type that is nested in itself. -/
def spiral : Module where
  name := "Spiral"
  types := #[.globals, { name := "Turn", declaringType := some ⟨1⟩ }]

theorem typeOrder_follows_library : Follows library [⟨0⟩, ⟨2⟩, ⟨3⟩, ⟨1⟩] ∧
    (∃ cause, typeOrder spiral = .error (.violation cause)) ∧
    ∃ id, spiral.Defines id ∧ (spiral.Escapes id ∨ spiral.Endless id) :=
  have refused : ∃ cause, typeOrder spiral = .error (.violation cause) := ⟨_, rfl⟩
  ⟨(typeOrder_follows library).1 _ rfl, refused, ((typeOrder_follows spiral).2.1.1 refused).2⟩

end Numbering
end Cil
