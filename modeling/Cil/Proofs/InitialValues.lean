import Cil.Proofs.MemberTables
import Cil.Proofs.StableInsertion

/-!
Initial values of static fields. The places of their data are kept beside the rows that name the fields,
at the same positions; so they are sorted together, and each row has the place of its own data.
-/

namespace Cil

variable {s s' : Session}

theorem zip_insertIdx {α β : Type} {l : List α} {l' : List β} (same : l.length = l'.length) (i : Nat)
    (a : α) (b : β) : (l.insertIdx i a).zip (l'.insertIdx i b) = (l.zip l').insertIdx i (a, b) := by
  induction l generalizing l' i with
  | nil =>
    obtain rfl := List.length_eq_zero_iff.1 same.symm
    cases i <;> rfl
  | cons x l ih =>
    cases l' with
    | nil => cases same
    | cons y l' =>
      cases i with
      | zero => rfl
      | succ i => simp [ih (Nat.succ.inj same) i]

theorem SortedRow.upperBound_congr {α β : Type} [SortedRow α] [SortedRow β] {rows : Array α}
    {rows' : Array β} {row : α} {row' : β} (same : key row = key row')
    (keys : ∀ i : Nat, (rows[i]?).map key = (rows'[i]?).map key) (n : Nat) :
    upperBound rows row n = upperBound rows' row' n := by
  induction n with
  | zero => rfl
  | succ n ih =>
    have here := keys n
    rw [upperBound, upperBound]
    cases first : rows[n]? with
    | none =>
      rw [first, Option.map_none, eq_comm, Option.map_eq_none_iff] at here
      simp only [here, ih]
    | some r =>
      rw [first, Option.map_some, eq_comm, Option.map_eq_some_iff] at here
      obtain ⟨r', second, equal⟩ := here
      simp only [second, le, equal, same, ih]

/-- Rows with something beside them are sorted as the rows are. -/
instance Row.FieldRva.sortedWith : SortedRow (Row.FieldRva × DataSection × Nat) :=
  ⟨fun x => SortedRow.key x.1⟩

def Log.initialValues : Log (Row.FieldRva × DataSection × Nat) where
  part := .rows .fieldRva
  view s := s.tables.fieldRva.toList.zip s.fieldData.toList
  add := SortedRow.into
  spared h := by
    rw [h.fieldData (by simp)]
    exact congrArg (fun rows : Array Row.FieldRva => rows.toList.zip _)
      (h.rows (t := .fieldRva) (by simp))

/-- Each row has a place beside it. -/
def Session.Aligned (s : Session) : Prop := s.fieldData.size = s.tables.fieldRva.size

theorem Session.Aligned.extends (h : s.Extends (· ≠ .rows .fieldRva) s') (aligned : s.Aligned) :
    s'.Aligned := by
  have rows : s'.tables.fieldRva = s.tables.fieldRva := h.rows (t := .fieldRva) (by simp)
  rwa [Aligned, rows, h.fieldData (by simp)]

theorem SortedRow.zip_insert {rows : Array Row.FieldRva} {places : Array (DataSection × Nat)}
    (same : places.size = rows.size) (row : Row.FieldRva) (place : DataSection × Nat) :
    (insert rows row).toList.zip
        (places.insertIdxIfInBounds (position rows row) place).toList =
      into (rows.toList.zip places.toList) (row, place) := by
  have inside := position_le rows row
  have position_eq : position (rows.toList.zip places.toList).toArray (row, place) =
      position rows row := by
    have size : (rows.toList.zip places.toList).toArray.size = rows.size := by simp [same]
    rw [position, position, size]
    refine @upperBound_congr _ _ _ _ _ rows (row, place) row rfl (fun i => ?_) rows.size
    rcases Nat.lt_or_ge i rows.size with low | high
    · simp [low, same, key]
    · simp [high, same]
  have places_eq : (places.insertIdxIfInBounds (position rows row) place).toList =
      places.toList.insertIdx (position rows row) place := by
    rw [Array.insertIdxIfInBounds, dif_pos (same ▸ inside), Array.toList_insertIdx]
  rw [into, insert_eq, insert_eq, Array.toList_insertIdx, Array.toList_insertIdx, places_eq,
    zip_insertIdx (by simp [same]), position_eq]

-- A row that comes in front moves the other one, and the places move with them.
example :
    let early : Row.FieldRva := ⟨0, ⟨1⟩⟩
    let late : Row.FieldRva := ⟨0, ⟨2⟩⟩
    (SortedRow.insert #[late] early).toList.zip (Array.insertIdxIfInBounds #[(DataSection.sdata, 0)]
        (SortedRow.position #[late] early) (.sdata, 8)).toList =
      [(early, .sdata, 8), (late, .sdata, 0)] := by
  decide +kernel

/-- The data of an initial value stands at its place, which is a multiple of eight. -/
structure StaticData.Holds (d : StaticData) (at_ : DataSection × Nat) (initial : InitialValue) :
    Prop where
  place : at_.1 = initial.place
  aligned : at_.2 % 8 = 0
  data : initial.data <+: (d.buffer initial.place).toList.drop at_.2

namespace StaticData

variable {at_ : DataSection × Nat}

theorem size_alignEight (bytes : Array UInt8) :
    (alignEight bytes).size = bytes.size + (8 - bytes.size % 8) % 8 := by
  have bytes_eq : (alignEight bytes).toList = bytes.toList ++ Bytes.zeros
      (Bytes.padding 8 bytes.size) := by
    simp [alignEight]
  rw [← Array.length_toList, bytes_eq]
  simp [Bytes.zeros, Bytes.padding]

theorem alignEight_aligned (bytes : Array UInt8) : (alignEight bytes).size % 8 = 0 := by
  rw [size_alignEight]
  omega

theorem holds_append (d : StaticData) (initial : InitialValue) :
    (d.append initial.data initial.place).2.Holds
      (initial.place, (d.append initial.data initial.place).1) initial := by
  obtain ⟨data, place⟩ := initial
  cases place <;> exact ⟨rfl, alignEight_aligned _, by simp [append, buffer]⟩

theorem Holds.mono {d d' : StaticData} {initial : InitialValue} (h : d.Holds at_ initial)
    (under : (d.buffer initial.place).toList <+: (d'.buffer initial.place).toList) :
    d'.Holds at_ initial := by
  obtain ⟨more, same⟩ := under
  refine ⟨h.place, h.aligned, h.data.trans ?_⟩
  rw [← same, List.drop_append]
  exact List.prefix_append ..

def appendAll (d : StaticData) (vs : List InitialValue) : StaticData :=
  vs.foldl (fun d v => (d.append v.data v.place).2) d

def places : StaticData → List InitialValue → List (DataSection × Nat)
  | _, [] => []
  | d, v :: vs => (v.place, (d.append v.data v.place).1) :: (d.append v.data v.place).2.places vs

theorem appendAll_append (d : StaticData) (vs ws : List InitialValue) :
    (d.appendAll vs).appendAll ws = d.appendAll (vs ++ ws) := List.foldl_append.symm

theorem length_places (d : StaticData) (vs : List InitialValue) : (d.places vs).length = vs.length := by
  induction vs generalizing d with
  | nil => rfl
  | cons v vs ih => simp [places, ih]

theorem places_append (d : StaticData) (vs ws : List InitialValue) :
    d.places (vs ++ ws) = d.places vs ++ (d.appendAll vs).places ws := by
  induction vs generalizing d with
  | nil => rfl
  | cons v vs ih => simp [places, appendAll, ih]

theorem prefix_appendAll (d : StaticData) (vs : List InitialValue) (place : DataSection) :
    (d.buffer place).toList <+: ((d.appendAll vs).buffer place).toList := by
  induction vs generalizing d with
  | nil => exact List.prefix_refl _
  | cons v vs ih => exact (d.prefix_append v.data v.place place).trans (ih _)

theorem holds_places (d : StaticData) (vs : List InitialValue) :
    List.Forall₂ (fun v at_ => (d.appendAll vs).Holds at_ v) vs (d.places vs) := by
  induction vs generalizing d with
  | nil => exact .nil
  | cons v vs ih => exact .cons ((d.holds_append v).mono (prefix_appendAll _ vs v.place)) (ih _)

theorem size_le_place {d : StaticData} {vs : List InitialValue} (h : at_ ∈ d.places vs) :
    (d.buffer at_.1).size ≤ at_.2 := by
  induction vs generalizing d with
  | nil => cases h
  | cons v vs ih =>
    rcases List.mem_cons.1 h with rfl | later
    · obtain ⟨data, place⟩ := v
      cases place <;> simp [append, buffer, size_alignEight]
    · exact (d.prefix_append v.data v.place at_.1).length_le.trans (ih later)

/-- The one value ends before the other one starts, if they are in one section. -/
def Before (a b : InitialValue × DataSection × Nat) : Prop :=
  a.2.1 = b.2.1 → a.2.2 + a.1.data.length ≤ b.2.2

theorem pairwise_places (d : StaticData) (vs : List InitialValue) :
    (vs.zip (d.places vs)).Pairwise Before := by
  induction vs generalizing d with
  | nil => exact .nil
  | cons v vs ih =>
    refine .cons (fun x hx same => ?_) (ih _)
    have behind := size_le_place (List.of_mem_zip hx).2
    rw [← same] at behind
    refine Nat.le_trans (Nat.le_of_eq ?_) behind
    obtain ⟨data, place⟩ := v
    cases place <;> simp [append, buffer, ← Array.length_toList]

end StaticData

/-- The row of an initial value with the place of its data. -/
structure Session.Stores (s : Session) (x : Nat × InitialValue) (y : Row.FieldRva × DataSection × Nat) :
    Prop where
  row : y.1 = { rva := 0, field := ⟨x.1⟩ }
  data : s.staticData.Holds y.2 x.2

def Definition.initialValues (d : Definition) : List (Nat × InitialValue) :=
  d.fields.flatMap fun x => x.1.initialValue.toList.map (x.2, ·)

namespace Session

variable {xs : List (Nat × InitialValue)}

/-- The rows of some initial values, if they are appended to the data of the session. -/
def entries (s : Session) (xs : List (Nat × InitialValue)) : List (Row.FieldRva × DataSection × Nat) :=
  (xs.zip (s.staticData.places (xs.map (·.2)))).map fun x => (⟨0, ⟨x.1.1⟩⟩, x.2)

/-- The initial values are appended and their rows inserted. -/
structure Receives (s : Session) (xs : List (Nat × InitialValue)) (s' : Session) : Prop where
  data : s'.staticData = s.staticData.appendAll (xs.map (·.2))
  rows : s.Aligned → s'.Aligned ∧
    Log.initialValues.view s' = (s.entries xs).foldl SortedRow.into (Log.initialValues.view s)

theorem Receives.append {s₁ : Session} {ys : List (Nat × InitialValue)} (h : s.Receives xs s₁)
    (h' : s₁.Receives ys s') : s.Receives (xs ++ ys) s' where
  data := by rw [h'.data, h.data, List.map_append, ← StaticData.appendAll_append]
  rows aligned := by
    obtain ⟨aligned₁, first⟩ := h.rows aligned
    obtain ⟨aligned', second⟩ := h'.rows aligned₁
    have joined : s.entries (xs ++ ys) = s.entries xs ++ s₁.entries ys := by
      rw [entries, List.map_append, StaticData.places_append,
        List.zip_append (by simp [StaticData.length_places]), List.map_append, entries, entries, h.data]
    exact ⟨aligned', by rw [second, first, joined, List.foldl_append]⟩

theorem receives_forM {α : Type} {f : α → Emit Unit} {g : α → List (Nat × InitialValue)}
    (one : ∀ a {s s' : Session}, (f a).Runs s () s' → s.Receives (g a) s') {l : List α}
    (run : (l.forM f).Runs s () s') : s.Receives (l.flatMap g) s' := by
  induction l generalizing s with
  | nil =>
    obtain ⟨_, rfl⟩ := Emit.runs_pure.1 run
    exact ⟨rfl, fun aligned => ⟨aligned, rfl⟩⟩
  | cons a l ih =>
    obtain ⟨_, s₁, first, rest⟩ := Emit.runs_bind.1 run
    exact (one a first).append (ih rest)

theorem receives_fieldRvas (d : Definition) (run : (Populate.fieldRvas d).Runs s () s') :
    s.Receives d.initialValues s' := by
  refine receives_forM (fun x s s' run => ?_) run
  rw [List.map_eq_flatMap]
  refine receives_forM (fun initial s s' run => ?_) run
  simp only [Populate.fieldRva, Emit.runs_bind, Emit.runs_modifyGet, Emit.runs_modify,
    Emit.insert] at run
  obtain ⟨offset, s₁, first, position, s₂, second, third⟩ := run
  cases first
  cases second
  cases third
  refine ⟨rfl, fun aligned => ⟨?_, SortedRow.zip_insert aligned _ _⟩⟩
  have inside := SortedRow.position_le s.tables.fieldRva ⟨0, ⟨x.2⟩⟩
  have size := SortedRow.size_insert s.tables.fieldRva ⟨0, ⟨x.2⟩⟩
  refine Eq.trans ?_ size.symm
  rw [Array.insertIdxIfInBounds, dif_pos (aligned ▸ inside), Array.size_insertIdx, aligned]

theorem stores_zip (under : s.Under s') {places : List (DataSection × Nat)}
    (h : List.Forall₂ (fun x at_ => s.staticData.Holds at_ x.2) xs places) :
    List.Forall₂ s'.Stores xs ((xs.zip places).map fun x => (⟨0, ⟨x.1.1⟩⟩, x.2)) := by
  induction h with
  | nil => exact .nil
  | @cons x _ _ _ holds _ ih => exact .cons ⟨rfl, holds.mono (under.data x.2.place)⟩ ih

/-- In the end each row of an initial value has the place of its data, and no two values overlap. -/
theorem initialValues_of_emit {src : Source} {key : Option Bytes} {keepsSymbols : Bool}
    {area : CodeArea} (h : (Module.emit src key keepsSymbols).Runs (.ofModule src.module) area s) :
    s.Aligned ∧ ∃ new, List.Forall₂ s.Stores (src.definitions.flatMap (·.initialValues)) new ∧
      SortedRow.Arranged SortedRow.key new (s.tables.fieldRva.toList.zip s.fieldData.toList) ∧
      ((src.definitions.flatMap (·.initialValues)).map (·.2) |>.zip (new.map (·.2))).Pairwise
        StaticData.Before := by
  obtain ⟨s₀, s₁, s₂, _, extends₀, _, _, extends₁, here, _, _, extends₂⟩ :=
    Session.around_pass src key 11 (p := (_, src.definitions.forM Populate.fieldRvas)) rfl h
  have idle : ¬ Populate.Touched ((Populate.passes src key).take 11) (.rows .fieldRva) :=
    Populate.not_touched rfl (by simp) (by simp [Populate.passes])
  have fresh : (Session.ofModule src.module).Extends (· ≠ .rows .fieldRva) s₁ :=
    ((extends₀.mono fun part touched => touched.imp_right (by simp)).trans extends₁).mono
      fun part touched equal => idle (equal ▸ touched)
  have received := receives_forM (fun d => receives_fieldRvas d) here
  obtain ⟨aligned, rows⟩ := received.rows (Aligned.extends fresh rfl)
  have last : s₂.Extends (· ≠ .rows .fieldRva) s := extends₂.mono fun part touched => by
    rintro rfl
    exact absurd touched (Populate.not_touched rfl (by simp) (by simp))
  generalize src.definitions.flatMap (·.initialValues) = xs at received rows ⊢
  refine ⟨aligned.extends last, s₁.entries xs, ?_, ?_, ?_⟩
  · have holds := s₁.staticData.holds_places (xs.map (·.2))
    rw [← received.data, List.forall₂_map_left_iff] at holds
    exact stores_zip last.toUnder holds
  · have view : s.tables.fieldRva.toList.zip s.fieldData.toList = _ :=
      (Log.initialValues.spared last).trans rows
    rw [view, Log.initialValues.spared fresh]
    exact .foldl .nil _
  · have second : (s₁.entries xs).map (·.2) = s₁.staticData.places (xs.map (·.2)) := by
      rw [entries, List.map_map]
      exact List.map_snd_zip (by simp [StaticData.length_places])
    rw [second]
    exact StaticData.pairwise_places _ _

end Session
end Cil
