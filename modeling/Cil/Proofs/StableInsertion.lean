import Cil.Proofs.CellWidths
import Cil.Proofs.Growth
import Mathlib.Data.List.Lex

/-!
Tables that are kept sorted. Each row goes behind the last one that is not greater, and in a sorted
table that is behind all such rows: so the rows stay sorted, none is lost, and those with one key are in
the order in which they were inserted. The order of rows is that of what is stored in their key columns.
-/

namespace Cil

open List TableRow CodedIndex

theorem insertIdx_length {α : Type} (a : α) (front back : List α) :
    (front ++ back).insertIdx front.length a = front ++ a :: back := by
  induction front with
  | nil => rfl
  | cons b front ih => simp [ih]

namespace SortedRow

theorem keyLe_iff_not_lex {as bs : List Nat} : keyLe as bs = true ↔ ¬ List.Lex (· < ·) bs as := by
  induction as generalizing bs with
  | nil => simp [keyLe]
  | cons a as ih =>
    cases bs with
    | nil => simp [keyLe]
    | cons b bs =>
      simp only [keyLe, Bool.or_eq_true, Bool.and_eq_true, decide_eq_true_eq, beq_iff_eq, ih,
        cons_lex_cons_iff, not_or, not_and, Nat.not_lt]
      constructor
      · rintro (less | ⟨rfl, rest⟩)
        · exact ⟨Nat.le_of_lt less, fun same => absurd less (same ▸ Nat.lt_irrefl b)⟩
        · exact ⟨Nat.le_refl a, fun _ => rest⟩
      · rintro ⟨least, rest⟩
        rcases Nat.lt_or_eq_of_le least with less | rfl
        · exact .inl less
        · exact .inr ⟨rfl, rest rfl⟩

theorem keyLe_iff_le {as bs : List Nat} : keyLe as bs = true ↔ as ≤ bs :=
  keyLe_iff_not_lex.trans (not_lt (a := bs))

variable {α : Type} [SortedRow α]

variable {list rows : List α}

theorem le_iff {a b : α} : le a b = true ↔ key a ≤ key b := keyLe_iff_le

/-- What lies behind the place of a row is greater, and right before it is a row that is not. -/
theorem upperBound_spec (rows : Array α) (row : α) (n : Nat) :
    (∀ i r, upperBound rows row n ≤ i → i < n → rows[i]? = some r → ¬ key r ≤ key row) ∧
      (∀ i, upperBound rows row n = i + 1 → ∃ r, rows[i]? = some r ∧ key r ≤ key row) := by
  induction n with
  | zero => exact ⟨fun i r _ h => absurd h (Nat.not_lt_zero i), nofun⟩
  | succ n ih =>
    obtain ⟨above, below⟩ := ih
    have lower (h : ∀ r, rows[n]? = some r → ¬ key r ≤ key row) :
        ∀ i r, upperBound rows row n ≤ i → i < n + 1 → rows[i]? = some r → ¬ key r ≤ key row := by
      intro i r low high here
      rcases Nat.lt_succ_iff_lt_or_eq.1 high with inside | rfl
      · exact above i r low inside here
      · exact h r here
    rw [upperBound]
    split
    case h_1 r here =>
      split
      case isTrue small =>
        refine ⟨fun i _ low high => absurd high (Nat.not_lt.2 low), fun i same => ?_⟩
        obtain rfl : n = i := by omega
        exact ⟨r, here, le_iff.1 small⟩
      case isFalse large =>
        refine ⟨lower fun r' here' => ?_, below⟩
        cases here.symm.trans here'
        exact fun small => large (le_iff.2 small)
    case h_2 missing =>
      refine ⟨lower fun r here => ?_, below⟩
      cases missing.symm.trans here

/-- Only the place of a row parts the rows that are not greater from those that are. A search by halves,
which finds a place that parts them, finds this one. -/
theorem position_unique {rows : Array α} {row : α} {place : Nat} (inside : place ≤ rows.size)
    (below : ∀ i r, i < place → rows[i]? = some r → key r ≤ key row)
    (above : ∀ i r, place ≤ i → rows[i]? = some r → ¬ key r ≤ key row) :
    position rows row = place := by
  obtain ⟨larger, last⟩ := upperBound_spec rows row rows.size
  rcases Nat.lt_trichotomy (position rows row) place with less | same | more
  · have here := Array.getElem?_eq_getElem (Nat.lt_of_lt_of_le less inside)
    exact absurd (below _ _ less here) (larger _ _ (Nat.le_refl _) (Nat.lt_of_lt_of_le less inside) here)
  · exact same
  · obtain ⟨k, same⟩ := Nat.exists_eq_succ_of_ne_zero (Nat.ne_of_gt (Nat.zero_lt_of_lt more))
    obtain ⟨r, here, small⟩ := last k same
    exact absurd small (above k r (by omega) here)

def into (rows : List α) (row : α) : List α := (insert rows.toArray row).toList

theorem into_eq (sorted : rows.Pairwise (key · ≤ key ·)) (row : α) :
    ∃ front back, rows = front ++ back ∧ into rows row = front ++ row :: back ∧
      (∀ r ∈ front, key r ≤ key row) ∧ ∀ r ∈ back, ¬ key r ≤ key row := by
  have inside : position rows.toArray row ≤ rows.length := by
    simpa using position_le rows.toArray row
  obtain ⟨above, below⟩ := upperBound_spec rows.toArray row rows.length
  change (∀ i r, position rows.toArray row ≤ i → _) at above
  change (∀ i, position rows.toArray row = i + 1 → _) at below
  refine ⟨rows.take (position rows.toArray row), rows.drop (position rows.toArray row),
    (take_append_drop ..).symm, ?_, fun r hr => ?_, fun r hr => ?_⟩
  · have split := insertIdx_length row (rows.take (position rows.toArray row))
      (rows.drop (position rows.toArray row))
    rw [into, insert_eq, Array.toList_insertIdx]
    simpa [inside] using split
  · obtain ⟨i, hi, rfl⟩ := mem_take_iff_getElem.1 hr
    obtain ⟨k, same⟩ : ∃ k, position rows.toArray row = k + 1 :=
      Nat.exists_eq_succ_of_ne_zero (by omega)
    obtain ⟨last, here, small⟩ := below k same
    have known : rows[k]? = some last := by simpa using here
    obtain ⟨hk, rfl⟩ := List.getElem?_eq_some_iff.1 known
    by_cases same' : i = k
    · subst same'
      exact small
    · exact le_trans (pairwise_iff_getElem.1 sorted i k _ hk (by omega)) small
  · obtain ⟨i, hi, rfl⟩ := mem_iff_getElem.1 hr
    have here : position rows.toArray row + i < rows.length := by
      rw [length_drop] at hi
      omega
    exact above (position rows.toArray row + i) _ (Nat.le_add_right ..) here (by simp [here])

/-- Rows in the order of their keys: those of a list, where rows with one key are as in the list. -/
structure Arranged (key : α → List Nat) (list rows : List α) : Prop where
  sorted : rows.Pairwise (key · ≤ key ·)
  perm : rows.Perm list
  stable (k : List Nat) : rows.filter (key · == k) = list.filter (key · == k)

theorem Arranged.nil : Arranged (key : α → List Nat) [] [] :=
  ⟨.nil, .nil, fun _ => rfl⟩

theorem Arranged.into (h : Arranged key list rows) (row : α) :
    Arranged key (list ++ [row]) (into rows row) := by
  obtain ⟨front, back, rfl, placed, small, large⟩ := into_eq h.sorted row
  obtain ⟨sortedFront, sortedBack, between⟩ := pairwise_append.1 h.sorted
  rw [placed]
  refine ⟨?_, ?_, fun k => ?_⟩
  · refine pairwise_append.2 ⟨sortedFront, pairwise_cons.2 ⟨fun r hr => ?_, sortedBack⟩,
      fun a ha b hb => ?_⟩
    · exact (le_total (key r) (key row)).resolve_left (large r hr)
    · rcases mem_cons.1 hb with rfl | later
      · exact small a ha
      · exact between a ha b later
  · refine (perm_middle.trans (h.perm.cons row)).trans ?_
    exact (perm_append_singleton row list).symm
  · rw [filter_append, filter_append, ← h.stable k, filter_append, append_assoc]
    refine congrArg _ ?_
    by_cases same : key row = k
    · -- No row behind has that key, since all of them are greater.
      have none : back.filter (key · == k) = [] := by
        refine filter_eq_nil_iff.2 fun r hr equal => large r hr ?_
        exact le_of_eq ((beq_iff_eq.1 equal).trans same.symm)
      simp [same, none]
    · simp [same]

theorem Arranged.foldl (h : Arranged key list rows) (new : List α) :
    Arranged key (list ++ new) (new.foldl SortedRow.into rows) := by
  induction new generalizing list rows with
  | nil => simpa using h
  | cons row new ih => simpa using ih (h.into row)

omit [SortedRow α] in
theorem Arranged.map {β : Type} {key : β → List Nat} {f : α → β}
    (h : Arranged (fun a => key (f a)) list rows) : Arranged key (list.map f) (rows.map f) where
  sorted := pairwise_map.2 h.sorted
  perm := h.perm.map f
  stable k := by
    rw [filter_map, filter_map]
    exact congrArg (List.map f) (h.stable k)

end SortedRow

/-- The number that a cell stores: for a coded index its row number above its tag. -/
def Cell.code : Cell → Nat
  | number _ v => v
  | heap i => i.offset
  | row i => i.number
  | @coded k i => i.number * Nat.pow 2 k.tagBits + i.tag

def Table.keyColumns : Table → List Nat
  | interfaceImpl => [0, 1]
  | constant => [2]
  | customAttribute => [0]
  | fieldMarshal => [0]
  | declSecurity => [1]
  | classLayout => [2]
  | fieldLayout => [1]
  | methodSemantics => [2]
  | methodImpl => [0]
  | implMap => [1]
  | fieldRva => [1]
  | nestedClass => [0]
  | genericParam => [2, 0]
  | genericParamConstraint => [0]
  | _ => []

def TableRow.storedKey {t : Table} (row : t.Row) : List Nat :=
  t.keyColumns.filterMap fun i => ((cells row)[i]?).map Cell.code

theorem SortedRow.keyLe_pair {m n a b room : Nat} (ha : a < room) (hb : b < room) (as bs : List Nat) :
    keyLe (m :: a :: as) (n :: b :: bs) = keyLe ((m * room + a) :: as) ((n * room + b) :: bs) := by
  have step {m n : Nat} (h : m < n) : m * room + room ≤ n * room := by
    rw [← Nat.succ_mul]
    exact Nat.mul_le_mul_right room h
  have less : m * room + a < n * room + b ↔ m < n ∨ m = n ∧ a < b := by
    rcases Nat.lt_trichotomy m n with h | rfl | h
    · have := step h
      omega
    · omega
    · have := step h
      omega
  have same : m * room + a = n * room + b ↔ m = n ∧ a = b := by
    rcases Nat.lt_trichotomy m n with h | rfl | h
    · have := step h
      omega
    · omega
    · have := step h
      omega
  rw [Bool.eq_iff_iff]
  simp only [keyLe, Bool.or_eq_true, Bool.and_eq_true, decide_eq_true_eq, beq_iff_eq, less, same]
  constructor
  · rintro (first | ⟨first, second | ⟨second, rest⟩⟩)
    · exact .inl (.inl first)
    · exact .inl (.inr ⟨first, second⟩)
    · exact .inr ⟨⟨first, second⟩, rest⟩
  · rintro ((first | ⟨first, second⟩) | ⟨⟨first, second⟩, rest⟩)
    · exact .inl first
    · exact .inr ⟨first, .inl second⟩
    · exact .inr ⟨first, .inr ⟨second, rest⟩⟩

theorem CodedIndex.keyLe_code {k : Kind} (i j : CodedIndex k) (as bs : List Nat) :
    SortedRow.keyLe (i.number :: i.tag :: as) (j.number :: j.tag :: bs) =
      SortedRow.keyLe ((Cell.coded i).code :: as) ((Cell.coded j).code :: bs) :=
  SortedRow.keyLe_pair i.tag_lt j.tag_lt as bs

variable {t : Table} {inst : SortedRow t.Row}

theorem SortedRow.keyLe_storedKey (h : t.sortedRow? = some inst) (a b : t.Row) :
    keyLe (key a) (key b) = keyLe (storedKey a) (storedKey b) := by
  have plain (m n : Nat) {as bs as' bs' : List Nat} (rest : keyLe as bs = keyLe as' bs') :
      keyLe (m :: as) (n :: bs) = keyLe (m :: as') (n :: bs') := by
    rw [keyLe, keyLe, rest]
  cases t <;> cases h
  case interfaceImpl.refl => exact plain _ _ (keyLe_code _ _ [] [])
  case constant.refl => exact keyLe_code _ _ [] []
  case customAttribute.refl => exact keyLe_code _ _ [] []
  case fieldMarshal.refl => exact keyLe_code _ _ [] []
  case declSecurity.refl => exact keyLe_code _ _ [] []
  case methodSemantics.refl => exact keyLe_code _ _ [] []
  case implMap.refl => exact keyLe_code _ _ [] []
  case genericParam.refl => exact keyLe_code _ _ [_] [_]
  all_goals rfl

theorem SortedRow.Arranged.stored (h : t.sortedRow? = some inst) {list rows : List t.Row}
    (arranged : Arranged key list rows) : Arranged storedKey list rows := by
  have order {a b : t.Row} : key a ≤ key b ↔ storedKey a ≤ storedKey b := by
    rw [← keyLe_iff_le, ← keyLe_iff_le, keyLe_storedKey h]
  have same {a b : t.Row} : key a = key b ↔ storedKey a = storedKey b := by
    constructor
    · intro equal
      exact le_antisymm (order.1 (le_of_eq equal)) (order.1 (le_of_eq equal.symm))
    · intro equal
      exact le_antisymm (order.2 (le_of_eq equal)) (order.2 (le_of_eq equal.symm))
  refine ⟨arranged.sorted.imp order.1, arranged.perm, fun k => ?_⟩
  by_cases used : ∃ a ∈ list, storedKey a = k
  · obtain ⟨a, _, rfl⟩ := used
    have test : (fun r : t.Row => storedKey r == storedKey a) =
        fun r => key r == key a := by
      funext r
      rw [Bool.eq_iff_iff, beq_iff_eq, beq_iff_eq, same]
    rw [test]
    exact arranged.stable (key a)
  · have none {rows' : List t.Row} (hp : rows'.Perm list) :
        rows'.filter (storedKey · == k) = [] := by
      refine filter_eq_nil_iff.2 fun r hr equal => used ⟨r, hp.mem_iff.1 hr, beq_iff_eq.1 equal⟩
    rw [none arranged.perm, none (.refl list)]

end Cil
