import Cil.Proofs.StableInsertion

/-!
Coded indices and their codes. A code is found from its index and an index from its code, the reserved
code of null apart; and the order of indices is that of their codes.
-/

namespace Cil
namespace CodedIndex

variable {k : Kind} {i j : CodedIndex k} {code word : Nat}

theorem Kind.tag_of_table? {tag : Nat} {t : Table} (h : k.table? tag = some t) : k.tag t = tag := by
  have bound : tag < k.slots.length := by
    have slot : k.slots[tag]? = some (some t) := by simpa [table?, Option.join_eq_some_iff] using h
    exact (List.getElem?_eq_some_iff.1 slot).1
  have each : ∀ n < k.slots.length, (k.table? n).all (k.tag · = n) := by cases k <;> decide
  simpa [h] using each tag bound

theorem Kind.table?_eq_none_iff {tag : Nat} : k.table? tag = none ↔ ∀ t ∈ k.tables, k.tag t ≠ tag := by
  constructor
  · rintro missing t mem rfl
    cases missing.symm.trans (table?_tag mem)
  · intro unused
    cases found : k.table? tag with
    | none => rfl
    | some t => exact absurd (tag_of_table? found) (unused t (mem_tables found))

theorem encode_eq_ok_iff : i.encode = .ok code ↔
    i.number < Nat.pow 2 (32 - k.tagBits) ∧ i.number * Nat.pow 2 k.tagBits + i.tag = code := by
  rw [encode]
  split
  case isTrue small => exact ⟨fun same => ⟨small, Except.ok.inj same⟩, fun same => same.2 ▸ rfl⟩
  case isFalse large =>
    constructor
    · intro same
      cases same
    · intro same
      exact absurd same.1 large

theorem le_iff_code_le : i.le j = true ↔
    i.number * Nat.pow 2 k.tagBits + i.tag ≤ j.number * Nat.pow 2 k.tagBits + j.tag := by
  have order := SortedRow.keyLe_pair (m := i.number) (n := j.number) i.tag_lt j.tag_lt [] []
  rw [Bool.eq_iff_iff] at order
  simp only [SortedRow.keyLe, Bool.or_eq_true, Bool.and_eq_true, decide_eq_true_eq, beq_iff_eq,
    and_true] at order
  simp only [le, Bool.or_eq_true, Bool.and_eq_true, decide_eq_true_eq, beq_iff_eq]
  omega

/-- The index that is read from a code has that code. -/
theorem encode_of_decode (bound : word < Nat.pow 2 32) (h : decode k word = .ok i) :
    i.encode = .ok word := by
  rw [encode_eq_ok_iff]
  unfold decode at h
  split at h
  case isTrue zero =>
    cases h
    exact ⟨Nat.pow_pos (by decide), by simp [number, tag, zero]⟩
  case isFalse =>
    split at h
    case h_2 => cases h
    case h_1 t found =>
      cases h
      have split : Nat.pow 2 k.tagBits * Nat.pow 2 (32 - k.tagBits) = Nat.pow 2 32 := by
        have bits := Nat.pow_add 2 k.tagBits (32 - k.tagBits)
        rw [Nat.add_sub_cancel' (Nat.le_trans k.tagBits_le (by decide))] at bits
        exact bits.symm
      refine ⟨Nat.div_lt_of_lt_mul (split ▸ bound), ?_⟩
      simp only [number, tag, Kind.tag_of_table? found]
      exact Nat.div_add_mod' ..

theorem decode_eq_error_iff : (∃ e, decode k word = .error e) ↔
    word ≠ 0 ∧ ∀ t ∈ k.tables, k.tag t ≠ word % Nat.pow 2 k.tagBits := by
  rw [← Kind.table?_eq_none_iff, decode]
  split
  case isTrue zero => simp [zero]
  case isFalse nonzero =>
    split
    case h_1 t found =>
      constructor
      · rintro ⟨e, same⟩
        cases same
      · rintro ⟨_, missing⟩
        cases found.symm.trans missing
    case h_2 missing => exact ⟨fun _ => ⟨nonzero, missing⟩, fun _ => ⟨_, rfl⟩⟩

theorem decode_encode_iff (h : i.encode = .ok code) :
    decode k code = .ok i ↔ i = null ∨ i.number ≠ 0 ∨ i.tag ≠ 0 := by
  obtain ⟨_, rfl⟩ := encode_eq_ok_iff.1 h
  cases i with
  | null => simp [number, tag, decode]
  | row t n mem =>
    have nonzero : n * Nat.pow 2 k.tagBits + k.tag t ≠ 0 ↔ n ≠ 0 ∨ k.tag t ≠ 0 := by
      simp [imp_iff_not_or]
    simp only [number, tag, reduceCtorEq, false_or, ← nonzero]
    constructor
    · intro same zero
      rw [zero] at same
      cases same
    · exact decode_row mem

/-- Indices and words are told from each other, in the same order, but for words of no table and for the
row 0 of the first table, whose code is that of null. -/
theorem codes_bijective (k : Kind) :
    (∀ i : CodedIndex k, (∃ e, i.encode = .error e) ↔ Nat.pow 2 (32 - k.tagBits) ≤ i.number) ∧
    (∀ (i : CodedIndex k) (code : Nat), i.encode = .ok code → code < Nat.pow 2 32 ∧
      (decode k code = .ok i ↔ i = null ∨ i.number ≠ 0 ∨ i.tag ≠ 0)) ∧
    (∀ word < Nat.pow 2 32, (∃ e, decode k word = .error e) ↔
      word ≠ 0 ∧ ∀ t ∈ k.tables, k.tag t ≠ word % Nat.pow 2 k.tagBits) ∧
    (∀ word < Nat.pow 2 32, ∀ i, decode k word = .ok i → i.encode = .ok word) ∧
    ∀ (i j : CodedIndex k) (a b : Nat), i.encode = .ok a → j.encode = .ok b →
      (i.le j = true ↔ a ≤ b) := by
  refine ⟨fun i => ?_, fun i code encoded => ⟨?_, decode_encode_iff encoded⟩,
    fun _ _ => decode_eq_error_iff, fun _ bound _ => encode_of_decode bound, fun i j a b hi hj => ?_⟩
  · rw [encode]
    split
    case isTrue small => simpa using small
    case isFalse large => simpa using large
  · obtain ⟨small, rfl⟩ := encode_eq_ok_iff.1 encoded
    exact i.code_lt 32 (Nat.le_trans k.tagBits_le (by decide)) small
  · obtain ⟨_, rfl⟩ := encode_eq_ok_iff.1 hi
    obtain ⟨_, rfl⟩ := encode_eq_ok_iff.1 hj
    exact le_iff_code_le

end CodedIndex
end Cil
