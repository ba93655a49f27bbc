import Cil.Proofs.CellWidths
import Cil.Proofs.CompressedIntegers
import Cil.Proofs.Texts
import Cil.Signature.Resolved

/-!
What bytes and fields tell. Two lists of bytes or of fields `Tell` a fact if it holds, with the same rest,
whenever both stand at the front of one input. Bytes, compressed numbers, coded rows and texts tell their
values, and what stands behind may be read with the help of what the fields in front have told.
-/

namespace Cil

open Compressed
variable {b' : UInt8}

namespace Bytes

/-- Where both stand at the front of one input, `p` holds and the same rest follows. -/
structure Tell (bytes bytes' : Bytes) (p : Prop) : Prop where
  told {rest rest' : Bytes} : bytes ++ rest = bytes' ++ rest' → p ∧ rest = rest'

namespace Tell

variable {bytes bytes' more more' : Bytes} {p q : Prop}

theorem imp (h : Tell bytes bytes' p) (weaker : p → q) : Tell bytes bytes' q where
  told same := (h.told same).imp_left weaker

theorem symm (h : Tell bytes bytes' p) : Tell bytes' bytes p where
  told same := (h.told same.symm).imp_right Eq.symm

theorem append (front : Tell bytes bytes' p) (behind : p → Tell more more' q) :
    Tell (bytes ++ more) (bytes' ++ more') (p ∧ q) where
  told same := by
    rw [List.append_assoc, List.append_assoc] at same
    obtain ⟨holds, rest⟩ := front.told same
    exact ((behind holds).told rest).imp_left (And.intro holds)

end Tell

theorem tell_of_length {bytes bytes' : Bytes} (h : bytes.length = bytes'.length) :
    Tell bytes bytes' (bytes = bytes') where
  told same := List.append_inj same h

theorem tell_of_ne {b : UInt8} (h : b ≠ b') {more more' : Bytes} {p : Prop} :
    Tell (b :: more) (b' :: more') p where
  told same := absurd (List.cons.inj same).1 h

theorem tell_le {width m n : Nat} (hm : m < Nat.pow 256 width) (hn : n < Nat.pow 256 width) :
    Tell (le width m) (le width n) (m = n) := by
  apply (tell_of_length (by simp only [length_le])).imp
  intro same
  have value := congrArg ofLe same
  rwa [ofLe_le, ofLe_le, Nat.mod_eq_of_lt hm, Nat.mod_eq_of_lt hn] at value

end Bytes

namespace Field

/-- The input starts with the bytes of the fields, and `rest` follows them. -/
def Spells : List Field → (input rest : Bytes) → Prop
  | [], input, rest => input = rest
  | f :: fields, input, rest =>
    ∃ first middle, f = .ok first ∧ input = first ++ middle ∧ Spells fields middle rest

theorem spells_of_join {fields : List Field} {bytes : Bytes} (h : join fields = .ok bytes)
    (rest : Bytes) : Spells fields (bytes ++ rest) rest := by
  induction fields generalizing bytes with
  | nil =>
    cases h
    rfl
  | cons f fields ih =>
    obtain ⟨first, others, rfl, joined, rfl⟩ := join_cons_eq_ok.1 h
    exact ⟨first, others ++ rest, rfl, List.append_assoc .., ih joined⟩

theorem spells_append {fields more : List Field} {input rest : Bytes} :
    Spells (fields ++ more) input rest ↔
      ∃ middle, Spells fields input middle ∧ Spells more middle rest := by
  induction fields generalizing input with
  | nil => simp [Spells]
  | cons f fields ih =>
    simp only [List.cons_append, Spells, ih]
    constructor
    · rintro ⟨first, next, here, same, middle, others, behind⟩
      exact ⟨middle, ⟨first, next, here, same, others⟩, behind⟩
    · rintro ⟨middle, ⟨first, next, here, same, others⟩, behind⟩
      exact ⟨first, next, here, same, middle, others, behind⟩

/-- Where both lists of fields stand at the front of one input, `p` holds and the same rest follows. -/
structure Tell (fields fields' : List Field) (p : Prop) : Prop where
  told {input rest rest' : Bytes} : Spells fields input rest → Spells fields' input rest' →
    p ∧ rest = rest'

namespace Tell

variable {fields fields' more more' : List Field} {p q : Prop}

theorem imp (h : Tell fields fields' p) (weaker : p → q) : Tell fields fields' q where
  told here there := (h.told here there).imp_left weaker

theorem nil : Tell [] [] True where
  told here there := ⟨trivial, here.symm.trans there⟩

theorem symm (h : Tell fields fields' p) : Tell fields' fields p where
  told here there := (h.told there here).imp_right Eq.symm

theorem append (front : Tell fields fields' p) (behind : p → Tell more more' q) :
    Tell (fields ++ more) (fields' ++ more') (p ∧ q) := by
  constructor
  intro input rest rest' here there
  obtain ⟨middle, first, second⟩ := spells_append.1 here
  obtain ⟨middle', first', second'⟩ := spells_append.1 there
  obtain ⟨holds, rfl⟩ := front.told first first'
  obtain ⟨also, same⟩ := (behind holds).told second second'
  exact ⟨⟨holds, also⟩, same⟩

theorem cons {f f' : Field} (front : Tell [f] [f'] p) (behind : p → Tell more more' q) :
    Tell (f :: more) (f' :: more') (p ∧ q) :=
  front.append behind

end Tell

theorem tell_of_read {α : Type} {read : Bytes → Option (α × Bytes)} {f f' : Field} {a a' : α}
    (h : ∀ {bytes}, f = .ok bytes → ∀ rest, read (bytes ++ rest) = some (a, rest))
    (h' : ∀ {bytes}, f' = .ok bytes → ∀ rest, read (bytes ++ rest) = some (a', rest)) :
    Tell [f] [f'] (a = a') := by
  constructor
  rintro input rest rest' ⟨first, middle, here, rfl, last⟩ ⟨first', middle', there, same, last'⟩
  have twice := h here middle
  rw [same, h' there middle'] at twice
  obtain ⟨value, rfl⟩ := Prod.mk.inj (Option.some.inj twice)
  exact ⟨value.symm, last.symm.trans last'⟩

theorem tell_byte (b b' : UInt8) : Tell [byte b] [byte b'] (b = b') := by
  let first (input : Bytes) : Option (UInt8 × Bytes) := input.head?.map (·, input.tail)
  have read {b : UInt8} {bytes : Bytes} (same : byte b = .ok bytes) (rest : Bytes) :
      first (bytes ++ rest) = some (b, rest) := by
    cases same
    rfl
  exact tell_of_read read read

theorem tell_choice {b : UInt8} (h : b ≠ b') (x y : Bool) :
    Tell [byte (if x then b else b')] [byte (if y then b else b')] (x = y) := by
  apply (tell_byte _ _).imp
  intro same
  cases x <;> cases y
  · rfl
  · exact absurd same.symm h
  · exact absurd same h
  · rfl

theorem tell_of_byte_ne {b : UInt8} (h : b ≠ b') {more more' : List Field} {p : Prop} :
    Tell (byte b :: more) (byte b' :: more') p := by
  have never : b = b' → Tell more more' p := fun same => absurd same h
  exact ((tell_byte b b').cons never).imp And.right

theorem tell_of_length {bytes bytes' : Bytes} (h : bytes.length = bytes'.length) :
    Tell [.ok bytes] [.ok bytes'] (bytes = bytes') := by
  constructor
  rintro input rest rest' ⟨first, middle, here, rfl, last⟩ ⟨first', middle', there, same, last'⟩
  cases here
  cases there
  obtain ⟨value, rfl⟩ := List.append_inj same h
  exact ⟨value, last.symm.trans last'⟩

theorem tell_unsigned (m n : Nat) : Tell [unsigned m] [unsigned n] (m = n) :=
  tell_of_read readUnsigned_unsigned readUnsigned_unsigned

theorem tell_signed (v w : Int) : Tell [signed v] [signed w] (v = w) :=
  tell_of_read readSigned_signed readSigned_signed

theorem tell_count {m n : Nat} (hm : m < 0x100000000) (hn : n < 0x100000000) :
    Tell [count m] [count n] (m = n) := by
  rw [count, count, Nat.mod_eq_of_lt hm, Nat.mod_eq_of_lt hn]
  exact tell_unsigned m n

theorem tell_compressed {k : CodedIndex.Kind} {i j : CodedIndex k} (hi : i = .null ∨ 1 ≤ i.number)
    (hj : j = .null ∨ 1 ≤ j.number) : Tell [i.compressed] [j.compressed] (i = j) := by
  have read {i : CodedIndex k} {bytes : Bytes} (h : i.compressed = .ok bytes) (rest : Bytes) :
      readUnsigned (bytes ++ rest) =
        some (i.number * Nat.pow 2 k.tagBits + i.tag, rest) := by
    rw [CodedIndex.compressed, CodedIndex.encode] at h
    split at h
    · exact readUnsigned_unsigned h rest
    · cases h
  apply Tell.imp (tell_of_read read read)
  intro same
  have known := CodedIndex.decode_code hi
  rw [same, CodedIndex.decode_code hj] at known
  exact (Except.ok.inj known).symm

theorem tell_map {α : Type} {f : α → Field} (each : ∀ a b, Tell [f a] [f b] (a = b)) {as bs : List α}
    (length : as.length = bs.length) : Tell (as.map f) (bs.map f) (as = bs) := by
  induction as generalizing bs with
  | nil =>
    cases bs with
    | nil => exact Tell.nil.imp fun _ => rfl
    | cons b bs => cases length
  | cons a as ih =>
    cases bs with
    | nil => cases length
    | cons b bs =>
      apply ((each a b).cons fun _ => ih (Nat.succ.inj length)).imp
      rintro ⟨rfl, rfl⟩
      rfl

theorem Tell.bytes {fields fields' : List Field} {p : Prop} {bytes bytes' : Bytes}
    (tell : Tell fields fields' p) (here : join fields = .ok bytes)
    (there : join fields' = .ok bytes') : Bytes.Tell bytes bytes' p where
  told {rest rest'} same := by
    have spelled := spells_of_join there rest'
    rw [← same] at spelled
    exact tell.told (spells_of_join here rest) spelled

/-- A text is told by its length and its bytes, and an absent text by a byte that starts no length. -/
theorem tell_serializedText {s s' : Option String} (short : ∀ text ∈ s, text.utf8ByteSize < 0x100000000)
    (short' : ∀ text ∈ s', text.utf8ByteSize < 0x100000000) :
    Tell (serializedText s) (serializedText s') (s = s') := by
  have apart {text : String} {p : Prop} : Tell (serializedText none)
      (serializedText (some text)) p := by
    constructor
    rintro input rest rest' ⟨first, middle, here, rfl, -⟩ ⟨first', middle', there, same, -⟩
    cases here
    obtain ⟨b, others, rfl, low⟩ := unsigned_front there
    rw [List.cons_append, List.cons_append, List.cons.injEq] at same
    rw [← same.1] at low
    exact absurd low (by decide)
  cases s with
  | none =>
    cases s' with
    | none => exact (tell_byte _ _).imp fun _ => rfl
    | some text' => exact apart
  | some text =>
    cases s' with
    | none => exact apart.symm
    | some text' =>
      have count := tell_count (short text rfl) (short' text' rfl)
      apply (count.cons fun length => tell_of_length length).imp
      rintro ⟨-, same⟩
      rw [Bytes.ofText_injective same]

end Field
end Cil
