import Cil.Assemble
import Cil.Proofs.CompressedIntegers
import Cil.Proofs.Resolution
import Mathlib.Algebra.GroupWithZero.Nat

/-!
Sessions only grow. Rows are added to tables and entries to heaps; none is changed or taken away, and
once the generic parameters are in place these stay as they are. What can be pointed at in one session
can be pointed at in every later one.
-/

namespace Cil

namespace Heap

variable {α : Type} {encode : α → Except EncodingError Bytes} {h : Heap α}

/-- Every entry stands where the heap says. -/
def Kept (encode : α → Except EncodingError Bytes) (h : Heap α) : Prop :=
  ∀ x ∈ h.entries, h.Holds encode x.2

theorem Holds.append {offset : Nat} (held : h.Holds encode offset) (encoding : Bytes) (x : α × Nat) :
    Holds encode ⟨h.bytes ++ encoding, h.entries.push x⟩ offset := by
  obtain ⟨entry, bytes, member, encoded, stands⟩ := held
  refine ⟨entry, bytes, by simp [member], encoded, List.IsPrefix.trans stands ?_⟩
  simp [List.drop_append]

/-- The heap after an entry has been written. -/
structure Adds (encode : α → Except EncodingError Bytes) (h h' : Heap α) : Prop where
  kept : h'.Kept encode
  keeps {offset : Nat} : h.Holds encode offset → h'.Holds encode offset

theorem Kept.intern [BEq α] {entry : α} {encoding : Bytes} (kept : h.Kept encode)
    (encoded : encode entry = .ok encoding) : h.Adds encode (h.intern entry encoding).2 ∧
      (h.intern entry encoding).2.Holds encode (h.intern entry encoding).1 := by
  rw [Heap.intern]
  split
  case h_1 offset found =>
    obtain ⟨x, first, rfl⟩ := Option.map_eq_some_iff.1 found
    exact ⟨⟨kept, id⟩, kept x (Array.mem_of_find?_eq_some first)⟩
  case h_2 =>
    have new : Holds encode ⟨h.bytes ++ encoding, h.entries.push (entry, h.size)⟩ h.size :=
      ⟨entry, encoding, by simp, encoded, by simp [size]⟩
    refine ⟨⟨fun x hx => ?_, (·.append ..)⟩, new⟩
    rcases Array.mem_push.1 hx with old | rfl
    · exact (kept x old).append ..
    · exact new

end Heap

/-- The heap with a blob, whose encoding is given. -/
def BlobHeap.add (h : BlobHeap) (blob encoding : Bytes) : Nat × BlobHeap :=
  if blob.isEmpty then (0, h) else h.intern blob encoding

namespace HeapWriter

variable {α : Type}

theorem heap_of_pos {buffer : Array UInt8} {entries : Array (α × Nat)} (pos : 0 < buffer.size) :
    heap ⟨buffer, entries⟩ = ⟨buffer, entries⟩ := by
  rw [heap, if_neg (by simpa using Array.ne_empty_of_size_pos pos)]

theorem size_heap_pos (w : HeapWriter α) : 0 < w.heap.bytes.size := by
  rw [heap]
  split
  case isTrue => exact Nat.one_pos
  case isFalse some_ => exact Array.size_pos_iff.2 (by simpa using some_)

/-- The reserved byte is not to be seen. -/
@[simp] theorem heap_reserve (w : HeapWriter α) : w.reserve.heap = w.heap :=
  heap_of_pos w.size_heap_pos

variable [BEq α] {w : HeapWriter α} {entry : α} {fields : List Field}

theorem write_of_offset? {offset : Nat} (found : w.heap.offset? entry = some offset) :
    w.write entry fields = (.ok offset, w) := by
  rw [write, found]

theorem write_of_join {encoding : Bytes} (joined : Field.join fields = .ok encoding) :
    (w.write entry fields).1 = .ok (w.heap.intern entry encoding).1 ∧
      (w.write entry fields).2.heap = (w.heap.intern entry encoding).2 := by
  rw [write, Heap.intern]
  split
  case h_1 => exact ⟨rfl, rfl⟩
  case h_2 =>
    rw [joined]
    refine ⟨rfl, heap_of_pos ?_⟩
    have longer : (w.heap.bytes ++ encoding).size = w.heap.bytes.size + encoding.length := by
      simp [← Array.length_toList]
    have := w.size_heap_pos
    rw [reserve, longer]
    omega

end HeapWriter

/-- Lengths that can be told have 32 bits. -/
theorem Field.join_count {n : Nat} {rest : List Field} {encoding : Bytes}
    (joined : Field.join (Compressed.unsigned n :: rest) = .ok encoding) :
    Field.join (Compressed.count n :: rest) = .ok encoding := by
  obtain ⟨front, _, told, _⟩ := Field.join_cons_eq_ok.1 joined
  have small : n ≤ 0x1FFFFFFF := Compressed.unsigned_eq_ok_iff.1 ⟨front, told⟩
  rwa [Compressed.count, Nat.mod_eq_of_lt (by omega)]

theorem BlobWriter.write_of_encode {w : BlobWriter} {blob encoding : Bytes}
    (encoded : BlobHeap.encode blob = .ok encoding) :
    (w.write blob).1 = .ok (BlobHeap.add w.heap blob encoding).1 ∧
      (w.write blob).2.heap = (BlobHeap.add w.heap blob encoding).2 := by
  rw [write, BlobHeap.add]
  split
  case isTrue => exact ⟨rfl, rfl⟩
  case isFalse => exact HeapWriter.write_of_join (Field.join_count encoded)

theorem UserStringWriter.write_of_encode {w : UserStringWriter} {text : String} {encoding : Bytes}
    (encoded : UserStringHeap.encode text = .ok encoding) :
    (w.write text).1 = .ok (w.heap.intern text encoding).1 ∧
      (w.write text).2.heap = (w.heap.intern text encoding).2 :=
  HeapWriter.write_of_join (Field.join_count encoded)

namespace Session

def withBlob (s : Session) (blob : Bytes) : Session :=
  { s with blobWriter := (s.blobWriter.write blob).2 }

def withLiteral (s : Session) (text : String) : Session :=
  { s with userStringWriter := (s.userStringWriter.write text).2 }

theorem blobs_withBlob {s : Session} {blob encoding : Bytes}
    (encoded : BlobHeap.encode blob = .ok encoding) :
    (s.withBlob blob).blobs = (BlobHeap.add s.blobs blob encoding).2 :=
  (BlobWriter.write_of_encode encoded).2

theorem userStrings_withLiteral {s : Session} {text : String} {encoding : Bytes}
    (encoded : UserStringHeap.encode text = .ok encoding) :
    (s.withLiteral text).userStrings = (s.userStrings.intern text encoding).2 :=
  (UserStringWriter.write_of_encode encoded).2

end Session

namespace Emit

/-- An entry is asked for only when the length in front of it can be told, and so it is written. -/
theorem entry_eq {α : Type} (index : Nat → α) {n : Nat} {rest : List Field} {bytes : Bytes}
    (plain : Field.join rest = .ok bytes) {write : Session → Except EncodingError Nat × Session}
    {offset : Session → Bytes → Nat}
    (wrote : ∀ {encoding}, Field.join (Compressed.unsigned n :: rest) = .ok encoding →
      ∀ s, (write s).1 = .ok (offset s encoding)) :
    (ofEncoding (Compressed.unsigned n) >>= fun _ => entry index write) =
      ofEncoding (Field.join (Compressed.unsigned n :: rest)) >>= fun encoding =>
        modifyGet fun s => (index (offset s encoding), (write s).2) := by
  cases told : Compressed.unsigned n with
  | error e => rfl
  | ok front =>
    have joined := Field.join_cons_eq_ok.2 ⟨front, bytes, rfl, plain, rfl⟩
    funext s
    have done := wrote (told.symm ▸ joined) s
    rw [joined]
    change ((((write s).1.map index).mapError Error.encoding, (write s).2) :
      Except Error α × Session) = _
    rw [done]
    rfl

theorem blob_eq (bytes : Bytes) : Emit.blob bytes = (do
    let encoding ← ofEncoding (BlobHeap.encode bytes)
    modifyGet fun s => (⟨(BlobHeap.add s.blobs bytes encoding).1⟩, s.withBlob bytes)) :=
  entry_eq HeapIndex.mk (show Field.join [.ok bytes] = .ok (bytes ++ []) from rfl)
    fun encoded _ => (BlobWriter.write_of_encode encoded).1

theorem userString_eq (text : String) : Emit.userString text = (do
    let encoding ← ofEncoding (UserStringHeap.encode text)
    modifyGet fun s => ((s.userStrings.intern text encoding).1, s.withLiteral text)) :=
  entry_eq id (show Field.join (UserStringHeap.content text) = .ok _ from rfl)
    fun encoded _ => (UserStringWriter.write_of_encode encoded).1

end Emit

theorem StringHeap.adds_write {h : StringHeap} (kept : h.Kept encode) (text : String) :
    h.Adds encode (write h text).2 ∧
      ((write h text).1 = 0 ∨ (write h text).2.Holds encode (write h text).1) := by
  rw [write]
  split
  · exact ⟨⟨kept, id⟩, .inl rfl⟩
  · exact (kept.intern rfl).imp_right .inr

theorem BlobHeap.adds_add {h : BlobHeap} (kept : h.Kept encode) {blob encoding : Bytes}
    (encoded : encode blob = .ok encoding) : h.Adds encode (add h blob encoding).2 ∧
      ((add h blob encoding).1 = 0 ∨ (add h blob encoding).2.Holds encode (add h blob encoding).1) := by
  rw [add]
  split
  · exact ⟨⟨kept, id⟩, .inl rfl⟩
  · exact (kept.intern encoded).imp_right .inr

theorem GuidHeap.isSome_read?_write {h : GuidHeap} (g : Guid) {index : Nat}
    (known : (h.read? index).isSome) : ((h.write g).2.read? index).isSome := by
  cases index with
  | zero => cases known
  | succ i =>
    have inside : i < h.entries.size := by simpa [read?] using known
    rw [write]
    split
    · exact known
    · simp [read?, Nat.lt_succ_of_lt inside]

theorem GuidHeap.isSome_read?_write_self (h : GuidHeap) (g : Guid) :
    ((h.write g).2.read? (h.write g).1).isSome := by
  rw [write]
  split
  case h_1 i found =>
    have inside := (Array.findIdx?_eq_some_iff_getElem.1 found).1
    simp [read?, inside]
  case h_2 => simp [read?]

namespace SortedRow

variable {α : Type} [SortedRow α]

theorem upperBound_le (rows : Array α) (row : α) (n : Nat) : upperBound rows row n ≤ n := by
  induction n with
  | zero => exact Nat.le_refl 0
  | succ n ih =>
    rw [upperBound]
    split
    · split <;> omega
    · omega

theorem position_le (rows : Array α) (row : α) : position rows row ≤ rows.size :=
  upperBound_le rows row rows.size

theorem insert_eq (rows : Array α) (row : α) :
    insert rows row = rows.insertIdx (position rows row) row (position_le rows row) := by
  rw [insert, Array.insertIdxIfInBounds, dif_pos (position_le rows row)]

theorem size_insert (rows : Array α) (row : α) : (insert rows row).size = rows.size + 1 := by
  rw [insert_eq, Array.size_insertIdx]

theorem mem_insert {rows : Array α} {row x : α} : x ∈ insert rows row ↔ x = row ∨ x ∈ rows := by
  rw [insert_eq, Array.mem_insertIdx]

end SortedRow

namespace RowMap

theorem row?_insert {rows : RowMap} {i j row r : Nat} (h : (rows.insert i row).row? j = some r) :
    r = row ∨ rows.row? j = some r := by
  rw [row?, insert, Array.getElem?_setIfInBounds] at h
  split at h
  · split at h
    · exact .inl (Option.some.inj h).symm
    · cases h
  · exact .inr h

end RowMap

def Source.total (src : Source) : Table → Nat
  | .typeDef => src.definitions.length
  | .field => (src.definitions.map (·.info.fields.size)).sum
  | .methodDef => (src.definitions.map (·.info.methods.size)).sum
  | .param =>
    (src.definitions.map fun d => (d.info.methods.toList.map Numbering.paramCount).sum).sum
  | .property => (src.definitions.map (·.info.properties.size)).sum
  | .event => (src.definitions.map (·.info.events.size)).sum
  | .file => src.module.files.size
  | .exportedType => src.module.exportedTypes.size
  | _ => 0

namespace Session

def extent (s : Session) : Extent where
  rows := s.tables.count
  entry
    | .strings => s.strings.Holds StringHeap.encode
    | .blobs => s.blobs.Holds BlobHeap.encode
    | .guids => fun index => (s.guids.read? index).isSome
  text := s.userStrings.Holds UserStringHeap.encode

/-- What may be pointed at already: definitions have numbers before they have rows. -/
def reach (src : Source) (s : Session) : Extent :=
  { s.extent with rows := fun t => max (src.total t) (s.tables.count t) }

/-- The later session has all that was there. In the late part of a write, no more generic parameters
come. -/
structure Grows (late : Bool) (s s' : Session) : Prop where
  extent : s.extent.Within s'.extent
  rows {t : Table} {row : t.Row} : row ∈ s.tables.rows t → row ∈ s'.tables.rows t
  genericParam : late = true → s'.tables.genericParam = s.tables.genericParam

namespace Grows

variable {late : Bool} {s s₁ s' : Session}

theorem refl (s : Session) : Grows late s s where
  extent := ⟨fun _ => Nat.le_refl _, id, id⟩
  rows := id
  genericParam _ := rfl

theorem trans (h : Grows late s s₁) (h' : Grows late s₁ s') : Grows late s s' where
  extent := {
    rows t := Nat.le_trans (h.extent.rows t) (h'.extent.rows t)
    entry := h'.extent.entry ∘ h.extent.entry
    text := h'.extent.text ∘ h.extent.text }
  rows := h'.rows ∘ h.rows
  genericParam isLate := (h'.genericParam isLate).trans (h.genericParam isLate)

theorem reach (h : Grows late s s') (src : Source) : (s.reach src).Within (s'.reach src) where
  rows t := by
    have : s.tables.count t ≤ s'.tables.count t := h.extent.rows t
    simp only [Session.reach]
    omega
  entry := h.extent.entry
  text := h.extent.text

end Grows
end Session
end Cil
