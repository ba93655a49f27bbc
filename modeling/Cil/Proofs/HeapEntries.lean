import Cil.Proofs.Confinement
import Mathlib.Data.List.Nodup

/-!
Entries of heaps. An entry keeps its offset while others are written behind it, and no two entries
share an offset; so a second write of an entry changes nothing, and an offset tells its entry.
-/

namespace Cil

open List
namespace Heap

/-- The later heap begins with the bytes and the entries of the earlier one. -/
structure Before {α : Type} (h h' : Heap α) : Prop where
  bytes : h.Under h'
  entries : h.entries.toList <+: h'.entries.toList

theorem Before.refl {α : Type} (h : Heap α) : h.Before h := ⟨.refl h, prefix_refl _⟩

theorem Before.trans {α : Type} {h h₁ h' : Heap α} (first : h.Before h₁) (second : h₁.Before h') :
    h.Before h' :=
  ⟨first.bytes.trans second.bytes, first.entries.trans second.entries⟩

variable {α : Type} [BEq α] {isEmpty : α → Bool} {h h' : Heap α} {entry : α} {offset : Nat}
  {encoding : Bytes}

/-- The entry stands at the offset. The empty one is the reserved byte. -/
def Locates (isEmpty : α → Bool) (h : Heap α) (entry : α) (offset : Nat) : Prop :=
  if isEmpty entry then offset = 0 else h.offset? entry = some offset

def put (isEmpty : α → Bool) (h : Heap α) (entry : α) (encoding : Bytes) : Nat × Heap α :=
  if isEmpty entry then (0, h) else h.intern entry encoding

theorem Locates.put_eq (located : h.Locates isEmpty entry offset) (encoding : Bytes) :
    h.put isEmpty entry encoding = (offset, h) := by
  rw [Locates] at located
  rw [put]
  split
  case isTrue empty =>
    rw [if_pos empty] at located
    rw [located]
  case isFalse full =>
    rw [if_neg full] at located
    rw [intern, located]

theorem Before.offset? (before : h.Before h') (found : h.offset? entry = some offset) :
    h'.offset? entry = some offset := by
  obtain ⟨x, first, rfl⟩ := Option.map_eq_some_iff.1 found
  obtain ⟨more, entries⟩ := before.entries
  have later : h'.entries.find? (·.1 == entry) = some x := by
    rw [← Array.find?_toList, ← entries, List.find?_append, Array.find?_toList, first]
    rfl
  rw [Heap.offset?, later]
  rfl

theorem Locates.mono (before : h.Before h') (located : h.Locates isEmpty entry offset) :
    h'.Locates isEmpty entry offset := by
  rw [Locates] at located ⊢
  split
  case isTrue empty => rwa [if_pos empty] at located
  case isFalse full =>
    rw [if_neg full] at located
    exact before.offset? located

theorem Locates.offset_unique {offset' : Nat} (located : h.Locates isEmpty entry offset)
    (located' : h.Locates isEmpty entry offset') : offset = offset' := by
  rw [Locates] at located located'
  split at located
  case isTrue empty =>
    rw [if_pos empty] at located'
    rw [located, located']
  case isFalse full =>
    rw [if_neg full, located] at located'
    exact Option.some.inj located'

theorem before_put : h.Before (h.put isEmpty entry encoding).2 := by
  rw [put]
  split
  case isTrue => exact .refl h
  case isFalse =>
    rw [intern]
    split
    case h_1 => exact .refl h
    case h_2 => exact ⟨by simp [Under], by simp⟩

theorem locates_put [ReflBEq α] : (h.put isEmpty entry encoding).2.Locates isEmpty entry
    (h.put isEmpty entry encoding).1 := by
  rw [Locates, put]
  split
  case isTrue => rfl
  case isFalse =>
    rw [intern]
    split
    case h_1 found => exact found
    case h_2 missing =>
      have absent : h.entries.find? (·.1 == entry) = none := Option.map_eq_none_iff.1 missing
      rw [Heap.offset?, Array.find?_push, absent]
      simp

/-- Every entry has an offset of its own behind the reserved byte. -/
structure Spaced {α : Type} (h : Heap α) : Prop where
  reserved : 0 < h.size
  inside {x : α × Nat} : x ∈ h.entries → 0 < x.2 ∧ x.2 < h.size
  apart : (h.entries.toList.map (·.2)).Nodup

theorem Spaced.put (spaced : h.Spaced) (nonempty : ¬ isEmpty entry → encoding ≠ []) :
    (h.put isEmpty entry encoding).2.Spaced := by
  rw [Heap.put]
  split
  case isTrue => exact spaced
  case isFalse full =>
    rw [intern]
    split
    case h_1 => exact spaced
    case h_2 =>
      have longer : h.size < (h.bytes ++ encoding).size := by
        have some := length_pos_iff.2 (nonempty full)
        have length : (h.bytes ++ encoding).size = h.size + encoding.length := by
          simp [size, ← Array.length_toList]
        omega
      refine ⟨Nat.lt_trans spaced.reserved longer, fun {x} member => ?_, ?_⟩
      · rcases Array.mem_push.1 member with old | rfl
        · exact ⟨(spaced.inside old).1, Nat.lt_trans (spaced.inside old).2 longer⟩
        · exact ⟨spaced.reserved, longer⟩
      · rw [Array.toList_push, map_append, nodup_append]
        refine ⟨spaced.apart, nodup_singleton _, fun x old y new => ?_⟩
        obtain ⟨e, member, rfl⟩ := mem_map.1 old
        have inside := spaced.inside (Array.mem_toList_iff.1 member)
        have last : y = h.size := mem_singleton.1 new
        omega

theorem Spaced.entry_unique [LawfulBEq α] (spaced : h.Spaced)
    (empty : ∀ a b : α, isEmpty a → isEmpty b → a = b) {entry' : α}
    (located : h.Locates isEmpty entry offset) (located' : h.Locates isEmpty entry' offset) :
    entry = entry' := by
  have stands {e : α} (full : ¬ isEmpty e) (found : h.Locates isEmpty e offset) :
      (e, offset) ∈ h.entries.toList := by
    rw [Locates, if_neg full] at found
    obtain ⟨x, first, rfl⟩ := Option.map_eq_some_iff.1 found
    have same : x.1 = e := by simpa using Array.find?_some first
    rw [← same]
    exact Array.mem_toList_iff.2 (Array.mem_of_find?_eq_some first)
  by_cases e : isEmpty entry = true
  · by_cases e' : isEmpty entry' = true
    · exact empty _ _ e e'
    · rw [Locates, if_pos e] at located
      have := (spaced.inside (Array.mem_toList_iff.1 (stands e' located'))).1
      omega
  · by_cases e' : isEmpty entry' = true
    · rw [Locates, if_pos e'] at located'
      have := (spaced.inside (Array.mem_toList_iff.1 (stands e located))).1
      omega
    · exact congrArg (·.1)
        (inj_on_of_nodup_map spaced.apart (stands e located) (stands e' located') rfl)

theorem Faithful.found [LawfulBEq α] {encode : α → Except EncodingError Bytes}
    (faithful : h.Faithful encode) (spaced : h.Spaced) (found : h.offset? entry = some offset) :
    0 < offset ∧ offset < h.size ∧ h.Has encode offset entry := by
  obtain ⟨x, first, rfl⟩ := Option.map_eq_some_iff.1 found
  have member := Array.mem_of_find?_eq_some first
  have same : x.1 = entry := by simpa using Array.find?_some first
  exact ⟨(spaced.inside member).1, (spaced.inside member).2, same ▸ faithful.entries member⟩

end Heap

/-- What cannot be encoded is not there, and a write of it is not to be seen. -/
theorem HeapWriter.write_of_join_error {α : Type} [BEq α] [LawfulBEq α] {w : HeapWriter α} {entry : α}
    {encode : α → Except EncodingError Bytes} (faithful : w.heap.Faithful encode)
    {fields : List Field} (same : encode entry = Field.join fields) {e : EncodingError}
    (failed : encode entry = .error e) :
    (w.write entry fields).1 = .error e ∧ (w.write entry fields).2.heap = w.heap := by
  rw [write]
  split
  case h_1 offset found =>
    obtain ⟨x, first, _⟩ := Option.map_eq_some_iff.1 found
    have known : x.1 = entry := by simpa using Array.find?_some first
    obtain ⟨_, encoded, _⟩ := faithful.entries (Array.mem_of_find?_eq_some first)
    rw [known, failed] at encoded
    cases encoded
  case h_2 =>
    rw [← same, failed]
    exact ⟨rfl, w.heap_reserve⟩

namespace Heap

variable {offset : Nat}

theorem sized?_of_prefix {β : Type} {h : Heap β} {length content : Bytes}
    (sized : Compressed.unsigned content.length = .ok length)
    (inside : offset < h.size) (stands : length ++ content <+: h.bytes.toList.drop offset) :
    h.sized? offset = some content := by
  obtain ⟨rest, bytes⟩ := stands
  rw [sized?, from?, if_pos (Nat.le_of_lt inside), ← bytes, append_assoc]
  simp [Compressed.readUnsigned_unsigned sized]

end Heap

namespace StringHeap

variable {h : StringHeap} {text : String} {offset : Nat}

theorem write_eq_put (h : StringHeap) (text : String) :
    write h text = h.put String.isEmpty text (Bytes.ofText text ++ [0]) := rfl

theorem has_of_locates (faithful : h.Faithful encode) (located : h.Locates String.isEmpty text offset) :
    h.Has encode offset text := by
  have wrote := wrote_write faithful text
  rw [write_eq_put, located.put_eq] at wrote
  exact wrote.has

theorem eq_of_isEmpty (a b : String) (ha : a.isEmpty) (hb : b.isEmpty) : a = b := by
  rw [String.isEmpty_iff.1 ha, String.isEmpty_iff.1 hb]

end StringHeap

namespace BlobHeap

variable {h : BlobHeap} {blob : Bytes} {offset : Nat}

theorem add_eq_put (h : BlobHeap) (blob encoding : Bytes) :
    add h blob encoding = h.put List.isEmpty blob encoding := rfl

theorem has_of_locates (faithful : h.Faithful encode) {encoding : Bytes}
    (encoded : encode blob = .ok encoding) (located : h.Locates List.isEmpty blob offset) :
    h.Has encode offset blob := by
  have wrote := wrote_add faithful encoded
  rw [add_eq_put, located.put_eq] at wrote
  exact wrote.has

theorem eq_of_isEmpty (a b : Bytes) (ha : a.isEmpty) (hb : b.isEmpty) : a = b := by
  rw [isEmpty_iff.1 ha, isEmpty_iff.1 hb]

theorem encode_eq_ok {encoding : Bytes} (h : encode blob = .ok encoding) :
    ∃ length, Compressed.unsigned blob.length = .ok length ∧ encoding = length ++ blob := by
  obtain ⟨length, rest, sized, joined, rfl⟩ := Field.join_cons_eq_ok.1 h
  obtain ⟨_, _, same, last, rfl⟩ := Field.join_cons_eq_ok.1 joined
  cases same
  cases last
  exact ⟨length, sized, by simp⟩

theorem read_of_locates
    (found : h.offset? blob = some offset → 0 < offset ∧ offset < h.size ∧ h.Has encode offset blob)
    (located : h.Locates List.isEmpty blob offset) : h.read offset = .ok blob := by
  rw [Heap.Locates] at located
  split at located
  case isTrue empty => rw [located, read, if_pos rfl, isEmpty_iff.1 empty]
  case isFalse =>
    obtain ⟨positive, inside, encoding, encoded, stands⟩ := found located
    obtain ⟨length, sized, rfl⟩ := encode_eq_ok encoded
    rw [read, if_neg (by omega), Heap.sized?_of_prefix sized inside stands]

end BlobHeap

theorem BlobWriter.write_of_locates {w : BlobWriter} {blob : Bytes} {offset : Nat}
    (located : w.heap.Locates List.isEmpty blob offset) : w.write blob = (.ok offset, w) := by
  rw [Heap.Locates] at located
  rw [write]
  split
  case isTrue empty =>
    rw [if_pos empty] at located
    rw [located]
  case isFalse full =>
    rw [if_neg full] at located
    exact HeapWriter.write_of_offset? located

end Cil
