import Cil.Proofs.HeapEntries
import Cil.Proofs.StableInsertion
import Cil.Proofs.Texts

/-!
Heaps as dictionaries that only grow. Whatever is written later, the index that a write gave reads what
was written, and tells it from everything else; a write that fails leaves no trace.
-/

namespace Cil

open List Compressed

/-- A heap by its uses: values are written into it, and read by their indices. A write that fails may
leave another state. -/
structure Dictionary (η α β : Type) where
  empty : η
  write : η → α → Except EncodingError Nat × η
  read : η → Nat → Option β
  bytes : η → Bytes

namespace Dictionary

variable {η ν α β : Type}

def writeAll (k : Dictionary η α β) : η → List α → List (Except EncodingError Nat) × η
  | h, [] => ([], h)
  | h, v :: vs =>
    ((k.write h v).1 :: (k.writeAll (k.write h v).2 vs).1, (k.writeAll (k.write h v).2 vs).2)

variable (k : Dictionary η α β)

def outcomes (vs : List α) : List (Except EncodingError Nat) := (k.writeAll k.empty vs).1

def after (vs : List α) : η := (k.writeAll k.empty vs).2

/-- What users may rely on, for every sequence of writes: `shown` is what is read of a value of the domain,
`fits` tells the values of the domain that can be written, and `reserved` is said of what index 0 stands
for. -/
structure AppendOnly (domain : α → Prop) (shown : α → β) (fits : α → Prop) (reserved : η → Prop) :
    Prop where
  answered (vs : List α) : (k.outcomes vs).length = vs.length
  fits {vs : List α} {v : α} {o : Except EncodingError Nat} : domain v →
    (v, o) ∈ vs.zip (k.outcomes vs) → ((∃ i, o = .ok i) ↔ fits v)
  reads {vs : List α} {v : α} {i : Nat} : domain v → (v, .ok i) ∈ vs.zip (k.outcomes vs) →
    k.read (k.after vs) i = some (shown v)
  tells {vs : List α} {v w : α} {i j : Nat} : (v, .ok i) ∈ vs.zip (k.outcomes vs) →
    (w, .ok j) ∈ vs.zip (k.outcomes vs) → (i = j ↔ v = w)
  reserved (vs : List α) : reserved (k.after vs)
  grows (before later : List α) : k.outcomes before <+: k.outcomes (before ++ later) ∧
    k.bytes (k.after before) <+: k.bytes (k.after (before ++ later))
  /-- A write that fails is not to be seen in the bytes, nor in anything that is written or read later. -/
  forgets {before later : List α} {v : α} {e : EncodingError} :
    (k.write (k.after before) v).1 = .error e →
      k.bytes (k.after (before ++ [v])) = k.bytes (k.after before) ∧
      k.outcomes (before ++ v :: later) =
          (k.outcomes (before ++ later)).insertIdx before.length (.error e) ∧
        k.bytes (k.after (before ++ v :: later)) = k.bytes (k.after (before ++ later)) ∧
        k.read (k.after (before ++ v :: later)) = k.read (k.after (before ++ later))

variable {k}

theorem writeAll_append (h : η) (vs ws : List α) :
    k.writeAll h (vs ++ ws) = ((k.writeAll h vs).1 ++ (k.writeAll (k.writeAll h vs).2 ws).1,
      (k.writeAll (k.writeAll h vs).2 ws).2) := by
  induction vs generalizing h with
  | nil => rfl
  | cons v vs ih =>
    rw [cons_append, writeAll, ih]
    rfl

theorem length_writeAll (h : η) (vs : List α) : (k.writeAll h vs).1.length = vs.length := by
  induction vs generalizing h with
  | nil => rfl
  | cons v vs ih => exact congrArg Nat.succ (ih _)

/-- What has to be known of one write. All that is to be seen of a heap is its view; of the view there is
some invariant, the places of values and how one comes from another. -/
structure Laws (k : Dictionary η α β) (domain : α → Prop) (shown : α → β) (fits : α → Prop)
    (reserved : η → Prop) (view : η → ν) (invariant : ν → Prop) (locates : ν → α → Nat → Prop)
    (earlier : ν → ν → Prop) : Prop where
  empty : invariant (view k.empty)
  refl (x : ν) : earlier x x
  trans {x y z : ν} : earlier x y → earlier y z → earlier x z
  fits {h : η} {v : α} : invariant (view h) → domain v → ((∃ i, (k.write h v).1 = .ok i) ↔ fits v)
  write {h : η} {v : α} {i : Nat} : invariant (view h) → (k.write h v).1 = .ok i →
    invariant (view (k.write h v).2) ∧ earlier (view h) (view (k.write h v).2) ∧
      locates (view (k.write h v).2) v i
  fails {h : η} {v : α} {e : EncodingError} : invariant (view h) → (k.write h v).1 = .error e →
    view (k.write h v).2 = view h
  alike {h h' : η} (v : α) : invariant (view h) → view h = view h' →
    (k.write h v).1 = (k.write h' v).1 ∧ view (k.write h v).2 = view (k.write h' v).2
  shows {h h' : η} : view h = view h' → k.bytes h = k.bytes h' ∧ k.read h = k.read h'
  stays {x y : ν} {v : α} {i : Nat} : earlier x y → locates x v i → locates y v i
  index {x : ν} {v : α} {i j : Nat} : invariant x → locates x v i → locates x v j → i = j
  value {x : ν} {v w : α} {i : Nat} : invariant x → locates x v i → locates x w i → v = w
  read {h : η} {v : α} {i : Nat} : invariant (view h) → domain v → locates (view h) v i →
    k.read h i = some (shown v)
  reserved {h : η} : invariant (view h) → reserved h
  bytes {h h' : η} : earlier (view h) (view h') → k.bytes h <+: k.bytes h'

namespace Laws

variable {domain : α → Prop} {shown : α → β} {fits : α → Prop} {reserved : η → Prop} {view : η → ν}
  {invariant : ν → Prop} {locates : ν → α → Nat → Prop} {earlier : ν → ν → Prop}
  (laws : Laws k domain shown fits reserved view invariant locates earlier)

include laws

theorem step {h : η} (good : invariant (view h)) (v : α) :
    invariant (view (k.write h v).2) ∧ earlier (view h) (view (k.write h v).2) := by
  cases wrote : (k.write h v).1 with
  | ok i =>
    obtain ⟨good', later, _⟩ := laws.write good wrote
    exact ⟨good', later⟩
  | error e =>
    rw [laws.fails good wrote]
    exact ⟨good, laws.refl _⟩

/-- What one write keeps is kept by all, and every value stands in the last heap where its write said. -/
theorem writeAll {h : η} (good : invariant (view h)) (vs : List α) :
    invariant (view (k.writeAll h vs).2) ∧ earlier (view h) (view (k.writeAll h vs).2) ∧
      ∀ {v : α} {o : Except EncodingError Nat}, (v, o) ∈ vs.zip (k.writeAll h vs).1 →
        (domain v → ((∃ i, o = .ok i) ↔ fits v)) ∧
          ∀ i, o = .ok i → locates (view (k.writeAll h vs).2) v i := by
  induction vs generalizing h with
  | nil => exact ⟨good, laws.refl _, nofun⟩
  | cons v vs ih =>
    obtain ⟨good', first⟩ := laws.step good v
    obtain ⟨final, rest, each⟩ := ih good'
    refine ⟨final, laws.trans first rest, fun {w o} member => ?_⟩
    rcases mem_cons.1 member with same | old
    · cases same
      refine ⟨laws.fits good, fun i wrote => ?_⟩
      exact laws.stays rest (laws.write good wrote).2.2
    · exact each old

theorem writeAll_alike {h h' : η} (good : invariant (view h)) (same : view h = view h') (vs : List α) :
    (k.writeAll h vs).1 = (k.writeAll h' vs).1 ∧
      view (k.writeAll h vs).2 = view (k.writeAll h' vs).2 := by
  induction vs generalizing h h' with
  | nil => exact ⟨rfl, same⟩
  | cons v vs ih =>
    obtain ⟨result, next⟩ := laws.alike v good same
    obtain ⟨results, last⟩ := ih (laws.step good v).1 next
    exact ⟨congrArg₂ _ result results, last⟩

theorem appendOnly : k.AppendOnly domain shown fits reserved where
  answered vs := length_writeAll _ vs
  fits inDomain member := ((laws.writeAll laws.empty _).2.2 member).1 inDomain
  reads {vs v i} inDomain member := by
    obtain ⟨good, _, each⟩ := laws.writeAll laws.empty vs
    exact laws.read good inDomain ((each member).2 i rfl)
  tells {vs v w i j} first second := by
    obtain ⟨good, _, each⟩ := laws.writeAll laws.empty vs
    have standsFirst := (each first).2 i rfl
    have standsSecond := (each second).2 j rfl
    constructor
    · rintro rfl
      exact laws.value good standsFirst standsSecond
    · rintro rfl
      exact laws.index good standsFirst standsSecond
  reserved _ := laws.reserved (laws.writeAll laws.empty _).1
  grows before later := by
    rw [outcomes, after, outcomes, after, writeAll_append]
    have good := (laws.writeAll laws.empty before).1
    exact ⟨prefix_append .., laws.bytes (laws.writeAll good later).2.1⟩
  forgets {before later v e} failed := by
    have good := (laws.writeAll laws.empty before).1
    have length : (k.writeAll k.empty before).1.length = before.length := length_writeAll _ before
    rw [after] at failed
    have unseen := laws.fails good failed
    obtain ⟨results, last⟩ := laws.writeAll_alike (laws.step good v).1 unseen later
    obtain ⟨bytes, reads⟩ := laws.shows last
    simp only [outcomes, after, writeAll_append, Dictionary.writeAll, failed, results]
    refine ⟨(laws.shows unseen).1, ?_, bytes, reads⟩
    rw [← length]
    exact (insertIdx_length ..).symm

end Laws

variable [BEq α] [LawfulBEq α] {isEmpty : α → Bool} {encode : α → Except EncodingError Bytes}

theorem faithful_put {h : Heap α} (faithful : h.Faithful encode) {entry : α} {encoding : Bytes}
    (encoded : encode entry = .ok encoding) : (h.put isEmpty entry encoding).2.Faithful encode := by
  rw [Heap.put]
  split
  case isTrue => exact faithful
  case isFalse => exact (faithful.intern encoded).faithful

/-- Heaps are written as their views are. -/
structure Puts (k : Dictionary η α β) (view : η → Heap α) (isEmpty : α → Bool)
    (encode : α → Except EncodingError Bytes) : Prop where
  empty : view k.empty = {}
  bytes (h : η) : k.bytes h = (view h).bytes.toList
  read {h h' : η} : view h = view h' → k.read h = k.read h'
  ok {h : η} {v : α} {encoding : Bytes} : encode v = .ok encoding →
    (k.write h v).1 = .ok ((view h).put isEmpty v encoding).1 ∧
      view (k.write h v).2 = ((view h).put isEmpty v encoding).2
  error {h : η} {v : α} {e : EncodingError} : (view h).Faithful encode → encode v = .error e →
    (k.write h v).1 = .error e ∧ view (k.write h v).2 = view h

theorem Puts.laws {k : Dictionary η α β} {view : η → Heap α} (puts : k.Puts view isEmpty encode)
    {domain fits : α → Prop} {shown : α → β}
    (unique : ∀ a b : α, isEmpty a → isEmpty b → a = b)
    (nonempty : ∀ {v encoding}, encode v = .ok encoding → encoding ≠ [])
    (fit : ∀ v, domain v → ((∃ encoding, encode v = .ok encoding) ↔ fits v))
    (read : ∀ {h : η} {v i}, (view h).Faithful encode → (view h).Spaced → domain v →
      (view h).Locates isEmpty v i → k.read h i = some (shown v)) :
    Laws k domain shown fits (fun h => (view h).bytes[0]? = some 0) view
      (fun h => h.Faithful encode ∧ h.Spaced) (Heap.Locates isEmpty) Heap.Before where
  empty := by
    rw [puts.empty]
    exact ⟨⟨prefix_refl _, nofun⟩, ⟨Nat.one_pos, nofun, nodup_nil⟩⟩
  refl := Heap.Before.refl
  trans := Heap.Before.trans
  fits {h v} good inDomain := by
    rw [← fit v inDomain]
    cases encoded : encode v with
    | ok encoding => exact ⟨fun _ => ⟨_, rfl⟩, fun _ => ⟨_, (puts.ok encoded).1⟩⟩
    | error e => rw [(puts.error good.1 encoded).1]; simp
  write {h v i} good wrote := by
    cases encoded : encode v with
    | error e =>
      rw [(puts.error good.1 encoded).1] at wrote
      cases wrote
    | ok encoding =>
      obtain ⟨result, written⟩ := puts.ok (h := h) encoded
      obtain rfl := Except.ok.inj (result.symm.trans wrote)
      rw [written]
      exact ⟨⟨faithful_put good.1 encoded, good.2.put fun _ => nonempty encoded⟩, Heap.before_put,
        Heap.locates_put⟩
  fails {h v e} good failed := by
    cases encoded : encode v with
    | error e' => exact (puts.error good.1 encoded).2
    | ok encoding =>
      rw [(puts.ok encoded).1] at failed
      cases failed
  alike {h h'} v good same := by
    cases encoded : encode v with
    | error e =>
      obtain ⟨result, kept⟩ := puts.error good.1 encoded
      obtain ⟨result', kept'⟩ := puts.error (same ▸ good.1) encoded
      exact ⟨result.trans result'.symm, kept.trans (same.trans kept'.symm)⟩
    | ok encoding =>
      obtain ⟨result, kept⟩ := puts.ok (h := h) encoded
      obtain ⟨result', kept'⟩ := puts.ok (h := h') encoded
      rw [result, result', kept, kept', same]
      exact ⟨rfl, rfl⟩
  shows {h h'} same := ⟨by rw [puts.bytes, puts.bytes, same], puts.read same⟩
  stays := Heap.Locates.mono
  index _ := Heap.Locates.offset_unique
  value good := good.2.entry_unique unique
  read good := read good.1 good.2
  reserved good := by
    obtain ⟨rest, reserved⟩ := good.1.reserved
    rw [← Array.getElem?_toList, ← reserved]
    rfl
  bytes before := by
    rw [puts.bytes, puts.bytes]
    exact before.bytes

def strings : Dictionary StringHeap String String where
  empty := {}
  write h s := (.ok (h.write s).1, (h.write s).2)
  read h i := (h.read i).toOption
  bytes h := h.bytes.toList

def blobs : Dictionary BlobWriter Bytes Bytes where
  empty := {}
  write := BlobWriter.write
  read w i := (BlobHeap.read w.heap i).toOption
  bytes w := w.heap.bytes.toList

def userStrings : Dictionary UserStringWriter String (List Nat) where
  empty := {}
  write := UserStringWriter.write
  read w i := (UserStringHeap.read w.heap i).toOption
  bytes w := w.heap.bytes.toList

def guids : Dictionary GuidHeap Guid Guid where
  empty := {}
  write h g := (.ok (h.write g).1, (h.write g).2)
  read := GuidHeap.read?
  bytes := GuidHeap.bytes

end Dictionary

namespace StringHeap

variable {h : StringHeap} {text : String} {offset : Nat}

theorem read_of_has (whole : '\x00' ∉ text.toList) (has : h.Has encode offset text) :
    h.read offset = .ok text := by
  obtain ⟨_, encoded, rest, bytes⟩ := has
  cases encoded
  have inside : offset ≤ h.size := by
    by_contra outside
    have past : h.bytes.toList.length ≤ offset := by
      rw [Array.length_toList]
      exact Nat.le_of_not_le outside
    rw [drop_eq_nil_of_le past] at bytes
    simp at bytes
  have noZero : ∀ b ∈ Bytes.ofText text, (b != 0) = true := by
    intro b member
    exact bne_iff_ne.2 fun zero => Bytes.zero_notMem_ofText whole (zero ▸ member)
  rw [read, Heap.from?, if_pos inside, ← bytes, append_assoc]
  simp only [takeWhile_append_of_pos noZero]
  simp [Bytes.text?_ofText]

theorem puts : Dictionary.strings.Puts id String.isEmpty encode where
  empty := rfl
  bytes _ := rfl
  read same := congrArg Dictionary.strings.read same
  ok {h v encoding} encoded := by
    cases encoded
    exact ⟨rfl, rfl⟩
  error _ failed := by cases failed

theorem laws : Dictionary.strings.Laws ('\x00' ∉ ·.toList) id (fun _ => True) (·.bytes[0]? = some 0) id
    (fun h => h.Faithful encode ∧ h.Spaced) (Heap.Locates String.isEmpty) Heap.Before := by
  refine puts.laws eq_of_isEmpty ?nonempty ?fit ?read
  case nonempty =>
    intro v encoding encoded
    cases encoded
    simp
  case fit => exact fun v _ => ⟨fun _ => trivial, fun _ => ⟨_, rfl⟩⟩
  case read =>
    intro h v i faithful _ whole located
    exact congrArg Except.toOption (read_of_has whole (has_of_locates faithful located))

end StringHeap

section

variable {n : Nat} {fields : List Field} {bytes : Bytes}

theorem Field.exists_join_unsigned (whole : Field.join fields = .ok bytes) :
    (∃ encoding, Field.join (unsigned n :: fields) = .ok encoding) ↔ n ≤ limit := by
  rw [← unsigned_eq_ok_iff]
  constructor
  · rintro ⟨encoding, encoded⟩
    obtain ⟨length, _, sized, _⟩ := Field.join_cons_eq_ok.1 encoded
    exact ⟨length, sized⟩
  · rintro ⟨length, sized⟩
    exact ⟨_, Field.join_cons_eq_ok.2 ⟨length, _, sized, whole, rfl⟩⟩

theorem Field.ne_nil_of_join_unsigned (h : Field.join (unsigned n :: fields) = .ok bytes) :
    bytes ≠ [] := by
  obtain ⟨length, rest, sized, _, rfl⟩ := Field.join_cons_eq_ok.1 h
  exact append_ne_nil_of_left_ne_nil (unsigned_ne_nil sized) rest

end

namespace BlobHeap

/-- What is written for a blob, with 32 bits of its length. -/
def written (blob : Bytes) : Except EncodingError Bytes := Field.join [count blob.length, .ok blob]

theorem written_eq {blob : Bytes} (short : blob.length < 2 ^ 32) : written blob = encode blob := by
  rw [written, encode, Compressed.count, Nat.mod_eq_of_lt (by omega)]

theorem puts : Dictionary.blobs.Puts HeapWriter.heap List.isEmpty written where
  empty := rfl
  bytes _ := rfl
  read same := by
    funext i
    simp only [Dictionary.blobs, same]
  ok {w v encoding} encoded := by
    simp only [Dictionary.blobs, BlobWriter.write, Heap.put]
    split
    case isTrue => exact ⟨rfl, rfl⟩
    case isFalse => exact HeapWriter.write_of_join encoded
  error {w v e} faithful failed := by
    have full : ¬ v.isEmpty := by
      intro empty
      rw [isEmpty_iff.1 empty] at failed
      cases failed
    simp only [Dictionary.blobs, BlobWriter.write, if_neg full]
    exact HeapWriter.write_of_join_error faithful rfl failed

theorem laws : Dictionary.blobs.Laws (·.length < 2 ^ 32) id (·.length ≤ limit)
    (·.heap.bytes[0]? = some 0) HeapWriter.heap (fun h => h.Faithful written ∧ h.Spaced)
    (Heap.Locates List.isEmpty) Heap.Before := by
  refine puts.laws eq_of_isEmpty Field.ne_nil_of_join_unsigned (fun v short => ?fit) ?read
  case fit =>
    rw [written_eq short]
    exact Field.exists_join_unsigned rfl
  case read =>
    intro w v i faithful spaced short located
    refine congrArg Except.toOption (read_of_locates (fun found => ?_) located)
    obtain ⟨pos, inside, encoding, encoded, stands⟩ := faithful.found spaced found
    exact ⟨pos, inside, encoding, written_eq short ▸ encoded, stands⟩

end BlobHeap

namespace UserStringHeap

variable {h : UserStringHeap} {text : String} {offset : Nat}

theorem pairs_flatMap (units : List UInt16) :
    pairs (units.flatMap fun u => Bytes.le 2 u.toNat) = units.map (·.toNat) := by
  induction units with
  | nil => rfl
  | cons u units ih =>
    have bound : u.toNat < 65536 := u.toNat_lt
    have read : Bytes.ofLe (Bytes.le 2 u.toNat) = u.toNat := by
      rw [Bytes.ofLe_le]
      exact Nat.mod_eq_of_lt bound
    rw [flatMap_cons, map_cons, ← ih]
    exact congrArg (· :: _) read

theorem encode_eq_ok {encoding : Bytes} (h : encode text = .ok encoding) :
    ∃ length content flag, unsigned (content ++ [flag]).length = .ok length ∧
      encoding = length ++ (content ++ [flag]) ∧
        pairs content = (Bytes.units text).map (·.toNat) := by
  obtain ⟨length, _, sized, body, rfl⟩ := Field.join_cons_eq_ok.1 h
  obtain ⟨content, _, same, ending, rfl⟩ := Field.join_cons_eq_ok.1 body
  obtain ⟨flag, _, marked, last, rfl⟩ := Field.join_cons_eq_ok.1 ending
  cases same
  cases marked
  cases last
  refine ⟨length, _, _, ?_, by simp; rfl, pairs_flatMap _⟩
  rw [← sized]
  simp [UserStringHeap.length, Nat.mul_comm]

theorem read_of_has (inside : offset < h.size) (has : h.Has encode offset text) :
    h.read offset = .ok ((Bytes.units text).map (·.toNat)) := by
  obtain ⟨encoding, encoded, stands⟩ := has
  obtain ⟨length, content, flag, sized, rfl, units⟩ := encode_eq_ok encoded
  rw [read, Heap.sized?_of_prefix sized inside stands]
  simp [units]

/-- What is written for a literal, with 32 bits of its length. -/
def written (s : String) : Except EncodingError Bytes := Field.join (count (length s) :: content s)

theorem written_eq (short : (Bytes.units text).length < 2 ^ 31) : written text = encode text := by
  rw [written, encode, Compressed.count, Nat.mod_eq_of_lt (by rw [length]; omega)]

theorem puts : Dictionary.userStrings.Puts HeapWriter.heap (fun _ => false) written where
  empty := rfl
  bytes _ := rfl
  read same := by
    funext i
    simp only [Dictionary.userStrings, same]
  ok encoded := HeapWriter.write_of_join encoded
  error faithful failed := HeapWriter.write_of_join_error faithful rfl failed

theorem laws : Dictionary.userStrings.Laws (fun s => (Bytes.units s).length < 2 ^ 31)
    (fun s => (Bytes.units s).map (·.toNat))
    (fun s => 2 * (Bytes.units s).length + 1 ≤ limit) (·.heap.bytes[0]? = some 0)
    HeapWriter.heap (fun h => h.Faithful written ∧ h.Spaced) (Heap.Locates fun _ => false)
    Heap.Before := by
  refine puts.laws nofun Field.ne_nil_of_join_unsigned (fun v short => ?fit) ?read
  case fit =>
    rw [written_eq short]
    exact Field.exists_join_unsigned rfl
  case read =>
    intro w v i faithful spaced short located
    obtain ⟨_, inside, encoding, encoded, stands⟩ := faithful.found spaced located
    exact congrArg Except.toOption
      (read_of_has inside ⟨encoding, written_eq short ▸ encoded, stands⟩)

end UserStringHeap

namespace GuidHeap

variable {h : GuidHeap} {g : Guid}

theorem read?_eq_some {i : Nat} : h.read? i = some g ↔ ∃ n, i = n + 1 ∧ h.entries[n]? = some g := by
  cases i with
  | zero => simp [read?]
  | succ n => simp [read?]

theorem laws : Dictionary.guids.Laws (fun _ => True) id (fun _ => True) (·.read? 0 = none) id
    (·.entries.toList.Nodup) (fun h g i => h.read? i = some g)
    (fun h h' => h.entries.toList <+: h'.entries.toList) where
  empty := nodup_nil
  refl _ := prefix_refl _
  trans := List.IsPrefix.trans
  fits _ _ := ⟨fun _ => trivial, fun _ => ⟨_, rfl⟩⟩
  write {h v i} distinct wrote := by
    have same : (h.write v).1 = i := Except.ok.inj wrote
    subst same
    simp only [Dictionary.guids, id_eq] at distinct ⊢
    rw [write]
    split
    case h_1 n found =>
      obtain ⟨inside, equal, _⟩ := Array.findIdx?_eq_some_iff_getElem.1 found
      refine ⟨distinct, prefix_refl _, ?_⟩
      rw [read?, Array.getElem?_eq_getElem inside, eq_of_beq equal]
    case h_2 missing =>
      have new : v ∉ h.entries.toList := by
        intro member
        have differs := Array.findIdx?_eq_none_iff.1 missing v (Array.mem_toList_iff.1 member)
        simp at differs
      refine ⟨?_, by simp, by simp [read?]⟩
      rw [Array.toList_push]
      exact nodup_append.2 ⟨distinct, nodup_singleton v, fun a old b last same =>
        new (mem_singleton.1 last ▸ same ▸ old)⟩
  fails _ failed := by cases failed
  alike v _ same := by
    obtain rfl : _ = _ := same
    exact ⟨rfl, rfl⟩
  shows same := by
    obtain rfl : _ = _ := same
    exact ⟨rfl, rfl⟩
  stays {h h' v i} earlier located := by
    obtain ⟨n, rfl, stands⟩ := read?_eq_some.1 located
    obtain ⟨inside, _⟩ := Array.getElem?_eq_some_iff.1 stands
    obtain ⟨more, entries⟩ := earlier
    rw [read?, ← Array.getElem?_toList, ← entries, List.getElem?_append_left (by simpa using inside),
      Array.getElem?_toList, stands]
  index {h v i j} distinct first second := by
    obtain ⟨n, rfl, standsFirst⟩ := read?_eq_some.1 first
    obtain ⟨m, rfl, standsSecond⟩ := read?_eq_some.1 second
    rw [← Array.getElem?_toList] at standsFirst standsSecond
    have inside : n < h.entries.toList.length := (List.getElem?_eq_some_iff.1 standsFirst).1
    rw [(List.getElem?_inj inside distinct).1 (standsFirst.trans standsSecond.symm)]
  value _ first second := Option.some.inj (first.symm.trans second)
  read _ _ located := located
  reserved _ := rfl
  bytes {h h'} earlier := by
    obtain ⟨more, (entries : h.entries.toList ++ more = h'.entries.toList)⟩ := earlier
    change h.bytes <+: h'.bytes
    rw [bytes, bytes, ← entries, flatMap_append]
    exact prefix_append ..

end GuidHeap

namespace Dictionary

/-- Every heap is a dictionary that only grows. Literals always have an entry, and GUIDs are counted
from 1. -/
theorem heaps_appendOnly :
    strings.AppendOnly ('\x00' ∉ ·.toList) id (fun _ => True) (·.bytes[0]? = some 0) ∧
      blobs.AppendOnly (·.length < 2 ^ 32) id (·.length ≤ Compressed.limit)
        (·.heap.bytes[0]? = some 0) ∧
      userStrings.AppendOnly (fun s => (Bytes.units s).length < 2 ^ 31)
        (fun s => (Bytes.units s).map (·.toNat))
        (fun s => 2 * (Bytes.units s).length + 1 ≤ Compressed.limit) (·.heap.bytes[0]? = some 0) ∧
      guids.AppendOnly (fun _ => True) id (fun _ => True) (·.read? 0 = none) :=
  ⟨StringHeap.laws.appendOnly, BlobHeap.laws.appendOnly, UserStringHeap.laws.appendOnly,
    GuidHeap.laws.appendOnly⟩

end Dictionary
end Cil
