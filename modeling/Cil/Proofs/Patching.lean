import Cil.Code.Patching
import Cil.Proofs.Relaxation

/-!
The bytes that are left when all of a code is written. While it is, every byte is the one that the layout
gives or belongs to an operand that waits for a label further on; in the end no operand does.
-/

namespace Cil
namespace Code

open List Cil.Code.Layout Bytes

variable {code : Code} {w : Writer} {owed : List Fixup} {f : Fixup} {t : Label} {base j k label : Nat}
  {short : Option (Nat × BranchForm)} {i : Instruction} {data : Bytes}

namespace Writer

theorem size_overwrite (bytes : Array UInt8) (n : Nat) (data : Bytes) :
    (overwrite bytes n data).size = bytes.size := by
  induction data generalizing bytes n with
  | nil => rfl
  | cons b rest ih => rw [overwrite, ih, Array.size_setIfInBounds]

theorem getElem?_overwrite {bytes : Array UInt8} (n : Nat) (data : Bytes) (hj : j < bytes.size) :
    (overwrite bytes n data)[j]? =
      if n ≤ j ∧ j < n + data.length then data[j - n]? else bytes[j]? := by
  induction data generalizing bytes n with
  | nil => rw [overwrite, if_neg (by simp)]
  | cons b rest ih =>
    rw [overwrite, ih _ (by simpa using hj), Array.getElem?_setIfInBounds, length_cons]
    rcases Nat.lt_trichotomy j n with before | rfl | after
    · rw [if_neg (by omega), if_neg (by omega), if_neg (by omega)]
    · rw [if_neg (by omega), if_pos rfl, if_pos hj, if_pos (by omega)]
      simp
    · obtain ⟨m, rfl⟩ := Nat.exists_eq_add_of_lt after
      rw [if_neg (by omega : ¬ n = n + m + 1)]
      by_cases inside : m < rest.length
      · rw [if_pos (by omega), if_pos (by omega)]
        simp [show n + m + 1 - (n + 1) = m by omega, show n + m + 1 - n = m + 1 by omega]
      · rw [if_neg (by omega), if_neg (by omega)]

theorem size_append (w : Writer) (data : Bytes) :
    (w.append data).bytes.size = w.bytes.size + data.length := by
  simp [append]

theorem size_operand (w : Writer) (base : Nat) (short : Option (Nat × BranchForm)) (t : Label) :
    (w.operand base short t).bytes.size = w.bytes.size + operandWidth short := by
  rw [operand]
  split
  · rw [size_append, length_signed]
  · exact (size_append ..).trans (by rw [Bytes.length_zeros])

theorem labels_operand (w : Writer) (base : Nat) (short : Option (Nat × BranchForm)) (t : Label) :
    (w.operand base short t).labels = w.labels := by
  rw [operand]
  split <;> rfl

end Writer

/-- The offset of a label. -/
def address? (code : Code) (t : Label) : Option Nat := (code.position? t).map code.layout.offset

/-- The operand that goes to a label from an instruction that ends at an offset. -/
def operandBytes (code : Code) (base width : Nat) (t : Label) : Bytes :=
  signed width (((code.address? t).map fun (label : Nat) => (label : Int) - base).getD 0)

@[simp] theorem length_operandBytes (width : Nat) :
    (code.operandBytes base width t).length = width := Layout.length_signed ..

theorem distance_eq : code.layout.distance k t =
    ((code.address? t).map fun (label : Nat) => (label : Int) - code.layout.offset (k + 1)).getD 0 := by
  rw [address?, Option.map_map]
  rfl

theorem distance_of_address? (known : code.address? t = some label) :
    code.layout.distance k t = label - code.layout.offset (k + 1) := by
  rw [distance_eq, known]
  rfl

theorem operandBytes_offset (width : Nat) :
    code.operandBytes (code.layout.offset (k + 1)) width t =
      signed width (code.layout.distance k t) := by
  rw [distance_eq, operandBytes]

theorem operandBytes_of_address? (known : code.address? t = some label) (width : Nat) :
    code.operandBytes base width t = signed width (label - base) := by
  rw [operandBytes, known]
  rfl

theorem operandBytes_of_none (unknown : code.address? t = none) (width : Nat) :
    code.operandBytes base width t = Bytes.zeros width := by
  rw [operandBytes, unknown, Option.map_none, Option.getD_none, signed, Int.zero_emod]
  exact Bytes.le_zero width

/-- An operand of the code that goes to a label. -/
structure Waits (code : Code) (t : Label) (f : Fixup) : Prop where
  stands : code.operandBytes f.base (operandWidth f.short) t <+: code.layout.bytes.drop f.position
  reaches : f.short.isSome = true →
    ∀ label, code.address? t = some label → (label : Int) - f.base ≤ 127
  aimed : ∃ i ∈ code.instructions, t ∈ i.targets

/-- Every byte so far is right, or belongs to an operand that waits or is to be put in now. -/
structure Tracks (code : Code) (owed : List Fixup) (w : Writer) : Prop where
  agrees {j : Nat} : j < w.bytes.size → w.bytes[j]? = code.layout.bytes[j]? ∨
    ∃ f, (f ∈ owed ∨ ∃ t label, code.address? t = some label ∧ f ∈ w.pending.getD t []) ∧
      f.position ≤ j ∧ j < f.position + operandWidth f.short
  waits {t : Label} {f : Fixup} : f ∈ w.pending.getD t [] → code.Waits t f ∧ w.labels[t]? = none
  known {t : Label} {label : Nat} : w.labels[t]? = some label → code.address? t = some label
  reached : w.overflow = #[]

theorem getElem?_of_prefix_drop {bytes : Bytes} {n : Nat} (h : data <+: bytes.drop n)
    (le : n ≤ j) (lt : j < n + data.length) : bytes[j]? = data[j - n]? := by
  have same := prefix_drop_iff.1 h (j - n) (by omega)
  rwa [Nat.add_sub_cancel' le] at same

namespace Tracks

theorem append (h : code.Tracks owed w)
    (next : data <+: code.layout.bytes.drop w.bytes.size) : code.Tracks owed (w.append data) where
  agrees {j} hj := by
    change (w.bytes ++ data.toArray)[j]? = _ ∨ _
    rw [Array.getElem?_append]
    split
    · next before => exact h.agrees before
    · next after =>
      left
      have hj : j < w.bytes.size + data.length := by simpa [Writer.append] using hj
      rw [List.getElem?_toArray, getElem?_of_prefix_drop next (Nat.le_of_not_lt after) hj]
  waits := h.waits
  known := h.known
  reached := h.reached

/-- Zeros for an operand are right where they stay, and noted where they do not. -/
theorem defer (h : code.Tracks [] w) (unknown : w.labels[t]? = none)
    (next : code.Waits t ⟨w.bytes.size, base, short⟩) :
    code.Tracks [] { w.append (Bytes.zeros (operandWidth short)) with
      pending := w.pending.insert t (⟨w.bytes.size, base, short⟩ :: w.pending.getD t []) } where
  agrees {j} hj := by
    change (w.bytes ++ (Bytes.zeros (operandWidth short)).toArray)[j]? = _ ∨ _
    rw [Array.getElem?_append]
    split
    · next before =>
      rcases h.agrees before with right | ⟨f, (owes | ⟨t', label, there, hf⟩), covers⟩
      · exact .inl right
      · cases owes
      · refine .inr ⟨f, .inr ⟨t', label, there, ?_⟩, covers⟩
        rw [Std.TreeMap.getD_insert]
        split
        · next same =>
          obtain rfl := Std.LawfulEqOrd.eq_of_compare same
          exact mem_cons_of_mem _ hf
        · exact hf
    · next after =>
      have hj : j < w.bytes.size + operandWidth short := by simpa [Writer.append] using hj
      cases place : code.address? t with
      | none =>
        have stands := next.stands
        rw [operandBytes_of_none place] at stands
        left
        rw [List.getElem?_toArray, getElem?_of_prefix_drop stands (Nat.le_of_not_lt after) (by simpa)]
      | some label =>
        exact .inr ⟨⟨w.bytes.size, base, short⟩, .inr ⟨t, label, place, by simp⟩,
          Nat.le_of_not_lt after, hj⟩
  waits {t' f} hf := by
    rw [Std.TreeMap.getD_insert] at hf
    split at hf
    · next same =>
      obtain rfl := Std.LawfulEqOrd.eq_of_compare same
      rcases mem_cons.1 hf with rfl | before
      · exact ⟨next, unknown⟩
      · exact h.waits before
    · exact h.waits hf
  known := h.known
  reached := h.reached

theorem operand (h : code.Tracks [] w) (next : code.Waits t ⟨w.bytes.size, base, short⟩) :
    code.Tracks [] (w.operand base short t) := by
  rw [Writer.operand]
  split
  · next label known =>
    apply h.append
    rw [← operandBytes_of_address? (h.known known)]
    exact next.stands
  · next unknown => exact h.defer unknown next

theorem patch (h : code.Tracks (f :: owed) w) (waits : code.Waits t f)
    (there : code.address? t = some label) :
    ∃ bytes, w.patch label f = .ok { w with bytes } ∧ code.Tracks owed { w with bytes } ∧
      bytes.size = w.bytes.size := by
  have stands := waits.stands
  rw [operandBytes_of_address? there] at stands
  refine ⟨Writer.overwrite w.bytes f.position (signed (operandWidth f.short) (label - f.base)),
    ?_, ?_, Writer.size_overwrite ..⟩
  · rw [Writer.patch]
    cases short : f.short with
    | none => rfl
    | some form => simp [waits.reaches (by rw [short]; rfl) label there]
  · refine ⟨fun {j} hj => ?_, h.waits, h.known, h.reached⟩
    have hj : j < w.bytes.size := by rwa [Writer.size_overwrite] at hj
    rw [Writer.getElem?_overwrite _ _ hj]
    split
    · next inside =>
      left
      exact (getElem?_of_prefix_drop stands inside.1 inside.2).symm
    · next outside =>
      rcases h.agrees hj with right | ⟨g, owes, covers⟩
      · exact .inl right
      · refine .inr ⟨g, owes.imp_left fun owes => ?_, covers⟩
        rcases mem_cons.1 owes with rfl | owes
        · rw [length_signed] at outside
          exact absurd covers outside
        · exact owes

theorem patches (owed : List Fixup) (h : code.Tracks owed w) (waits : ∀ f ∈ owed, code.Waits t f)
    (there : code.address? t = some label) :
    ∃ bytes, owed.foldlM (Writer.patch label) w = .ok { w with bytes } ∧
      code.Tracks [] { w with bytes } ∧ bytes.size = w.bytes.size := by
  induction owed generalizing w with
  | nil => exact ⟨w.bytes, rfl, h, rfl⟩
  | cons f owed ih =>
    obtain ⟨bytes, patched, tracks, size⟩ := h.patch (waits f mem_cons_self) there
    obtain ⟨last, run, tracks', size'⟩ := ih tracks fun f hf => waits f (mem_cons_of_mem _ hf)
    refine ⟨last, ?_, tracks', size'.trans size⟩
    rw [foldlM_cons, patched]
    exact run

theorem mark (h : code.Tracks [] w) (there : code.address? t = some w.bytes.size) :
    ∃ w', w.mark t = .ok w' ∧ code.Tracks [] w' ∧ w'.bytes.size = w.bytes.size ∧
      w'.labels = w.labels.insert t w.bytes.size := by
  have marked : code.Tracks (w.pending.getD t []) { w with
      labels := w.labels.insert t w.bytes.size, pending := w.pending.erase t } := by
    refine ⟨fun {j} hj => ?_, fun {t' f} hf => ?_, fun {t' label} known => ?_, h.reached⟩
    · rcases h.agrees hj with right | ⟨f, (owes | ⟨t', label, there', hf⟩), covers⟩
      · exact .inl right
      · cases owes
      · refine .inr ⟨f, ?_, covers⟩
        by_cases same : t = t'
        · exact .inl (same ▸ hf)
        · exact .inr ⟨t', label, there', by simpa [Std.TreeMap.getD_erase, same] using hf⟩
    · have other : t ≠ t' := fun same => by simp [same] at hf
      simp only [Std.TreeMap.getD_erase, Std.compare_eq_iff_eq, other, if_false] at hf
      rw [Std.TreeMap.getElem?_insert, if_neg (by simpa using other)]
      exact h.waits hf
    · rw [Std.TreeMap.getElem?_insert] at known
      split at known
      · next same =>
        obtain rfl := Std.LawfulEqOrd.eq_of_compare same
        exact Option.some.inj known ▸ there
      · exact h.known known
  obtain ⟨bytes, run, tracks, size⟩ := marked.patches _ (fun f hf => (h.waits hf).1) there
  exact ⟨_, run, tracks, size, rfl⟩

theorem marks (ts : List Label) (h : code.Tracks [] w)
    (there : ∀ t ∈ ts, code.address? t = some w.bytes.size) :
    ∃ w', ts.foldlM Writer.mark w = .ok w' ∧ code.Tracks [] w' ∧ w'.bytes.size = w.bytes.size ∧
      ∀ t, w'.labels[t]? = if t ∈ ts then some w.bytes.size else w.labels[t]? := by
  induction ts generalizing w with
  | nil => exact ⟨w, rfl, h, rfl, fun t => (if_neg not_mem_nil).symm⟩
  | cons t ts ih =>
    obtain ⟨w₁, run₁, tracks₁, size₁, labels₁⟩ := h.mark (there t mem_cons_self)
    obtain ⟨w₂, run₂, tracks₂, size₂, labels₂⟩ :=
      ih tracks₁ fun t ht => size₁ ▸ there t (mem_cons_of_mem _ ht)
    refine ⟨w₂, ?_, tracks₂, size₂.trans size₁, fun t' => ?_⟩
    · rw [foldlM_cons, run₁]
      exact run₂
    · rw [labels₂, labels₁, size₁, Std.TreeMap.getElem?_insert]
      by_cases first : t' = t
      · simp [first]
      · simp [first, Ne.symm first]

theorem operands (ts : List Label) (h : code.Tracks [] w)
    (next : ts.flatMap (code.operandBytes base 4) <+: code.layout.bytes.drop w.bytes.size)
    (aimed : ∀ t ∈ ts, ∃ i ∈ code.instructions, t ∈ i.targets) :
    code.Tracks [] (ts.foldl (Writer.operand base none) w) ∧
      (ts.foldl (Writer.operand base none) w).bytes.size = w.bytes.size + 4 * ts.length ∧
      (ts.foldl (Writer.operand base none) w).labels = w.labels := by
  induction ts generalizing w with
  | nil => exact ⟨h, rfl, rfl⟩
  | cons t ts ih =>
    rw [flatMap_cons, prefix_drop_append, length_operandBytes] at next
    have first : code.Tracks [] (w.operand base none t) :=
      h.operand ⟨next.1, nofun, aimed t mem_cons_self⟩
    have size : (w.operand base none t).bytes.size = w.bytes.size + 4 := w.size_operand ..
    obtain ⟨tracks, size', labels⟩ :=
      ih first (size ▸ next.2) fun t ht => aimed t (mem_cons_of_mem _ ht)
    refine ⟨tracks, ?_, labels.trans (w.labels_operand ..)⟩
    rw [foldl_cons, size', size, length_cons]
    omega

end Tracks

/-- All before a place is written, and the labels below a bound have their offsets. -/
structure WrittenTo (code : Code) (k bound : Nat) (w : Writer) : Prop extends Tracks code [] w where
  size : w.bytes.size = code.layout.offset k
  labels (t : Label) : w.labels[t]? = (code.position? t).bind fun p =>
    if p < bound then some (code.layout.offset p) else none

theorem mem_labelsAt : t ∈ code.labelsAt k ↔ code.position? t = some k := by
  simp [labelsAt, position?, Std.TreeMap.mem_toList_iff_getElem?_eq_some]

namespace WrittenTo

theorem labelled (h : code.WrittenTo k k w) :
    ∃ w', (code.labelsAt k).foldlM Writer.mark w = .ok w' ∧ code.WrittenTo k (k + 1) w' := by
  obtain ⟨w', run, tracks, size, labels⟩ := h.marks (code.labelsAt k) fun t ht => by
    rw [address?, mem_labelsAt.1 ht, h.size]
    rfl
  refine ⟨w', run, tracks, size.trans h.size, fun t => ?_⟩
  rw [labels, h.labels, h.size]
  simp only [mem_labelsAt]
  cases code.position? t with
  | none => simp
  | some p =>
    simp only [Option.some.injEq, Option.bind_some]
    rcases Nat.lt_trichotomy p k with before | rfl | after
    · rw [if_neg (by omega), if_pos before, if_pos (by omega)]
    · rw [if_pos rfl, if_pos (by omega)]
    · rw [if_neg (by omega), if_neg (by omega), if_neg (by omega)]

theorem earlier? (h : code.WrittenTo k (k + 1) w) (t : Label) :
    w.labels[t]? = code.layout.earlier? k t := by
  rw [h.labels]
  simp only [Nat.lt_succ_iff]
  rfl

theorem stands (h : code.WrittenTo k (k + 1) w) (hi : code.instructions[k]? = some i) :
    code.layout.instructionBytes k i <+: code.layout.bytes.drop w.bytes.size := by
  have inside : k ≤ code.stop := Nat.le_of_lt (Array.getElem?_eq_some_iff.1 hi).1
  rw [h.size, drop_bytes_layout code inside, bytesFrom_of_getElem? _ hi]
  exact prefix_append ..

/-- A branch is put in the form that the layout gives it. -/
theorem branch {source : Code} {b : Branch} {form : BranchForm} (settled : source.Settled code)
    (h : code.WrittenTo k (k + 1) w) (hi : code.instructions[k]? = some (.branch b t form)) :
    ∃ w', w.branch k b t form = .ok w' ∧ code.Tracks [] w' ∧
      w'.bytes.size = code.layout.offset (k + 1) ∧ w'.labels = w.labels := by
  have aimed : ∃ i ∈ code.instructions, t ∈ i.targets :=
    ⟨_, Array.mem_of_getElem? hi, mem_singleton.2 rfl⟩
  have next := layout_offset_succ code hi
  have bytes := h.stands hi
  have form_eq := hasShortBranch_layout code hi
  rw [Layout.instructionSize, ← form_eq] at next
  rw [Layout.instructionBytes] at bytes
  rw [Writer.branch, h.earlier?, h.size, ← form_eq]
  cases short : code.layout.hasShortBranch k with
  | true =>
    rw [if_pos short] at next bytes
    have near := (fitsShort_iff _).1 (settled.fitsShort hi short)
    have reaches : (code.layout.earlier? k t).filter
        (fun label => label + 128 < code.layout.offset k + 2) = none := by
      rw [Option.filter_eq_none_iff]
      intro label earlier
      rw [distance_of_address? (h.known ((h.earlier? t).trans earlier)), next] at near
      simp only [decide_eq_true_eq]
      omega
    rw [prefix_drop_append, ← operandBytes_offset, next] at bytes
    have opened := h.toTracks.append bytes.1
    have size := w.size_append b.short.bytes
    rw [Branch.length_bytes_short] at size bytes
    rw [if_pos rfl, reaches]
    refine ⟨_, rfl, opened.operand ⟨size ▸ bytes.2, fun _ label there => ?_, aimed⟩, ?_,
      Writer.labels_operand ..⟩
    · rw [← next, ← distance_of_address? there]
      exact near.2
    · rw [Writer.size_operand, size, h.size, next]
      rfl
  | false =>
    rw [if_neg (by rw [short]; decide)] at next bytes
    rw [prefix_drop_append, ← operandBytes_offset, next] at bytes
    have opened := h.toTracks.append bytes.1
    have size := w.size_append b.long.bytes
    rw [Branch.length_bytes_long] at size bytes
    refine ⟨_, rfl, opened.operand ⟨size ▸ bytes.2, (absurd · Bool.false_ne_true), aimed⟩, ?_,
      Writer.labels_operand ..⟩
    rw [Writer.size_operand, size, h.size, next]
    rfl

theorem instruction {source : Code} (settled : source.Settled code) (h : code.WrittenTo k (k + 1) w)
    (hi : code.instructions[k]? = some i) :
    ∃ w', w.instruction k i = .ok w' ∧ code.WrittenTo (k + 1) (k + 1) w' := by
  have bytes := h.stands hi
  cases i with
  | simple op operand =>
    refine ⟨_, rfl, h.toTracks.append bytes, ?_, h.labels⟩
    rw [Writer.size_append, h.size, layout_offset_succ code hi, length_append]
    rfl
  | branch b target form =>
    obtain ⟨w', run, tracks, size, labels⟩ := h.branch settled hi
    exact ⟨w', run, tracks, size, labels ▸ h.labels⟩
  | switch targets =>
    have next : code.layout.offset (k + 1) = code.layout.offset k + 5 + 4 * targets.length := by
      rw [layout_offset_succ code hi, Layout.instructionSize, Nat.add_assoc]
    have table : code.operandBytes (code.layout.offset (k + 1)) 4 =
        fun t => signed 4 (code.layout.distance k t) := funext fun t => operandBytes_offset 4
    have head : (w.append (Opcode.switch.bytes ++ Bytes.le 4 targets.length)).bytes.size =
        code.layout.offset k + 5 := by
      rw [Writer.size_append, length_append, Bytes.length_le, h.size]
      rfl
    rw [Layout.instructionBytes, ← table, prefix_drop_append, ← Writer.size_append, next] at bytes
    obtain ⟨tracks, size, labels⟩ := (h.toTracks.append bytes.1).operands targets bytes.2
      fun t ht => ⟨_, Array.mem_of_getElem? hi, ht⟩
    rw [← head] at tracks size labels next
    exact ⟨_, rfl, tracks, size.trans next.symm, fun t => labels ▸ h.labels t⟩

end WrittenTo

theorem WrittenTo.writeFrom {source : Code} (settled : source.Settled code) (hk : k ≤ code.stop)
    (h : code.WrittenTo k k w) :
    ∃ w', code.writeFrom w k (code.instructions.toList.drop k) = .ok w' ∧
      code.WrittenTo code.stop (code.stop + 1) w' := by
  obtain ⟨n, stop⟩ : ∃ n, code.stop = k + n := ⟨code.stop - k, by omega⟩
  obtain ⟨marked, marks, written⟩ := h.labelled
  induction n generalizing k w marked with
  | zero =>
    obtain rfl : code.stop = k := stop
    refine ⟨marked, ?_, written⟩
    rw [drop_eq_nil_of_le (by simp [Code.stop])]
    exact marks
  | succ n ih =>
    have inside : k < code.stop := by omega
    have hi := Array.getElem?_eq_getElem (show k < code.instructions.size from inside)
    obtain ⟨w₁, run₁, written₁⟩ := written.instruction settled hi
    obtain ⟨marked₁, marks₁, written₁'⟩ := written₁.labelled
    obtain ⟨w₂, run₂, written₂⟩ := ih inside written₁ (by omega) marked₁ marks₁ written₁'
    refine ⟨w₂, ?_, written₂⟩
    rw [drop_instructions hi, Code.writeFrom, marks]
    change (marked.instruction k _ >>= fun w => code.writeFrom w (k + 1) _) = _
    rw [run₁]
    exact run₂

/-- Code is written with the bytes of its layout, and what still waits goes nowhere. -/
theorem write_eq_ok {source : Code} (settled : source.Settled code) (bounded : code.Bounded) :
    ∃ w, code.write = .ok w ∧ w.bytes.toList = code.layout.bytes ∧ w.overflow = #[] ∧
      ∀ t f, f ∈ w.pending.getD t [] →
        code.position? t = none ∧ ∃ i ∈ code.instructions, t ∈ i.targets := by
  have start : code.WrittenTo 0 0 {} := by
    refine ⟨⟨nofun, fun hf => ?_, fun known => ?_, rfl⟩, (layout_offset_zero code).symm, fun t => ?_⟩
    · simp at hf
    · simp at known
    · simp
  obtain ⟨w, run, written⟩ := start.writeFrom settled (Nat.zero_le _)
  have lost {t f} (hf : f ∈ w.pending.getD t []) : code.position? t = none := by
    have unknown := (written.waits hf).2
    rw [written.labels] at unknown
    cases place : code.position? t with
    | none => rfl
    | some p =>
      have le := bounded t p place
      rw [place, Option.bind_some, if_pos (Nat.lt_succ_of_le le)] at unknown
      cases unknown
  refine ⟨w, run, ?_, written.reached, fun t f hf => ⟨lost hf, (written.waits hf).1.aimed⟩⟩
  have size : w.bytes.size = code.layout.bytes.length :=
    written.size.trans (length_bytes_layout code).symm
  apply ext_getElem?
  intro j
  rw [Array.getElem?_toList]
  by_cases inside : j < w.bytes.size
  · rcases written.agrees inside with right | ⟨f, (owes | ⟨t, label, there, hf⟩), _⟩
    · exact right
    · cases owes
    · rw [address?, lost hf] at there
      cases there
  · rw [Array.getElem?_eq_none (Nat.le_of_not_lt inside),
      getElem?_eq_none (size ▸ Nat.le_of_not_lt inside)]

end Code
end Cil
