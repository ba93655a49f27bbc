import Cil.Proofs.Relaxation

/-!
Which branches are long. A choice makes every open form short or long; a choice is possible if all
branches that it makes short reach. Relaxation finds the possible choice with the fewest long branches:
each round is narrower than every possible choice, so that a branch that does not reach in a round cannot
be short in any of them.
-/

namespace Cil

open Option

def Instruction.decided (short : Bool) : Instruction → Instruction
  | .branch b target .auto => .branch b target (if short then .short else .long)
  | i => i

namespace Code

variable {code wide round wider : Code} {target : Label} {k : Nat} {b : Branch} {form : BranchForm}
  {l : Layout} {short : Nat → Bool} {distance : Int}

def decided (code : Code) (short : Nat → Bool) : Code :=
  { code with instructions := code.instructions.mapIdx fun k i => i.decided (short k) }

/-- Every branch that a choice makes short reaches its target. -/
def Allows (code : Code) (short : Nat → Bool) : Prop :=
  ∀ k b target, code.instructions[k]? = some (.branch b target .auto) → short k = true →
    ∀ distance, (code.decided short).layout.distance? k target = some distance →
      Layout.fitsShort distance = true

@[simp] theorem stop_decided (code : Code) (short : Nat → Bool) :
    (code.decided short).stop = code.stop := by
  simp [decided, stop]

@[simp] theorem position?_decided (code : Code) (short : Nat → Bool) (l : Label) :
    (code.decided short).position? l = code.position? l := rfl

theorem getElem?_decided (code : Code) (short : Nat → Bool) (k : Nat) :
    (code.decided short).instructions[k]? = code.instructions[k]?.map (·.decided (short k)) := by
  simp [decided]

namespace Layout

/-- Between any two places there are at most as many bytes as in the other layout. -/
def Narrower (l wide : Layout) : Prop :=
  ∀ a b, a ≤ b → b ≤ l.code.stop → l.offset b + wide.offset a ≤ wide.offset b + l.offset a

end Layout

/-- The code may be laid out at least as narrowly as the other: a branch that is short there can be
short here as well. -/
structure Fits (code wide : Code) : Prop where
  stop : wide.stop = code.stop
  position? (l : Label) : wide.position? l = code.position? l
  branch {k : Nat} {b : Branch} {target : Label} {form : BranchForm} :
    code.instructions[k]? = some (.branch b target form) →
      ∃ form', wide.instructions[k]? = some (.branch b target form') ∧
        (wide.layout.hasShortBranch k = true → form = .short ∨ form = .auto ∧
          ∀ p, code.position? target = some p → p ≤ k →
            wide.layout.offset k + 2 ≤ wide.layout.offset p + 128)
  other {k : Nat} {i : Instruction} : code.instructions[k]? = some i →
    (∀ b target form, i ≠ .branch b target form) → wide.instructions[k]? = some i

theorem instructionSize_branch_le (l : Layout) (k : Nat) (b : Branch) (target : Label)
    (form : BranchForm) : l.instructionSize k (.branch b target form) ≤ 5 := by
  rw [Layout.instructionSize]
  split <;> decide

theorem le_instructionSize_branch (l : Layout) (k : Nat) (b : Branch) (target : Label)
    (form : BranchForm) : 2 ≤ l.instructionSize k (.branch b target form) := by
  rw [Layout.instructionSize]
  split <;> decide

/-- One instruction is not longer than in the other layout, if that holds of the places before it. -/
theorem Fits.instructionSize_le (h : code.Fits wide) {i : Instruction}
    (hi : code.instructions[k]? = some i)
    (before : ∀ a, a ≤ k → code.layout.offset k + wide.layout.offset a ≤
      wide.layout.offset k + code.layout.offset a) :
    ∃ j, wide.instructions[k]? = some j ∧
      code.layout.instructionSize k i ≤ wide.layout.instructionSize k j := by
  cases i with
  | simple | switch => exact ⟨_, h.other hi nofun, Nat.le_refl _⟩
  | branch b target form =>
    obtain ⟨form', hj, allowed⟩ := h.branch hi
    refine ⟨_, hj, ?_⟩
    by_cases short : wide.layout.hasShortBranch k = true
    · have isShort : isShort form (code.layout.offset k) (code.layout.earlier? k target) = true := by
        rcases allowed short with rfl | ⟨rfl, near⟩
        · cases code.layout.earlier? k target <;> rfl
        · rw [Layout.earlier?, layout_code]
          cases placed : code.position? target with
          | none => rfl
          | some p =>
            by_cases hp : p ≤ k
            · have reach := near p placed hp
              have narrow := before p hp
              simp only [bind_some, if_pos hp, Code.isShort, decide_eq_true_eq]
              omega
            · simp [hp, Code.isShort]
      rw [Layout.instructionSize, if_pos isShort]
      exact le_instructionSize_branch ..
    · have wideSize : wide.layout.instructionSize k (.branch b target form') = 5 := by
        rw [Layout.instructionSize, ← hasShortBranch_layout wide hj, if_neg short]
      rw [wideSize]
      exact instructionSize_branch_le ..

theorem Fits.narrower (h : code.Fits wide) : code.layout.Narrower wide.layout := by
  intro a b hab hb
  -- The induction is on the later place: the form of a backward branch depends on all places before it.
  induction b using Nat.strongRecOn generalizing a with
  | ind b ih =>
    rcases Nat.lt_or_eq_of_le hab with before | rfl
    · obtain ⟨k, rfl⟩ : ∃ k, b = k + 1 := ⟨b - 1, by omega⟩
      have inside : k < code.instructions.size := hb
      have hi := Array.getElem?_eq_getElem inside
      have upTo : ∀ a, a ≤ k → code.layout.offset k + wide.layout.offset a ≤
          wide.layout.offset k + code.layout.offset a := fun a ha =>
        ih k (Nat.lt_succ_self k) a ha (Nat.le_of_lt inside)
      obtain ⟨j, hj, size⟩ := h.instructionSize_le hi upTo
      rw [layout_offset_succ code hi, layout_offset_succ wide hj]
      have := upTo a (by omega)
      omega
    · exact Nat.le_of_eq (Nat.add_comm ..)

theorem Fits.hasShortBranch (h : code.Fits wide)
    (hi : code.instructions[k]? = some (.branch b target form))
    (short : wide.layout.hasShortBranch k = true) : code.layout.hasShortBranch k = true := by
  have inside : k < code.stop := (Array.getElem?_eq_some_iff.1 hi).1
  have narrow := h.narrower k (k + 1) (Nat.le_succ k) inside
  have size := layout_offset_succ code hi
  have atLeast := le_instructionSize_branch code.layout k b target form
  simp only [Layout.hasShortBranch, beq_iff_eq] at short ⊢
  omega

theorem isShort_auto_iff (l : Layout) {p : Nat} (placed : l.code.position? target = some p) :
    isShort .auto (l.offset k) (l.earlier? k target) = true ↔
      (p ≤ k → l.offset k + 2 ≤ l.offset p + 128) := by
  rw [Layout.earlier?, placed, bind_some]
  by_cases hp : p ≤ k
  · simp [hp, isShort]
  · simp [hp, isShort]

theorem Widens.fits (h : code.Widens wider) : code.Fits wider where
  stop := h.stop
  position? := h.position?
  branch {k b target form} hi := by
    obtain ⟨j, hj, widens⟩ := h.exists_instruction hi
    cases widens with
    | same =>
      refine ⟨form, hj, fun short => ?_⟩
      rw [hasShortBranch_layout wider hj] at short
      cases form with
      | short => exact .inl rfl
      | long => cases short
      | auto =>
        refine .inr ⟨rfl, fun p placed => ?_⟩
        rw [← h.position?] at placed
        exact (isShort_auto_iff wider.layout placed).1 short
    | long =>
      refine ⟨.long, hj, fun short => ?_⟩
      rw [hasShortBranch_layout wider hj] at short
      cases short
  other {k i} hi plain := by
    obtain ⟨j, hj, widens⟩ := h.exists_instruction hi
    cases widens with
    | same => exact hj
    | long => exact absurd rfl (plain _ _ _)

/-- A round of relaxation that has made long only what is long by the choice. -/
structure Follows (code round : Code) (short : Nat → Bool) : Prop extends Widens code round where
  long {k : Nat} {b : Branch} {target : Label} :
    code.instructions[k]? = some (.branch b target .auto) →
      round.instructions[k]? = some (.branch b target .long) → short k = false

theorem follows_self (code : Code) (short : Nat → Bool) : code.Follows code short where
  toWidens := .refl code
  long hi hj := by
    rw [hi] at hj
    cases hj

theorem layout_distance? (code : Code) {p : Nat} (placed : code.position? target = some p) :
    code.layout.distance? k target =
      some ((code.layout.offset p : Int) - code.layout.offset (k + 1)) := by
  rw [Layout.distance?, layout_code, placed, map_some]

theorem offset_succ_of_hasShortBranch (short : l.hasShortBranch k = true) :
    l.offset (k + 1) = l.offset k + 2 := by
  simpa [Layout.hasShortBranch] using short

theorem Follows.fits_decided (h : code.Follows round short) (allows : code.Allows short) :
    round.Fits (code.decided short) where
  stop := (stop_decided code short).trans h.stop.symm
  position? l := (h.position? l).symm
  branch {k b target form} hj := by
    obtain ⟨i, hi, widens⟩ := h.instruction hj
    have decidedAt := getElem?_decided code short k
    rw [hi] at decidedAt
    cases widens with
    | long =>
      refine ⟨.long, ?_, fun isShort => ?_⟩
      · rw [decidedAt, h.long hi hj]
        rfl
      · rw [h.long hi hj] at decidedAt
        rw [hasShortBranch_layout _ decidedAt] at isShort
        cases isShort
    | same =>
      cases form with
      | short => exact ⟨.short, decidedAt, fun _ => .inl rfl⟩
      | long =>
        refine ⟨.long, decidedAt, fun isShort => ?_⟩
        rw [hasShortBranch_layout _ decidedAt] at isShort
        cases isShort
      | auto =>
        refine ⟨if short k then .short else .long, decidedAt, fun isShort => ?_⟩
        refine .inr ⟨rfl, fun p placed _ => ?_⟩
        have chosen : short k = true := by
          rw [hasShortBranch_layout _ decidedAt] at isShort
          cases chosen : short k with
          | true => rfl
          | false =>
            rw [chosen] at isShort
            cases isShort
        rw [h.position?] at placed
        have reach := allows k b target hi chosen _
          (layout_distance? (code.decided short) placed)
        rw [fitsShort_iff, offset_succ_of_hasShortBranch isShort] at reach
        omega
  other {k j} hj plain := by
    obtain ⟨i, hi, widens⟩ := h.instruction hj
    cases widens with
    | long => exact absurd rfl (plain _ _ _)
    | same =>
      rw [getElem?_decided, hi, map_some]
      cases j with
      | simple | switch => rfl
      | branch b target form => exact absurd rfl (plain _ _ _)

theorem layout_offset_of_lt (code : Code) (h : code.stop < k) : code.layout.offset k = 0 := by
  have outside : code.layout.offsets[k]? = none := by
    apply Array.getElem?_eq_none
    rw [layout, size_offsetsFrom]
    simp only [stop, List.size_toArray, List.length_nil, Array.length_toList] at h ⊢
    omega
  rw [Layout.offset, Array.getD_eq_getD_getElem?, outside]
  rfl

/-- What a short branch reaches in the wider layout, it reaches in the narrower one. -/
theorem Fits.reaches (h : code.Fits wide) (inside : k < code.stop) {far near : Int}
    (wider : wide.layout.distance? k target = some far) (fits : Layout.fitsShort far = true)
    (narrow : code.layout.distance? k target = some near) : Layout.fitsShort near = true := by
  cases placed : code.position? target with
  | none => simp [Layout.distance?, placed] at narrow
  | some p =>
    rw [layout_distance? code placed] at narrow
    rw [layout_distance? wide ((h.position? target).trans placed)] at wider
    cases narrow
    cases wider
    rw [fitsShort_iff] at fits ⊢
    rcases Nat.lt_or_ge k p with forward | backward
    · rcases Nat.lt_or_ge code.stop p with outside | within
      · have start := h.narrower 0 (k + 1) (Nat.zero_le _) inside
        rw [layout_offset_of_lt wide (h.stop ▸ outside)] at fits
        rw [layout_offset_of_lt code outside]
        simp only [layout_offset_zero] at start
        omega
      · have := h.narrower (k + 1) p forward within
        have := layout_offset_mono code (show k + 1 ≤ p from forward) within
        omega
    · have := h.narrower p (k + 1) (by omega) inside
      have := layout_offset_mono code (show p ≤ k + 1 by omega) inside
      omega

theorem miss?_eq_some (missed : l.miss? k target = some distance) :
    l.distance? k target = some distance ∧ Layout.fitsShort distance = false := by
  rw [Layout.miss?] at missed
  split at missed
  · obtain ⟨known, far⟩ := filter_eq_some_iff.1 missed
    exact ⟨known, by simpa using far⟩
  · cases missed

theorem getElem?_widened (l : Layout)
    (hi : l.code.instructions[k]? = some (.branch b target .auto)) :
    l.widened.instructions[k]? =
      some (.branch b target (if (l.miss? k target).isSome then .long else .auto)) := by
  simp [Layout.widened, hi]

theorem Follows.widened (h : code.Follows round short) (allows : code.Allows short) :
    code.Follows round.layout.widened short where
  toWidens := h.toWidens.trans (widens_widened round.layout)
  long {k b target} hi hj := by
    obtain ⟨i, hr, widens⟩ := (widens_widened round.layout).instruction hj
    cases widens with
    | same => exact h.long hi hr
    | long =>
      have misses : (round.layout.miss? k target).isSome = true := by
        rw [getElem?_widened round.layout hr] at hj
        cases missed : (round.layout.miss? k target).isSome with
        | true => rfl
        | false => simp [missed] at hj
      obtain ⟨distance, missed⟩ := isSome_iff_exists.1 misses
      obtain ⟨known, far⟩ := miss?_eq_some missed
      cases chosen : short k with
      | false => rfl
      | true =>
        cases placed : code.position? target with
        | none => simp [Layout.distance?, h.position?, placed] at known
        | some p =>
          have wider := layout_distance? (k := k) (code.decided short) placed
          have reach := (h.fits_decided allows).reaches
            (Array.getElem?_eq_some_iff.1 hr).1 wider (allows k b target hi chosen _ wider) known
          rw [far] at reach
          cases reach

/-- The code is the one that relaxation settles on; it has made long only what has to be. -/
theorem relax_ok_follows (allows : code.Allows short) (h : code.Follows round short)
    (relaxed : round.relax = .ok l) : l = l.code.layout ∧ code.Follows l.code short := by
  fun_induction relax round with
  | case1 => cases relaxed
  | case2 round layout inRange wider smaller ih => exact ih (h.widened allows) relaxed
  | case3 round layout inRange wider final =>
    obtain rfl : layout = l := by simpa using relaxed
    exact ⟨rfl, h⟩

theorem relax_error_follows (h : code.Widens round) (relaxed : round.relax = .error distance) :
    ∃ last, last.layout.outOfRange? = some distance ∧ code.Widens last ∧
      ∀ short, code.Allows short → code.Follows round short → code.Follows last short := by
  fun_induction relax round with
  | case1 round layout found missed =>
    cases relaxed
    exact ⟨round, missed, h, fun _ _ follows => follows⟩
  | case2 round layout inRange wider smaller ih =>
    obtain ⟨last, missed, widens, follows⟩ := ih (h.trans (widens_widened round.layout)) relaxed
    exact ⟨last, missed, widens, fun short allows h' => follows short allows (h'.widened allows)⟩
  | case3 => cases relaxed

theorem instructionSize_of_branch (code : Code)
    (hi : code.instructions[k]? = some (.branch b target form)) :
    code.layout.instructionSize k (.branch b target form) =
      if code.layout.hasShortBranch k then 2 else 5 := by
  rw [Layout.instructionSize, hasShortBranch_layout code hi]

/-- With its own forms for its choice, a settled layout is the layout of the choice. -/
theorem Widens.offset_decided (h : code.Widens wider) (hk : k ≤ code.stop) :
    (code.decided wider.layout.hasShortBranch).layout.offset k = wider.layout.offset k := by
  induction k with
  | zero => rw [layout_offset_zero, layout_offset_zero]
  | succ k ih =>
    have inside : k < wider.instructions.size := h.size ▸ hk
    have hj := Array.getElem?_eq_getElem inside
    obtain ⟨i, hi, widens⟩ := h.instruction hj
    generalize wider.instructions[k] = j at hj widens
    have decidedAt := getElem?_decided code wider.layout.hasShortBranch k
    rw [hi, map_some] at decidedAt
    rw [layout_offset_succ _ decidedAt, layout_offset_succ _ hj, ih (by omega)]
    congr 1
    cases widens with
    | long b target =>
      have long := hasShortBranch_layout wider hj
      rw [instructionSize_of_branch wider hj]
      simp [Instruction.decided, Layout.instructionSize, long, isShort]
    | same =>
      cases i with
      | simple | switch => rfl
      | branch b target form =>
        have short := hasShortBranch_layout wider hj
        rw [instructionSize_of_branch wider hj]
        cases form with
        | short | long => simp [Instruction.decided, Layout.instructionSize, short, isShort]
        | auto =>
          cases chosen : wider.layout.hasShortBranch k <;>
            simp [Instruction.decided, Layout.instructionSize, isShort]

theorem Widens.hasShortBranch_decided (h : code.Widens wider) (hk : k < code.stop) :
    (code.decided wider.layout.hasShortBranch).layout.hasShortBranch k =
      wider.layout.hasShortBranch k := by
  rw [Layout.hasShortBranch, h.offset_decided hk, h.offset_decided (Nat.le_of_lt hk)]
  rfl

theorem Widens.distance?_decided (h : code.Widens wider) (hk : k < code.stop) (target : Label) :
    (code.decided wider.layout.hasShortBranch).layout.distance? k target =
      wider.layout.distance? k target := by
  cases placed : code.position? target with
  | none => simp [Layout.distance?, placed, h.position?]
  | some p =>
    have offset : (code.decided wider.layout.hasShortBranch).layout.offset p =
        wider.layout.offset p := by
      rcases Nat.lt_or_ge code.stop p with outside | within
      · rw [layout_offset_of_lt wider (h.stop ▸ outside),
          layout_offset_of_lt (code.decided _) (by rwa [stop_decided])]
      · exact h.offset_decided within
    rw [layout_distance? wider ((h.position? target).trans placed),
      layout_distance? (code.decided _) placed, offset, h.offset_decided hk]

theorem Widens.bytesFrom_decided (h : code.Widens wider) (hk : k ≤ code.stop) :
    (code.decided wider.layout.hasShortBranch).layout.bytesFrom k = wider.layout.bytesFrom k := by
  obtain ⟨n, hn⟩ : ∃ n, code.stop = k + n := ⟨code.stop - k, by omega⟩
  induction n generalizing k with
  | zero =>
    obtain rfl : k = code.stop := hn.symm
    have one := (code.decided wider.layout.hasShortBranch).layout.bytesFrom_stop
    have other := wider.layout.bytesFrom_stop
    rw [layout_code, stop_decided] at one
    rw [layout_code, h.stop] at other
    rw [one, other]
  | succ n ih =>
    have here : k < code.stop := by omega
    have inside : k < wider.instructions.size := h.size ▸ here
    have hj := Array.getElem?_eq_getElem inside
    obtain ⟨i, hi, widens⟩ := h.instruction hj
    generalize wider.instructions[k] = j at hj widens
    have decidedAt := getElem?_decided code wider.layout.hasShortBranch k
    rw [hi, map_some] at decidedAt
    rw [Layout.bytesFrom_of_getElem? _ decidedAt, Layout.bytesFrom_of_getElem? wider.layout hj,
      ih (by omega) (by omega)]
    congr 1
    have distance (target : Label) :
        (code.decided wider.layout.hasShortBranch).layout.distance k target =
          wider.layout.distance k target := by
      rw [Layout.distance, h.distance?_decided here, Layout.distance]
    have short := h.hasShortBranch_decided here
    cases widens with
    | long b target => simp only [Instruction.decided, Layout.instructionBytes, short, distance]
    | same =>
      cases i with
      | simple => rfl
      | «switch» targets => simp only [Instruction.decided, Layout.instructionBytes, distance]
      | branch b target form =>
        cases form <;>
          simp only [Instruction.decided, Layout.instructionBytes, short, distance]

theorem Widens.bytes_decided (h : code.Widens wider) :
    (code.decided wider.layout.hasShortBranch).layout.bytes = wider.layout.bytes := by
  have whole := h.bytesFrom_decided (Nat.zero_le _)
  rwa [Layout.bytesFrom_zero, Layout.bytesFrom_zero] at whole

theorem far_of_miss (bounded : code.Bounded)
    (hi : code.instructions[k]? = some (.branch b target .auto))
    (misses : (code.layout.miss? k target).isSome = true) :
    ∃ p, code.position? target = some p ∧ k < p ∧
      code.layout.offset (k + 1) + 127 < code.layout.offset p := by
  have short : code.layout.hasShortBranch k = true := by
    cases short : code.layout.hasShortBranch k with
    | true => rfl
    | false => simp [Layout.miss?, short] at misses
  obtain ⟨distance, missed⟩ := isSome_iff_exists.1 misses
  obtain ⟨known, far⟩ := miss?_eq_some missed
  cases placed : code.position? target with
  | none => simp [Layout.distance?, placed] at known
  | some p =>
    rw [layout_distance? code placed] at known
    cases known
    have far : ¬ (-128 ≤ (code.layout.offset p : Int) - code.layout.offset (k + 1) ∧
        (code.layout.offset p : Int) - code.layout.offset (k + 1) ≤ 127) := by
      rw [← fitsShort_iff, far]
      decide
    have next := offset_succ_of_hasShortBranch short
    rw [hasShortBranch_layout code hi] at short
    have near := (isShort_auto_iff code.layout placed).1 short
    have inside : k < code.stop := (Array.getElem?_eq_some_iff.1 hi).1
    refine ⟨p, rfl, ?_⟩
    rcases Nat.lt_or_ge k p with forward | backward
    · have mono := layout_offset_mono code (show k + 1 ≤ p from forward) (bounded _ _ placed)
      exact ⟨forward, by omega⟩
    · have mono := layout_offset_mono code backward (Nat.le_of_lt inside)
      have := near backward
      omega

theorem relax_ok_far (bounded : code.Bounded) (relaxed : code.relax = .ok l)
    (hi : code.instructions[k]? = some (.branch b target .auto))
    (hj : l.code.instructions[k]? = some (.branch b target .long)) :
    ∃ p, code.position? target = some p ∧ k < p ∧ l.offset (k + 1) + 127 < l.offset p := by
  fun_induction relax code with
  | case1 => cases relaxed
  | case2 code layout inRange wider smaller ih =>
    have widens : code.Widens wider := widens_widened code.layout
    have widened := getElem?_widened code.layout hi
    cases misses : (code.layout.miss? k target).isSome with
    | false =>
      rw [misses] at widened
      obtain ⟨p, placed, far⟩ := ih (widens.bounded bounded) relaxed widened
      exact ⟨p, (widens.position? target).symm.trans placed, far⟩
    | true =>
      obtain ⟨p, placed, forward, far⟩ := far_of_miss bounded hi misses
      obtain ⟨widest, rfl, settled⟩ := relax_eq_ok relaxed
      have narrow := (widens.trans settled.toWidens).fits.narrower (k + 1) p forward
        (bounded _ _ placed)
      exact ⟨p, placed, forward, by omega⟩
  | case3 code layout inRange wider final =>
    obtain rfl : layout = l := by simpa using relaxed
    cases hi.symm.trans hj

theorem firstMiss_eq (a b : List Nat × Int) : Layout.firstMiss a b = a ∨ Layout.firstMiss a b = b := by
  rw [Layout.firstMiss]
  split
  · exact .inr rfl
  · exact .inl rfl

theorem foldl_firstMiss_mem (a : List Nat × Int) (rest : List (List Nat × Int)) :
    rest.foldl Layout.firstMiss a ∈ a :: rest := by
  induction rest generalizing a with
  | nil => exact List.mem_singleton_self a
  | cons b rest ih =>
    rw [List.foldl_cons]
    have inner := ih (Layout.firstMiss a b)
    rcases firstMiss_eq a b with same | same <;> rw [same] at inner ⊢ <;> grind

theorem exists_forced_miss (h : l.outOfRange? = some distance) :
    ∃ k b target, l.code.instructions[k]? = some (.branch b target .short) ∧
      l.distance? k target = some distance ∧ Layout.fitsShort distance = false := by
  rw [Layout.outOfRange?] at h
  split at h
  · cases h
  · rename_i miss rest found
    have member := foldl_firstMiss_mem miss rest
    rw [← found, Layout.forcedMisses, List.mem_filterMap] at member
    obtain ⟨⟨i, k⟩, hi, missed⟩ := member
    rw [List.mem_zipIdx_iff_getElem?] at hi
    cases i with
    | simple | switch => cases missed
    | branch b target form =>
      cases form with
      | auto | long => cases missed
      | short =>
        obtain ⟨place, placed, missed⟩ := bind_eq_some_iff.1 missed
        obtain ⟨found, misses, same⟩ := bind_eq_some_iff.1 missed
        obtain ⟨known, far⟩ := miss?_eq_some misses
        obtain rfl : found = distance := by
          rw [← Option.some.inj same] at h
          exact Option.some.inj h
        exact ⟨k, b, target, by simpa using hi, known, far⟩

/-- The choice with the fewest long branches. -/
structure Least (code : Code) (short : Nat → Bool) : Prop where
  allows : code.Allows short
  /-- An automatic branch is short exactly if that is enough: a forward one if its target is at most 127
  bytes behind its end, a backward one if the target is at most 128 bytes before the end of the short
  form. -/
  short_iff {k p : Nat} {b : Branch} {target : Label} :
    code.instructions[k]? = some (.branch b target .auto) → code.position? target = some p →
      (short k = true ↔
        if p ≤ k then
          (code.decided short).layout.offset k + 2 ≤ (code.decided short).layout.offset p + 128
        else (code.decided short).layout.offset p ≤ (code.decided short).layout.offset (k + 1) + 127)
  /-- A branch that is long here is long by every possible choice. -/
  long_of_allows {other : Nat → Bool} : code.Allows other → ∀ {k : Nat} {b : Branch} {target : Label},
    code.instructions[k]? = some (.branch b target .auto) → short k = false → other k = false
  /-- The branches that have to be short reach their targets. -/
  forced {k : Nat} {b : Branch} {target : Label} {distance : Int} :
    code.instructions[k]? = some (.branch b target .short) →
      (code.decided short).layout.distance? k target = some distance →
        Layout.fitsShort distance = true

theorem Widens.exists_branch (h : code.Widens wider)
    (hi : code.instructions[k]? = some (.branch b target form)) :
    ∃ form', wider.instructions[k]? = some (.branch b target form') ∧
      (form' = form ∨ form = .auto ∧ form' = .long) := by
  obtain ⟨j, hj, widens⟩ := h.exists_instruction hi
  cases widens with
  | same => exact ⟨form, hj, .inl rfl⟩
  | long => exact ⟨.long, hj, .inr ⟨rfl, rfl⟩⟩

/-- A short branch of settled code reaches, also when it is measured in the choice. -/
theorem Settled.fitsShort_decided (h : code.Settled wider)
    (hi : code.instructions[k]? = some (.branch b target form))
    (short : wider.layout.hasShortBranch k = true)
    (known : (code.decided wider.layout.hasShortBranch).layout.distance? k target = some distance) :
    Layout.fitsShort distance = true := by
  obtain ⟨form', hj, _⟩ := h.exists_branch hi
  have fits := h.fitsShort hj short
  rw [h.distance?_decided (Array.getElem?_eq_some_iff.1 hi).1] at known
  rwa [Layout.distance, known, getD_some] at fits

theorem relax_ok_least (bounded : code.Bounded) (relaxed : code.relax = .ok l) :
    ∃ short, l.bytes = (code.decided short).layout.bytes ∧ code.Least short := by
  obtain ⟨wider, rfl, settled⟩ := relax_eq_ok relaxed
  refine ⟨wider.layout.hasShortBranch, settled.bytes_decided.symm, ?_, ?_, ?_, ?_⟩
  · intro k b target hi short distance known
    exact settled.fitsShort_decided hi short known
  · intro k p b target hi placed
    have inside : k < code.stop := (Array.getElem?_eq_some_iff.1 hi).1
    rw [settled.offset_decided (Nat.le_of_lt inside),
      settled.offset_decided (show k + 1 ≤ code.stop from inside),
      settled.offset_decided (bounded _ _ placed)]
    obtain ⟨form, hj, same | ⟨_, long⟩⟩ := settled.exists_branch hi
    · subst same
      have placed' := (settled.position? target).trans placed
      rw [hasShortBranch_layout wider hj, isShort_auto_iff wider.layout placed']
      by_cases hp : p ≤ k
      · simp [hp]
      · have short : wider.layout.hasShortBranch k = true := by
          rw [hasShortBranch_layout wider hj, isShort_auto_iff wider.layout placed']
          exact fun backward => absurd backward hp
        have fits := settled.fitsShort hj short
        rw [Layout.distance, layout_distance? wider placed', getD_some, fitsShort_iff] at fits
        simp only [hp, false_implies, if_false, true_iff]
        omega
    · subst long
      obtain ⟨p', placed', forward, far⟩ := relax_ok_far bounded relaxed hi hj
      obtain rfl : p' = p := Option.some.inj (placed'.symm.trans placed)
      have long : wider.layout.hasShortBranch k = false := hasShortBranch_layout wider hj
      rw [long, if_neg (Nat.not_le_of_lt forward)]
      simp only [Bool.false_eq_true, false_iff, Nat.not_le]
      exact far
  · intro other allows k b target hi long
    cases chosen : other k with
    | false => rfl
    | true =>
      obtain ⟨form, hj, _⟩ := settled.exists_branch hi
      have decidedAt := getElem?_decided code other k
      rw [hi, map_some, Instruction.decided, chosen] at decidedAt
      have follows := (relax_ok_follows allows (follows_self code other) relaxed).2
      have short := (follows.fits_decided allows).hasShortBranch hj
        (hasShortBranch_layout _ decidedAt)
      rw [layout_code, long] at short
      cases short
  · intro k b target distance hi known
    obtain ⟨form, hj, same | ⟨open?, _⟩⟩ := settled.exists_branch hi
    · subst same
      exact settled.fitsShort_decided hi (hasShortBranch_layout wider hj) known
    · cases open?

/-- A branch that relaxation reports as out of range: by no possible choice does it reach. -/
theorem relax_error_least (relaxed : code.relax = .error distance) :
    ∃ k b target, code.instructions[k]? = some (.branch b target .short) ∧
      Layout.fitsShort distance = false ∧
      (∃ narrow, (code.decided narrow).layout.distance? k target = some distance) ∧
      ∀ other, code.Allows other → ∃ far,
        (code.decided other).layout.distance? k target = some far ∧ Layout.fitsShort far = false := by
  obtain ⟨last, missed, widens, follows⟩ := relax_error_follows (.refl code) relaxed
  obtain ⟨k, b, target, hj, known, far⟩ := exists_forced_miss missed
  obtain ⟨i, hi, same⟩ := widens.instruction hj
  cases same
  have inside : k < code.stop := (Array.getElem?_eq_some_iff.1 hi).1
  refine ⟨k, b, target, hi, far, ⟨last.layout.hasShortBranch, ?_⟩, fun other allows => ?_⟩
  · rw [widens.distance?_decided inside]
    exact known
  · cases placed : code.position? target with
    | none => simp [Layout.distance?, widens.position?, placed] at known
    | some p =>
      have wider := layout_distance? (k := k) (code.decided other) placed
      refine ⟨_, wider, ?_⟩
      cases fits : Layout.fitsShort ((code.decided other).layout.offset p -
          (code.decided other).layout.offset (k + 1)) with
      | false => rfl
      | true =>
        have reach := ((follows other allows (follows_self code other)).fits_decided
          allows).reaches (Array.getElem?_eq_some_iff.1 hj).1 wider fits known
        rw [far] at reach
        cases reach

end Code
end Cil
