import Cil.Proofs.EncodedBody

/-!
How zones lie in the code. A zone is entered and left once, and the zones that are entered in it are left
before it. So an instruction lies between the ends of a zone exactly if it was written within that zone.
-/

namespace Cil

open List
namespace Compile

variable {ctx : BodyContext} {sound : Prop} {x : Situation} {s : Session}

/-- What has happened where: the zones around the place, the zones that were entered and left, and the
instructions and labels that were written. A zone is named by the zones around its inside. -/
structure Plan where
  zones : List Zone
  opened : List Zone → Nat → Nat → Prop
  closed : List Zone → Nat → Prop
  written : Nat → List Zone → Nat → Prop
  marked : Label → Nat → List Zone → Nat → Prop
  stop : Nat

namespace Plan

variable {x : Plan}

/-- The zones of a plan are nested. -/
structure Zoned (x : Plan) : Prop where
  openedLe {P a n} : x.opened P a n → a ≤ x.stop
  closedLe {P b} : x.closed P b → b ≤ x.stop
  /-- The zones around the place have been entered. -/
  around {P} : P <:+ x.zones → ∃ a n, x.opened P a n
  /-- They are those that have not been left. -/
  open_iff {P a n} : x.opened P a n → (P <:+ x.zones ↔ ∀ b, ¬ x.closed P b)
  openedOnce {P a n a' n'} : x.opened P a n → x.opened P a' n' → a = a' ∧ n = n'
  /-- A zone lies in other zones in one way. -/
  headOnce {z P P' a n a' n'} : x.opened (z :: P) a n → x.opened (z :: P') a' n' → P = P'
  closedOnce {P b b'} : x.closed P b → x.closed P b' → b = b'
  closedOpened {P b} : x.closed P b → ∃ a n, x.opened P a n ∧ a ≤ b
  outer {P Q a n} : x.opened P a n → Q <:+ P → ∃ a' n', x.opened Q a' n' ∧ a' ≤ a
  outerClosed {P Q a n b} : x.opened P a n → Q <:+ P → x.closed Q b →
    ∃ b' ≤ b, x.closed P b'

/-- An instruction was written within the zones that it lies in. -/
structure Written (x : Plan) : Prop where
  lt {p P n} : x.written p P n → p < x.stop
  exists_of_lt {p} : p < x.stop → ∃ P n, x.written p P n
  once {p P n P' n'} : x.written p P n → x.written p P' n' → P = P' ∧ n = n'
  within {p P n} : x.written p P n → ∃ a m, x.opened P a m
  covers {p P n Q a m} : x.written p P n → x.opened Q a m →
    (Q <:+ P ↔ a ≤ p ∧ ∀ b, x.closed Q b → p < b)

/-- So was a label, but it may also stand where a zone starts or ends. -/
structure Marked (x : Plan) : Prop where
  le {l p P n} : x.marked l p P n → p ≤ x.stop
  within {l p P n} : x.marked l p P n → ∃ a m, x.opened P a m ∧ a ≤ p
  covers {l p P n Q a m} : x.marked l p P n → x.opened Q a m → a < p →
    (∀ b, x.closed Q b → p < b) → Q <:+ P
  closedGe {l p P n b} : x.marked l p P n → x.closed P b → p ≤ b
  /-- A zone that is entered where a label stands is one of those of the label, or is left there as well,
  or else the label was there first. -/
  beside {l p P n z R m} : x.marked l p P n → x.opened (z :: R) p m →
    z :: R <:+ P ∨ x.closed (z :: R) p ∨ x.closed P p ∨ P <:+ R

/-- The zones of a plan are nested, and what was written lies in them. -/
structure Nested (x : Plan) : Prop where
  zoned : x.Zoned
  written : x.Written
  marked : x.Marked

variable {P Z : List Zone} {O : List Zone → Nat → Nat → Prop} {C : List Zone → Nat → Prop}
  {W : Nat → List Zone → Nat → Prop} {M : Label → Nat → List Zone → Nat → Prop} {p n : Nat}

theorem Zoned.not_closed (h : x.Zoned) (inside : P <:+ x.zones) (b : Nat) : ¬ x.closed P b := by
  obtain ⟨a, n, entered⟩ := h.around inside
  exact (h.open_iff entered).1 inside b

/-- A zone is around the place if it was entered before and all its ends are still to come. -/
theorem Zoned.suffix_of_not_le (h : x.Zoned) {a : Nat} (entered : x.opened P a n)
    (later : ∀ b, x.closed P b → x.stop < b) : P <:+ x.zones :=
  (h.open_iff entered).2 fun b left => Nat.lt_irrefl _
    (Nat.lt_of_lt_of_le (later b left) (h.closedLe left))

/-- A zone that was entered at the place is still around it, or has been left there. -/
theorem Zoned.open_or_closed (h : x.Zoned) (entered : x.opened P x.stop n) :
    P <:+ x.zones ∨ x.closed P x.stop := by
  by_cases left : ∃ b, x.closed P b
  · obtain ⟨b, left⟩ := left
    obtain ⟨a, m, before, le⟩ := h.closedOpened left
    obtain ⟨rfl, _⟩ := h.openedOnce entered before
    exact .inr (Nat.le_antisymm (h.closedLe left) le ▸ left)
  · exact .inl ((h.open_iff entered).2 fun b hb => left ⟨b, hb⟩)

theorem Nested.open_or_closed_of_label (h : x.Nested) {l : Label}
    (there : x.marked l x.stop P n) : P <:+ x.zones ∨ x.closed P x.stop := by
  obtain ⟨a, m, entered, _⟩ := h.marked.within there
  by_cases left : ∃ b, x.closed P b
  · obtain ⟨b, left⟩ := left
    exact .inr (Nat.le_antisymm (h.zoned.closedLe left) (h.marked.closedGe there left) ▸ left)
  · exact .inl ((h.zoned.open_iff entered).2 fun b hb => left ⟨b, hb⟩)

theorem Nested.write (h : Nested ⟨Z, O, C, W, M, p⟩) (n : Nat) :
    Nested ⟨Z, O, C, fun q P m => (q, P, m) = (p, Z, n) ∨ W q P m, M, p + 1⟩ where
  zoned := { h.zoned with
    openedLe := fun entered => Nat.le_succ_of_le (h.zoned.openedLe entered)
    closedLe := fun left => Nat.le_succ_of_le (h.zoned.closedLe left) }
  marked := { h.marked with le := fun placed => Nat.le_succ_of_le (h.marked.le placed) }
  written := {
    lt := by
      rintro q P m (⟨⟨⟩⟩ | old)
      · exact Nat.lt_succ_self _
      · exact Nat.lt_succ_of_lt (h.written.lt old)
    exists_of_lt := by
      intro q low
      rcases Nat.lt_succ_iff_lt_or_eq.1 low with before | rfl
      · obtain ⟨P, m, old⟩ := h.written.exists_of_lt before
        exact ⟨P, m, .inr old⟩
      · exact ⟨Z, n, .inl rfl⟩
    once := by
      rintro q P m P' m' (⟨⟨⟩⟩ | first) (⟨⟨⟩⟩ | second)
      · exact ⟨rfl, rfl⟩
      · exact absurd (h.written.lt second) (Nat.lt_irrefl _)
      · exact absurd (h.written.lt first) (Nat.lt_irrefl _)
      · exact h.written.once first second
    within := by
      rintro q P m (⟨⟨⟩⟩ | old)
      · exact h.zoned.around (suffix_refl _)
      · exact h.written.within old
    covers := by
      rintro q P m Q a k (⟨⟨⟩⟩ | old) entered
      · constructor
        · intro inside
          exact ⟨h.zoned.openedLe entered, fun b left => absurd left (h.zoned.not_closed inside b)⟩
        · exact fun between => h.zoned.suffix_of_not_le entered between.2
      · exact h.written.covers old entered }

theorem Nested.mark (h : Nested ⟨Z, O, C, W, M, p⟩) (l : Label) (n : Nat) :
    Nested ⟨Z, O, C, W, fun l' q P m => (l', q, P, m) = (l, p, Z, n) ∨ M l' q P m, p⟩ where
  zoned := { h.zoned with }
  written := { h.written with }
  marked := {
    le := by
      rintro l' q P m (⟨⟨⟩⟩ | old)
      · exact Nat.le_refl _
      · exact h.marked.le old
    within := by
      rintro l' q P m (⟨⟨⟩⟩ | old)
      · obtain ⟨a, k, entered⟩ := h.zoned.around (suffix_refl _)
        exact ⟨a, k, entered, h.zoned.openedLe entered⟩
      · exact h.marked.within old
    covers := by
      rintro l' q P m Q a k (⟨⟨⟩⟩ | old) entered before after
      · exact h.zoned.suffix_of_not_le entered after
      · exact h.marked.covers old entered before after
    closedGe := by
      rintro l' q P m b (⟨⟨⟩⟩ | old) left
      · exact absurd left (h.zoned.not_closed (suffix_refl _) b)
      · exact h.marked.closedGe old left
    beside := by
      rintro l' q P m z R k (⟨⟨⟩⟩ | old) entered
      · exact (h.zoned.open_or_closed entered).imp_right .inl
      · exact h.marked.beside old entered }

theorem Nested.enter (h : Nested ⟨Z, O, C, W, M, p⟩) (z : Zone) (n : Nat)
    (fresh : ∀ P a m, O P a m → z ∉ P) :
    Nested ⟨z :: Z, fun P a m => (P, a, m) = (z :: Z, p, n) ∨ O P a m, C, W, M, p⟩ := by
  have unknown {P : List Zone} (inside : z :: Z <:+ P) {a m : Nat} : ¬ O P a m :=
    fun old => fresh P a m old (inside.subset mem_cons_self)
  have open' (b : Nat) : ¬ C (z :: Z) b := by
    intro left
    obtain ⟨a, m, old, _⟩ := h.zoned.closedOpened left
    exact unknown (suffix_refl _) old
  refine ⟨⟨?_, h.zoned.closedLe, ?_, ?_, ?_, ?_, h.zoned.closedOnce, ?_, ?_, ?_⟩,
    ⟨h.written.lt, h.written.exists_of_lt, h.written.once, ?_, ?_⟩,
    ⟨h.marked.le, ?_, ?_, h.marked.closedGe, ?_⟩⟩
  · rintro P a m (⟨⟨⟩⟩ | old)
    · exact Nat.le_refl _
    · exact h.zoned.openedLe old
  · intro P inside
    rcases suffix_cons_iff.1 inside with rfl | outside
    · exact ⟨_, _, .inl rfl⟩
    · obtain ⟨a, m, old⟩ := h.zoned.around outside
      exact ⟨a, m, .inr old⟩
  · rintro P a m (⟨⟨⟩⟩ | old)
    · exact iff_of_true (suffix_refl _) open'
    · rw [← h.zoned.open_iff old, suffix_cons_iff]
      refine or_iff_right ?_
      rintro rfl
      exact unknown (suffix_refl _) old
  · rintro P a m a' m' (⟨⟨⟩⟩ | first) (⟨⟨⟩⟩ | second)
    · exact ⟨rfl, rfl⟩
    · exact absurd second (unknown (suffix_refl _))
    · exact absurd first (unknown (suffix_refl _))
    · exact h.zoned.openedOnce first second
  · rintro y P P' a m a' m' (⟨⟨⟩⟩ | first) (⟨⟨⟩⟩ | second)
    · rfl
    · exact absurd mem_cons_self (fresh _ _ _ second)
    · exact absurd mem_cons_self (fresh _ _ _ first)
    · exact h.zoned.headOnce first second
  · intro P b left
    obtain ⟨a, m, old, le⟩ := h.zoned.closedOpened left
    exact ⟨a, m, .inr old, le⟩
  · rintro P Q a m (⟨⟨⟩⟩ | old) inside
    · rcases suffix_cons_iff.1 inside with rfl | outside
      · exact ⟨_, _, .inl rfl, Nat.le_refl _⟩
      · obtain ⟨a, m, old⟩ := h.zoned.around outside
        exact ⟨a, m, .inr old, h.zoned.openedLe old⟩
    · obtain ⟨a', m', found, le⟩ := h.zoned.outer old inside
      exact ⟨a', m', .inr found, le⟩
  · rintro P Q a m b (⟨⟨⟩⟩ | old) inside left
    · rcases suffix_cons_iff.1 inside with rfl | outside
      · exact absurd left (open' b)
      · exact absurd left (h.zoned.not_closed outside b)
    · exact h.zoned.outerClosed old inside left
  · intro q P m there
    obtain ⟨a, k, old⟩ := h.written.within there
    exact ⟨a, k, .inr old⟩
  · rintro q P m Q a k there (⟨⟨⟩⟩ | old)
    · obtain ⟨a, k, old⟩ := h.written.within there
      refine iff_of_false (fun inside => unknown inside old) fun between => ?_
      exact Nat.lt_irrefl q (Nat.lt_of_lt_of_le (h.written.lt there) between.1)
    · exact h.written.covers there old
  · intro l q P m there
    obtain ⟨a, k, old, le⟩ := h.marked.within there
    exact ⟨a, k, .inr old, le⟩
  · rintro l q P m Q a k there (⟨⟨⟩⟩ | old) before after
    · exact absurd (Nat.lt_of_lt_of_le before (h.marked.le there)) (Nat.lt_irrefl _)
    · exact h.marked.covers there old before after
  · rintro l q P m y R k there (⟨⟨⟩⟩ | old)
    · exact .inr (.inr (h.open_or_closed_of_label there).symm)
    · exact h.marked.beside there old

theorem Nested.exit {Z' : List Zone} {z : Zone} (h : Nested ⟨Z', O, C, W, M, p⟩)
    (top : Z' = z :: Z) : Nested ⟨Z, O, fun P b => (P, b) = (Z', p) ∨ C P b, W, M, p⟩ := by
  subst top
  have still {b : Nat} : ¬ C (z :: Z) b := h.zoned.not_closed (suffix_refl _) b
  have short {P : List Zone} (inside : P <:+ Z) : P ≠ z :: Z := by
    rintro rfl
    exact absurd inside.length_le (by simp)
  refine ⟨⟨h.zoned.openedLe, ?_, ?_, ?_, h.zoned.openedOnce, h.zoned.headOnce, ?_, ?_, h.zoned.outer,
    ?_⟩,
    ⟨h.written.lt, h.written.exists_of_lt, h.written.once, h.written.within, ?_⟩,
    ⟨h.marked.le, h.marked.within, ?_, ?_, ?_⟩⟩
  · rintro P b (⟨⟨⟩⟩ | old)
    · exact Nat.le_refl _
    · exact h.zoned.closedLe old
  · exact fun inside => h.zoned.around (inside.trans (suffix_cons z Z))
  · intro P a m entered
    constructor
    · rintro inside b (⟨⟨⟩⟩ | old)
      · exact short inside rfl
      · exact h.zoned.not_closed (inside.trans (suffix_cons z Z)) b old
    · intro never
      have inside : P <:+ z :: Z := (h.zoned.open_iff entered).2 fun b left =>
        never b (.inr left)
      rcases suffix_cons_iff.1 inside with rfl | outside
      · exact absurd (.inl rfl) (never _)
      · exact outside
  · rintro P b b' (⟨⟨⟩⟩ | first) (⟨⟨⟩⟩ | second)
    · rfl
    · exact absurd second still
    · exact absurd first still
    · exact h.zoned.closedOnce first second
  · rintro P b (⟨⟨⟩⟩ | old)
    · obtain ⟨a, m, entered⟩ := h.zoned.around (suffix_refl _)
      exact ⟨a, m, entered, h.zoned.openedLe entered⟩
    · exact h.zoned.closedOpened old
  · rintro P Q a m b entered inside (⟨⟨⟩⟩ | old)
    · by_cases left : ∃ b', C P b'
      · obtain ⟨b', left⟩ := left
        exact ⟨b', h.zoned.closedLe left, .inr left⟩
      · -- A zone in the one that is left, and not left before, is that zone.
        have around : P <:+ z :: Z := (h.zoned.open_iff entered).2 fun b' hb' => left ⟨b', hb'⟩
        obtain rfl := around.eq_of_length_le inside.length_le
        exact ⟨_, Nat.le_refl _, .inl rfl⟩
    · obtain ⟨b', le, left⟩ := h.zoned.outerClosed entered inside old
      exact ⟨b', le, .inr left⟩
  · intro q P m Q a k there entered
    rw [h.written.covers there entered]
    refine and_congr_right fun _ => ⟨?_, fun later b left => later b (.inr left)⟩
    rintro later b (⟨⟨⟩⟩ | old)
    · exact h.written.lt there
    · exact later b old
  · intro l q P m Q a k there entered before after
    exact h.marked.covers there entered before fun b left => after b (.inr left)
  · rintro l q P m b there (⟨⟨⟩⟩ | old)
    · exact h.marked.le there
    · exact h.marked.closedGe there old
  · intro l q P m y R k there entered
    exact (h.marked.beside there entered).imp_right
      (.imp .inr (.imp_left .inr))

end Plan

@[simp] def Situation.plan (x : Situation) : Plan where
  zones := x.scene.zones
  opened P a n := .opened P a n ∈ x.history
  closed P b := .closed P b ∈ x.history
  written p P n := .instruction p P n ∈ x.history
  marked l p P n := .label l p P n ∈ x.history
  stop := x.draft.code.stop

/-- Zones have the numbers of regions that have been found, and no two have one number, except that a
protected block has that of its whole. -/
structure Counted (x : Situation) : Prop where
  le {P a n z} : .opened P a n ∈ x.history → z ∈ P → z.number ≤ x.scene.found.count
  once {P a n z P' a' n' z'} : .opened P a n ∈ x.history → .opened P' a' n' ∈ x.history → z ∈ P →
    z' ∈ P' → z.number = z'.number → z.kind ≠ .whole → z'.kind ≠ .whole → z = z'

namespace Counted

variable {x y : Situation}

theorem same (h : Counted x) (opened : ∀ {P a n}, .opened P a n ∈ y.history → .opened P a n ∈ x.history)
    (count : y.scene.found.count = x.scene.found.count) : Counted y where
  le entered hz := count ▸ h.le (opened entered) hz
  once first second := h.once (opened first) (opened second)

theorem fresh (h : Counted x) {z : Zone} (number : z.number = x.scene.found.count + 1) {P : List Zone}
    {a n : Nat} (entered : .opened P a n ∈ x.history) : z ∉ P := by
  intro hz
  have := h.le entered hz
  omega

/-- Some zones with the next number are entered, only one of which is not a whole. -/
theorem enter (h : Counted x) {a₀ n₀ : Nat} (around : .opened x.scene.zones a₀ n₀ ∈ x.history)
    (new : List Zone) (count : y.scene.found.count = x.scene.found.count + 1)
    (number : ∀ z ∈ new, z.number = x.scene.found.count + 1)
    (one : ∀ z ∈ new, ∀ z' ∈ new, z.kind ≠ .whole → z'.kind ≠ .whole → z = z')
    (opened : ∀ {P a n}, .opened P a n ∈ y.history → .opened P a n ∈ x.history ∨
      ∀ z ∈ P, z ∈ new ∨ z ∈ x.scene.zones) : Counted y := by
  -- A zone of the larger history is new, or one that was entered before.
  have split {P a n z} (entered : .opened P a n ∈ y.history) (hz : z ∈ P) :
      z ∈ new ∨ ∃ P a n, .opened P a n ∈ x.history ∧ z ∈ P := by
    rcases opened entered with old | zones
    · exact .inr ⟨P, a, n, old, hz⟩
    · exact (zones z hz).imp_right fun outside => ⟨_, a₀, n₀, around, outside⟩
  refine ⟨fun {P a n z} entered hz => ?_,
    fun {P a n z P' a' n' z'} first second hz hz' same part part' => ?_⟩
  · rcases split entered hz with fresh | ⟨P, a, n, old, hz⟩
    · exact Nat.le_of_eq ((number z fresh).trans count.symm)
    · exact Nat.le_trans (h.le old hz) (count ▸ Nat.le_succ _)
  · rcases split first hz with new₁ | ⟨_, _, _, old₁, hz₁⟩ <;>
      rcases split second hz' with new₂ | ⟨_, _, _, old₂, hz₂⟩
    · exact one z new₁ z' new₂ part part'
    · have := number z new₁
      have := h.le old₂ hz₂
      omega
    · have := number z' new₂
      have := h.le old₁ hz₁
      omega
    · exact h.once old₁ old₂ hz₁ hz₂ same part part'

/-- One zone is entered, inside all or some of those around. -/
theorem enter_one (h : Counted x) {a₀ n₀ : Nat} (around : .opened x.scene.zones a₀ n₀ ∈ x.history)
    (z : Zone) {zones : List Zone} (count : y.scene.found.count = x.scene.found.count + 1)
    (number : z.number = x.scene.found.count + 1) (inside : zones ⊆ x.scene.zones)
    (opened : ∀ {P a n}, .opened P a n ∈ y.history → .opened P a n ∈ x.history ∨ P = z :: zones) :
    Counted y := by
  refine h.enter around [z] count (by simpa using number) (by simp) fun entered => ?_
  refine (opened entered).imp_right ?_
  rintro rfl z' hz'
  exact (mem_cons.1 hz').imp mem_singleton.2 (inside ·)

end Counted

@[simp] theorem stop_push (d : Draft) (i : Instruction) : (d.push i).code.stop = d.code.stop + 1 :=
  Array.size_push ..

@[simp] theorem stop_place (d : Draft) (l : Label) : (d.place l).code.stop = d.code.stop := rfl

@[simp] theorem stop_addPoint (d : Draft) (span : SourceSpan) :
    (d.addPoint span).code.stop = d.code.stop := rfl

theorem Step.nested {y : Situation} (step : Step sound ctx x y) (nested : x.plan.Nested)
    (h : Counted x) : y.plan.Nested := by
  obtain ⟨a₀, n₀, around⟩ := nested.zoned.around (suffix_refl x.scene.zones)
  cases step with
  | guess | heights | scope | point | label | named | blob => simpa using nested
  | plain | branch | switch => simpa using nested.write _
  | place | block => simpa using nested.mark _ _
  | closeAttempt _ _ top | closeWhole _ _ top | clause _ _ _ top => simpa using nested.exit top
  | @openAttempt s n K d t k number =>
    have outer := nested.enter ⟨.whole, k⟩ 0 fun P a m => h.fresh number
    have fresh : ∀ P a m, (P, a, m) = (⟨.whole, k⟩ :: s.zones, d.code.stop, 0) ∨ .opened P a m ∈ K →
        ⟨.attempt, k⟩ ∉ P := by
      rintro P a m (⟨⟨⟩⟩ | old)
      · simpa using h.fresh (z := ⟨.attempt, k⟩) number around
      · exact h.fresh number old
    simpa using outer.enter ⟨.attempt, k⟩ 0 fresh
  | openPart kind w rest number => simpa using nested.enter ⟨kind, _⟩ 1 fun P a m => h.fresh number
  | closeFilter m w rest number top =>
    simpa using (nested.exit top).enter ⟨.handler, _⟩ 1 fun P a m => h.fresh number
  | openCleanup w rest number top =>
    simpa using (nested.exit top).enter ⟨.cleanup w, _⟩ 0 fun P a m => h.fresh number

theorem Step.counted {y : Situation} (step : Step sound ctx x y) (nested : x.plan.Nested)
    (h : Counted x) : Counted y := by
  obtain ⟨a₀, n₀, around⟩ := nested.zoned.around (suffix_refl x.scene.zones)
  cases step with
  | guess | heights | scope | point | label | named | blob | plain | branch | switch | place | block
  | closeAttempt | closeWhole | clause => exact h.same (by simp) rfl
  | @openAttempt s n K d t k number =>
    refine h.enter around [⟨.attempt, k⟩, ⟨.whole, k⟩] number (by simp [number]) (by simp) ?_
    simp +contextual [or_assoc, or_imp]
  | openPart kind w rest number =>
    exact h.enter_one around ⟨kind, _⟩ number number (List.Subset.refl _) (by simp +contextual [or_imp])
  | closeFilter m w rest number top =>
    exact h.enter_one around ⟨.handler, _⟩ number number (top ▸ subset_cons_self ..)
      (by simp +contextual [or_imp])
  | openCleanup w rest number top =>
    exact h.enter_one around ⟨.cleanup w, _⟩ number number (top ▸ subset_cons_self ..)
      (by simp +contextual [or_imp])

/-- What holds at the start and is kept by the steps from situations that can be reached holds in all of
these. -/
theorem Steps.invariant {p : Situation → Prop} (start : p (.start s))
    (step : ∀ {x y}, Steps sound ctx (.start s) x → Step sound ctx x y → p x → p y)
    (h : Steps sound ctx (.start s) x) : p x := by
  induction h with
  | refl => exact start
  | tail before last ih => exact step before last ih

theorem Steps.nested (h : Steps sound ctx (.start s) x) : x.plan.Nested ∧ Counted x := by
  refine Steps.invariant (p := fun x => x.plan.Nested ∧ Counted x) ⟨⟨?_, ?_, ?_⟩, ?_⟩
    (fun _ step ⟨nested, counted⟩ => ⟨step.nested nested counted, step.counted nested counted⟩) h
  all_goals constructor <;> simp +contextual [Situation.start, Code.stop]

end Compile
end Cil
