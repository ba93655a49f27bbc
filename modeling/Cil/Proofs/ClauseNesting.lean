import Cil.Proofs.ProtectedRegions

/-!
The clauses of a method are nested, the inner ones first. The zones that a clause is about have been left
when it is kept, and the handler of a later clause has not. So no zone of a clause lies around the handler
of a later one; and since zones are nested, the clause lies in one zone of the later one, or shares the
protected block with it, or has nothing to do with it.
-/

namespace Cil

open List

/-- No place lies in a range of one kind and in a range of the other. -/
def Apart (ranges ranges' : Nat → Nat → Prop) : Prop :=
  ∀ a b a' b' k, ranges a b → ranges' a' b' → Within a b k → ¬ Within a' b' k

namespace Clause

/-- The ranges of a clause together are its extent. -/
def Range (c : Clause) (start stop : Nat) : Prop := ∃ protects, c.Has protects start stop

/-- The extent of a clause lies in one range. -/
def Inside (c : Clause) (start stop : Nat) : Prop :=
  ∀ a b, c.Range a b → start ≤ a ∧ b ≤ stop

def Catches (c : Clause) : Prop := c.flags = typedFlag ∨ c.flags = filterFlag

def CleansUp (c : Clause) : Prop := c.flags = finallyFlag ∨ c.flags = faultFlag

/-- How a clause lies to a later one. -/
inductive Precedes (c c' : Clause) : Prop
  | apart (extents : Apart c.Range c'.Range)
  /-- Both are for one protected block. -/
  | siblings (start : c.tryOffset = c'.tryOffset) (length : c.tryLength = c'.tryLength)
      (catches : c.Catches ∧ c'.Catches) (handlers : Apart (c.Has false) (c'.Has false))
  /-- The later one cleans up behind the protected block of the other one, and behind its handlers. -/
  | cleanup (start : c.tryOffset = c'.tryOffset) (cleans : c.Catches ∧ c'.CleansUp)
      (covers : c.Inside c'.tryOffset (c'.tryOffset + c'.tryLength))
  /-- The clause lies in one range of the later one. -/
  | inside {start stop : Nat} (range : c'.Range start stop) (inside : c.Inside start stop)

end Clause

namespace Compile

variable {P : List Zone} {a k a' b' : Nat} {protects : Bool} {x y : Situation} {sound : Prop}
  {ctx : BodyContext}

namespace Files

variable {K K' : List Event} {c : DraftClause} {f : File}

theorem mono (h : Files K c f) (sub : K ⊆ K') : Files K' c f := by
  cases h with
  | catching ms catches protects filters follows handles =>
    refine .catching ms catches (protects.mono sub) (fun place guard => ?_) (fun m member => ?_)
      (handles.mono sub)
    · obtain ⟨m, member, spans⟩ := filters place guard
      exact ⟨m, member, spans.mono sub⟩
    · exact sub (follows m member)
  | cleaning cleans protects handles => exact .cleaning cleans (protects.mono sub) (handles.mono sub)

theorem last_mem (h : Files K c f) : f.last ∈ f.zones := by
  cases h <;> simp

theorem handles (h : Files K c f) : Spans K (f.last :: f.base) c.handlerStart c.handlerStop := by
  cases h <;> assumption

theorem closed (h : Files K c f) {z : Zone} (member : z ∈ f.zones) :
    ∃ b, .closed (z :: f.base) b ∈ K := by
  cases h with
  | catching ms catches protects filters follows handles =>
    simp only [mem_cons, mem_map] at member
    rcases member with rfl | rfl | ⟨m, among, rfl⟩
    · exact ⟨_, protects.2⟩
    · exact ⟨_, handles.2⟩
    · exact ⟨_, follows m among⟩
  | cleaning cleans protects handles =>
    simp only [mem_cons, not_mem_nil, or_false] at member
    rcases member with rfl | rfl
    · exact ⟨_, protects.2⟩
    · exact ⟨_, handles.2⟩

end Files

/-- The file of a clause that has been kept; something was written in the handler itself. -/
structure Kept (K : List Event) (c : DraftClause) (f : File) : Prop where
  files : Files K c f
  ran : Ran K (f.last :: f.base)

theorem Kept.mono {K K' : List Event} {c : DraftClause} {f : File} (h : Kept K c f) (sub : K ⊆ K') :
    Kept K' c f :=
  ⟨h.files.mono sub, h.ran.mono sub⟩

/-- No zone of the earlier file lies around the handler of the later one. -/
def File.Before (f g : File) : Prop := ∀ z ∈ f.zones, ¬ z :: f.base <:+ g.last :: g.base

/-- The clauses are kept one after the other. -/
def Filed (x : Situation) : Prop :=
  ∃ files, List.Forall₂ (Kept x.history) x.draft.clauses.toList files ∧ files.Pairwise File.Before

theorem Filed.mono (h : Filed x) (sub : x.history ⊆ y.history)
    (clauses : y.draft.clauses = x.draft.clauses) : Filed y := by
  obtain ⟨files, each, order⟩ := h
  refine ⟨files, ?_, order⟩
  rw [clauses]
  exact each.imp fun c f kept => kept.mono sub

theorem Step.filed (step : Step sound ctx x y) (nested : x.plan.Nested) (h : Filed x) : Filed y := by
  have sub := step.continues.history
  cases step with
  | guess | heights | scope | point | label | named | blob | plain | branch | switch | place | block
  | openAttempt | closeAttempt | openPart | closeFilter | openCleanup | closeWhole =>
    exact h.mono sub rfl
  | @clause s n K d t c z rest top stop guarded covers ran =>
    have has : Clauses (.closed s.zones d.code.stop :: K) c s.zones :=
      ⟨covers.mono (by simp), stop ▸ mem_cons_self, Ran.mono (by simp) ran⟩
    obtain ⟨f, new, whole⟩ := Files.of_clauses has
    obtain ⟨files, each, order⟩ := h
    refine ⟨files ++ [f], ?_, ?_⟩
    · rw [Array.toList_push]
      refine rel_append (each.imp fun c' f' kept => kept.mono sub) (.cons ⟨new, ?_⟩ .nil)
      rw [whole]
      exact has.2.2
    · refine pairwise_append.2 ⟨order, pairwise_singleton _ _, ?_⟩
      intro f' member g single z among around
      obtain rfl := mem_singleton.1 single
      obtain ⟨c', -, old⟩ := exists_of_forall₂ each member
      obtain ⟨b, left⟩ := old.files.closed among
      rw [whole] at around
      exact nested.zoned.not_closed around b left

theorem Steps.filed {s : Session} (h : Steps sound ctx (.start s) x) : Filed x := by
  refine Steps.invariant ⟨[], ?_, .nil⟩ (fun before step => step.filed before.nested.1) h
  simp [Situation.start]

namespace Complete

variable {sound : Prop} {ctx : BodyContext} {s : Session} {x : Situation} (h : Complete sound ctx s x)
  {b : Nat} {rest : List Zone}

include h

theorem suffix_or_suffix {Q : List Zone} (spans : Spans x.history P a b)
    (spans' : Spans x.history Q a' b') (here : Within a b k) (there : Within a' b' k) :
    P <:+ Q ∨ Q <:+ P := by
  have nested := h.nested
  have inside : k < x.draft.code.stop :=
    Nat.lt_of_lt_of_le here.2 (nested.zoned.closedLe spans.2)
  obtain ⟨R, n, written⟩ := nested.written.exists_of_lt inside
  exact suffix_or_suffix_of_suffix ((h.inside_iff written spans).2 here)
    ((h.inside_iff written spans').2 there)

variable {c c' : DraftClause} {f g : File}

theorem handler_nonempty (kept : Kept x.history c f) : c.handlerStart < c.handlerStop := by
  obtain ⟨k, n, written⟩ := kept.ran
  have inside := (h.inside_iff written kept.files.handles).1 (suffix_refl _)
  exact Nat.lt_of_le_of_lt inside.1 inside.2

theorem spans_unique (spans : Spans x.history P a b) (spans' : Spans x.history P a' b') :
    a = a' ∧ b = b' := by
  have first := h.spans_le spans spans' (suffix_refl P)
  have second := h.spans_le spans' spans (suffix_refl P)
  omega

theorem cleanup_start {n : Nat} (spans : Spans x.history (⟨.cleanup k, n⟩ :: rest) a b) :
    .closed (⟨.whole, k⟩ :: rest) a ∈ x.history := by
  obtain ⟨⟨m, entered⟩, -⟩ := spans
  cases h.bounded.opened entered with
  | part part => simp at part
  | cleanup writable left => exact left

theorem attempt_start (spans : Spans x.history (⟨.attempt, k⟩ :: ⟨.whole, k⟩ :: rest) a b) :
    .opened (⟨.whole, k⟩ :: rest) a 0 ∈ x.history := by
  obtain ⟨⟨m, entered⟩, -⟩ := spans
  cases h.bounded.opened entered with
  | attempt around => exact around
  | part part => simp at part

variable (kept : Kept x.history c f) (kept' : Kept x.history c' g) (before : f.Before g)

include kept kept' before

theorem handlerStart_ne (base : f.base = g.base) : c.handlerStart ≠ c'.handlerStart := by
  intro same
  have here : Within c.handlerStart c.handlerStop c.handlerStart :=
    ⟨Nat.le_refl _, h.handler_nonempty kept⟩
  have there : Within c'.handlerStart c'.handlerStop c.handlerStart := by
    rw [same]
    exact ⟨Nat.le_refl _, h.handler_nonempty kept'⟩
  have around : f.last :: f.base <:+ g.last :: g.base := by
    rcases h.suffix_or_suffix kept.files.handles kept'.files.handles here there with inner | outer
    · exact inner
    · have length : (f.last :: f.base).length ≤ (g.last :: g.base).length := by simp [base]
      exact outer.eq_of_length_le length ▸ suffix_refl _
  exact before f.last kept.files.last_mem around

/-- A range of a clause and a range of a later one that meet are those of one zone, or the clause lies
in the range of the later one. -/
theorem same_or_inside {protects' : Bool} (has : c.Has protects a b) (has' : c'.Has protects' a' b')
    (here : Within a b k) (there : Within a' b' k) :
    (∃ z ∈ f.zones, z ∈ g.zones ∧ f.base = g.base ∧ Spans x.history (z :: f.base) a b ∧
        (protects = true ↔ z.kind = .whole ∨ z.kind = .attempt)) ∨
      ∃ z ∈ g.zones, z :: g.base <:+ f.base ∧ Spans x.history (z :: g.base) a' b' ∧
        ∀ {protects e o}, c.Has protects e o → a' ≤ e ∧ o ≤ b' := by
  obtain ⟨z, member, spans, kind⟩ := kept.files.spans has
  obtain ⟨z', member', spans', -⟩ := kept'.files.spans has'
  rcases h.suffix_or_suffix spans spans' here there with outer | inner
  · rcases suffix_cons_iff.1 outer with same | around
    · obtain ⟨rfl, base⟩ := List.cons.inj same
      exact .inl ⟨z, member, member', base, spans, kind⟩
    · exact absurd (around.trans (suffix_cons _ _)) (before z member)
  · rcases suffix_cons_iff.1 inner with same | around
    · obtain ⟨rfl, base⟩ := List.cons.inj same
      exact .inl ⟨z', member, member', base.symm, spans, kind⟩
    · refine .inr ⟨z', member', around, spans', fun {_ e o} has'' => ?_⟩
      obtain ⟨z'', -, spans'', -⟩ := kept.files.spans has''
      exact h.spans_le spans'' spans' (around.trans (suffix_cons _ _))

end Complete

/-- How a clause lies to a later one of which it meets the range from `start` to `stop`. -/
inductive Meets (c c' : DraftClause) (start stop : Nat) : Prop
  | siblings (starts : c.tryStart = c'.tryStart) (stops : c.tryStop = c'.tryStop)
      (catches : c.Catches ∧ c'.Catches) (handlers : Apart (c.Has false) (c'.Has false))
  | cleanup (starts : c.tryStart = c'.tryStart) (catches : c.Catches)
      (cleans : c'.guard = .anyExit ∨ c'.guard = .anyException)
      (range : start = c'.tryStart ∧ stop = c'.tryStop)
      (covers : ∀ {protects a b}, c.Has protects a b → start ≤ a ∧ b ≤ stop)
  | inside (inside : ∀ {protects a b}, c.Has protects a b → start ≤ a ∧ b ≤ stop)

namespace Complete

variable {sound : Prop} {ctx : BodyContext} {s : Session} {x : Situation} (h : Complete sound ctx s x)
  {c c' : DraftClause} {f g : File} (kept : Kept x.history c f) (kept' : Kept x.history c' g)
  (before : f.Before g)

include h kept kept' before

omit h kept kept' in
theorem ne_last {z : Zone} (member : z ∈ f.zones) (base : f.base = g.base) : z ≠ g.last := by
  rintro rfl
  exact before g.last member (base ▸ suffix_refl _)

/-- Clauses with a zone in common, but for the zones that are protected, would be one. -/
theorem protected_of_shared {z : Zone} (member : z ∈ f.zones) (member' : z ∈ g.zones)
    (base : f.base = g.base) : z.kind = .attempt := by
  have starts := h.handlerStart_ne kept kept' before base
  have other := ne_last before member base
  cases kept.files with
  | @catching ms k n rest catches protects filters follows handles =>
    cases kept'.files with
    | @catching ms' k' n' rest' catches' protects' filters' follows' handles' =>
      simp only [mem_cons, mem_map] at member member'
      rcases member' with rfl | rfl | ⟨m', among', rfl⟩
      · rfl
      · exact absurd rfl other
      · rcases member with wrong | wrong | ⟨m, among, same⟩
        · cases wrong
        · cases wrong
        · cases same
          cases base
          exact absurd (h.zoned.closedOnce (follows m' among) (follows' m' among')) starts
    | @cleaning k' n' rest' cleans' protects' handles' =>
      simp only [mem_cons, not_mem_nil, or_false] at member'
      rcases member' with rfl | rfl <;> simp at member
  | @cleaning k n rest cleans protects handles =>
    cases kept'.files with
    | @catching ms' k' n' rest' catches' protects' filters' follows' handles' =>
      simp only [mem_cons, not_mem_nil, or_false] at member
      rcases member with rfl | rfl <;> simp at member'
    | @cleaning k' n' rest' cleans' protects' handles' =>
      simp only [mem_cons, not_mem_nil, or_false] at member member'
      rcases member' with rfl | rfl
      · rcases member with same | wrong
        · cases same
          cases base
          exact absurd (h.zoned.closedOnce (h.cleanup_start handles) (h.cleanup_start handles')) starts
        · cases wrong
      · exact absurd rfl other

theorem handlers_apart (base : f.base = g.base) : Apart (c.Has false) (c'.Has false) := by
  intro a b a' b' k has has' here there
  rcases h.same_or_inside kept kept' before has has' here there with
    ⟨z, member, member', -, -, kind⟩ | ⟨z, -, around, -, -⟩
  · have attempt := h.protected_of_shared kept kept' before member member' base
    simp [attempt] at kind
  · rw [base] at around
    exact absurd around.length_le (by simp)

theorem meets {protects' : Bool} {b : Nat} (has : c.Has protects a b)
    (has' : c'.Has protects' a' b') (here : Within a b k) (there : Within a' b' k) :
    Meets c c' a' b' := by
  rcases h.same_or_inside kept kept' before has has' here there with
    ⟨z, member, member', base, -, -⟩ | ⟨z, member', around, spans, inside⟩
  · have attempt := h.protected_of_shared kept kept' before member member' base
    have apart := h.handlers_apart kept kept' before base
    cases kept.files with
    | @catching ms k n rest catches protects filters follows handles =>
      cases kept'.files with
      | @catching ms' k' n' rest' catches' protects' filters' follows' handles' =>
        cases base
        obtain ⟨starts, stops⟩ := h.spans_unique protects protects'
        exact .siblings starts stops ⟨catches, catches'⟩ apart
      | cleaning =>
        simp only [mem_cons, not_mem_nil, or_false] at member'
        rcases member' with rfl | rfl <;> cases attempt
    | cleaning =>
      simp only [mem_cons, not_mem_nil, or_false] at member
      rcases member with rfl | rfl <;> cases attempt
  · cases kept.files with
    | cleaning => exact .inside inside
    | @catching ms k n rest catches protects filters follows handles =>
      cases kept'.files with
      | catching => exact .inside inside
      | @cleaning k' n' rest' cleans protects' handles' =>
        by_cases whole : z :: rest' = ⟨.whole, k⟩ :: rest
        · obtain ⟨rfl, rfl⟩ := List.cons.inj whole
          simp only [mem_cons, not_mem_nil, or_false] at member'
          rcases member' with same | wrong
          · cases same
            have range := h.spans_unique spans protects'
            obtain ⟨⟨m, opened⟩, -⟩ := protects'
            obtain ⟨starts, -⟩ := h.zoned.openedOnce (h.attempt_start protects) opened
            exact .cleanup starts catches cleans range inside
          · cases wrong
        · exact .inside inside

end Complete

theorem pairwise_of_forall₂ {α β : Type} {R : α → β → Prop} {S : β → β → Prop} {as : List α}
    {bs : List β} (each : List.Forall₂ R as bs) (order : bs.Pairwise S) :
    as.Pairwise fun a a' => ∃ b b', R a b ∧ R a' b' ∧ S b b' := by
  obtain ⟨length, related⟩ := forall₂_iff_get.1 each
  rw [pairwise_iff_getElem] at order ⊢
  intro i j hi hj less
  exact ⟨_, _, related i hi (length ▸ hi), related j hj (length ▸ hj), order i j _ _ less⟩

open Code

theorem within_of_offsets {code : Code} {b offset : Nat} (ha : a ≤ code.stop) (hb : b ≤ code.stop)
    (ha' : a' ≤ code.stop) (hb' : b' ≤ code.stop)
    (here : Within (code.layout.offset a) (code.layout.offset b) offset)
    (there : Within (code.layout.offset a') (code.layout.offset b') offset) :
    ∃ k, Within a b k ∧ Within a' b' k := by
  have lt {e o : Nat} (he : e ≤ code.stop) (ho : o ≤ code.stop) (low : code.layout.offset e ≤ offset)
      (high : offset < code.layout.offset o) : e < o :=
    (layout_offset_lt_iff code he ho).1 (Nat.lt_of_le_of_lt low high)
  have first := lt ha hb here.1 here.2
  have second := lt ha hb' here.1 there.2
  have third := lt ha' hb there.1 here.2
  have fourth := lt ha' hb' there.1 there.2
  refine ⟨max a a', ⟨Nat.le_max_left _ _, ?_⟩, Nat.le_max_right _ _, ?_⟩ <;> omega

namespace Built

variable {sound : Prop} {ctx : BodyContext} {b : Body} {s : Session} {x : Situation} {wider : Code}
  (h : Built sound ctx b s x wider)

include h

theorem inside_offsets {c : DraftClause} (listed : c ∈ x.draft.clauses) {e o : Nat}
    (ho : o ≤ wider.stop) (inside : ∀ {protects a b}, c.Has protects a b → e ≤ a ∧ b ≤ o) :
    (c.clause wider.layout).Inside (wider.layout.offset e) (wider.layout.offset o) := by
  rintro start stop ⟨protects, has⟩
  obtain ⟨e', o', has', rfl, rfl, he', -⟩ := h.exists_has listed has
  obtain ⟨low, high⟩ := inside has'
  exact ⟨layout_offset_mono wider low he', layout_offset_mono wider high ho⟩

variable {c c' : DraftClause} {f g : File} (listed : c ∈ x.draft.clauses)
  (listed' : c' ∈ x.draft.clauses) (kept : Kept x.history c f) (kept' : Kept x.history c' g)
  (before : f.Before g)

include listed listed' kept kept' before

theorem precedes : (c.clause wider.layout).Precedes (c'.clause wider.layout) := by
  by_cases apart : Apart (c.clause wider.layout).Range (c'.clause wider.layout).Range
  · exact .apart apart
  simp only [Apart, not_forall, not_not] at apart
  obtain ⟨start, stop, start', stop', offset, ⟨protects, has⟩, ⟨protects', has'⟩, here, there⟩ := apart
  obtain ⟨e, o, draftHas, rfl, rfl, he, ho⟩ := h.exists_has listed has
  obtain ⟨e', o', draftHas', rfl, rfl, he', ho'⟩ := h.exists_has listed' has'
  obtain ⟨k, within, within'⟩ := within_of_offsets he ho he' ho' here there
  cases h.meets kept kept' before draftHas draftHas' within within' with
  | siblings starts stops catches handlers =>
    refine .siblings (congrArg wider.layout.offset starts) ?_ ⟨?_, ?_⟩ ?_
    · change wider.layout.offset c.tryStop - wider.layout.offset c.tryStart =
        wider.layout.offset c'.tryStop - wider.layout.offset c'.tryStart
      rw [starts, stops]
    · exact c.catches_clause.2 catches.1
    · exact c'.catches_clause.2 catches.2
    · intro a b a' b' at' has has' here there
      obtain ⟨e, o, draftHas, rfl, rfl, he, ho⟩ := h.exists_has listed has
      obtain ⟨e', o', draftHas', rfl, rfl, he', ho'⟩ := h.exists_has listed' has'
      obtain ⟨k, within, within'⟩ := within_of_offsets he ho he' ho' here there
      exact handlers _ _ _ _ k draftHas draftHas' within within'
  | cleanup starts catches cleans range covers =>
    obtain ⟨rfl, rfl⟩ := range
    have whole : wider.layout.offset c'.tryStart +
        (wider.layout.offset c'.tryStop - wider.layout.offset c'.tryStart) =
        wider.layout.offset c'.tryStop := by
      apply Nat.add_sub_of_le
      exact layout_offset_mono wider (h.clause_le listed').1 ho'
    refine .cleanup (congrArg wider.layout.offset starts) ⟨c.catches_clause.2 catches, ?_⟩ ?_
    · rcases cleans with guard | guard <;> simp [DraftClause.clause, Clause.CleansUp, guard]
    · change (c.clause wider.layout).Inside (wider.layout.offset c'.tryStart)
        (wider.layout.offset c'.tryStart +
          (wider.layout.offset c'.tryStop - wider.layout.offset c'.tryStart))
      rw [whole]
      exact h.inside_offsets listed ho' covers
  | inside inside => exact .inside ⟨protects', has'⟩ (h.inside_offsets listed ho' inside)

theorem not_inside {start stop : Nat} (range : (c.clause wider.layout).Range start stop) :
    ¬ (c'.clause wider.layout).Inside start stop := by
  intro inside
  obtain ⟨protects, has⟩ := range
  obtain ⟨e, o, draftHas, rfl, rfl, he, ho⟩ := h.exists_has listed has
  obtain ⟨z, member, spans, -⟩ := kept.files.spans draftHas
  -- Something was written directly in the handler of the later clause, and thus in that range.
  obtain ⟨k, n, written⟩ := kept'.ran
  have handler := (h.inside_iff written kept'.files.handles).1 (suffix_refl _)
  obtain ⟨-, -, handlerRange, last⟩ := h.clause_le listed'
  obtain ⟨low, high⟩ := inside _ _ ⟨false, .handler⟩
  have whole : (c'.clause wider.layout).handlerOffset + (c'.clause wider.layout).handlerLength =
      wider.layout.offset c'.handlerStop :=
        Nat.add_sub_of_le (layout_offset_mono wider handlerRange last)
  rw [whole] at high
  have start : e ≤ c'.handlerStart := by
    apply Nat.le_of_not_lt
    intro lt
    exact Nat.not_lt_of_le low (layout_offset_lt wider lt he)
  have stop' : c'.handlerStop ≤ o := by
    apply Nat.le_of_not_lt
    intro lt
    exact Nat.not_lt_of_le high (layout_offset_lt wider lt last)
  apply before z member
  exact (h.inside_iff written spans).2 ⟨Nat.le_trans start handler.1,
    Nat.lt_of_lt_of_le handler.2 stop'⟩

end Built

/-- The clauses of a method are nested, the inner ones first: a clause has nothing in common with a later
one, or is for the same protected block, or lies in one of the ranges of the later one, which in turn
lies in none of its own. -/
theorem clauses_nested_inside_out {src : Source} {keepsSymbols : Bool} {row : Nat} {m : Method}
    {b : Body} {s s' : Session} {encoded : MethodBody} {symbols : Option MethodSymbols}
    {bytes : Bytes} (run : (encodeBody src keepsSymbols row m b).Runs s (encoded, symbols) s')
    (encodes : encoded.encode = .ok bytes) :
    encoded.clauses.Pairwise fun c c' =>
      c.Precedes c' ∧ ∀ start stop, c.Range start stop → ¬ c'.Inside start stop := by
  obtain ⟨token, d, l, s₁, locals, laidOut, -, rfl, rfl⟩ := layOut_of_encodeBody run
  obtain ⟨x, wider, rfl, rfl, rfl, size, h⟩ :=
    Built.of_layOut laidOut (MethodBody.length_code_lt encodes) False.elim
  obtain ⟨files, each, order⟩ := h.steps.filed
  refine List.pairwise_map.2 ((pairwise_of_forall₂ each order).imp_of_mem ?_)
  rintro c c' listed listed' ⟨f, g, kept, kept', before⟩
  rw [Array.mem_toList_iff] at listed listed'
  exact ⟨h.precedes listed listed' kept kept' before,
    fun start stop => h.not_inside listed listed' kept kept' before⟩

/-- What catches comes first, and lies in what is cleaned up behind. -/
theorem clauses_nested_inside_out_delivery :
    ∃ bytes, delivered.encode = .ok bytes ∧ delivered.clauses.length = 2 ∧
      delivered.clauses.Pairwise fun c c' =>
        c.Precedes c' ∧ ∀ start stop, c.Range start stop → ¬ c'.Inside start stop := by
  obtain ⟨symbols, s', run⟩ := encodes_delivery
  obtain ⟨bytes, encodes⟩ := delivered_encode
  exact ⟨bytes, encodes, rfl, clauses_nested_inside_out run encodes⟩

end Compile
end Cil
