import Cil.Proofs.Reencoding
import Cil.Proofs.WellFormedCode

/-!
What the symbols of a method are made of. While a body is compiled, its scopes are noted at places that
never go back, and of the points that fall on one place the last one stays; so the symbols of a method
tell the scopes of its body in their order, and each offset has one point at most.
-/

namespace Cil

open List

variable {marks : List Mark} {places : List Nat}

def latest {α : Type} (key : α → Nat) : List α → List α
  | [] => []
  | a :: rest => if rest.any (key · == key a) then latest key rest else a :: latest key rest

section

variable {α β : Type} {key : α → Nat}

variable {as : List α}

theorem latest_sublist (as : List α) : (latest key as).Sublist as := by
  induction as with
  | nil => exact .slnil
  | cons a rest ih =>
    rw [latest]
    split
    · exact ih.cons a
    · exact ih.cons_cons a

theorem latest_eq_nil (key : α → Nat) : latest key as = [] ↔ as = [] := by
  induction as with
  | nil => simp [latest]
  | cons a rest ih =>
    rw [latest]
    split
    · cases rest <;> simp_all
    · simp

theorem latest_append_singleton {a : α} (rising : (as.map key ++ [key a]).Pairwise (· ≤ ·)) :
    latest key (as ++ [a]) =
      (if (latest key as).getLast?.any (key · == key a) then (latest key as).dropLast
        else latest key as) ++ [a] := by
  induction as with
  | nil => simp [latest]
  | cons b rest ih =>
    rw [map_cons, cons_append, pairwise_cons] at rising
    obtain ⟨low, later⟩ := rising
    have ih := ih later
    by_cases again : rest.any (key · == key b) = true
    · rw [cons_append, latest, if_pos (by simp [again]), ih, latest, if_pos again]
    · by_cases same : key a = key b
      · -- all that lies between has the key as well, so that nothing does
        have empty : rest = [] := by
          refine eq_nil_iff_forall_not_mem.2 fun c hc => again (any_eq_true.2 ⟨c, hc, ?_⟩)
          have inside := mem_map_of_mem (f := key) hc
          have below := (pairwise_append.1 later).2.2 _ inside (key a) (by simp)
          have above := low _ (mem_append_left _ inside)
          exact beq_iff_eq.2 (by omega)
        subst empty
        simp [latest, same]
      · rw [cons_append, latest, if_neg (by simp_all), ih, latest, if_neg again]
        cases kept : latest key rest with
        | nil => simp [Ne.symm same]
        | cons c cs => simp [List.getLast?_cons_cons]; split <;> simp

theorem latest_increasing (rising : (as.map key).Pairwise (· ≤ ·)) :
    ((latest key as).map key).Pairwise (· < ·) := by
  induction as with
  | nil => exact .nil
  | cons a rest ih =>
    obtain ⟨low, later⟩ := pairwise_cons.1 rising
    rw [latest]
    split
    case isTrue => exact ih later
    case isFalse alone =>
      refine .cons (fun k hk => ?_) (ih later)
      obtain ⟨b, hb, rfl⟩ := mem_map.1 hk
      have inside := (latest_sublist rest).mem hb
      have le := low _ (mem_map_of_mem inside)
      have ne : key b ≠ key a := fun same => alone (any_eq_true.2 ⟨b, inside, by simp [same]⟩)
      omega

theorem map_latest {key' : β → Nat} {f : α → β}
    (same : ∀ a ∈ as, ∀ b ∈ as, key' (f a) = key' (f b) ↔ key a = key b) :
    (latest key as).map f = latest key' (as.map f) := by
  induction as with
  | nil => rfl
  | cons a rest ih =>
    have any : (rest.map f).any (key' · == key' (f a)) = rest.any (key · == key a) := by
      rw [any_map, Bool.eq_iff_iff, any_eq_true, any_eq_true]
      refine exists_congr fun b => and_congr_right fun hb => ?_
      simp [same b (mem_cons_of_mem a hb) a mem_cons_self]
    have ih := ih fun b hb c hc => same b (mem_cons_of_mem a hb) c (mem_cons_of_mem a hc)
    rw [latest, map_cons, latest, any]
    split <;> simp [ih]

end

/-- What a draft has recorded on a walk that came to some marks. -/
structure Draft.Recorded (d : Draft) (marks : List Mark) : Prop where
  scopes : d.scopes.toList.map ScopeEvent.mark = marks.filterMap Mark.scope?
  rising : (d.scopes.toList.filterMap ScopeEvent.offset? ++ [d.code.stop]).Pairwise (· ≤ ·)
  points : ∃ given : List (Nat × SourceSpan), given.map (·.2) = marks.filterMap Mark.span? ∧
    d.points.toList = latest (·.1) given ∧ (given.map (·.1) ++ [d.code.stop]).Pairwise (· ≤ ·)

theorem pairwise_le_later {stop stop' : Nat} (rising : (places ++ [stop]).Pairwise (· ≤ ·))
    (le : stop ≤ stop') : (places ++ [stop']).Pairwise (· ≤ ·) := by
  rw [pairwise_append] at rising ⊢
  refine ⟨rising.1, by simp, fun a ha b hb => ?_⟩
  obtain rfl := mem_singleton.1 hb
  exact Nat.le_trans (rising.2.2 a ha stop (by simp)) le

theorem pairwise_le_again {stop : Nat} (rising : (places ++ [stop]).Pairwise (· ≤ ·)) :
    ((places ++ [stop]) ++ [stop]).Pairwise (· ≤ ·) := by
  rw [pairwise_append]
  refine ⟨rising, by simp, fun a ha b hb => ?_⟩
  obtain rfl := mem_singleton.1 hb
  rcases mem_append.1 ha with before | here
  · exact (pairwise_append.1 rising).2.2 a before b (by simp)
  · exact Nat.le_of_eq (mem_singleton.1 here)

namespace Draft

variable {d : Draft} {before : List Mark}

theorem Recorded.grow (h : d.Recorded before) {d' : Draft} (scopes : d'.scopes = d.scopes)
    (points : d'.points = d.points) (le : d.code.stop ≤ d'.code.stop) : d'.Recorded before := by
  obtain ⟨given, spans, kept, rising⟩ := h.points
  refine ⟨scopes ▸ h.scopes, scopes ▸ pairwise_le_later h.rising le, given, spans, points ▸ kept,
    pairwise_le_later rising le⟩

theorem Recorded.event (h : d.Recorded before) (event : ScopeEvent)
    (there : ∀ place ∈ event.offset?, place = d.code.stop) :
    ({ d with scopes := d.scopes.push event } : Draft).Recorded (before ++ [.scope event.mark]) := by
  obtain ⟨given, spans, kept, rising⟩ := h.points
  refine ⟨?_, ?_, given, ?_, kept, rising⟩
  · simp [h.scopes, Mark.scope?]
  · cases at? : event.offset? with
    | none => simpa [at?] using h.rising
    | some place =>
      obtain rfl := there place at?
      simpa [at?] using pairwise_le_again h.rising
  · simp [spans, Mark.span?]

theorem Recorded.point (h : d.Recorded before) (span : SourceSpan) :
    (d.addPoint span).Recorded (before ++ [.point span]) := by
  obtain ⟨given, spans, kept, rising⟩ := h.points
  refine ⟨?_, h.rising, given ++ [(d.code.stop, span)], ?_, ?_, ?_⟩
  · simp [addPoint, h.scopes, Mark.scope?]
  · simp [spans, Mark.span?]
  · rw [latest_append_singleton (by simpa using rising), ← kept]
    simp only [addPoint, Array.toList_push]
    rw [← Array.getLast?_toList]
    split <;> simp
  · simpa [addPoint] using pairwise_le_again rising

theorem Recorded.cons (h : d.Recorded (before ++ marks)) {m : Mark} (scope : m.scope? = none)
    (span : m.span? = none) : d.Recorded (before ++ m :: marks) := by
  obtain ⟨given, spans, kept, rising⟩ := h.points
  refine ⟨?_, h.rising, given, ?_, kept, rising⟩
  · rw [h.scopes, filterMap_append, filterMap_append, filterMap_cons_none scope]
  · rw [spans, filterMap_append, filterMap_append, filterMap_cons_none span]

theorem Change.recorded {d' : Draft} (change : d.Change marks d') (h : d.Recorded before) :
    d'.Recorded (before ++ marks) := by
  cases change with
  | heights | label | place | clause =>
    rw [append_nil]
    exact h.grow rfl rfl (Nat.le_refl _)
  | instruction i =>
    rw [append_nil]
    refine h.grow rfl rfl ?_
    simp [push, Code.push, Code.stop]
  | opened => exact h.event (.opened d.code.stop) (by simp [ScopeEvent.offset?])
  | named name slot signature =>
    exact h.event (.named name slot signature) (by simp [ScopeEvent.offset?])
  | closed => exact h.event (.closed d.code.stop) (by simp [ScopeEvent.offset?])
  | point span => exact h.point span

end Draft

namespace Compile

theorem Composed.recorded {α : Type} {ctx : BodyContext} {c : Compile α} (h : c.Composed ctx marks)
    (keeps : ctx.keepsSymbols = true) {σ σ' : State} {a : α} (run : c.Runs σ a σ')
    {before : List Mark} (recorded : σ.draft.Recorded before) :
    σ'.draft.Recorded (before ++ marks) := by
  induction h generalizing σ σ' before with
  | pure b =>
    obtain ⟨rfl, rfl⟩ := runs_pure.1 run
    rwa [append_nil]
  | bind _ _ ihc ihf =>
    obtain ⟨b, σ₁, first, second⟩ := runs_bind.1 run
    rw [← append_assoc]
    exact ihf b second (ihc first recorded)
  | get =>
    obtain ⟨rfl, rfl⟩ := runs_get.1 run
    rwa [append_nil]
  | modify f change =>
    cases runs_modify.1 run
    exact (change _).recorded recorded
  | modifyGet f change =>
    obtain ⟨rfl, rfl⟩ := runs_modifyGet.1 run
    exact (change _).recorded recorded
  | emit _ =>
    obtain ⟨s, ran, rfl⟩ := runs_emit.1 run
    rwa [append_nil]
  | fault _ cause => exact absurd run runs_fault
  | passed unkept => cases keeps.symm.trans unkept
  | value _ ih | fork _ ih => exact (ih run recorded).cons rfl rfl

end Compile

def SequencePoint.span (x : DocumentId × SequencePoint) : SourceSpan :=
  ⟨x.1, x.2.startLine, x.2.startColumn, x.2.endLine, x.2.endColumn⟩

/-- The symbols of a method tell its body: the scopes in their order, at offsets that never go back, and of
all points that the body gives, those that are the last of their offset. -/
structure MethodSymbols.Describes (ms : MethodSymbols) (b : Body) : Prop where
  scopes : ms.scopes.map ScopeEvent.mark = b.scopeMarks
  rising : (ms.scopes.filterMap ScopeEvent.offset? ++ [ms.codeSize]).Pairwise (· ≤ ·)
  points : ∃ given : List (DocumentId × SequencePoint), given.map SequencePoint.span = b.spans ∧
    (given.map (·.2.offset) ++ [ms.codeSize]).Pairwise (· ≤ ·) ∧ ms.points = latest (·.2.offset) given

theorem ScopeEvent.mark_laidOut (l : Code.Layout) (e : ScopeEvent) : (e.laidOut l).mark = e.mark := by
  cases e <;> rfl

theorem ScopeEvent.offset?_laidOut (l : Code.Layout) (e : ScopeEvent) :
    (e.laidOut l).offset? = e.offset?.map l.offset := by
  cases e <;> rfl

theorem pairwise_offsets (code : Code) (rising : (places ++ [code.stop]).Pairwise (· ≤ ·)) :
    (places.map code.layout.offset ++ [code.layout.size]).Pairwise (· ≤ ·) := by
  have all : places.map code.layout.offset ++ [code.layout.size] =
      (places ++ [code.stop]).map code.layout.offset := by
    simp [Code.Layout.size]
  have inside {p : Nat} (hp : p ∈ places ++ [code.stop]) : p ≤ code.stop := by
    rcases mem_append.1 hp with before | last
    · exact (pairwise_append.1 rising).2.2 p before _ (by simp)
    · exact Nat.le_of_eq (mem_singleton.1 last)
  rw [all, pairwise_map]
  exact rising.imp_of_mem fun _ hb le => Code.layout_offset_mono code le (inside hb)

/-- The symbols of a draft that has recorded the marks of a body describe the body. -/
theorem Draft.Recorded.describes {d : Draft} {b : Body} (h : d.Recorded b.marks) {wider : Code}
    (stop : wider.stop = d.code.stop) (token : Nat) :
    (d.symbols? token wider.layout = none ↔ b.scopeMarks = [] ∧ b.spans = []) ∧
      ∀ ms ∈ d.symbols? token wider.layout,
        ms.token = token ∧ ms.codeSize = wider.layout.size ∧ ms.Describes b := by
  obtain ⟨given, spans, kept, rising⟩ := h.points
  have places : ∀ p ∈ given, p.1 ≤ wider.stop := fun p hp =>
    stop ▸ (pairwise_append.1 rising).2.2 p.1 (mem_map_of_mem hp) _ (by simp)
  have scopesNone : d.scopes.isEmpty = true ↔ b.scopeMarks = [] := by
    rw [Body.scopeMarks, ← h.scopes, map_eq_nil_iff]
    simp
  have pointsNone : d.points.isEmpty = true ↔ b.spans = [] := by
    rw [Body.spans, ← spans, map_eq_nil_iff, ← latest_eq_nil (·.1), ← kept]
    simp
  rw [symbols?]
  by_cases empty : (d.scopes.isEmpty && d.points.isEmpty) = true
  · rw [if_pos empty]
    rw [Bool.and_eq_true, scopesNone, pointsNone] at empty
    exact ⟨⟨fun _ => empty, fun _ => rfl⟩, by simp⟩
  · rw [if_neg empty]
    refine ⟨⟨by simp, fun none => absurd ?_ empty⟩, fun ms told => ?_⟩
    · rwa [Bool.and_eq_true, scopesNone, pointsNone]
    · cases told
      refine ⟨rfl, rfl, ⟨?_, ?_, given.map fun p => pointAt wider.layout p.1 p.2, ?_, ?_, ?_⟩⟩
      · rw [Body.scopeMarks, ← h.scopes, map_map]
        exact map_congr_left fun e _ => e.mark_laidOut wider.layout
      · have offsets := pairwise_offsets wider (stop ▸ h.rising)
        simpa [filterMap_map, Function.comp_def, ScopeEvent.offset?_laidOut,
          map_filterMap] using offsets
      · rw [Body.spans, ← spans, map_map]
        rfl
      · have offsets := pairwise_offsets wider (stop ▸ rising)
        simpa [pointAt, Function.comp_def] using offsets
      · rw [kept]
        refine map_latest fun p hp q hq => ⟨fun same => ?_, fun same => ?_⟩
        · have same : wider.layout.offset p.1 = wider.layout.offset q.1 := same
          have less := Code.layout_offset_lt_iff wider (places p hp) (places q hq)
          have more := Code.layout_offset_lt_iff wider (places q hq) (places p hp)
          omega
        · exact congrArg wider.layout.offset same

namespace Compile

/-- What the symbols of an encoded body tell, and that there are none if there is nothing to tell. -/
theorem describes_of_encodeBody {src : Source} {row : Nat} {m : Method} {b : Body} {s s' : Session}
    {encoded : MethodBody} {symbols : Option MethodSymbols}
    (run : (encodeBody src true row m b).Runs s (encoded, symbols) s') :
    (symbols = none ↔ b.scopeMarks = [] ∧ b.spans = []) ∧ ∀ ms ∈ symbols,
      (Token.row .methodDef row).encode = .ok ms.token ∧ ms.codeSize = encoded.code.length ∧
        ms.Describes b := by
  obtain ⟨token, d, s₁, l, locals, drafts, relaxed, _, same⟩ := runs_encodeBody_iff.1 run
  obtain ⟨rfl, rfl⟩ := Prod.mk.inj same
  obtain ⟨wider, rfl, settled⟩ := Code.relax_eq_ok relaxed
  have recorded : d.Recorded ([] ++ b.marks) :=
    (composed_body (.ofBody src true m b) b).recorded rfl drafts.run
      ⟨rfl, by simp, [], rfl, rfl, by simp⟩
  obtain ⟨none, told⟩ := recorded.describes settled.stop token
  refine ⟨none, fun ms hms => ?_⟩
  obtain ⟨rfl, size, describes⟩ := told ms hms
  exact ⟨drafts.token, size.trans (Code.length_bytes_layout wider).symm, describes⟩

end Compile
end Cil
