import Cil.Proofs.BranchTargets
import Cil.Proofs.References

/-!
The tokens in method bodies resolve. While a body is compiled, every token that has been given out
names something that is there, and the instructions and handlers hold no others.
-/

namespace Cil

open List

variable {op : Opcode} {operand : Bytes} {known known' : List (Named × Token)} {bytes : Bytes}

theorem Opcode.Takes.mono (h : op.Takes known operand) (sub : known ⊆ known') :
    op.Takes known' operand := by
  unfold Takes at *
  split at h
  case h_3 =>
    obtain ⟨named, token, value, member, rest⟩ := h
    exact ⟨named, token, value, sub member, rest⟩
  all_goals exact h

theorem DraftClause.Guarded.mono {c : DraftClause} (h : c.Guarded known) (sub : known ⊆ known') :
    c.Guarded known' := by
  intro value guard
  obtain ⟨t, token, member, encoded⟩ := h value guard
  exact ⟨t, token, sub member, encoded⟩

theorem Token.Resolves.accepts {e : Extent} {wanted given : TokenKind} (h : wanted.accepts given)
    {token : Token} (resolves : token.Resolves e given) : token.Resolves e wanted := by
  cases wanted with
  | any =>
    obtain ⟨target, index⟩ := token
    cases target with
    | table t =>
      refine ⟨?_, resolves.2⟩
      have member := resolves.1
      cases given <;> simp_all [TokenKind.accepts, TokenKind.tables] <;> tauto
    | userString =>
      cases given <;> simp_all [TokenKind.accepts, Token.Resolves]
  | _ =>
    cases given <;> first | exact resolves | simp [TokenKind.accepts] at h

theorem Field.exists_of_join {fields : List Field} (h : join fields = .ok bytes) {f : Field}
    (hf : f ∈ fields) : ∃ b, f = .ok b := by
  induction fields generalizing bytes with
  | nil => cases hf
  | cons g fields ih =>
    obtain ⟨first, rest, here, others, _⟩ := join_cons_eq_ok.1 h
    rcases mem_cons.1 hf with rfl | later
    · exact ⟨first, here⟩
    · exact ih others later

theorem MethodBody.length_code_lt {m : MethodBody} (h : m.encode = .ok bytes) :
    m.code.length < 0x100000000 := by
  have header {f : Field} (hf : f ∈ m.header.fields) : ∃ b, f = .ok b := by
    apply Field.exists_of_join h
    rw [fields]
    split <;> simp [hf]
  rw [MethodBody.header] at header
  split at header
  case isTrue tiny =>
    simp only [Bool.and_eq_true, decide_eq_true_eq] at tiny
    omega
  case isFalse =>
    by_contra large
    rw [MethodHeader.fields, if_pos (by omega)] at header
    obtain ⟨b, same⟩ := header mem_cons_self
    cases same

namespace Compile

variable {ctx : BodyContext} {late : Bool} {s : Session} {x : Situation} {b : Body} {s' : Session}
  {d : Draft} {wider : Code} {src : Source}

/-- Whatever names something in the situation names what is there. -/
structure Tokens (src : Source) (late : Bool) (s : Session) (x : Situation) : Prop where
  sound : x.session.Sound src late
  grows : s.Grows late x.session
  known {n : Named} {token : Token} : (n, token) ∈ x.known →
    token.Resolves (x.session.reach src) n.kind
  takes {op : Opcode} {operand : Bytes} : .simple op operand ∈ x.draft.code.instructions →
    op.Takes x.known operand
  guarded {c : DraftClause} : c ∈ x.draft.clauses → c.Guarded x.known

namespace Tokens

variable {src : Source} {late : Bool} {s : Session} {x y : Situation}

theorem congr (h : Tokens src late s x) (session : y.session = x.session)
    (code : y.draft.code.instructions = x.draft.code.instructions)
    (clauses : y.draft.clauses = x.draft.clauses) (known : y.known = x.known) :
    Tokens src late s y where
  sound := session ▸ h.sound
  grows := session ▸ h.grows
  known member := session ▸ h.known (known ▸ member)
  takes hi := known ▸ h.takes (code ▸ hi)
  guarded hc := known ▸ h.guarded (clauses ▸ hc)

theorem instruction (h : Tokens src late s x) {i : Instruction} (session : y.session = x.session)
    (draft : y.draft = x.draft.push i) (known : y.known = x.known)
    (takes : ∀ op operand, i = .simple op operand → op.Takes x.known operand) :
    Tokens src late s y where
  sound := session ▸ h.sound
  grows := session ▸ h.grows
  known member := session ▸ h.known (known ▸ member)
  takes {op operand} hi := by
    rw [draft] at hi
    rw [known]
    rcases Array.mem_push.1 hi with old | same
    · exact h.takes old
    · exact takes op operand same.symm
  guarded hc := by
    rw [draft] at hc
    exact known ▸ h.guarded hc

end Tokens

theorem Step.tokens {sound : Prop} {y : Situation} (step : Step sound ctx x y)
    (h : Tokens ctx.source late s x) : Tokens ctx.source late s y := by
  cases step with
  | guess | heights | scope | point | label | place | block | openAttempt | closeAttempt | closeFilter
  | openPart | openCleanup | closeWhole => exact h.congr rfl rfl rfl rfl
  | clause c z rest top stop guarded =>
    refine { h.congr rfl rfl rfl rfl with guarded := fun {c'} hc => ?_ }
    rcases Array.mem_push.1 hc with old | rfl
    · exact h.guarded old
    · exact guarded
  | plain op operand depth writable takes =>
    refine h.instruction rfl rfl rfl fun _ _ same => ?_
    cases same
    exact takes
  | branch | «switch» => exact h.instruction rfl rfl rfl nofun
  | named n token s' run =>
    obtain ⟨sound, grows, facts⟩ := (Gives.named n (N := [])).run h.sound (by simp) run
    refine ⟨sound, h.grows.trans grows, fun {n' token'} member => ?_,
      fun hi => (h.takes hi).mono (subset_cons_self ..),
      fun hc => (h.guarded hc).mono (subset_cons_self ..)⟩
    rcases mem_cons.1 member with same | old
    · cases same
      exact facts _ mem_cons_self
    · exact (h.known old).mono (grows.reach ctx.source)
  | blob t bytes s' run =>
    obtain ⟨sound, grows, _⟩ := (Gives.typeBlob t (N := [])).run h.sound (by simp) run
    exact ⟨sound, h.grows.trans grows, fun member => (h.known member).mono (grows.reach ctx.source),
      h.takes, h.guarded⟩

theorem Compiles.tokens (h : Compiles ctx b s d wider s') (sound : s.Sound ctx.source late) :
    ∃ K, Tokens ctx.source late s ⟨{ found := .ofBody b }, 0, K, d, s'⟩ := by
  obtain ⟨K, steps, _⟩ := h.steps False.elim
  refine ⟨K, steps.keeps (fun _ _ step => step.tokens) ⟨sound, .refl s, nofun, ?_, ?_⟩⟩
  · exact fun hi => absurd hi (Array.not_mem_empty _)
  · exact fun hc => absurd hc (Array.not_mem_empty _)

theorem Tokens.names (h : Tokens src late s x) {kind : TokenKind}
    (hi : .simple op operand ∈ x.draft.code.instructions) (token : op.operand? = some (.token kind)) :
    (x.session.reach src).Names kind (Bytes.ofLe operand) := by
  have takes := h.takes hi
  rw [Opcode.Takes, token] at takes
  obtain ⟨named, token, value, member, accepts, encoded, rfl⟩ := takes
  rw [Bytes.ofLe_le, Nat.mod_eq_of_lt (Token.encode_lt encoded)]
  exact ((h.known member).accepts accepts).names encoded

theorem Tokens.clause_names (h : Tokens src late s x) {c : DraftClause} (hc : c ∈ x.draft.clauses)
    (l : Code.Layout) (typed : (c.clause l).flags = Clause.typedFlag) :
    (x.session.reach src).Names .type (c.clause l).classOrFilter.toNat := by
  obtain ⟨guard, tryStart, tryStop, handlerStart, handlerStop⟩ := c
  cases guard with
  | exceptionType value =>
    obtain ⟨t, token, member, encoded⟩ := h.guarded hc value rfl
    exact (h.known member).names_toNat encoded
  | filter | anyExit | anyException => exact absurd typed (by simp [DraftClause.clause]; decide)

/-- The code of a compiled body, as it is read back, holds the instructions of its draft. -/
theorem Compiles.mem_of_plain (h : Compiles ctx b s d wider s') {offset : Nat}
    (listed : (offset, .plain op operand) ∈ wider.layout.listingFrom 0) :
    .simple op operand ∈ d.code.instructions := by
  obtain ⟨k, hk⟩ := mem_iff_getElem?.1 listed
  rw [Code.Layout.getElem?_listing, Code.layout_code] at hk
  obtain ⟨i, hi, same⟩ := Option.map_eq_some_iff.1 hk
  obtain ⟨j, hj, widens⟩ := h.settled.instruction hi
  have simple : i = .simple op operand := by
    cases i with
    | simple => simpa [Code.Layout.reading] using (Prod.mk.inj same).2
    | branch =>
      have read := (Prod.mk.inj same).2
      rw [Code.Layout.reading] at read
      split at read <;> cases read
    | switch => cases (Prod.mk.inj same).2
  subst simple
  cases widens
  exact Array.mem_of_getElem? hj

end Compile

namespace Fact

variable {late : Bool} (src : Source)

def body (m : MethodBody) : Fact late where
  holds s := ∀ bytes, m.encode = .ok bytes → m.Resolves (s.reach src)
  keeps h held := fun bytes encoded => (held bytes encoded).mono (h.reach src)

def signature (value : Nat) : Fact late where
  holds s := UInt32.ofNat value = 0 ∨ (s.reach src).Names .signature (UInt32.ofNat value).toNat
  keeps h held := held.imp_right (·.mono (h.reach src))

end Fact

namespace Gives

variable {src : Source} {late : Bool} {N : List (Fact late)}

theorem localSignature (locals : Array LocalVariable) :
    Gives src N (Compile.localSignature src locals) fun value => [.signature src value] := by
  refine .ite (fun _ => .pure (by simp [Fact.Follows, Fact.signature])) fun _ =>
    .bind (.localsBlob locals) fun _ => .bind (.standAloneSig _) fun token => ?_
  refine ⟨fun {s value s'} sound facts run => ?_⟩
  obtain ⟨encoded, rfl⟩ := Emit.runs_ofEncoding.1 run
  have held : token.Resolves (s.reach src) .signature := facts (.token src .signature token) (by simp)
  exact ⟨sound, .refl s, forall_mem_singleton.2 (.inr (held.names_toNat encoded))⟩

theorem encodeBody (keepsSymbols : Bool) (row : Nat) (m : Method) (b : Body) :
    Gives src N (Compile.encodeBody src keepsSymbols row m b) fun r => [.body src r.1] := by
  refine ⟨fun {s r s'} sound facts run => ?_⟩
  obtain ⟨d, wider, s₁, locals, compiles, signature, same⟩ := Compile.compiles_of_encodeBody run
  obtain ⟨K, tokens⟩ := compiles.tokens sound
  obtain ⟨sound', grows, signed⟩ :=
      (Gives.localSignature b.locals (N := [])).run tokens.sound (by simp) signature
  refine ⟨sound', tokens.grows.trans grows, forall_mem_singleton.2 fun bytes encoded => ?_⟩
  have room := MethodBody.length_code_lt encoded
  rw [same] at room ⊢
  refine ⟨⟨_, compiles.disassemble (by rwa [← Code.length_bytes_layout]), ?_⟩, ?_, ?_⟩
  · intro offset op operand kind listed token
    exact (tokens.names (compiles.mem_of_plain listed) token).mono (grows.reach src)
  · intro c hc typed
    obtain ⟨c, member, rfl⟩ := mem_map.1 hc
    exact (tokens.clause_names (Array.mem_toList_iff.1 member) _ typed).mono (grows.reach src)
  · exact signed _ mem_cons_self

end Gives
end Cil
