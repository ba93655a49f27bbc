import Cil.Proofs.CallSignatures
import Cil.Proofs.Reencoding
import Cil.Proofs.StackDepths

/-!
Stack depths in an image. What a call does to the stack is read from the image itself: its token leads to
a signature that says what is passed and what is returned.
-/

namespace Cil

open List Option

/-- What an instruction does to the stack in the method of a row. -/
def Image.effect? (image : Image) (row : Nat) : Reading → Option StackEffect
  | .plain op operand =>
    if op = .ret then
      (image.tables.callee? image.blobs (.row .methodDef row)).map fun c => ⟨c.results, 0⟩
    else op.effect? <|> do
      let token ← (Token.decode (Bytes.ofLe operand)).toOption
      op.callEffect? (← image.tables.callee? image.blobs token)
  | .branch op _ => op.effect?
  | .switch _ => Opcode.switch.effect?

variable {src : Source} {s : Session} {token : Token}

namespace Compile

variable {ctx : BodyContext}

/-- The tokens that a body has been given are given again in every later session. -/
structure Remembers (src : Source) (x : Situation) : Prop where
  catalogued : x.session.Catalogued src
  answered {named : Named} {token : Token} {s : Session} : (named, token) ∈ x.known →
    s.Catalogued src → x.session.Before s → (named.token src).Runs s token s

theorem Step.remembers {sound : Prop} {x y : Situation} (step : Step sound ctx x y)
    (h : Remembers ctx.source x) : Remembers ctx.source y := by
  cases step with
  | named named token t' run =>
    obtain ⟨cat, grown, again⟩ := (Emit.Asks.named named).lasts.run h.catalogued run
    refine ⟨cat, fun asked final later => ?_⟩
    rcases mem_cons.1 (mem_tokensOf.1 asked) with same | asked
    · cases same
      exact again final later
    · exact h.answered (mem_tokensOf.2 asked) final (grown.trans later)
  | blob type bytes t' run =>
    obtain ⟨cat, grown, _⟩ := (Emit.Asks.typeBlob type).lasts.run h.catalogued run
    exact ⟨cat, fun asked final later => h.answered asked final (grown.trans later)⟩
  | _ =>
    refine ⟨h.catalogued, fun asked => h.answered ?_⟩
    simpa [Situation.known] using asked

end Compile

namespace Module

open Compile

end Module
end Cil
