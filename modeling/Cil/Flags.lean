/-!
Masks of flags.
-/

namespace Cil

/-- The union of the bits whose condition holds. -/
def flagMask (flags : List (Bool × Nat)) : Nat :=
  flags.foldl (fun mask (set, bit) => if set then mask ||| bit else mask) 0

end Cil
