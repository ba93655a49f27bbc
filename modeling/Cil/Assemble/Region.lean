import Cil.Code

/-!
Protected regions of a body. Every protected block, filter, handler and cleanup block opens a region
inside the one around it; control stays in its region unless it leaves it.
-/

namespace Cil

/-- A region is the list of the numbers of the regions it lies in, its own number first. -/
abbrev Region := List Nat

namespace Region

/-- The method itself. -/
def outermost : Region := []

/-- Whether a region is `outer` or lies in it. -/
def within (inner outer : Region) : Bool := outer.isSuffixOf inner

end Region

/-- The regions found so far: how many, and the one of each block. -/
structure Regions where
  count : Nat := 0
  blocks : Std.TreeMap BlockId Region := {}

namespace Regions

mutual

/-- Adds a block and all that it holds. -/
def addBlock (region : Region) : Block → Regions → Regions
  | .mk id statements _ _, rs =>
    addStatements region statements { rs with blocks := rs.blocks.insert id region }

def addStatements (region : Region) : List Statement → Regions → Regions
  | [], rs => rs
  | s :: rest, rs => addStatements region rest (addStatement region s rs)

def addStatement (region : Region) : Statement → Regions → Regions
  | .block b, rs => addBlock region b rs
  | .guarded body handlers cleanup, rs =>
    addCleanup region cleanup (addHandlers region handlers (openBlock region body rs))
  | .expression _, rs | .assign .., rs | .branch .., rs | .leave .., rs | .switch .., rs
  | .exit _, rs | .throwing _, rs | .initObject .., rs | .sequencePoint _, rs | .breakpoint, rs
  | .nop, rs => rs

/-- Adds a block as a region of its own. -/
def openBlock (region : Region) : Block → Regions → Regions
  | .mk id statements _ _, rs =>
    let inner := (rs.count + 1) :: region
    addStatements inner statements
      { count := rs.count + 1, blocks := rs.blocks.insert id inner }

def addHandlers (region : Region) : List Handler → Regions → Regions
  | [], rs => rs
  | h :: rest, rs => addHandlers region rest (addHandler region h rs)

def addHandler (region : Region) : Handler → Regions → Regions
  | .catching _ _ block, rs => openBlock region block rs
  | .filtering _ filter _ block, rs => openBlock region block (openBlock region filter rs)

def addCleanup (region : Region) : Cleanup → Regions → Regions
  | .nothing, rs => rs
  | .finallyBlock block, rs | .faultBlock block, rs => openBlock region block rs

end

def ofBody (body : Body) : Regions := addBlock .outermost body.root {}

/-- The region of a block; of several with one name, the last one counts. -/
def region? (rs : Regions) (id : BlockId) : Option Region := rs.blocks[id]?

end Regions
end Cil
