import Cil.Assemble.Statement

/-!
What a walk over a body comes to, in the order in which it does: the values that it compiles, the branches
on conditions, the scopes that it opens and closes, and the points of the source. The scopes are balanced,
since they are those of blocks.
-/

namespace Cil

open List

namespace Expression

mutual

def parts : Expression → List Expression
  | .literal _ | .variable _ | .parameter _ | .this | .sizeOf _ | .token _ => []
  | .load target | .addressOf target => targetParts target
  | .call _ object arguments _ _ _ => objectParts object ++ listParts arguments
  | .callIndirect _ function arguments => listParts arguments ++ function :: parts function
  | .construct _ arguments => listParts arguments
  | .newArray _ sizes => listParts sizes
  | .binary _ left right _ _ | .compare _ left right _ =>
    left :: parts left ++ right :: parts right
  | .conditional test ifTrue ifFalse =>
    testParts test ++ (ifTrue :: parts ifTrue ++ ifFalse :: parts ifFalse)
  | .arrayLength operand | .unary _ operand | .convert _ operand _ _ | .box _ operand
  | .unbox _ operand _ | .castClass _ operand | .isInstance _ operand | .stackAlloc operand =>
    operand :: parts operand
  | .functionPointer _ object => objectParts object

def listParts : List Expression → List Expression
  | [] => []
  | e :: rest => e :: parts e ++ listParts rest

def objectParts : Option Expression → List Expression
  | none => []
  | some e => e :: parts e

def targetParts : Target → List Expression
  | .variable _ | .parameter _ => []
  | .field object _ => objectParts object
  | .element array _ indices => array :: parts array ++ listParts indices
  | .indirect address _ => address :: parts address

def testParts : Condition → List Expression
  | .isTrue e | .isFalse e => e :: parts e
  | .compare _ left right _ => left :: parts left ++ right :: parts right

end

def all (e : Expression) : List Expression := e :: e.parts

end Expression

/-- What is told of a scope, apart from where. -/
inductive ScopeMark
  | opened
  | named (name : String) (slot : Nat)
  | closed
  deriving DecidableEq

def ScopeEvent.mark : ScopeEvent → ScopeMark
  | opened _ => .opened
  | named name slot _ => .named name slot
  | closed _ => .closed

/-- Every scope that is opened is closed, and the scopes between are as well. -/
inductive ScopeMark.Balanced : List ScopeMark → Prop
  | nil : Balanced []
  | named (name : String) (slot : Nat) : Balanced [named name slot]
  | append {xs ys : List ScopeMark} (hx : Balanced xs) (hy : Balanced ys) : Balanced (xs ++ ys)
  | scope {xs : List ScopeMark} (h : Balanced xs) : Balanced (.opened :: (xs ++ [.closed]))

/-- A branch on a condition. -/
structure Fork where
  test : Condition
  target : BlockId
  form : BranchForm

inductive Mark
  | scope (m : ScopeMark)
  | point (span : SourceSpan)
  | value (e : Expression)
  | fork (f : Fork)

namespace Mark

def scope? : Mark → Option ScopeMark
  | scope m => some m
  | point _ | value _ | fork _ => none

def span? : Mark → Option SourceSpan
  | point span => some span
  | scope _ | value _ | fork _ => none

def value? : Mark → Option Expression
  | value e => some e
  | scope _ | point _ | fork _ => none

def fork? : Mark → Option Fork
  | fork f => some f
  | scope _ | point _ | value _ => none

def isSymbol : Mark → Bool
  | scope _ | point _ => true
  | value _ | fork _ => false

def values (es : List Expression) : List Mark := es.map .value

end Mark

section

variable (vars : Array LocalVariable)

def Mark.ofLocal (index : Nat) : List Mark :=
  match vars[index]? with
  | some { name := some name, .. } => [.scope (.named name index)]
  | _ => []

def Mark.opening (locals : List Nat) : List Mark :=
  if locals.isEmpty then [] else .scope .opened :: locals.flatMap (ofLocal vars)

def Mark.closing (locals : List Nat) : List Mark :=
  if locals.isEmpty then [] else [.scope .closed]

namespace Statement

open Expression (objectParts targetParts testParts)

mutual

def marks : Statement → List Mark
  | .block b => blockMarks b
  | .expression e => Mark.values e.all
  | .assign target value => Mark.values (targetParts target ++ value.all)
  | .branch (some test) target form => .fork ⟨test, target, form⟩ :: Mark.values (testParts test)
  | .switch value _ => Mark.values value.all
  | .exit value | .throwing value => Mark.values (objectParts value)
  | .guarded body hs clean => blockMarks body ++ (handlersMarks hs ++ cleanupMarks clean)
  | .initObject address _ => Mark.values address.all
  | .sequencePoint span => [.point span]
  | .branch none _ _ | .leave .. | .breakpoint | .nop => []

def listMarks : List Statement → List Mark
  | [] => []
  | s :: rest => marks s ++ listMarks rest

def blockMarks : Block → List Mark
  | .mk _ body locals source =>
    source.toList.map .point ++ (Mark.opening vars locals ++ (listMarks body ++ Mark.closing locals))

def handlersMarks : List Handler → List Mark
  | [] => []
  | h :: rest => handlerMarks h ++ handlersMarks rest

def handlerMarks : Handler → List Mark
  | .catching _ _ body => blockMarks body
  | .filtering _ filter test body => blockMarks filter ++ (Mark.values test.all ++ blockMarks body)

def cleanupMarks : Cleanup → List Mark
  | .nothing => []
  | .finallyBlock body | .faultBlock body => blockMarks body

end

end Statement
end

def Body.marks (b : Body) : List Mark := Statement.blockMarks b.locals b.root

def Body.scopeMarks (b : Body) : List ScopeMark := b.marks.filterMap Mark.scope?

def Body.spans (b : Body) : List SourceSpan := b.marks.filterMap Mark.span?

def Body.values (b : Body) : List Expression := b.marks.filterMap Mark.value?

def Body.forks (b : Body) : List Fork := b.marks.filterMap Mark.fork?

namespace Mark

theorem values_append (xs ys : List Expression) : values (xs ++ ys) = values xs ++ values ys :=
  map_append

@[simp] theorem scope?_values (es : List Expression) : (values es).filterMap scope? = [] := by
  simp [values, filterMap_eq_nil_iff, scope?]

theorem isSymbol_opening (vars : Array LocalVariable) (locals : List Nat) :
    (opening vars locals).all isSymbol = true := by
  have named (index : Nat) : (ofLocal vars index).all isSymbol = true := by
    unfold ofLocal
    split <;> rfl
  rw [opening]
  split
  · rfl
  · simp [isSymbol, named]

theorem filterMap_of_isSymbol {marks : List Mark} (h : marks.all isSymbol = true) :
    marks.filterMap value? = [] ∧ marks.filterMap fork? = [] := by
  simp only [all_eq_true, filterMap_eq_nil_iff] at h ⊢
  constructor <;> intro m hm <;> have := h m hm <;> cases m <;> simp_all [isSymbol, value?, fork?]

end Mark

namespace Statement

open ScopeMark Mark

variable (vars : Array LocalVariable)

theorem balanced_ofLocal (locals : List Nat) :
    Balanced ((locals.flatMap (ofLocal vars)).filterMap scope?) := by
  induction locals with
  | nil => exact .nil
  | cons index rest ih =>
    rw [flatMap_cons, filterMap_append]
    refine .append ?_ ih
    unfold ofLocal
    split
    · exact .named _ _
    · exact .nil

theorem balanced_scope (locals : List Nat) {inner : List Mark} (h : Balanced (inner.filterMap scope?)) :
    Balanced ((opening vars locals ++ (inner ++ closing locals)).filterMap scope?) := by
  rw [opening, closing]
  split
  · simpa using h
  · have named := balanced_ofLocal vars locals
    simpa [scope?] using Balanced.scope (named.append h)

mutual

theorem balanced_marks : ∀ s : Statement, Balanced ((marks vars s).filterMap scope?)
  | .block b => by
    rw [marks]
    exact balanced_block b
  | .guarded body hs clean => by
    rw [marks, filterMap_append, filterMap_append]
    exact (balanced_block body).append ((balanced_handlers hs).append (balanced_cleanup clean))
  | .branch (some _) _ _ => by
    rw [marks, filterMap_cons_none rfl, scope?_values]
    exact .nil
  | .expression _ | .assign _ _ | .switch _ _ | .exit _ | .throwing _ | .initObject _ _ => by
    rw [marks, scope?_values]
    exact .nil
  | .sequencePoint _ | .branch none _ _ | .leave _ _ | .breakpoint | .nop => by
    rw [marks]
    exact .nil

theorem balanced_list : ∀ ss : List Statement, Balanced ((listMarks vars ss).filterMap scope?)
  | [] => by
    rw [listMarks]
    exact .nil
  | s :: rest => by
    rw [listMarks, filterMap_append]
    exact (balanced_marks s).append (balanced_list rest)

theorem balanced_block : ∀ b : Block, Balanced ((blockMarks vars b).filterMap scope?)
  | .mk _ body locals source => by
    have points : (source.toList.map Mark.point).filterMap scope? = [] := by
      simp [filterMap_eq_nil_iff, scope?]
    rw [blockMarks, filterMap_append, points, nil_append]
    exact balanced_scope vars locals (balanced_list body)

theorem balanced_handlers : ∀ hs : List Handler, Balanced ((handlersMarks vars hs).filterMap scope?)
  | [] => by
    rw [handlersMarks]
    exact .nil
  | h :: rest => by
    rw [handlersMarks, filterMap_append]
    exact (balanced_handler h).append (balanced_handlers rest)

theorem balanced_handler : ∀ h : Handler, Balanced ((handlerMarks vars h).filterMap scope?)
  | .catching _ _ body => by
    rw [handlerMarks]
    exact balanced_block body
  | .filtering _ filter test body => by
    rw [handlerMarks, filterMap_append, filterMap_append, scope?_values, nil_append]
    exact (balanced_block filter).append (balanced_block body)

theorem balanced_cleanup : ∀ c : Cleanup, Balanced ((cleanupMarks vars c).filterMap scope?)
  | .nothing => by
    rw [cleanupMarks]
    exact .nil
  | .finallyBlock body | .faultBlock body => by
    rw [cleanupMarks]
    exact balanced_block body

end

end Statement

theorem Body.balanced_scopeMarks (b : Body) : ScopeMark.Balanced b.scopeMarks :=
  Statement.balanced_block b.locals b.root

end Cil
