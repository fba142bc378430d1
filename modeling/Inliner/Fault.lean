import Inliner.Term.Listing

/-!
# Faults

Why an operation could not be carried out. A refused inlining is not a fault: the call simply stays.
-/

namespace Inliner

/-- How a term is inconsistent. -/
inductive Defect where
  /-- A call has the wrong number of arguments. -/
  | argumentCount (passed expected : Nat)
  /-- A variable that is used as storage stands for an expression that is no storage. -/
  | boundToNonStorage (id : VarId) (bound : Expr)
  /-- A variable stands for an expression that is no variable. -/
  | boundToExpr (id : VarId) (bound : Expr)
  /-- A callee reads a variable that is none of its parameters. -/
  | undeclaredRead (id : VarId)
  /-- A callee uses a parameter as storage where only its value is at hand. -/
  | parameterAsStorage (id : VarId)
  /-- Some other inconsistency. -/
  | described (text : String)

namespace Defect

/-- The defect in words. -/
def message : Defect → String
  | .argumentCount passed expected =>
    "call passes " ++ toString passed ++ " arguments to " ++ toString expected ++ " parameters"
  | .boundToNonStorage id bound =>
    "variable " ++ id.render ++ " is bound to non-storage " ++ bound.listing.inline
  | .boundToExpr id bound => "variable " ++ id.render ++ " is bound to " ++ bound.listing.inline
  | .undeclaredRead id => "callee reads undeclared " ++ id.render
  | .parameterAsStorage id => "callee parameter " ++ id.render ++ " used as storage"
  | .described text => text

end Defect

/-- A position in a text: a file and a line. -/
structure Place where
  file : String
  line : Nat

/-- Why an operation could not be carried out. -/
inductive Fault where
  /-- A logic variable that has a value was to be bound again. -/
  | alreadyBound
  /-- A statement was emitted where only expressions can be built. -/
  | noStatementBuffer
  /-- Two elements of different shapes were to be joined. -/
  | noUpperBound
  /-- A variable is missing from the table. -/
  | unknownVariable (id : VarId)
  /-- There is no body for a method. -/
  | unknownMethod (name : String)
  /-- A term is inconsistent; the place where this was noticed may be known. -/
  | malformed (defect : Defect) (place : Option Place)
  /-- A position was named that does not exist. -/
  | outOfRange
  /-- Any other failure. -/
  | other (text : String)

namespace Fault

/-- The fault in words. -/
def message : Fault → String
  | .alreadyBound => "Logic variable is already bound"
  | .noStatementBuffer => "No statement buffer is open in this context"
  | .noUpperBound => "Lattice elements have no upper bound"
  | .unknownVariable id => "Unknown variable - " ++ id.render
  | .unknownMethod name => "Unknown method - " ++ name
  | .malformed defect none => "Malformed - " ++ defect.message
  | .malformed defect (some place) =>
    "Malformed - " ++ place.file ++ ":" ++ toString place.line ++ ": " ++ defect.message
  | .outOfRange => "Position out of range"
  | .other text => text

end Fault

end Inliner
