import Inliner.Pass.Calls

/-!
# Simplification of methods

A method is simplified statement by statement; the calls in it are inlined on the way. The start and
the end of the work are logged, with the statements before and after it if they are to be traced.
-/

namespace Inliner

namespace Pass

/-- Simplifies the top-level statements of a method from position `location` on. -/
def topStmts (setting : Setting) (method : MethodRef) : Nat → List Stmt → ScopeM Unit
  | _, [] => return ()
  | location, s :: rest => do
    stmt (topLevel setting method location) s
    topStmts setting method (location + 1) rest

/-- A statement list as it appears in traces. -/
def traceText (stmts : List Stmt) : String :=
  (Listing.items (Stmt.listings stmts)).indented 0

/-- The events at the start of a pass over a method. -/
def openingEvents (config : Config) (body : MethodBody) : EventLog :=
  { kind := .passStarted, method := some body.method,
    message := toString body.size ++ " statements" } ::
  (if config.trace then
    [{ kind := .traceBefore, method := some body.method, message := traceText body.stmts }]
  else [])

/-- The events at the end of a pass over a method. -/
def closingEvents (config : Config) (body : MethodBody) : EventLog :=
  (if config.trace then
    [{ kind := .traceAfter, method := some body.method, message := traceText body.stmts }]
  else []) ++
  [{ kind := .passCompleted, method := some body.method,
     message := toString body.size ++ " statements" }]

end Pass

/-- A simplified body and the references that it makes. -/
structure Simplified where
  body : MethodBody
  usage : Usage Int32

/-- Simplifies a method body. What happened is added to the log, also if the body turns out to be at
fault. -/
def simplify (setting : Setting) (body : MethodBody) : EStateM Fault EventLog Simplified :=
  fun log =>
    let root := Scope.root body.method body.vars (log ++ Pass.openingEvents setting.config body)
    let act : ScopeM (List Stmt) := ScopeM.withFreshStatements do
      Pass.topStmts setting body.method 0 body.stmts
      ScopeM.takeStatements
    match act root with
    | .error fault s => .error fault s.log
    | .ok stmts s =>
      let result : MethodBody := ⟨body.method, body.isImport, s.vars, stmts⟩
      .ok ⟨result, result.usage⟩ (s.log ++ Pass.closingEvents setting.config result)

end Inliner
