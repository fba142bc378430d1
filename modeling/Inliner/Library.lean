import Inliner.Simplify

/-!
# Libraries of methods

A library holds the current bodies of a set of methods, the references made by those that have been
simplified, and what happened to them. Simplifying all methods inlines every callee as it was before,
so the result does not depend on the order in which the methods are processed.
-/

namespace Inliner

/-- Methods that are compiled together. -/
structure Library where
  config : Config
  bodies : KeyMap MethodRef MethodBody := ∅
  /-- The references made by the bodies that have been simplified. -/
  usages : KeyMap MethodRef (Usage Int32) := ∅
  log : EventLog := []

namespace Library

/-- Adds a method or replaces its body. -/
def add (lib : Library) (body : MethodBody) : Library :=
  { lib with
    bodies := lib.bodies.insert body.method body
    usages := lib.usages.erase body.method }

/-- The current body of a method. -/
def get? (lib : Library) (method : MethodRef) : Option MethodBody :=
  lib.bodies.get? method

/-- The references made by the simplified body of a method. -/
def usage? (lib : Library) (method : MethodRef) : Option (Usage Int32) :=
  lib.usages.get? method

/-- The references made by all simplified bodies. -/
def totalUsage (lib : Library) : Usage Int32 :=
  Usage.total (lib.usages.entries.map Prod.snd)

/-- The order in which methods are processed: by their printed form, methods that look the same in the
order given. -/
def processingOrder (methods : List MethodRef) : List MethodRef :=
  methods.mergeSort fun m n => compare m.render n.render != .gt

/-- Simplifies one method against the bodies in `snapshot`. If this fails, the method keeps its body and
has no usage. -/
def simplifyOne (policy : Policy) (snapshot : KeyMap MethodRef MethodBody) (lib : Library)
    (method : MethodRef) : Library × Option Fault :=
  match snapshot.get? method with
  | none => (lib, none)
  | some body =>
    let lib := { lib with usages := lib.usages.erase method }
    match simplify ⟨snapshot.get?, policy, lib.config⟩ body lib.log with
    | .ok simplified log =>
      ({ lib with
          bodies := lib.bodies.insert method simplified.body
          usages := lib.usages.insert method simplified.usage
          log }, none)
    | .error fault log => ({ lib with log }, some fault)

/-- Simplifies the listed methods one after the other against the bodies in `snapshot`, and returns the
methods that failed. -/
def simplifyEach (policy : Policy) (snapshot : KeyMap MethodRef MethodBody) :
    List MethodRef → Library → Library × List (MethodRef × Fault)
  | [], lib => (lib, [])
  | method :: rest, lib =>
    let (lib, fault?) := simplifyOne policy snapshot lib method
    let (lib, failures) := simplifyEach policy snapshot rest lib
    (lib, fault?.toList.map (method, ·) ++ failures)

/-- The event of a method that could not be simplified. -/
def failureEvent (failure : MethodRef × Fault) : Event :=
  { kind := .failure, method := some failure.1, message := failure.2.message }

/-- Simplifies the listed methods in the given order. Failures are logged at the end, and the first of
them is returned. -/
def simplifyInOrder (policy : Policy) (order : List MethodRef) (lib : Library) :
    Library × Option Fault :=
  let (lib, failures) := simplifyEach policy lib.bodies order lib
  ({ lib with log := lib.log ++ failures.map failureEvent }, failures.head?.map Prod.snd)

/-- Simplifies all methods. -/
def simplifyAll (policy : Policy) (lib : Library) : Library × Option Fault :=
  simplifyInOrder policy (processingOrder lib.bodies.keys) lib

/-- What happened, in the order of recording if methods are processed one by one. If they may be
processed in any order, only the order of the events of each method counts, and the log is arranged by
method. -/
def events (lib : Library) : EventLog :=
  if lib.config.parallel then lib.log.byMethod else lib.log

end Library

end Inliner
