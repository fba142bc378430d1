import Inliner.Reference

/-!
# Events

What happened while methods were being simplified, in the order in which it was recorded.
-/

namespace Inliner

/-- What happened. -/
inductive EventKind where
  | passStarted
  | passCompleted
  /-- A call was replaced by the body of its callee. -/
  | methodInlined
  /-- A call was considered and left alone. -/
  | inlineRejected
  /-- An argument was stored in a new local. -/
  | argumentFreshened
  /-- The locals of an inlined body were renamed. -/
  | localsFreshened
  | traceBefore
  | traceAfter
  | info
  | warning
  /-- A method could not be simplified. -/
  | failure
  deriving DecidableEq

namespace EventKind

/-- All kinds, in the order in which summaries list them. -/
def all : List EventKind :=
  [passStarted, passCompleted, methodInlined, inlineRejected, argumentFreshened, localsFreshened,
    traceBefore, traceAfter, info, warning, failure]

/-- Events of this kind change a method. -/
def isTransformation : EventKind → Bool
  | methodInlined => true
  | argumentFreshened => true
  | localsFreshened => true
  | _ => false

/-- The kind in words. -/
def label : EventKind → String
  | passStarted => "pass started"
  | passCompleted => "pass completed"
  | methodInlined => "method inlined"
  | inlineRejected => "inline rejected"
  | argumentFreshened => "argument freshened"
  | localsFreshened => "locals freshened"
  | traceBefore => "before"
  | traceAfter => "after"
  | info => "info"
  | warning => "warning"
  | failure => "error"

end EventKind

/-- Something that happened, to which method and at which of its statements. -/
structure Event where
  kind : EventKind
  method : Option MethodRef := none
  location : Option Nat := none
  message : String := ""
  deriving DecidableEq

namespace Event

/-- The label in brackets, the method, the statement and the message, as far as they are there. -/
def render (e : Event) : String :=
  "[" ++ e.kind.label ++ "]" ++
    (match e.method with
      | some m => " " ++ m.render
      | none => "") ++
    (match e.location with
      | some n => " @" ++ toString n
      | none => "") ++
    (if e.message.isEmpty then "" else ": " ++ e.message)

/-- The text by which events are arranged by method; events without a method come first. -/
def methodText (e : Event) : Option String :=
  e.method.map MethodRef.render

end Event

/-- Events in the order in which they were recorded. -/
abbrev EventLog : Type :=
  List Event

namespace EventLog

/-- The events of one kind. -/
def ofKind (log : EventLog) (k : EventKind) : EventLog :=
  log.filter fun e => e.kind == k

/-- The events that concern one method. -/
def ofMethod (log : EventLog) (m : MethodRef) : EventLog :=
  log.filter fun e => e.method == some m

/-- Some event is of the kind. -/
def has (log : EventLog) (k : EventKind) : Bool :=
  log.any fun e => e.kind == k

/-- The number of events that changed a method. -/
def transformations (log : EventLog) : Nat :=
  log.countP fun e => e.kind.isTransformation

/-- A line with the label and the number of events for every kind that occurs. -/
def summary (log : EventLog) : String :=
  String.join <| EventKind.all.map fun k =>
    let n := (log.ofKind k).length
    if n = 0 then "" else k.label ++ ": " ++ toString n ++ "\n"

/-- The events arranged by the text of their method; events of one method stay in order. -/
def byMethod (log : EventLog) : EventLog :=
  log.mergeSort fun d e => compare d.methodText e.methodText != .gt

end EventLog

end Inliner
