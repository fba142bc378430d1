import Inliner.Proofs.ProcessingOrder

/-!
# Stored usages describe the stored bodies

A library keeps the usage of a body beside the body. The body of a method is replaced when it is
added again and when it is simplified, and the usage is dropped when this fails. After any sequence
of such calls, a usage that is still stored is the one of the body stored at that moment
(`Outcomes.consistent`).

The methods of a library may be processed in any order or at the same time, so a call can have
several outcomes (`Outcome`); what one call preserves follows from what `Settled` says about all of
them.
-/

namespace Inliner

/-- A simplified body belongs to the same method and comes with its own usage. -/
lemma simplify_eq_ok {setting : Setting} {body : MethodBody} {log log' : EventLog}
    {out : Simplified} (h : simplify setting body log = .ok out log') :
    out.body.method = body.method ∧ out.usage = out.body.usage := by
  unfold simplify at h
  dsimp only at h
  split at h
  · cases h
  · cases h
    exact ⟨rfl, rfl⟩

namespace Library

variable {policy : Policy} {lib lib' : Library} {m : MethodRef}

/-- Bodies are stored under their own methods, and usages describe the bodies stored beside them. -/
structure Consistent (lib : Library) : Prop where
  method_eq : ∀ m body, lib.get? m = some body → body.method = m
  usage_eq : ∀ m usage, lib.usage? m = some usage →
    ∃ body, lib.get? m = some body ∧ usage = body.usage

/-- An empty library has stored nothing. -/
lemma consistent_empty (config : Config) : Consistent { config } :=
  ⟨fun _ _ h => (by cases h), fun _ _ h => (by cases h)⟩

/-! ## One call -/

/-- Adding a body replaces that of the same method. -/
lemma get?_add (lib : Library) (body : MethodBody) (m : MethodRef) :
    (lib.add body).get? m = if m = body.method then some body else lib.get? m :=
  KeyMap.get?_insert _ _ _ _

/-- Its usage is not known any more. -/
lemma usage?_add (lib : Library) (body : MethodBody) (m : MethodRef) :
    (lib.add body).usage? m = if m = body.method then none else lib.usage? m :=
  KeyMap.get?_erase _ _ _

/-- Adding a body keeps the library consistent. -/
lemma Consistent.add (hlib : Consistent lib) (body : MethodBody) : Consistent (lib.add body) := by
  constructor
  · intro m found hfound
    rw [get?_add] at hfound
    split at hfound
    · cases hfound
      exact Eq.symm ‹_›
    · exact hlib.method_eq m found hfound
  · intro m usage husage
    rw [usage?_add] at husage
    split at husage
    · cases husage
    · rw [get?_add, if_neg ‹_›]
      exact hlib.usage_eq m usage husage

/-- A method with a body can be simplified or cannot. -/
lemma succeeds_or_fails {body : MethodBody} (policy : Policy) (hbody : lib.get? m = some body) :
    (∃ out, Succeeds policy lib m out) ∨ ∃ fault, Fails policy lib m fault := by
  cases h : simplify (settingOf policy lib) body [] with
  | ok out log => exact .inl ⟨out, body, [], log, hbody, h⟩
  | error fault log => exact .inr ⟨fault, body, [], log, hbody, h⟩

/-- What is stored for a method that was simplified belongs together. -/
lemma Consistent.of_succeeds (hlib : Consistent lib) {out : Simplified}
    (h : Succeeds policy lib m out) : out.body.method = m ∧ out.usage = out.body.usage := by
  obtain ⟨body, log, log', hbody, hout⟩ := h
  obtain ⟨hmethod, husage⟩ := simplify_eq_ok hout
  exact ⟨hmethod.trans (hlib.method_eq m body hbody), husage⟩

/-- Simplifying all methods leaves a consistent library, whichever of them fail. -/
lemma Settled.consistent {result : Library × Option Fault} (h : Settled policy lib result)
    (hlib : Consistent lib) : Consistent result.1 := by
  have hcases : ∀ m, lib.get? m = none ∨ (∃ out, Succeeds policy lib m out) ∨
      ∃ fault, Fails policy lib m fault := by
    intro m
    cases hbody : lib.get? m with
    | none => exact .inl rfl
    | some body => exact .inr (succeeds_or_fails policy hbody)
  constructor
  · intro m body hbody
    rcases hcases m with hnone | ⟨out, hout⟩ | ⟨fault, hfault⟩
    · rw [(h.untouched m hnone).1] at hbody
      cases hbody
    · rw [(h.simplified m out hout).1] at hbody
      cases hbody
      exact (hlib.of_succeeds hout).1
    · rw [(h.failed m fault hfault).1] at hbody
      exact hlib.method_eq m body hbody
  · intro m usage husage
    rcases hcases m with hnone | ⟨out, hout⟩ | ⟨fault, hfault⟩
    -- No usage was stored without a body before.
    · rw [(h.untouched m hnone).2] at husage
      obtain ⟨body, hbody, -⟩ := hlib.usage_eq m usage husage
      rw [hnone] at hbody
      cases hbody
    · rw [(h.simplified m out hout).2] at husage
      cases husage
      exact ⟨out.body, (h.simplified m out hout).1, (hlib.of_succeeds hout).2⟩
    · rw [(h.failed m fault hfault).2] at husage
      cases husage

/-! ## Sequences of calls -/

/-- A call on a library. -/
inductive Call where
  | add (body : MethodBody)
  | simplifyAll (policy : Policy)

/-- The library after a call. -/
def call (lib : Library) : Call → Library
  | .add body => lib.add body
  | .simplifyAll policy => (lib.simplifyAll policy).1

/-- The library after some calls. -/
def callAll (calls : List Call) (lib : Library) : Library :=
  calls.foldl call lib

/-- A library that a call may leave behind: the methods are processed in any order, and the actions
on them may be interleaved. -/
inductive Outcome (lib : Library) : Call → Library → Prop
  | add (body : MethodBody) : Outcome lib (.add body) (lib.add body)
  | simplifyAll (policy : Policy) {order : List MethodRef} {steps : List (MethodRef × Action)}
      (horder : order.Perm lib.bodies.keys) (hsteps : Interleaves (settingOf policy lib) steps) :
      Outcome lib (.simplifyAll policy)
        (conclude (failures (settingOf policy lib) order) (perform steps lib)).1

/-- A library that some calls may leave behind. -/
inductive Outcomes : Library → List Call → Library → Prop
  | nil (lib : Library) : Outcomes lib [] lib
  | cons {lib lib' lib'' : Library} {call : Call} {calls : List Call}
      (hcall : Outcome lib call lib') (hcalls : Outcomes lib' calls lib'') :
      Outcomes lib (call :: calls) lib''

/-- Processing the methods one by one in any order is a possible outcome. -/
lemma outcome_simplifyInOrder {order : List MethodRef} (horder : order.Perm lib.bodies.keys) :
    Outcome lib (.simplifyAll policy) (simplifyInOrder policy order lib).1 := by
  rw [simplifyInOrder_eq]
  exact .simplifyAll policy horder (interleaves_of_perm horder)

/-- The call as it is computed is an outcome. -/
lemma outcome_call (lib : Library) (c : Call) : Outcome lib c (lib.call c) := by
  cases c with
  | add body => exact .add body
  | simplifyAll policy => exact outcome_simplifyInOrder (List.mergeSort_perm _ _)

/-- So are several calls. -/
lemma outcomes_callAll (calls : List Call) (lib : Library) :
    Outcomes lib calls (callAll calls lib) := by
  induction calls generalizing lib with
  | nil => exact .nil lib
  | cons call calls ih => exact .cons (outcome_call lib call) (ih _)

/-- A call keeps a library consistent. -/
lemma Outcome.consistent {c : Call} (h : Outcome lib c lib') (hlib : Consistent lib) :
    Consistent lib' := by
  cases h with
  | add body => exact hlib.add body
  | simplifyAll policy horder hsteps => exact (settled_of_interleaves horder hsteps).consistent hlib

/-- Whatever the outcomes, the library stays consistent. -/
lemma Outcomes.consistent {calls : List Call} (h : Outcomes lib calls lib')
    (hlib : Consistent lib) : Consistent lib' := by
  induction h with
  | nil lib => exact hlib
  | cons hcall hcalls ih => exact ih (hcall.consistent hlib)

/-- After any calls on an empty library, whether they succeed or fail and however the methods are
processed, every body is stored under its own method, and every usage is the one of a stored body.
-/
theorem consistent_of_calls (config : Config) (calls : List Call) :
    Consistent (callAll calls { config }) ∧
      ∀ lib, Outcomes { config } calls lib → Consistent lib :=
  ⟨(outcomes_callAll calls _).consistent (consistent_empty config),
    fun _ hlib => hlib.consistent (consistent_empty config)⟩

/-- A caller and its callee, simplified in this order. -/
def simplifiedCounter : Library :=
  (simplifyInOrder counterPolicy [tickCaller.method, tickCallee.method]
    ((Library.add { config := {} } tickCallee).add tickCaller)).1

/-- The callee is added again, and so is a method that cannot be simplified. -/
def extendedCounter : Library :=
  (simplifiedCounter.add tickCallee).add strayBody

/-- All are simplified again, first the one that fails. -/
def finalCounter : Library :=
  (simplifyInOrder counterPolicy [strayBody.method, tickCaller.method, tickCallee.method]
    extendedCounter).1

/-- Added again, the callee has no usage, while the caller still has its own. In the end both have
one, and the method that fails has a body only. -/
theorem consistent_finalCounter :
    (extendedCounter.usage? tickCallee.method).isSome = false ∧
      (extendedCounter.usage? tickCaller.method).isSome = true ∧
      (finalCounter.usage? tickCallee.method).isSome = true ∧
      (finalCounter.usage? tickCaller.method).isSome = true ∧
      (finalCounter.usage? strayBody.method).isSome = false ∧
      (finalCounter.get? strayBody.method).isSome = true ∧
      Outcomes { config := {} }
        [.add tickCallee, .add tickCaller, .simplifyAll counterPolicy, .add tickCallee,
          .add strayBody, .simplifyAll counterPolicy] finalCounter ∧
      Consistent finalCounter := by
  have houtcomes : Outcomes { config := {} }
      [.add tickCallee, .add tickCaller, .simplifyAll counterPolicy, .add tickCallee,
        .add strayBody, .simplifyAll counterPolicy] finalCounter := by
    refine .cons (.add _) (.cons (.add _) (.cons (outcome_simplifyInOrder ?_) (.cons (.add _)
      (.cons (.add _) (.cons (outcome_simplifyInOrder ?_) (.nil _))))))
    · decide +kernel
    · decide +kernel
  exact ⟨by decide +kernel, by decide +kernel, by decide +kernel, by decide +kernel,
    by decide +kernel, by decide +kernel, houtcomes, (consistent_of_calls {} _).2 _ houtcomes⟩

end Library

end Inliner
