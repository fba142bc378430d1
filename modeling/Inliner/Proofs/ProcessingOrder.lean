import Inliner.Library
import Inliner.Proofs.Logging
import Inliner.Proofs.MapEntries
import Inliner.Proofs.Preservation

/-!
# The order of processing does not matter

Simplifying the methods of a library inlines every callee as it was before. The work on one method is
a list of actions (`task`): its old usage is dropped, events are recorded, and if the method could be
simplified, its usage and its body are stored. None of these actions looks at what the others have
stored, since what they do is fixed by the bodies before (`simplify_appends`).

So the entries of a method afterwards are determined by the actions on this method alone
(`get?_perform`, `usage?_perform`), in whatever order they were taken between those on other methods.
The main result, `settled_simplifyInOrder`, is about methods processed one after the other in any
order, and about any interleaving of their tasks.
-/

namespace Inliner

namespace Library

variable {policy : Policy} {lib : Library} {setting : Setting} {m : MethodRef}

/-! ## The work on one method -/

/-- What one step of the work on a method does to the library. -/
inductive Action where
  /-- The references counted for the old body are forgotten. -/
  | dropUsage
  | record (event : Event)
  | storeUsage (usage : Usage Int32)
  | storeBody (body : MethodBody)

/-- The library after one action on a method. -/
def act (lib : Library) (method : MethodRef) : Action → Library
  | .dropUsage => { lib with usages := lib.usages.erase method }
  | .record event => { lib with log := lib.log ++ [event] }
  | .storeUsage usage => { lib with usages := lib.usages.insert method usage }
  | .storeBody body => { lib with bodies := lib.bodies.insert method body }

/-- The library after a list of actions. -/
def perform (steps : List (MethodRef × Action)) (lib : Library) : Library :=
  steps.foldl (fun lib (method, action) => lib.act method action) lib

/-- What becomes of a method in a setting, and the events on the way. There is nothing to do if it has
no body. -/
def attempt? (setting : Setting) (method : MethodRef) :
    Option (EStateM.Result Fault EventLog Simplified) :=
  (setting.body? method).map fun body => simplify setting body []

/-- The actions that simplify a method. -/
def task (setting : Setting) (method : MethodRef) : List Action :=
  match attempt? setting method with
  | none => []
  | some (.ok out events) =>
    .dropUsage :: events.map .record ++ [.storeUsage out.usage, .storeBody out.body]
  | some (.error _ events) => .dropUsage :: events.map .record

/-- The reason why a method cannot be simplified, if there is one. -/
def fault? (setting : Setting) (method : MethodRef) : Option Fault :=
  match attempt? setting method with
  | some (.error fault _) => some fault
  | _ => none

/-- The listed methods that cannot be simplified, with the reasons. -/
def failures (setting : Setting) (order : List MethodRef) : List (MethodRef × Fault) :=
  order.filterMap fun method => (fault? setting method).map (method, ·)

/-- Once all methods are done, the failures are logged and the first of them is returned. -/
def conclude (failures : List (MethodRef × Fault)) (lib : Library) : Library × Option Fault :=
  ({ lib with log := lib.log ++ failures.map failureEvent }, failures.head?.map Prod.snd)

/-- What the methods of a library are simplified against. -/
def settingOf (policy : Policy) (lib : Library) : Setting :=
  ⟨lib.bodies.get?, policy, lib.config⟩

@[simp] lemma perform_nil : perform [] lib = lib :=
  rfl

/-- Steps are performed one after the other. -/
lemma perform_append (steps steps' : List (MethodRef × Action)) :
    perform (steps ++ steps') lib = perform steps' (perform steps lib) :=
  List.foldl_append

/-- The configuration stays as it is. -/
lemma config_perform (steps : List (MethodRef × Action)) (lib : Library) :
    (perform steps lib).config = lib.config := by
  induction steps generalizing lib with
  | nil => rfl
  | cons step steps ih =>
    obtain ⟨method, action⟩ := step
    exact (ih _).trans (by cases action <;> rfl)

/-- Both outcomes start with dropping the old usage and recording the events. -/
lemma perform_started (events : EventLog) (lib : Library) :
    perform ((.dropUsage :: events.map .record).map (m, ·)) lib =
      { lib with usages := lib.usages.erase m, log := lib.log ++ events } := by
  have hrecord : ∀ lib : Library, perform ((events.map .record).map (m, ·)) lib =
      { lib with log := lib.log ++ events } := by
    induction events with
    | nil => simp
    | cons e events ih =>
      intro lib
      exact (ih _).trans (by simp [act])
  exact hrecord _

/-- Simplifying one method is performing its task. -/
lemma simplifyOne_eq {snapshot : KeyMap MethodRef MethodBody}
    (hsetting : setting = ⟨snapshot.get?, policy, lib.config⟩) :
    simplifyOne policy snapshot lib m =
      (perform ((task setting m).map (m, ·)) lib, fault? setting m) := by
  subst hsetting
  cases hbody : snapshot.get? m with
  | none => simp [simplifyOne, task, fault?, attempt?, hbody]
  | some body =>
    obtain ⟨outcome, events, -, hsimplify⟩ :=
      simplify_appends ⟨snapshot.get?, policy, lib.config⟩ body
    have hnil := hsimplify []
    cases outcome with
    | error fault =>
      simp only [simplifyOne, task, fault?, attempt?, hbody, Option.map_some, hnil, hsimplify,
        Simplified.left, List.nil_append, perform_started]
    | ok out =>
      simp only [simplifyOne, task, fault?, attempt?, hbody, Option.map_some, hnil, hsimplify,
        Simplified.left, List.nil_append, List.map_append, perform_append, perform_started]
      simp [perform, act]

/-- The steps that process the methods one after the other. -/
def oneByOne (setting : Setting) (order : List MethodRef) : List (MethodRef × Action) :=
  order.flatMap fun method => (task setting method).map (method, ·)

/-- The first method comes first. -/
lemma oneByOne_cons (setting : Setting) (method : MethodRef) (order : List MethodRef) :
    oneByOne setting (method :: order) =
      (task setting method).map (method, ·) ++ oneByOne setting order :=
  List.flatMap_cons

/-- Methods are simplified by performing their tasks one by one. -/
lemma simplifyEach_eq {snapshot : KeyMap MethodRef MethodBody} (order : List MethodRef)
    (hsetting : setting = ⟨snapshot.get?, policy, lib.config⟩) :
    simplifyEach policy snapshot order lib =
      (perform (oneByOne setting order) lib, failures setting order) := by
  induction order generalizing lib with
  | nil => rfl
  | cons method order ih =>
    have hconfig : setting = ⟨snapshot.get?, policy,
        (perform ((task setting method).map (method, ·)) lib).config⟩ := by
      rw [config_perform, hsetting]
    rw [simplifyEach, simplifyOne_eq hsetting]
    dsimp only
    rw [ih hconfig, oneByOne_cons, perform_append]
    cases hfault : fault? setting method <;> simp [failures, hfault]

/-- Processing the methods in some order performs their tasks one after the other. -/
lemma simplifyInOrder_eq (policy : Policy) (order : List MethodRef) (lib : Library) :
    simplifyInOrder policy order lib =
      conclude (failures (settingOf policy lib) order)
        (perform (oneByOne (settingOf policy lib) order) lib) := by
  rw [simplifyInOrder, simplifyEach_eq order rfl]
  rfl

/-! ## Entries after a list of actions -/

/-- The actions on one method among the steps, in their order. -/
def actionsOn (m : MethodRef) (steps : List (MethodRef × Action)) : List Action :=
  (steps.filter (·.1 = m)).map Prod.snd

/-- The body of a method after an action on it. -/
def bodyAfter (body? : Option MethodBody) : Action → Option MethodBody
  | .storeBody body => some body
  | _ => body?

/-- The usage of a method after an action on it. -/
def usageAfter (usage? : Option (Usage Int32)) : Action → Option (Usage Int32)
  | .dropUsage => none
  | .storeUsage usage => some usage
  | _ => usage?

/-- An action is one on the method of its step. -/
lemma actionsOn_cons (step : MethodRef × Action) (steps : List (MethodRef × Action)) :
    actionsOn m (step :: steps) =
      if step.1 = m then step.2 :: actionsOn m steps else actionsOn m steps := by
  unfold actionsOn
  by_cases h : step.1 = m <;> simp [h]

/-- An action changes the body of its own method only. -/
lemma get?_act (lib : Library) (method : MethodRef) (action : Action) :
    (lib.act method action).get? m =
      if method = m then bodyAfter (lib.get? m) action else lib.get? m := by
  cases action <;> simp [act, get?, KeyMap.get?_insert, bodyAfter, eq_comm]

/-- It changes the usage of its own method only. -/
lemma usage?_act (lib : Library) (method : MethodRef) (action : Action) :
    (lib.act method action).usage? m =
      if method = m then usageAfter (lib.usage? m) action else lib.usage? m := by
  cases action <;> simp [act, usage?, KeyMap.get?_insert, KeyMap.get?_erase, usageAfter, eq_comm]

/-- The body of a method depends on the actions on this method only. -/
lemma get?_perform (steps : List (MethodRef × Action)) (lib : Library) :
    (perform steps lib).get? m = (actionsOn m steps).foldl bodyAfter (lib.get? m) := by
  induction steps generalizing lib with
  | nil => rfl
  | cons step steps ih =>
    refine (ih _).trans ?_
    rw [actionsOn_cons, get?_act]
    split <;> rfl

/-- The usage of a method depends on the actions on this method only. -/
lemma usage?_perform (steps : List (MethodRef × Action)) (lib : Library) :
    (perform steps lib).usage? m = (actionsOn m steps).foldl usageAfter (lib.usage? m) := by
  induction steps generalizing lib with
  | nil => rfl
  | cons step steps ih =>
    refine (ih _).trans ?_
    rw [actionsOn_cons, usage?_act]
    split <;> rfl

/-- The event that an action records. -/
def Action.event? : Action → Option Event
  | .record event => some event
  | _ => none

/-- The events that are recorded, in their order. -/
def recorded (steps : List (MethodRef × Action)) : EventLog :=
  steps.filterMap fun step => step.2.event?

/-- What the steps record is appended to the log. -/
lemma log_perform (steps : List (MethodRef × Action)) (lib : Library) :
    (perform steps lib).log = lib.log ++ recorded steps := by
  induction steps generalizing lib with
  | nil => simp [recorded]
  | cons step steps ih =>
    obtain ⟨method, action⟩ := step
    refine (ih _).trans ?_
    cases action <;> simp [act, recorded, Action.event?]

/-- Each event is recorded by an action on some method. -/
lemma record_mem_actionsOn {steps : List (MethodRef × Action)} {e : Event}
    (he : e ∈ recorded steps) : ∃ m, .record e ∈ actionsOn m steps := by
  obtain ⟨⟨m, action⟩, hstep, haction⟩ := List.mem_filterMap.1 he
  cases action <;> cases haction
  refine ⟨m, List.mem_map.2 ⟨_, List.mem_filter.2 ⟨hstep, ?_⟩, rfl⟩⟩
  exact decide_eq_true rfl

/-! ## Interleaved tasks -/

/-- The steps are those of the tasks of all methods, those of each method in their order. -/
def Interleaves (setting : Setting) (steps : List (MethodRef × Action)) : Prop :=
  ∀ m, actionsOn m steps = task setting m

/-- The actions of all steps, in their order. -/
lemma actionsOn_append (steps steps' : List (MethodRef × Action)) :
    actionsOn m (steps ++ steps') = actionsOn m steps ++ actionsOn m steps' := by
  simp [actionsOn]

/-- Actions on one method are none on another. -/
lemma actionsOn_map (method : MethodRef) (actions : List Action) :
    actionsOn m (actions.map (method, ·)) = if method = m then actions else [] := by
  by_cases h : method = m <;> simp [actionsOn, List.filter_map, Function.comp_def, h]

/-- Processing methods one after the other is a way to interleave their tasks. -/
lemma interleaves_oneByOne {order : List MethodRef} (horder : order.Nodup)
    (hall : ∀ m, m ∉ order → setting.body? m = none) :
    Interleaves setting (oneByOne setting order) := by
  have hactions : ∀ m, actionsOn m (oneByOne setting order) =
      if m ∈ order then task setting m else [] := by
    intro m
    clear hall
    induction order with
    | nil => rfl
    | cons method order ih =>
      obtain ⟨hnot, hnodup⟩ := List.nodup_cons.1 horder
      rw [oneByOne_cons, actionsOn_append, actionsOn_map, ih hnodup]
      by_cases h : method = m
      · subst h
        simp [hnot]
      · simp [h, Ne.symm h]
  intro m
  rw [hactions]
  split
  · rfl
  · rename_i hm
    simp [task, attempt?, hall m hm]

/-- A task records no failure. -/
lemma kind_of_record_mem_task {e : Event} (h : .record e ∈ task setting m) :
    e.kind ≠ .failure := by
  cases hbody : setting.body? m with
  | none => simp [task, attempt?, hbody] at h
  | some body =>
    obtain ⟨outcome, events, hevents, hsimplify⟩ := simplify_appends setting body
    apply hevents
    cases outcome <;> simpa [task, attempt?, hbody, hsimplify, Simplified.left] using h

/-! ## What becomes of the library -/

/-- The method is simplified to `out` against the bodies of the library, whatever happened before. -/
def Succeeds (policy : Policy) (lib : Library) (m : MethodRef) (out : Simplified) : Prop :=
  ∃ body log log', lib.get? m = some body ∧
    simplify (settingOf policy lib) body log = .ok out log'

/-- The method cannot be simplified against the bodies of the library. -/
def Fails (policy : Policy) (lib : Library) (m : MethodRef) (fault : Fault) : Prop :=
  ∃ body log log', lib.get? m = some body ∧
    simplify (settingOf policy lib) body log = .error fault log'

/-- What was recorded before does not matter for success. -/
lemma Succeeds.exists_attempt {out : Simplified} (h : Succeeds policy lib m out) :
    ∃ events, attempt? (settingOf policy lib) m = some (.ok out events) := by
  obtain ⟨body, log, log', hbody, hout⟩ := h
  obtain ⟨outcome, events, -, hsimplify⟩ := simplify_appends (settingOf policy lib) body
  rw [hsimplify] at hout
  cases outcome with
  | error fault => cases hout
  | ok out' =>
    cases hout
    refine ⟨events, ?_⟩
    rw [attempt?, show (settingOf policy lib).body? m = some body from hbody, Option.map_some,
      hsimplify]
    rfl

/-- A failure is that of an attempt. -/
lemma Fails.exists_attempt {fault : Fault} (h : Fails policy lib m fault) :
    ∃ events, attempt? (settingOf policy lib) m = some (.error fault events) := by
  obtain ⟨body, log, log', hbody, hout⟩ := h
  obtain ⟨outcome, events, -, hsimplify⟩ := simplify_appends (settingOf policy lib) body
  rw [hsimplify] at hout
  cases outcome with
  | ok out => cases hout
  | error fault' =>
    cases hout
    refine ⟨events, ?_⟩
    rw [attempt?, show (settingOf policy lib).body? m = some body from hbody, Option.map_some,
      hsimplify]
    rfl

/-- Faults are reported for the methods that fail. -/
lemma fault?_eq_some_iff {fault : Fault} :
    fault? (settingOf policy lib) m = some fault ↔ Fails policy lib m fault := by
  constructor
  · intro h
    unfold fault? at h
    split at h
    · rename_i events hattempt
      obtain ⟨body, hbody, hsimplify⟩ := Option.map_eq_some_iff.1 hattempt
      cases h
      exact ⟨body, [], events, hbody, hsimplify⟩
    · cases h
  · intro h
    obtain ⟨events, hattempt⟩ := h.exists_attempt
    rw [fault?, hattempt]

/-- What `simplifyAll` promises, whatever the order of processing. -/
structure Settled (policy : Policy) (lib : Library) (result : Library × Option Fault) : Prop where
  /-- A method that can be simplified has its new body and the references that this makes. -/
  simplified : ∀ m out, Succeeds policy lib m out →
    result.1.get? m = some out.body ∧ result.1.usage? m = some out.usage
  /-- A method that cannot keeps its body and loses its usage. -/
  failed : ∀ m fault, Fails policy lib m fault →
    result.1.get? m = lib.get? m ∧ result.1.usage? m = none
  /-- What is known of other methods stays. -/
  untouched : ∀ m, lib.get? m = none →
    result.1.get? m = none ∧ result.1.usage? m = lib.usage? m
  config_eq : result.1.config = lib.config
  /-- One failure is recorded for each method that failed, and none for any other. -/
  recorded : ∃ added, result.1.log = lib.log ++ added ∧
    (∀ m fault, Fails policy lib m fault →
      (added.ofKind .failure).ofMethod m = [failureEvent (m, fault)]) ∧
    ∀ m, (¬ ∃ fault, Fails policy lib m fault) → (added.ofKind .failure).ofMethod m = []
  /-- A reason is returned exactly if some method failed, and it is one of theirs. -/
  returned : result.2.isSome ↔ ∃ m fault, Fails policy lib m fault
  reason : ∀ fault, result.2 = some fault → ∃ m, Fails policy lib m fault

/-- Recording events changes no body. -/
lemma foldl_bodyAfter_record (events : EventLog) (body? : Option MethodBody) :
    (events.map Action.record).foldl bodyAfter body? = body? := by
  induction events with
  | nil => rfl
  | cons e events ih => exact ih

/-- It changes no usage either. -/
lemma foldl_usageAfter_record (events : EventLog) (usage? : Option (Usage Int32)) :
    (events.map Action.record).foldl usageAfter usage? = usage? := by
  induction events with
  | nil => rfl
  | cons e events ih => exact ih

/-- The failure events of one method, among those logged at the end. -/
lemma ofMethod_failures {order : List MethodRef} (horder : order.Nodup) (setting : Setting) :
    EventLog.ofMethod ((failures setting order).map failureEvent) m =
      if m ∈ order then ((fault? setting m).map fun fault => failureEvent (m, fault)).toList
      else [] := by
  induction order with
  | nil => rfl
  | cons method order ih =>
    obtain ⟨hnot, hnodup⟩ := List.nodup_cons.1 horder
    have ih := ih hnodup
    unfold failures EventLog.ofMethod at ih ⊢
    by_cases h : method = m
    · subst h
      rw [if_neg hnot] at ih
      cases hfault : fault? setting method <;> simp [hfault, ih, failureEvent]
    · have hcons : m ∈ method :: order ↔ m ∈ order := by simp [Ne.symm h]
      cases hfault : fault? setting method <;> simp [hfault, ih, failureEvent, h, hcons]

/-- Only a method of the library can fail. -/
lemma Fails.mem_keys {fault : Fault} (h : Fails policy lib m fault) : m ∈ lib.bodies.keys := by
  obtain ⟨body, -, -, hbody, -⟩ := h
  exact (KeyMap.mem_keys_iff _ _).2 ⟨body, hbody⟩

/-- The failures listed are those of the methods listed. -/
lemma mem_failures_iff {order : List MethodRef} (horder : order.Perm lib.bodies.keys)
    {failure : MethodRef × Fault} :
    failure ∈ failures (settingOf policy lib) order ↔ Fails policy lib failure.1 failure.2 := by
  obtain ⟨method, fault⟩ := failure
  unfold failures
  rw [List.mem_filterMap]
  constructor
  · rintro ⟨m, -, hm⟩
    obtain ⟨fault', hfault, heq⟩ := Option.map_eq_some_iff.1 hm
    cases heq
    exact fault?_eq_some_iff.1 hfault
  · intro h
    refine ⟨method, horder.mem_iff.2 h.mem_keys, ?_⟩
    rw [fault?_eq_some_iff.2 h, Option.map_some]

/-- All that is logged for a method after its task are failures. -/
lemma ofMethod_ofKind_append {added : EventLog} (hadded : ∀ e ∈ added, e.kind ≠ .failure)
    (failures : List (MethodRef × Fault)) :
    ((added ++ failures.map failureEvent).ofKind .failure).ofMethod m =
      EventLog.ofMethod (failures.map failureEvent) m := by
  have hnone : EventLog.ofKind added .failure = [] :=
    List.filter_eq_nil_iff.2 fun e he => by simpa using hadded e he
  have hall : EventLog.ofKind (failures.map failureEvent) .failure = failures.map failureEvent :=
    List.filter_eq_self.2 fun e he => by
      obtain ⟨failure, -, rfl⟩ := List.mem_map.1 he
      rfl
  have happend : EventLog.ofKind (added ++ failures.map failureEvent) .failure =
      EventLog.ofKind added .failure ++ EventLog.ofKind (failures.map failureEvent) .failure :=
    List.filter_append _ _
  rw [happend, hnone, hall, List.nil_append]

section Interleaved

variable {order : List MethodRef} {steps : List (MethodRef × Action)}

/-- The body of a method depends on its own task only. -/
lemma get?_of_interleaves (hsteps : Interleaves (settingOf policy lib) steps) (m : MethodRef) :
    (perform steps lib).get? m =
      (task (settingOf policy lib) m).foldl bodyAfter (lib.get? m) := by
  rw [get?_perform, hsteps]

/-- The usage of a method depends on its own task only. -/
lemma usage?_of_interleaves (hsteps : Interleaves (settingOf policy lib) steps) (m : MethodRef) :
    (perform steps lib).usage? m =
      (task (settingOf policy lib) m).foldl usageAfter (lib.usage? m) := by
  rw [usage?_perform, hsteps]

/-- The tasks record no failures, and at the end one is recorded for each method that failed. -/
lemma recorded_of_interleaves (horder : order.Perm lib.bodies.keys)
    (hsteps : Interleaves (settingOf policy lib) steps) :
    ∃ added, (perform steps lib).log ++ (failures (settingOf policy lib) order).map failureEvent =
        lib.log ++ added ∧
      (∀ m fault, Fails policy lib m fault →
        (added.ofKind .failure).ofMethod m = [failureEvent (m, fault)]) ∧
      ∀ m, (¬ ∃ fault, Fails policy lib m fault) → (added.ofKind .failure).ofMethod m = [] := by
  have hnodup : order.Nodup := horder.nodup_iff.2 lib.bodies.nodup_keys
  have hkind : ∀ e ∈ recorded steps, e.kind ≠ .failure := by
    intro e he
    obtain ⟨m, hm⟩ := record_mem_actionsOn he
    exact kind_of_record_mem_task (hsteps m ▸ hm)
  have hevents := fun m => ofMethod_ofKind_append (m := m) hkind
    (failures (settingOf policy lib) order)
  refine ⟨recorded steps ++ (failures (settingOf policy lib) order).map failureEvent, ?_,
    fun m fault hfault => ?_, fun m hfault => ?_⟩
  · rw [log_perform, List.append_assoc]
  · rw [hevents, ofMethod_failures hnodup, if_pos (horder.mem_iff.2 hfault.mem_keys),
      fault?_eq_some_iff.2 hfault]
    rfl
  · rw [hevents, ofMethod_failures hnodup]
    cases hnone : fault? (settingOf policy lib) m with
    | none => simp
    | some fault => exact absurd ⟨fault, fault?_eq_some_iff.1 hnone⟩ hfault

/-- Failures are listed exactly if some method failed. -/
lemma failures_ne_nil_iff (horder : order.Perm lib.bodies.keys) :
    failures (settingOf policy lib) order ≠ [] ↔ ∃ m fault, Fails policy lib m fault := by
  constructor
  · intro hne
    obtain ⟨failure, hmem⟩ := List.exists_mem_of_ne_nil _ hne
    exact ⟨_, _, (mem_failures_iff horder).1 hmem⟩
  · rintro ⟨m, fault, hfault⟩
    have hmem : (m, fault) ∈ failures (settingOf policy lib) order :=
      (mem_failures_iff horder).2 hfault
    exact List.ne_nil_of_mem hmem

/-- However the tasks are interleaved, the library ends up as promised. -/
lemma settled_of_interleaves (horder : order.Perm lib.bodies.keys)
    (hsteps : Interleaves (settingOf policy lib) steps) :
    Settled policy lib
      (conclude (failures (settingOf policy lib) order) (perform steps lib)) where
  simplified m out hout := by
    obtain ⟨events, hattempt⟩ := hout.exists_attempt
    constructor
    · refine (get?_of_interleaves hsteps m).trans ?_
      simp [task, hattempt, bodyAfter, foldl_bodyAfter_record]
    · refine (usage?_of_interleaves hsteps m).trans ?_
      simp [task, hattempt, usageAfter, foldl_usageAfter_record]
  failed m fault hfault := by
    obtain ⟨events, hattempt⟩ := hfault.exists_attempt
    constructor
    · refine (get?_of_interleaves hsteps m).trans ?_
      simp [task, hattempt, bodyAfter, foldl_bodyAfter_record]
    · refine (usage?_of_interleaves hsteps m).trans ?_
      simp [task, hattempt, usageAfter, foldl_usageAfter_record]
  untouched m hbody := by
    have htask : task (settingOf policy lib) m = [] := by
      simp [task, attempt?, settingOf, show lib.bodies.get? m = none from hbody]
    constructor
    · exact (get?_of_interleaves hsteps m).trans (by simp [htask, hbody])
    · exact (usage?_of_interleaves hsteps m).trans (by simp [htask])
  config_eq := config_perform steps lib
  recorded := recorded_of_interleaves horder hsteps
  returned := by
    change ((failures (settingOf policy lib) order).head?.map Prod.snd).isSome ↔ _
    rw [Option.isSome_map, List.isSome_head?]
    exact failures_ne_nil_iff horder
  reason fault hfault := by
    obtain ⟨failure, hhead, rfl⟩ := Option.map_eq_some_iff.1 hfault
    exact ⟨_, (mem_failures_iff horder).1 (List.mem_of_mem_head? hhead)⟩

end Interleaved

/-- The tasks of all methods one after the other, in any order, are an interleaving. -/
lemma interleaves_of_perm {order : List MethodRef} (horder : order.Perm lib.bodies.keys) :
    Interleaves (settingOf policy lib) (oneByOne (settingOf policy lib) order) := by
  refine interleaves_oneByOne (horder.nodup_iff.2 lib.bodies.nodup_keys) fun m hm => ?_
  rw [horder.mem_iff, KeyMap.mem_keys_iff] at hm
  exact Option.eq_none_iff_forall_ne_some.2 fun body hbody => hm ⟨body, hbody⟩

/-- In whatever order the methods of a library are processed, and however the actions on them are
interleaved: methods that can be simplified against the bodies before have the simplified body and its
usage, the others keep their body, lose their usage and have one failure logged, nothing else
changes, and a reason is returned exactly if some method failed. -/
theorem settled_simplifyInOrder (policy : Policy) (lib : Library) (order : List MethodRef)
    (horder : order.Perm lib.bodies.keys) :
    Settled policy lib (simplifyAll policy lib) ∧
      Settled policy lib (simplifyInOrder policy order lib) ∧
      ∀ steps, Interleaves (settingOf policy lib) steps →
        Settled policy lib
          (conclude (failures (settingOf policy lib) order) (perform steps lib)) := by
  have hinorder : ∀ {order : List MethodRef}, order.Perm lib.bodies.keys →
      Settled policy lib (simplifyInOrder policy order lib) := by
    intro order horder
    rw [simplifyInOrder_eq]
    exact settled_of_interleaves horder (interleaves_of_perm horder)
  exact ⟨hinorder (List.mergeSort_perm _ _), hinorder horder,
    fun steps hsteps => settled_of_interleaves horder hsteps⟩

/-- A method that returns a variable it has not declared. -/
def strayBody : MethodBody :=
  ⟨⟨⟨"lib", "Counter", false⟩, "stray", 0, true⟩, false, .empty, [.ret (some (.readVar ⟨0⟩))]⟩

/-- A method that cannot be simplified, with a usage from before, and two that can: one of them inlines
the other. -/
def counterLibrary : Library where
  config := {}
  bodies := .ofList [(tickCallee.method, tickCallee), (tickCaller.method, tickCaller),
    (strayBody.method, strayBody)]
  usages := .ofList [(strayBody.method, .empty)]

/-- Everything may be inlined. -/
def counterPolicy : Policy :=
  .permissive false [] [] []

/-- The caller is processed first, then its callee, which it inlines as it was before; the failure of
the third method takes away its usage. -/
theorem settled_counterLibrary :
    [tickCaller.method, tickCallee.method, strayBody.method].Perm counterLibrary.bodies.keys ∧
      Interleaves (settingOf counterPolicy counterLibrary)
        (oneByOne (settingOf counterPolicy counterLibrary) counterLibrary.bodies.keys) ∧
      (counterLibrary.usage? strayBody.method).isSome ∧
      (simplifyInOrder counterPolicy [tickCaller.method, tickCallee.method, strayBody.method]
        counterLibrary).1.usage? strayBody.method = none ∧
      Settled counterPolicy counterLibrary (simplifyAll counterPolicy counterLibrary) ∧
      Settled counterPolicy counterLibrary (simplifyInOrder counterPolicy
        [tickCaller.method, tickCallee.method, strayBody.method] counterLibrary) ∧
      Settled counterPolicy counterLibrary
        (conclude (failures (settingOf counterPolicy counterLibrary)
            [tickCaller.method, tickCallee.method, strayBody.method])
          (perform (oneByOne (settingOf counterPolicy counterLibrary) counterLibrary.bodies.keys)
            counterLibrary)) := by
  have horder : [tickCaller.method, tickCallee.method, strayBody.method].Perm
      counterLibrary.bodies.keys := by decide +kernel
  have hsteps : Interleaves (settingOf counterPolicy counterLibrary)
      (oneByOne (settingOf counterPolicy counterLibrary) counterLibrary.bodies.keys) :=
    interleaves_of_perm (List.Perm.refl _)
  have hfault : (fault? (settingOf counterPolicy counterLibrary) strayBody.method).isSome = true := by
    decide +kernel
  obtain ⟨fault, hfault⟩ := Option.isSome_iff_exists.1 hfault
  obtain ⟨hall, hinorder, hinterleaved⟩ :=
    settled_simplifyInOrder counterPolicy counterLibrary _ horder
  exact ⟨horder, hsteps, by decide +kernel,
    (hinorder.failed _ _ (fault?_eq_some_iff.1 hfault)).2, hall, hinorder, hinterleaved _ hsteps⟩

end Library

end Inliner
