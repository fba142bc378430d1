import Inliner.Simplify
import Inliner.Proofs.Walkers

/-!
# The log is only appended to

The event log goes through the whole simplification of a method. No step looks at it, and every step
appends to it what it would have appended to any other log (`ScopeM.Appends`). This property is closed
under the ways in which steps are put together, so it holds of the walk over terms whenever it holds
of the treatment of calls, of the inlining of calls by induction on the depth, and of whole methods:
whether a method can be simplified, and to what, does not depend on what happened before
(`simplify_appends`).

The kinds of the events appended are tracked along the way: a pass records no failures.
-/

namespace Inliner

namespace ScopeM

variable {A B : Type} {p : EventKind → Prop}

/-- An outcome, left with another log. -/
def relog (log : EventLog) : EStateM.Result Fault Scope A → EStateM.Result Fault Scope A
  | .ok a S => .ok a (S.withLog log)
  | .error fault S => .error fault (S.withLog log)

/-- The step does not look at the log and appends only events of the kinds `p` to it. -/
def Appends (p : EventKind → Prop) (act : ScopeM A) : Prop :=
  ∀ S : Scope, ∃ (result : EStateM.Result Fault Scope A) (events : EventLog),
    (∀ e ∈ events, p e.kind) ∧ ∀ log, act (S.withLog log) = relog (log ++ events) result

namespace Appends

/-- A step that leaves the log alone. -/
lemma of_silent {act : ScopeM A} (result : Scope → EStateM.Result Fault Scope A)
    (h : ∀ S log, act (S.withLog log) = relog log (result S)) : Appends p act := by
  intro S
  refine ⟨result S, [], by simp, fun log => ?_⟩
  rw [h, List.append_nil]

/-- A result is no matter of the log. -/
protected lemma pure (a : A) : Appends p (pure a : ScopeM A) :=
  of_silent (.ok a) fun _ _ => rfl

/-- Neither is a fault. -/
protected lemma throw (fault : Fault) : Appends p (throw fault : ScopeM A) :=
  of_silent (.error fault) fun _ _ => rfl

/-- What is computed without the scope. -/
lemma ofExcept (x : Except Fault A) : Appends p (ScopeM.ofExcept x) := by
  cases x with
  | ok a => exact .pure a
  | error fault => exact .throw fault

/-- A change of the scope to which the log does not matter. -/
lemma modify {f : Scope → Scope} (h : ∀ S log, f (S.withLog log) = (f S).withLog log) :
    Appends p (modify f : ScopeM Unit) := by
  refine of_silent (fun S => .ok () (f S)) fun S log => ?_
  change EStateM.Result.ok () (f (S.withLog log)) = .ok () ((f S).withLog log)
  rw [h]

/-- An event is appended. -/
lemma record {kind : EventKind} (h : p kind) (location : Option Nat) (message : String) :
    Appends p (ScopeM.record kind location message) := by
  intro S
  refine ⟨.ok () S, [⟨kind, some S.method, location, message⟩], ?_, fun log => rfl⟩
  rintro e he
  rw [List.mem_singleton.1 he]
  exact h

/-- One step after the other: their events are appended one after the other. -/
protected lemma bind {act : ScopeM A} {k : A → ScopeM B} (hact : Appends p act)
    (hk : ∀ a, Appends p (k a)) : Appends p (act >>= k) := by
  intro S
  obtain ⟨result, events, hevents, hact⟩ := hact S
  cases result with
  | error fault S' => exact ⟨.error fault S', events, hevents, fun log => bind_of_error (hact log)⟩
  | ok a S' =>
    obtain ⟨result, events', hevents', hk⟩ := hk a S'
    refine ⟨result, events ++ events', ?_, fun log => ?_⟩
    · rintro e he
      exact (List.mem_append.1 he).elim (hevents e) (hevents' e)
    · rw [bind_of_ok (hact log), hk, List.append_assoc]

/-- A step that looks at the scope, but not at the log. -/
lemma get_bind {k : Scope → ScopeM A} (hsilent : ∀ S log, k (S.withLog log) = k S)
    (hk : ∀ S, Appends p (k S)) : Appends p (get >>= k) := by
  intro S
  obtain ⟨result, events, hevents, hact⟩ := hk S S
  refine ⟨result, events, hevents, fun log => ?_⟩
  rw [bind_of_ok (show (get : ScopeM Scope) (S.withLog log) = .ok _ _ from rfl), hsilent, hact]

/-- Something is computed from the scope, but not from the log. -/
lemma look {f : Scope → Except Fault A} (h : ∀ S log, f (S.withLog log) = f S) :
    Appends p (ScopeM.look f) :=
  .get_bind (fun S log => congrArg ScopeM.ofExcept (h S log)) fun S => .ofExcept (f S)

/-- A nested scope has the log of the outer one. -/
lemma nested {enter : Scope → Scope} {leave : Scope → Scope → Scope} {act : ScopeM A}
    (henter : ∀ S log, enter (S.withLog log) = (enter S).withLog log)
    (hleave : ∀ S S' log log', leave (S.withLog log) (S'.withLog log') = (leave S S').withLog log')
    (hact : Appends p act) : Appends p (ScopeM.nested enter leave act) := by
  intro S
  obtain ⟨result, events, hevents, hact⟩ := hact (enter S)
  cases result with
  | ok a S' =>
    refine ⟨.ok a (leave S S'), events, hevents, fun log => ?_⟩
    rw [ScopeM.nested, henter, hact]
    exact congrArg (EStateM.Result.ok a) (hleave S S' log _)
  | error fault S' =>
    refine ⟨.error fault (leave S S'), events, hevents, fun log => ?_⟩
    rw [ScopeM.nested, henter, hact]
    exact congrArg (EStateM.Result.error fault) (hleave S S' log _)

/-- A scope with a buffer of its own. -/
lemma withFreshStatements {act : ScopeM A} (hact : Appends p act) :
    Appends p (ScopeM.withFreshStatements act) :=
  .nested (fun _ _ => rfl) (fun _ _ _ _ => rfl) hact

/-- The scope of a callee. -/
lemma withSubMethod {act : ScopeM A} (hact : Appends p act) :
    Appends p (ScopeM.withSubMethod act) :=
  .nested (fun _ _ => rfl) (fun _ _ _ _ => rfl) hact

/-- A scope without a buffer. -/
lemma withoutStatements {act : ScopeM A} (hact : Appends p act) :
    Appends p (ScopeM.withoutStatements act) :=
  .nested (fun _ _ => rfl) (fun _ _ _ _ => rfl) hact

/-- A step for each element of a list. -/
lemma forM {l : List A} {act : A → ScopeM Unit} (h : ∀ a ∈ l, Appends p (act a)) :
    Appends p (l.forM act) := by
  induction l with
  | nil => exact .pure ()
  | cons a l ih =>
    exact .bind (h a List.mem_cons_self) fun _ => ih fun b hb => h b (List.mem_cons_of_mem a hb)

end Appends

/-- The buffer is written to, the log is not. -/
lemma appends_append (s : Stmt) : Appends p (append s) := by
  refine .get_bind (fun _ _ => rfl) fun S => ?_
  split
  · exact .modify fun _ _ => rfl
  · exact .throw _

/-- Effects are added up. -/
lemma appends_addEffects (effects : Effects) : Appends p (addEffects effects) :=
  .modify fun _ _ => rfl

/-- A statement is emitted with its effects. -/
lemma appends_emit (s : Stmt) : Appends p (emit s) :=
  .get_bind (fun _ _ => rfl) fun _ => .bind (.ofExcept _) fun effects =>
    .bind (appends_append s) fun _ => appends_addEffects effects

/-- The buffer is emptied. -/
lemma appends_takeStatements : Appends p takeStatements := by
  refine .get_bind (fun _ _ => rfl) fun S => ?_
  split
  · exact .bind (.modify fun _ _ => rfl) fun _ => .pure _
  · exact .pure _

/-- What is emitted in a scope of its own is collected. -/
lemma Appends.collect {act : ScopeM Unit} (h : Appends p act) : Appends p (ScopeM.collect act) :=
  .withFreshStatements (.bind h fun _ => appends_takeStatements)

/-- A variable is bound. -/
lemma appends_bindVar (id : VarId) (e : Expr) : Appends p (bindVar id e) :=
  .modify fun _ _ => rfl

/-- The new local of an argument is recorded. -/
lemma appends_freshenArgument (hp : p .argumentFreshened) (param : VarId) (type : TypeRef)
    (flags : Flags) : Appends p (freshenArgument param type flags) :=
  .get_bind (fun _ _ => rfl) fun _ => .bind (.modify fun _ _ => rfl) fun _ =>
    .bind (appends_bindVar _ _) fun _ => .bind (.record hp _ _) fun _ => .pure _

/-- The new locals of a callee are recorded. -/
lemma appends_freshenLocals (hp : p .localsFreshened) (callee : VarTable) :
    Appends p (freshenLocals callee) := by
  refine .bind (.forM fun id _ => ?_) fun _ => ?_
  · exact .bind (.ofExcept _) fun _ => .get_bind (fun _ _ => rfl) fun _ =>
      .bind (.modify fun _ _ => rfl) fun _ => appends_bindVar _ _
  · split
    · exact .record hp _ _
    · exact .pure ()

end ScopeM

open ScopeM (Appends)

/-- The treatment of calls appends only events of the kinds `p`. -/
def CallTreatment.Appends (p : EventKind → Prop) (calls : CallTreatment) : Prop :=
  ∀ method args, ScopeM.Appends p (calls.inline method args)

namespace Pass

variable {p : EventKind → Prop} {calls : CallTreatment}

/-! ## Terms -/

/-- The walk over terms records nothing by itself. -/
lemma related_appends (h : calls.Appends p) :
    Walker.StmtRelated (fun _ act _ => Appends p act) calls (.ofCalls calls) where
  pure := .pure
  bind := .bind
  look _ := .look
  withoutStatements := .withoutStatements
  isFactory := rfl
  inline := h
  emit := ScopeM.appends_emit
  collect := .collect

/-! ## Calls -/

/-- The kinds of events that the inlining of calls records. -/
structure Permits (p : EventKind → Prop) : Prop where
  inlined : p .methodInlined
  rejected : p .inlineRejected
  argument : p .argumentFreshened
  locals : p .localsFreshened

/-- A refusal is recorded. -/
lemma appends_refuse (hp : p .inlineRejected) (location : Nat) (callee : MethodRef)
    (refusal : Refusal) : Appends p (refuse location callee refusal) :=
  .bind (.record hp _ _) fun _ => .pure _

/-- The arguments of a call are passed. -/
lemma appends_passArguments (hp : p .argumentFreshened) (callee : MethodBody)
    (effects : List Effects) (values : List Bool) (i : Nat) (passed : List (VarId × Expr)) :
    Appends p (passArguments callee effects values i passed) := by
  induction passed generalizing i with
  | nil => exact .pure ()
  | cons pair rest ih =>
    obtain ⟨param, arg⟩ := pair
    refine .bind (.bind (.ofExcept _) fun declared => ?_) fun _ => ih (i + 1)
    split
    · exact ScopeM.appends_bindVar param arg
    · exact .bind (ScopeM.appends_freshenArgument hp _ _ _) fun _ => ScopeM.appends_emit _

/-- A callee is spliced in, or this is refused. -/
lemma appends_splice (hp : Permits p) (h : calls.Appends p) (location : Nat)
    (callee : MethodBody) (args : List Expr) : Appends p (splice calls location callee args) := by
  rw [splice]
  split
  · exact appends_refuse hp.rejected _ _ _
  · rename_i leading value _
    refine .get_bind (fun _ _ => rfl) fun _ => .bind (.ofExcept _) fun effects =>
      .get_bind (fun _ _ => rfl) fun _ => .bind (.withSubMethod ?_) fun _ =>
        .bind (.forM fun s _ => ScopeM.appends_append s) fun _ =>
          .bind (ScopeM.appends_addEffects _) fun _ => .pure _
    have hrest : ∀ result : Expr, Appends p do
        let stmts ← ScopeM.takeStatements
        return (result, stmts, (← get).effects) := fun result =>
      .bind ScopeM.appends_takeStatements fun _ => .get_bind (fun _ _ => rfl) fun _ => .pure _
    refine .bind (appends_passArguments hp.argument _ _ _ _ _) fun _ =>
      .bind (ScopeM.appends_freshenLocals hp.locals _) fun _ =>
        .bind ((related_appends h).block leading) fun _ => ?_
    cases value with
    | some e => exact .bind ((related_appends h).expr e) hrest
    | none => exact hrest _

/-- Arguments are substituted, or this is refused. -/
lemma appends_substitute (hp : p .inlineRejected) (location : Nat) (callee : MethodBody)
    (args : List Expr) : Appends p (substitute location callee args) := by
  rw [substitute]
  split
  · exact appends_refuse hp _ _ _
  · split
    · exact appends_refuse hp _ _ _
    · refine .get_bind (fun _ _ => rfl) fun _ => .bind (.ofExcept _) fun result => ?_
      split
      · exact appends_refuse hp _ _ _
      · exact .pure _

/-- A method that was inlined is recorded. -/
lemma appends_inlined (hp : Permits p) (setting : Setting) (location : Nat) (method : MethodRef)
    (callee : MethodBody) (result : Option Expr) : Appends p do
      match result with
      | none => return none
      | some result =>
        ScopeM.record .methodInlined (some location) method.render
        return some (received setting.policy method callee result) := by
  cases result with
  | none => exact .pure _
  | some result => exact .bind (.record hp.inlined _ _) fun _ => .pure _

/-- Inlining, by induction on the depth. -/
lemma appends_inline (hp : Permits p) (setting : Setting) (location depth : Nat)
    (active : List MethodRef) (method : MethodRef) (args : List Expr) :
    Appends p (inline setting location depth active method args) := by
  induction depth generalizing active method args with
  | zero => exact .pure _
  | succ depth ih =>
    rw [inline]
    split
    · exact .pure _
    cases setting.body? method with
    | none => exact .pure _
    | some callee =>
      dsimp only
      split
      · exact appends_refuse hp.rejected _ _ _
      split
      · exact appends_refuse hp.rejected _ _ _
      split
      · exact appends_refuse hp.rejected _ _ _
      refine .get_bind (fun _ _ => rfl) fun S => ?_
      split
      · exact .bind (appends_splice hp (fun method args => ih _ method args) _ _ _)
          (appends_inlined hp _ _ _ callee)
      · exact .bind (appends_substitute hp.rejected _ _ _) (appends_inlined hp _ _ _ callee)

/-! ## Methods -/

/-- The statements of a method, one after the other. -/
lemma appends_topStmts (hp : Permits p) (setting : Setting) (method : MethodRef) (location : Nat)
    (stmts : List Stmt) : Appends p (topStmts setting method location stmts) := by
  induction stmts generalizing location with
  | nil => exact .pure ()
  | cons s rest ih =>
    have hcalls : (topLevel setting method location).Appends p :=
      appends_inline hp setting location setting.config.depth [method]
    exact .bind ((related_appends hcalls).stmt s) fun _ => ih (location + 1)

/-- The beginning of a pass is no failure. -/
lemma kind_openingEvents (config : Config) (body : MethodBody) :
    ∀ e ∈ openingEvents config body, e.kind ≠ .failure := by
  unfold openingEvents
  split <;> simp

/-- Neither is its end. -/
lemma kind_closingEvents (config : Config) (body : MethodBody) :
    ∀ e ∈ closingEvents config body, e.kind ≠ .failure := by
  unfold closingEvents
  split <;> simp

end Pass

/-- What becomes of a method, left with a log. -/
def Simplified.left (log : EventLog) :
    Except Fault Simplified → EStateM.Result Fault EventLog Simplified
  | .ok out => .ok out log
  | .error fault => .error fault log

/-- Whether a method can be simplified, to what, and which events are recorded does not depend on what
happened before. No failure is among the events. -/
lemma simplify_appends (setting : Setting) (body : MethodBody) :
    ∃ (outcome : Except Fault Simplified) (events : EventLog),
      (∀ e ∈ events, e.kind ≠ .failure) ∧
        ∀ log, simplify setting body log = Simplified.left (log ++ events) outcome := by
  have hact : Appends (· ≠ .failure) (ScopeM.withFreshStatements do
      Pass.topStmts setting body.method 0 body.stmts
      ScopeM.takeStatements) :=
    .collect (Pass.appends_topStmts ⟨by decide, by decide, by decide, by decide⟩ setting body.method
      0 body.stmts)
  obtain ⟨result, events, hevents, hact⟩ := hact (Scope.root body.method body.vars [])
  have hroot : ∀ log, (Scope.root body.method body.vars []).withLog log =
      Scope.root body.method body.vars log := fun log => rfl
  simp only [hroot] at hact
  have hopening : ∀ e ∈ Pass.openingEvents setting.config body ++ events, e.kind ≠ .failure := by
    intro e he
    exact (List.mem_append.1 he).elim (Pass.kind_openingEvents _ _ e) (hevents e)
  cases result with
  | error fault S =>
    refine ⟨.error fault, Pass.openingEvents setting.config body ++ events, hopening, fun log => ?_⟩
    rw [simplify, hact, ← List.append_assoc]
    rfl
  | ok stmts S =>
    let out : MethodBody := ⟨body.method, body.isImport, S.vars, stmts⟩
    refine ⟨.ok ⟨out, out.usage⟩, Pass.openingEvents setting.config body ++ events ++
      Pass.closingEvents setting.config out, ?_, fun log => ?_⟩
    · intro e he
      exact (List.mem_append.1 he).elim (hopening e) (Pass.kind_closingEvents _ _ e)
    · rw [simplify, hact, ← List.append_assoc, ← List.append_assoc]
      rfl

end Inliner
