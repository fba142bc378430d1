import Inliner.Proofs.InliningRules
import Inliner.Proofs.LegalOccurrences

/-!
# What simplification can be at fault for

The pass has more ways to fail than it uses. A statement could be emitted where there is no buffer,
two sets of pointer targets could belong to different frames, a slot could lie outside its frame,
and a position in a list could be too large. None of this happens, whatever the terms are like: if a
body cannot be simplified, then it or a callee names an undeclared variable or is malformed
(`Fault.isInconsistency`).

* All pointer targets that are computed in one table belong to its frame, and so do all its slots,
  so that effects and pointer targets are missing for undeclared variables only
  (`Expr.pointsTo_cases`).
* A tracker has a state and an effect for each argument, at whatever occurrence it is asked
  (`ArgumentTracker.Reached`).
* The walk over expressions emits nothing by itself, and works whether the buffer is open or not;
  the walk over statements begins with an open buffer, and no work closes one. This is so under every
  discipline, so it is enough to take the one that asks for nothing of the terms (`orderly`).
-/

namespace Inliner

/-- The terms are inconsistent: a variable is not declared, or something is malformed. -/
def Fault.isInconsistency : Fault → Bool
  | .unknownVariable _ => true
  | .malformed _ _ => true
  | _ => false

/-- If there is no result, then because the terms are inconsistent. -/
def BlamesTerms {A : Type} (x : Except Fault A) : Prop :=
  ∀ fault, x = .error fault → fault.isInconsistency = true

namespace BlamesTerms

variable {A B : Type} {x : Except Fault A}

/-- Where there is a result, nothing is to be blamed. -/
lemma ok (a : A) : BlamesTerms (.ok a) := by
  rintro fault ⟨⟩

/-- An inconsistency is blamed on the terms. -/
lemma error {fault : Fault} (h : fault.isInconsistency = true) :
    BlamesTerms (.error fault : Except Fault A) := by
  rintro _ ⟨⟩
  exact h

/-- One computation after the other. -/
protected lemma bind {f : A → Except Fault B} (hx : BlamesTerms x)
    (hf : ∀ a, x = .ok a → BlamesTerms (f a)) : BlamesTerms (x >>= f) := by
  cases x with
  | ok a => exact hf a rfl
  | error fault => exact .error (hx fault rfl)

/-- What is done with a result does not matter. -/
protected lemma map (f : A → B) (hx : BlamesTerms x) : BlamesTerms (x.map f) := by
  cases x with
  | ok a => exact .ok (f a)
  | error fault => exact .error (hx fault rfl)

/-- A computation for each element of a list. -/
protected lemma mapM {f : A → Except Fault B} (hf : ∀ a, BlamesTerms (f a)) (as : List A) :
    BlamesTerms (as.mapM f) := by
  induction as with
  | nil => exact .ok []
  | cons a as ih =>
    rw [List.mapM_cons]
    exact .bind (hf a) fun b _ => .bind ih fun bs _ => .ok (b :: bs)

/-- Inconsistencies are the faults that are fine here. -/
lemma givesOr (hx : BlamesTerms x) :
    GivesOr (fun fault => fault.isInconsistency = true) x fun _ => True := by
  cases x with
  | ok a => exact trivial
  | error fault => exact hx fault rfl

end BlamesTerms

/-- If no faults but inconsistencies are fine, then the terms are to be blamed. -/
lemma GivesOr.blamesTerms {A : Type} {x : Except Fault A} {Q : A → Prop}
    (h : GivesOr (fun fault => fault.isInconsistency = true) x Q) : BlamesTerms x := by
  rintro fault rfl
  exact h

/-! ## Pointer targets and effects -/

section Effects

variable (vars : VarTable)

/-- A variable is missing only if it is not declared. -/
lemma VarTable.blamesTerms_get (id : VarId) : BlamesTerms (vars.get id) := by
  unfold VarTable.get
  cases vars.get? id with
  | some v => exact .ok v
  | none => exact .error rfl

/-- What an expression may point at is missing only if a variable is not declared; otherwise it
belongs to the frame of the table. -/
lemma Expr.pointsTo_cases (e : Expr) :
    (∃ p, e.pointsTo vars = .ok p ∧ p.frame = vars.frame) ∨
      ∃ id, e.pointsTo vars = .error (.unknownVariable id) := by
  induction e using Expr.induct_parts with
  | step e ih =>
    cases e with
    | read c =>
      cases c with
      | var id =>
        cases hv : vars.get? id with
        | none => exact .inr ⟨id, by simp [pointsTo, VarTable.get, hv, Except.map]⟩
        | some v =>
          refine .inl ⟨v.pointsTo vars.frame, ?_, frame_variablePointsTo v⟩
          simp [pointsTo, VarTable.get, hv, Except.map]
      | _ => exact .inl ⟨_, rfl, rfl⟩
    | addressOf c =>
      cases c with
      | var id =>
        cases hv : vars.get? id with
        | none =>
          refine .inr ⟨id, ?_⟩
          rw [pointsTo, Cell.addressPointsTo, VarTable.slot, VarTable.get, hv]
          rfl
        | some v =>
          obtain ⟨r, hr, hframe⟩ := PointsTo.exists_toSlot (VarTable.has_slotOf hv)
          refine .inl ⟨r, ?_, hframe⟩
          rw [pointsTo, Cell.addressPointsTo, VarTable.slot_eq_ok hv]
          exact hr
      | deref pointer => exact ih pointer (by simp [parts, Cell.parts])
      | _ => exact .inl ⟨_, rfl, rfl⟩
    | conditional cond onTrue onFalse =>
      rw [pointsTo]
      rcases ih onTrue (by simp [parts]) with ⟨p, hp, hpframe⟩ | ⟨id, hid⟩
      · rw [hp]
        rcases ih onFalse (by simp [parts]) with ⟨q, hq, hqframe⟩ | ⟨id, hid⟩
        · rw [hq]
          exact .inl (PointsTo.exists_joined hpframe hqframe)
        · exact .inr ⟨id, by rw [hid]; rfl⟩
      · exact .inr ⟨id, by rw [hid]; rfl⟩
    | marshalOut value => exact ih value (by simp [parts])
    | _ => exact .inl ⟨_, rfl, rfl⟩

/-- Pointer targets are missing only if the terms are inconsistent. -/
lemma Expr.blamesTerms_pointsTo (e : Expr) : BlamesTerms (e.pointsTo vars) := by
  rcases e.pointsTo_cases vars with ⟨p, hp, -⟩ | ⟨id, hid⟩
  · rw [hp]
    exact .ok p
  · rw [hid]
    exact .error rfl

/-- Steps of an evaluation that are at fault for inconsistent terms only. -/
def StepsBlameTerms (steps : List Step) : Prop :=
  ∀ step ∈ steps, BlamesTerms step

/-- Steps after steps. -/
lemma StepsBlameTerms.append {steps steps' : List Step} (h : StepsBlameTerms steps)
    (h' : StepsBlameTerms steps') : StepsBlameTerms (steps ++ steps') :=
  List.forall_mem_append.2 ⟨h, h'⟩

/-- A single step. -/
lemma StepsBlameTerms.singleton {step : Step} (h : BlamesTerms step) : StepsBlameTerms [step] :=
  List.forall_mem_singleton.2 h

/-- The effects of such steps are missing only if the terms are inconsistent. -/
lemma StepsBlameTerms.ofSteps {steps : List Step} (h : StepsBlameTerms steps) (f : Frame) :
    BlamesTerms (Effects.ofSteps f steps) := by
  have haccumulate : ∀ (acc : Effects) (fault : Fault), (acc.accumulate steps).2 = some fault →
      fault.isInconsistency = true := by
    induction steps with
    | nil =>
      intro acc fault hfault
      cases hfault
    | cons step rest ih =>
      intro acc fault hfault
      obtain ⟨hstep, hrest⟩ := List.forall_mem_cons.1 h
      cases step with
      | ok E => exact ih hrest (acc.absorb E) fault hfault
      | error fault' =>
        cases hfault
        exact hstep fault rfl
  intro fault hfault
  unfold Effects.ofSteps at hfault
  cases hacc : (Effects.bottom f).accumulate steps with
  | mk effects fault? =>
    rw [hacc] at hfault
    cases fault? with
    | none => cases hfault
    | some fault' =>
      cases hfault
      exact haccumulate _ fault (by rw [hacc])

/-- The access to a cell looks up its variable or its pointer. -/
lemma Cell.accessSteps_blameTerms (a : Access) (c : Cell) :
    StepsBlameTerms (c.accessSteps vars a) := by
  cases c with
  | var id => exact .singleton (.map _ (.map _ (vars.blamesTerms_get id)))
  | deref pointer => exact .singleton (.map _ (pointer.blamesTerms_pointsTo vars))
  | _ => exact .singleton (.ok _)

/-- An unknown operation looks up the pointers among its operands. -/
lemma Expr.unknownSteps_blameTerms (operands : List Expr) :
    StepsBlameTerms (unknownSteps vars operands) := by
  refine .append (fun step hstep => ?_) (.singleton (.ok _))
  obtain ⟨e, -, rfl⟩ := List.mem_map.1 hstep
  exact .map _ (e.blamesTerms_pointsTo vars)

/-- The own steps of a node. -/
lemma Expr.ownSteps_blameTerms (e : Expr) : StepsBlameTerms (e.ownSteps vars) := by
  cases e with
  | read c => exact c.accessSteps_blameTerms vars .read
  | binary op left right =>
    change StepsBlameTerms (if op.mayThrow then [.ok (.raising vars.frame)] else [])
    split
    · exact .singleton (.ok _)
    · exact List.forall_mem_nil _
  | call method args => exact unknownSteps_blameTerms vars args
  | callOn method receiver args => exact unknownSteps_blameTerms vars (receiver :: args)
  | construct method args => exact unknownSteps_blameTerms vars args
  | marshalOut value => exact unknownSteps_blameTerms vars [value]
  | marshalIn value => exact unknownSteps_blameTerms vars [value]
  | _ => exact List.forall_mem_nil _

/-- The steps of several expressions. -/
lemma Expr.allSteps_blameTerms {es : List Expr}
    (h : ∀ e ∈ es, StepsBlameTerms (e.steps vars)) : StepsBlameTerms (allSteps vars es) := by
  induction es with
  | nil => exact List.forall_mem_nil _
  | cons e es ih =>
    obtain ⟨he, hes⟩ := List.forall_mem_cons.1 h
    exact .append he (ih hes)

/-- The steps of an expression are those of its parts and its own. -/
lemma Expr.steps_blameTerms (e : Expr) : StepsBlameTerms (e.steps vars) := by
  induction e using Expr.induct_parts with
  | step e ih =>
    rw [steps_eq]
    exact .append (allSteps_blameTerms vars ih) (e.ownSteps_blameTerms vars)

/-- The steps of a cell are those of its operands and the access. -/
lemma Cell.steps_blameTerms (a : Access) (c : Cell) : StepsBlameTerms (c.steps vars a) := by
  refine .append ?_ (c.accessSteps_blameTerms vars a)
  rw [Expr.operandSteps_eq]
  exact Expr.allSteps_blameTerms vars fun e _ => e.steps_blameTerms vars

mutual

/-- The steps of a statement are those of its expressions and blocks. -/
lemma Stmt.steps_blameTerms : ∀ s : Stmt, StepsBlameTerms (s.steps vars)
  | .eval value => value.steps_blameTerms vars
  | .assign target value =>
    .append (value.steps_blameTerms vars) (target.steps_blameTerms vars .write)
  | .ret none => List.forall_mem_nil _
  | .ret (some value) => value.steps_blameTerms vars
  | .raise exception => .append (exception.steps_blameTerms vars) (.singleton (.ok _))
  | .branch cond onTrue onFalse =>
    .append (.append (cond.steps_blameTerms vars) (Stmt.blockSteps_blameTerms onTrue))
      (Stmt.blockSteps_blameTerms onFalse)

lemma Stmt.blockSteps_blameTerms : ∀ stmts : List Stmt, StepsBlameTerms (Stmt.blockSteps vars stmts)
  | [] => List.forall_mem_nil _
  | s :: rest => .append (Stmt.steps_blameTerms s) (Stmt.blockSteps_blameTerms rest)

end

/-- Effects of an expression are missing only if the terms are inconsistent. -/
lemma Expr.blamesTerms_effects (e : Expr) : BlamesTerms (e.effects vars) :=
  (e.steps_blameTerms vars).ofSteps vars.frame

/-- Effects of a statement are missing only if the terms are inconsistent. -/
lemma Stmt.blamesTerms_effects (s : Stmt) : BlamesTerms (s.effects vars) :=
  (Stmt.steps_blameTerms vars s).ofSteps vars.frame

end Effects

/-! ## Trackers -/

namespace ArgumentTracker

/-- The trackers of a call that are met in a walk: the first one, and those after an occurrence of a
parameter that is looked up. -/
inductive Reached (vars : VarTable) (parameters : List VarId) (args : List Expr) :
    ArgumentTracker → Prop
  | start {t : ArgumentTracker} :
    start vars parameters args = .ok t → Reached vars parameters args t
  | visit {t : ArgumentTracker} {id : VarId} {i : Nat} (done : Effects) (unconditional : Bool) :
      Reached vars parameters args t → t.position? id = some i →
        Reached vars parameters args (t.visit i done unconditional)

/-- A position is one of a parameter. -/
lemma lt_of_position? {t : ArgumentTracker} {id : VarId} {i : Nat} (h : t.position? id = some i) :
    i < t.parameters.length := by
  obtain ⟨p, hp, rfl⟩ := Option.map_eq_some_iff.1 h
  have hmem : p ∈ t.parameters.zipIdx := List.mem_reverse.1 (List.mem_of_find?_eq_some hp)
  exact List.snd_lt_of_mem_zipIdx hmem

/-- An occurrence of a parameter adds and removes no state. -/
lemma length_states_visit (t : ArgumentTracker) (i : Nat) (done : Effects) (u : Bool) :
    (t.visit i done u).states.length = t.states.length := by
  unfold visit
  split
  · rfl
  · split
    · rfl
    · split
      · exact List.length_set
      · rfl
    · rfl

/-- As many parameters, effects and states as there are arguments. -/
structure Sized (t : ArgumentTracker) (n : Nat) : Prop where
  parameters : t.parameters.length = n
  effects : t.effects.length = n
  states : t.states.length = n

variable {vars : VarTable} {parameters : List VarId} {args : List Expr} {t : ArgumentTracker}

/-- No tracker of a call loses its measure. -/
lemma Reached.sized (h : Reached vars parameters args t) : t.Sized args.length := by
  induction h with
  | start hstart =>
    obtain ⟨hparameters, hlength, heffects, hstates, -⟩ := start_eq_ok hstart
    exact ⟨by rw [hparameters, hlength], (forall₂_of_mapM_eq_ok heffects).length_eq.symm,
      by rw [hstates, List.length_map]⟩
  | visit done u _ _ ih =>
    exact ⟨by rw [parameters_visit, ih.parameters], by rw [effects_visit, ih.effects],
      by rw [length_states_visit, ih.states]⟩

/-- Where a parameter is looked up, there are an argument, its effects and its state. -/
lemma Reached.inRange (h : Reached vars parameters args t) {id : VarId} {i : Nat}
    (hi : t.position? id = some i) :
    i < t.states.length ∧ i < t.effects.length ∧ i < args.length := by
  have hlt := lt_of_position? hi
  rw [h.sized.parameters] at hlt
  exact ⟨h.sized.states.symm ▸ hlt, h.sized.effects.symm ▸ hlt, hlt⟩

/-- A tracker is missing only if the terms are inconsistent. -/
lemma blamesTerms_start (vars : VarTable) (parameters : List VarId) (args : List Expr) :
    BlamesTerms (start vars parameters args) := by
  unfold start
  split
  · exact .error rfl
  · exact .bind (.mapM (Expr.blamesTerms_effects vars) args) fun _ _ => .ok _

end ArgumentTracker

/-! ## Substitution -/

namespace Substitution

variable {vars : VarTable} {parameters : List VarId} {args : List Expr} {A B : Type}

/-- From every tracker of the call, the walk leads to a tracker of the call, or is at fault for
inconsistent terms. -/
structure Guarded (vars : VarTable) (parameters : List VarId) (args : List Expr) (act : Walk A) :
    Prop where
  fault : ∀ st, st.tracker.Reached vars parameters args → BlamesTerms (act st)
  reached : ∀ st a st', st.tracker.Reached vars parameters args → act st = .ok (a, st') →
    st'.tracker.Reached vars parameters args

/-- At every node the walk meets trackers of the call only. -/
lemma keeps_reached (vars : VarTable) (parameters : List VarId) (args : List Expr) :
    Keeps vars args (fun fault => fault.isInconsistency = true)
      (fun st => st.tracker.Reached vars parameters args) (fun _ => True) fun _ => True where
  part _ _ := trivial
  argument {id u st} _ hst := by
    have hget : (get : Walk State) st = .ok (st, st) := rfl
    rw [argument, bind_of_ok hget]
    cases hi : st.tracker.position? id with
    | none => exact (rfl : (Fault.malformed (.undeclaredRead id) none).isInconsistency = true)
    | some i =>
      -- there is an argument at every position
      have ha : args[i]? = some _ := List.getElem?_eq_getElem (hst.inRange hi).2.2
      simp only [ha]
      exact ⟨trivial, hst.visit st.done u hi⟩
  storage _ := rfl
  node {e es st} _ _ _ _ hst := by
    have heffects := ((e.withParts es).ownSteps_blameTerms vars).ofSteps vars.frame
    cases hE : Effects.ofSteps vars.frame ((e.withParts es).ownSteps vars) with
    | ok E =>
      rw [own, hE]
      exact ⟨trivial, hst⟩
    | error fault =>
      rw [own, hE]
      exact heffects fault hE

/-- The walk is at fault for inconsistent terms only. -/
lemma guarded_expr (e : Expr) (u : Bool) : Guarded vars parameters args (expr vars args e u) where
  fault _ hst := ((keeps_reached vars parameters args).expr trivial hst).blamesTerms
  reached st e' st' hst h := by
    have hgives := (keeps_reached vars parameters args).expr (e := e) (u := u) trivial hst
    rw [h] at hgives
    exact hgives.2

/-- A substitution is accepted or refused, or the terms are inconsistent. -/
lemma blamesTerms_inlined (vars : VarTable) (parameters : List VarId) (args : List Expr)
    (e : Expr) : BlamesTerms (inlined? vars parameters args e) := by
  refine ((keeps_reached vars parameters args).inlined ?_ trivial).blamesTerms
  cases ht : ArgumentTracker.start vars parameters args with
  | ok t => exact ArgumentTracker.Reached.start ht
  | error fault => exact ArgumentTracker.blamesTerms_start vars parameters args fault ht

end Substitution

/-! ## Work in a scope -/

/-- A parameter that does not stand for storage is malformed where it is used as such. -/
lemma Scope.blamesTerms_resolveCell (S : Scope) (c : Cell) : BlamesTerms (S.resolveCell c) := by
  unfold resolveCell
  split
  · split
    · exact .ok _
    · exact .ok _
    · exact .error rfl
  · exact .ok _

/-- The terms may be any terms, and work is at fault for inconsistent ones only. -/
def orderly : Discipline where
  fine fault := fault.isInconsistency = true
  expr _ _ := True
  target _ _ := True
  stmt _ _ := True
  expr_mono _ he := he
  target_mono _ hc := hc
  stmt_mono _ hs := hs
  made _ := trivial
  follow he := he
  marshalOut := .rfl
  marshalIn := .rfl
  null := trivial
  expr_effects {t e} _ := (e.blamesTerms_effects t).givesOr
  stmt_effects {t s} _ := (s.blamesTerms_effects t).givesOr

/-- All terms can be read in all scopes. -/
def orderlyReading : orderly.Reading where
  source _ := True
  sourceTarget _ := True
  sourceStmt _ := True
  fit _ := True
  part he _ := he
  madeOf _ := Stmt.madeOf_of_forall (fun _ => trivial) (fun _ => trivial) (fun _ _ _ => trivial) _
  address _ _ := trivial
  fit_congr _ _ hS := hS
  node _ _ _ _ := trivial
  readVar _ _ := trivial
  pointTo {S id} _ _ := (S.blamesTerms_resolveCell (.var id)).givesOr
  storeVar {S id} _ _ := (S.blamesTerms_resolveCell (.var id)).givesOr
  store _ _ := trivial

/-- Every callee is taken in everywhere. -/
def orderlyIntake (callee : MethodBody) : orderly.Intake callee where
  reading := orderlyReading
  host _ := True
  serves _ _ := True
  source _ _ := trivial
  host_congr _ _ hS := hS
  serves_congr _ _ hid := hid
  direct _ _ _ _ := trivial
  fresh _ _ _ _ _ _ := trivial
  target _ _ _ _ _ := trivial
  fit _ _ _ _ := trivial
  substituted {S args e} _ _ _ _ _ :=
    (Substitution.blamesTerms_inlined S.vars callee.parameters args e).givesOr.mono
      fun _ _ _ _ => trivial

/-- Inlining is orderly at every depth. -/
lemma supports_orderly (setting : Setting) :
    setting.Supports fun _ (_ : orderly.Reading) => True :=
  fun _ _ _ _ callee _ _ _ _ => ⟨orderlyIntake callee, trivial, fun _ _ => trivial⟩

/-- Whatever the body and the callees are like, simplification is at fault for inconsistent terms
only. -/
lemma blamesTerms_simplify (setting : Setting) (body : MethodBody) (log : EventLog) :
    BlamesTerms (outcome (simplify setting body log)) :=
  (givesOr_simplify (R := orderlyReading) (supports_orderly setting) trivial (fun _ => trivial)
    (fun _ _ => trivial) log).blamesTerms

/-! ## Positions of arguments -/

namespace Pass

variable {callee : MethodBody}

/-- Passes the arguments from position `i` on, and is at fault if there are no effects or no test
for a value at a position. -/
def passArgumentsChecked (callee : MethodBody) (effects : List Effects) (values : List Bool) :
    Nat → List (VarId × Expr) → ScopeM Unit
  | _, [] => return ()
  | i, (param, arg) :: rest =>
    if i < effects.length ∧ i < values.length then do
      passArgument callee effects values i param arg
      passArgumentsChecked callee effects values (i + 1) rest
    else throw .outOfRange

/-- The check passes at every position if both lists are long enough for the last one. -/
lemma passArgumentsChecked_eq {effects : List Effects} {values : List Bool} :
    ∀ {i : Nat} {l : List (VarId × Expr)}, i + l.length ≤ effects.length →
      i + l.length ≤ values.length →
        passArgumentsChecked callee effects values i l = passArguments callee effects values i l
  | _, [], _, _ => rfl
  | i, (param, arg) :: rest, heffects, hvalues => by
    rw [List.length_cons] at heffects hvalues
    rw [passArgumentsChecked, if_pos ⟨by omega, by omega⟩,
      passArgumentsChecked_eq (by omega) (by omega), passArguments]

end Pass

/-! ## Simplification -/

/-- Whatever the body and the callees are like, simplification has a result or ends because a
variable is not declared or a term is malformed. Nothing is looked up outside of a list either.
There are effects and a test for a value at the position of each argument that is passed. A
substitution meets the trackers of its call only, and these have a state, effects and an argument at
the position of each parameter. -/
theorem simplify_ok_or_inconsistent (setting : Setting) (body : MethodBody) (log : EventLog) :
    ((∃ out log', simplify setting body log = .ok out log') ∨
      ∃ fault log', simplify setting body log = .error fault log' ∧
        fault.isInconsistency = true) ∧
    (∀ (vars : VarTable) (callee : MethodBody) (args : List Expr) (effects : List Effects),
      args.mapM (Expr.effects vars) = .ok effects →
        Pass.passArgumentsChecked callee effects (args.map (Expr.isValue vars)) 0
            (callee.parameters.zip args) =
          Pass.passArguments callee effects (args.map (Expr.isValue vars)) 0
            (callee.parameters.zip args)) ∧
    ∀ (vars : VarTable) (parameters : List VarId) (args : List Expr),
      (∀ e u, Substitution.Guarded vars parameters args (Substitution.expr vars args e u)) ∧
      ∀ (t : ArgumentTracker), t.Reached vars parameters args →
        ∀ (id : VarId) (i : Nat), t.position? id = some i →
          i < t.states.length ∧ i < t.effects.length ∧ i < args.length := by
  refine ⟨?_, fun vars callee args effects heffects => ?_, fun vars parameters args =>
    ⟨Substitution.guarded_expr, fun t ht id i hi => ht.inRange hi⟩⟩
  · cases hrun : simplify setting body log with
    | ok out log' => exact .inl ⟨out, log', rfl⟩
    | error fault log' =>
      refine .inr ⟨fault, log', rfl, blamesTerms_simplify setting body log fault ?_⟩
      rw [hrun, outcome_error]
  · have hlength := (forall₂_of_mapM_eq_ok heffects).length_eq
    refine Pass.passArgumentsChecked_eq ?_ ?_
    · rw [Nat.zero_add, List.length_zip, ← hlength]
      exact Nat.min_le_right _ _
    · rw [Nat.zero_add, List.length_zip, List.length_map]
      exact Nat.min_le_right _ _

end Inliner
