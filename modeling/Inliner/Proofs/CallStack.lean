import Inliner.Proofs.Preservation
import Inliner.Proofs.Walkers

/-!
# Inlining with a stack

The methods that are being inlined can be kept on a stack. A call is looked at with whatever is on
the stack then, a callee is pushed before its body is walked, and popped afterwards, also if the
walk was at fault. The depth of the inlining is the height of the stack.

Nothing in this way of working says that it ends, so `StackM.tryInline` counts the attempts that are
nested in each other and is stopped if there are too many. `Follows` relates it to `Pass.inline`,
which is given the methods being inlined and the levels that remain. It also says that the stack is
found as it was, and what can be said of the stack at each attempt. By induction on the number of
attempts that may still be nested, no work is stopped if this number exceeds the depth by two.
-/

namespace Inliner

/-- What is noted of the inlining of a call. -/
inductive Mark where
  /-- A call of `method` is looked at, with these methods on the stack. -/
  | tried (stack : List MethodRef) (method : MethodRef)
  /-- A call of `method` was inlined, with these methods on the stack before. -/
  | inlined (stack : List MethodRef) (method : MethodRef)
  deriving DecidableEq

/-- A scope together with the stack and the marks made so far. -/
structure Stacked where
  scope : Scope
  /-- The methods that are being inlined, the innermost one first, and the method that is simplified
  at the end. -/
  stack : List MethodRef
  marks : List Mark

/-- Work with a stack. It has no outcome if it was stopped. -/
abbrev StackM : Type → Type :=
  ExceptT Fault (StateT Stacked Option)

namespace StackM

variable {A B : Type}

/-- Work that is stopped. -/
def stopped : StackM A := fun _ => none

/-- Work that concerns the scope only. -/
def ofScope (act : ScopeM A) : StackM A := fun st =>
  match act st.scope with
  | .ok a S => some (.ok a, { st with scope := S })
  | .error fault S => some (.error fault, { st with scope := S })

/-- The stack. -/
def theStack : StackM (List MethodRef) := fun st => some (.ok st.stack, st)

/-- Makes a mark. -/
def mark (m : Mark) : StackM Unit := fun st => some (.ok (), { st with marks := st.marks ++ [m] })

/-- Pushes a method for the time of the work, and pops what is on top of the stack afterwards,
however the work ended. -/
def pushing (method : MethodRef) (act : StackM A) : StackM A := fun st =>
  (act { st with stack := method :: st.stack }).map fun p =>
    (p.1, { p.2 with stack := p.2.stack.tail })

/-- Works in the scope made by `enter`; `leave` makes the scope afterwards out of the outer and the
nested one. -/
def nested (enter : Scope → Scope) (leave : Scope → Scope → Scope) (act : StackM A) : StackM A :=
  fun st => (act { st with scope := enter st.scope }).map fun p =>
    (p.1, { p.2 with scope := leave st.scope p.2.scope })

/-- Emits into a buffer of its own, and gives what was emitted. -/
def collect (act : StackM Unit) : StackM (List Stmt) :=
  nested (fun S => { S with buffer := some [], effects := .bottom S.vars.frame })
    (fun outer inner => { inner with buffer := outer.buffer, effects := outer.effects }) do
      act
      ofScope ScopeM.takeStatements

/-- The walk over terms with a stack. -/
def walker (isFactory : MethodRef → Bool) (inline : MethodRef → List Expr → StackM (Option Expr)) :
    Walker StackM where
  look f := ofScope (ScopeM.look f)
  emit s := ofScope (ScopeM.emit s)
  withoutStatements act :=
    nested (fun S => { S with buffer := none })
      (fun outer inner => { inner with buffer := outer.buffer, effects := outer.effects }) act
  collect
  isFactory
  inline

/-- Walks over what a trailing return gives. -/
def returned (w : Walker StackM) : Option Expr → StackM Expr
  | some e => w.expr e
  | none => return .const .null

/-- Binds the variables of a callee, and walks over its leading statements and what it returns. -/
def spliced (w : Walker StackM) (callee : MethodBody) (effects : List Effects)
    (values : List Bool) (args : List Expr) (leading : List Stmt) (value : Option Expr) :
    StackM (Expr × List Stmt × Effects) := do
  ofScope (Pass.passArguments callee effects values 0 (callee.parameters.zip args))
  ofScope (ScopeM.freshenLocals callee.vars)
  w.block leading
  let result ← returned w value
  let stmts ← ofScope ScopeM.takeStatements
  let S ← ofScope get
  return (result, stmts, S.effects)

/-- Splices the statements of the callee into the buffer. -/
def splice (w : Walker StackM) (location : Nat) (callee : MethodBody) (args : List Expr) :
    StackM (Option Expr) :=
  match callee.splitReturn? with
  | none => ofScope (Pass.refuse location callee.method .earlyReturn)
  | some (leading, value) => do
    let effects ← ofScope (ScopeM.look fun S => args.mapM (Expr.effects S.vars))
    let values ← ofScope (ScopeM.look fun S => .ok (args.map (Expr.isValue S.vars)))
    let r ← nested (fun S => { S with buffer := some [], effects := .bottom S.vars.frame })
      (fun outer inner =>
        { inner with
          bindings := outer.bindings
          buffer := outer.buffer
          effects := outer.effects })
      (spliced w callee effects values args leading value)
    ofScope (r.2.1.forM ScopeM.append)
    ofScope (ScopeM.addEffects r.2.2)
    return some r.1

/-- Splices the callee in where statements can be emitted, and substitutes the arguments into what
it returns elsewhere. -/
def attempt (w : Walker StackM) (location : Nat) (callee : MethodBody) (args : List Expr) :
    StackM (Option Expr) := do
  let buffered ← ofScope (ScopeM.look fun S => .ok S.hasBuffer)
  if buffered then splice w location callee args
  else ofScope (Pass.substitute location callee args)

/-- Inlines a call, if possible. A method that is on the stack is not inlined, nor is any method if
the stack is higher than the depth allows. At most `fuel` attempts may be nested in each other. -/
def tryInline (setting : Setting) (location : Nat) :
    (fuel : Nat) → MethodRef → List Expr → StackM (Option Expr)
  | 0, _, _ => stopped
  | fuel + 1, method, args => do
    let stack ← theStack
    mark (.tried stack method)
    if !setting.config.inlining || decide (setting.config.depth < stack.length) ||
        stack.contains method then
      return none
    else
      match setting.body? method with
      | none => return none
      | some callee =>
        if setting.config.statements < callee.size then
          ofScope (Pass.refuse location method .tooLarge)
        else if !Pass.isAllowed setting.policy method callee then
          ofScope (Pass.refuse location method .notInlinable)
        else if callee.parameters.length ≠ args.length then
          ofScope (Pass.refuse location method .wrongArity)
        else
          let result ← pushing method
            (attempt (walker setting.policy.isFactory (tryInline setting location fuel)) location
              callee (Pass.marshalled setting.policy method callee args))
          match result with
          | none => return none
          | some result =>
            mark (.inlined stack method)
            ofScope (ScopeM.record .methodInlined (some location) method.render)
            return some (Pass.received setting.policy method callee result)

/-- The walk over the terms of the top-level statement at `location`. -/
def topLevel (setting : Setting) (fuel location : Nat) : Walker StackM :=
  walker setting.policy.isFactory (tryInline setting location fuel)

/-- Simplifies the top-level statements of a method from position `location` on. -/
def topStmts (setting : Setting) (fuel : Nat) : Nat → List Stmt → StackM Unit
  | _, [] => return ()
  | location, s :: rest => do
    (topLevel setting fuel location).stmt s
    topStmts setting fuel (location + 1) rest

/-- What simplification gives, once the statements are known or a fault was met. -/
def finished (setting : Setting) (body : MethodBody) :
    Except Fault (List Stmt) → Scope → EStateM.Result Fault EventLog Simplified
  | .error fault, S => .error fault S.log
  | .ok stmts, S =>
    let result : MethodBody := ⟨body.method, body.isImport, S.vars, stmts⟩
    .ok ⟨result, result.usage⟩ (S.log ++ Pass.closingEvents setting.config result)

/-- Simplifies a method body, which is at the bottom of the stack. -/
def simplify (setting : Setting) (fuel : Nat) (body : MethodBody) (log : EventLog) :
    Option (EStateM.Result Fault EventLog Simplified × List Mark) :=
  let root := Scope.root body.method body.vars (log ++ Pass.openingEvents setting.config body)
  (collect (topStmts setting fuel 0 body.stmts) ⟨root, [body.method], []⟩).map fun p =>
    (finished setting body p.1 p.2.scope, p.2.marks)

/-- The work comes to an end from every state, and the stack is then as it was, also if a fault was
met. -/
def KeepsStack (x : StackM A) : Prop :=
  ∀ st, ∃ r st', x st = some (r, st') ∧ st'.stack = st.stack

/-! ## Sequencing -/

variable {x : StackM A} {f : A → StackM B} {st st' : Stacked}

/-- If the first step succeeds, then the second one follows. -/
lemma bind_of_ok {a : A} (h : x st = some (.ok a, st')) : (x >>= f) st = f a st' := by
  change (StateT.bind x (ExceptT.bindCont f)) st = _
  simp only [StateT.bind, h]
  rfl

/-- If the first step fails, then all does. -/
lemma bind_of_error {fault : Fault} (h : x st = some (.error fault, st')) :
    (x >>= f) st = some (.error fault, st') := by
  change (StateT.bind x (ExceptT.bindCont f)) st = _
  simp only [StateT.bind, h]
  rfl

/-- If the first step is stopped, then all is. -/
lemma bind_of_none (h : x st = none) : (x >>= f) st = none := by
  change (StateT.bind x (ExceptT.bindCont f)) st = _
  simp only [StateT.bind, h]
  rfl

end StackM

/-! ## Following the work in the scope -/

namespace Stacked

variable {A : Type}

/-- The state after work that led to the scope `S` and made some marks. -/
def after (st : Stacked) (S : Scope) (marks : List Mark) : Stacked :=
  { st with scope := S, marks := st.marks ++ marks }

/-- How work in the scope ends if marks are made on the way. -/
def ended (st : Stacked) (marks : List Mark) :
    EStateM.Result Fault Scope A → Except Fault A × Stacked
  | .ok a S => (.ok a, st.after S marks)
  | .error fault S => (.error fault, st.after S marks)

/-- The marks of two steps come one after the other. -/
lemma ended_after (st : Stacked) (S : Scope) (marks marks' : List Mark)
    (r : EStateM.Result Fault Scope A) :
    (st.after S marks).ended marks' r = st.ended (marks ++ marks') r := by
  cases r <;> simp [ended, after]

/-- The stack is as high as before. -/
lemma stack_ended (st : Stacked) (marks : List Mark) (r : EStateM.Result Fault Scope A) :
    (st.ended marks r).2.stack = st.stack := by
  cases r <;> rfl

end Stacked

/-- The stack at an attempt is a good one, and what is inlined is not on the stack. -/
def Mark.Fits (good : List MethodRef → Prop) : Mark → Prop
  | .tried stack _ => good stack
  | .inlined stack method => method ∉ stack

/-- With `stack` as the stack, `x` does to the scope what `act` does, makes fitting marks, and
leaves the stack as it is. It is stopped only if `ample` does not hold. -/
def Follows (good : List MethodRef → Prop) (ample : Prop) (stack : List MethodRef) (A : Type)
    (act : ScopeM A) (x : StackM A) : Prop :=
  ∀ st : Stacked, st.stack = stack → (x st = none ∧ ¬ ample) ∨
    ∃ marks : List Mark, (∀ m ∈ marks, m.Fits good) ∧ x st = some (st.ended marks (act st.scope))

namespace Follows

variable {A B : Type} {good : List MethodRef → Prop} {ample : Prop} {stack : List MethodRef}
  {act : ScopeM A} {x : StackM A}

/-- How work ends that is not stopped. -/
lemma ended_of_some (h : Follows good ample stack A act x) {st : Stacked} (hst : st.stack = stack)
    {r : Except Fault A × Stacked} (hx : x st = some r) :
    ∃ marks, r = st.ended marks (act st.scope) := by
  rcases h st hst with ⟨hnone, -⟩ | ⟨marks, -, hsome⟩
  · rw [hnone] at hx
    cases hx
  · exact ⟨marks, Option.some.inj (hx.symm.trans hsome)⟩

/-- Work that makes no marks. -/
lemma of_eq (h : ∀ st : Stacked, st.stack = stack → x st = some (st.ended [] (act st.scope))) :
    Follows good ample stack A act x :=
  fun st hst => .inr ⟨[], nofun, h st hst⟩

/-- Work in the scope follows itself. -/
lemma ofScope (act : ScopeM A) : Follows good ample stack A act (StackM.ofScope act) := by
  refine of_eq fun st _ => ?_
  unfold StackM.ofScope Stacked.ended Stacked.after
  cases act st.scope <;> simp

/-- A result without any work. -/
protected lemma pure (a : A) : Follows good ample stack A (pure a) (pure a) :=
  ofScope (pure a)

/-- Work may be stopped where the fuel is not ample. -/
lemma stopped (h : ¬ ample) : Follows good ample stack A act StackM.stopped :=
  fun _ _ => .inl ⟨rfl, h⟩

/-- One step after the other. -/
protected lemma bind {f : A → ScopeM B} {g : A → StackM B} (hx : Follows good ample stack A act x)
    (hg : ∀ a, Follows good ample stack B (f a) (g a)) :
    Follows good ample stack B (act >>= f) (x >>= g) := by
  intro st hst
  rcases hx st hst with ⟨hnone, hample⟩ | ⟨marks, hmarks, hx⟩
  · exact .inl ⟨StackM.bind_of_none hnone, hample⟩
  cases hact : act st.scope with
  | error fault S =>
    rw [hact] at hx
    refine .inr ⟨marks, hmarks, ?_⟩
    rw [StackM.bind_of_error hx, bind_of_error hact]
    rfl
  | ok a S =>
    rw [hact] at hx
    rcases hg a (st.after S marks) hst with ⟨hnone, hample⟩ | ⟨marks', hmarks', hg⟩
    · exact .inl ⟨(StackM.bind_of_ok hx).trans hnone, hample⟩
    · refine .inr ⟨marks ++ marks', List.forall_mem_append.2 ⟨hmarks, hmarks'⟩, ?_⟩
      rw [StackM.bind_of_ok hx, bind_of_ok hact, hg, Stacked.ended_after]
      rfl

/-- A mark is made first. -/
lemma mark {m : Mark} (hm : m.Fits good) {k : Unit → StackM A}
    (hk : Follows good ample stack A act (k ())) :
    Follows good ample stack A act (StackM.mark m >>= k) := by
  intro st hst
  have hmark : StackM.mark m st = some (.ok (), st.after st.scope [m]) := rfl
  rcases hk (st.after st.scope [m]) hst with ⟨hnone, hample⟩ | ⟨marks, hmarks, hk⟩
  · exact .inl ⟨(StackM.bind_of_ok hmark).trans hnone, hample⟩
  · refine .inr ⟨m :: marks, List.forall_mem_cons.2 ⟨hm, hmarks⟩, ?_⟩
    rw [StackM.bind_of_ok hmark, hk, Stacked.ended_after]
    rfl

/-- The stack is looked at first. -/
lemma theStack {k : List MethodRef → StackM A} (hk : Follows good ample stack A act (k stack)) :
    Follows good ample stack A act (StackM.theStack >>= k) := by
  rintro st rfl
  exact hk st rfl

/-- A method is pushed for the time of the work. -/
lemma pushing {method : MethodRef} (hx : Follows good ample (method :: stack) A act x) :
    Follows good ample stack A act (StackM.pushing method x) := by
  intro st hst
  rcases hx { st with stack := method :: st.stack } (by rw [hst]) with
    ⟨hnone, hample⟩ | ⟨marks, hmarks, hx⟩
  · refine .inl ⟨?_, hample⟩
    rw [StackM.pushing, hnone]
    rfl
  · refine .inr ⟨marks, hmarks, ?_⟩
    rw [StackM.pushing, hx]
    cases act st.scope <;> rfl

/-- Both make the same choice. -/
protected lemma ite {c : Prop} [Decidable c] {act' : ScopeM A} {x' : StackM A}
    (hthen : c → Follows good ample stack A act x)
    (helse : ¬ c → Follows good ample stack A act' x') :
    Follows good ample stack A (if c then act else act') (if c then x else x') := by
  split
  · exact hthen ‹c›
  · exact helse ‹¬ c›

/-- Work that is stopped seldom enough. -/
lemma mono {ample' : Prop} (h : ample' → ample) (hx : Follows good ample stack A act x) :
    Follows good ample' stack A act x :=
  fun st hst => (hx st hst).imp_left fun hnone => ⟨hnone.1, fun hample => hnone.2 (h hample)⟩

/-- The work is done in a nested scope. -/
lemma nested (enter : Scope → Scope) (leave : Scope → Scope → Scope)
    (hx : Follows good ample stack A act x) :
    Follows good ample stack A (ScopeM.nested enter leave act) (StackM.nested enter leave x) := by
  intro st hst
  rcases hx { st with scope := enter st.scope } hst with ⟨hnone, hample⟩ | ⟨marks, hmarks, hx⟩
  · refine .inl ⟨?_, hample⟩
    rw [StackM.nested, hnone]
    rfl
  · refine .inr ⟨marks, hmarks, ?_⟩
    rw [StackM.nested, hx, ScopeM.nested]
    cases act (enter st.scope) <;> rfl

end Follows

namespace StackM

variable {good : List MethodRef → Prop} {ample : Prop} {stack : List MethodRef}
  {calls : CallTreatment} {inline : MethodRef → List Expr → StackM (Option Expr)}

/-- What is collected is the same. -/
lemma follows_collect {act : ScopeM Unit} {x : StackM Unit} (h : Follows good ample stack _ act x) :
    Follows good ample stack _ (ScopeM.collect act) (collect x) :=
  .nested _ _ (.bind h fun _ => .ofScope _)

/-- The walk with a stack follows the walk in the scope if it does so at calls. -/
lemma related_walker
    (h : ∀ method args,
      Follows good ample stack _ (calls.inline method args) (inline method args)) :
    Walker.StmtRelated (Follows good ample stack) calls (walker calls.isFactory inline) where
  pure := .pure
  bind := .bind
  look _ _ := .ofScope _
  withoutStatements h := .nested _ _ h
  isFactory := rfl
  inline := h
  emit _ := .ofScope _
  collect := follows_collect

variable {w : Walker StackM}

/-- What a trailing return gives is the same. -/
lemma follows_returned (h : Walker.StmtRelated (Follows good ample stack) calls w)
    (value : Option Expr) :
    Follows good ample stack _ (Pass.returned calls value) (returned w value) := by
  cases value with
  | none => exact .pure _
  | some e => exact h.expr e

/-- The body of a callee is spliced in alike. -/
lemma follows_spliced (h : Walker.StmtRelated (Follows good ample stack) calls w)
    (callee : MethodBody) (effects : List Effects) (values : List Bool) (args : List Expr)
    (leading : List Stmt) (value : Option Expr) :
    Follows good ample stack _ (Pass.spliced calls callee effects values args leading value)
      (spliced w callee effects values args leading value) :=
  .bind (.ofScope _) fun _ => .bind (.ofScope _) fun _ => .bind (h.block leading) fun _ =>
    .bind (follows_returned h value) fun _ => .bind (.ofScope _) fun _ =>
      .bind (.ofScope _) fun _ => .pure _

/-- A callee is spliced in alike. -/
lemma follows_splice (h : Walker.StmtRelated (Follows good ample stack) calls w) (location : Nat)
    (callee : MethodBody) (args : List Expr) :
    Follows good ample stack _ (Pass.splice calls location callee args)
      (splice w location callee args) := by
  cases hsplit : callee.splitReturn? with
  | none =>
    rw [Pass.splice, splice, hsplit]
    exact .ofScope _
  | some split =>
    rw [Pass.splice_look hsplit, splice, hsplit]
    exact .bind (.ofScope _) fun effects => .bind (.ofScope _) fun values =>
      .bind (.nested _ _ (follows_spliced h callee effects values args _ _)) fun _ =>
        .bind (.ofScope _) fun _ => .bind (.ofScope _) fun _ => .pure _

/-- A callee is brought in alike. -/
lemma follows_attempt (h : Walker.StmtRelated (Follows good ample stack) calls w) (location : Nat)
    (callee : MethodBody) (args : List Expr) :
    Follows good ample stack _ (Pass.attempt calls location callee args)
      (attempt w location callee args) := by
  have hattempt : Pass.attempt calls location callee args = (do
      let buffered ← ScopeM.look fun S => .ok S.hasBuffer
      if buffered then Pass.splice calls location callee args
      else Pass.substitute location callee args) := by
    funext S
    have hlook : ScopeM.look (fun S => .ok S.hasBuffer) S = .ok S.hasBuffer S := rfl
    rw [Inliner.bind_of_ok hlook, Pass.attempt]
    split <;> rfl
  rw [hattempt]
  refine .bind (.ofScope _) fun buffered => ?_
  split
  · exact follows_splice h location callee args
  · exact .ofScope _

end StackM

/-- The attempt is what inlining does once nothing speaks against the callee. -/
lemma Pass.inline_succ (setting : Setting) (location depth : Nat) (active : List MethodRef)
    (method : MethodRef) (args : List Expr) :
    inline setting location (depth + 1) active method args =
      if !setting.config.inlining || active.contains method then pure none
      else
        match setting.body? method with
        | none => pure none
        | some callee =>
          if setting.config.statements < callee.size then refuse location method .tooLarge
          else if !isAllowed setting.policy method callee then refuse location method .notInlinable
          else if callee.parameters.length ≠ args.length then refuse location method .wrongArity
          else do
            let result ← attempt
              ⟨setting.policy.isFactory, inline setting location depth (method :: active)⟩
              location callee (marshalled setting.policy method callee args)
            match result with
            | none => return none
            | some result =>
              ScopeM.record .methodInlined (some location) method.render
              return some (received setting.policy method callee result) := by
  rw [inline]
  congr 1
  cases setting.body? method with
  | none => rfl
  | some callee =>
    dsimp only
    congr 3
    funext S
    have hget : (get : ScopeM Scope) S = .ok S S := rfl
    rw [Inliner.bind_of_ok hget]
    change _ = EStateM.bind (attempt _ _ _ _) _ S
    rw [EStateM.bind, attempt]
    split <;> rfl

namespace StackM

variable {good : List MethodRef → Prop} {setting : Setting}

/-- No work is stopped that may nest so many attempts at this height of the stack. -/
def Ample (setting : Setting) (fuel : Nat) (stack : List MethodRef) : Prop :=
  0 < fuel ∧ setting.config.depth + 1 < fuel + stack.length

/-- A good stack stays one when a method is pushed that may be inlined. -/
def Admits (setting : Setting) (good : List MethodRef → Prop) : Prop :=
  ∀ {stack : List MethodRef} {method : MethodRef}, good stack →
    stack.length ≤ setting.config.depth → method ∉ stack → good (method :: stack)

/-- Inlining with a stack follows inlining with the levels that remain above the stack. -/
lemma follows_tryInline (hgood : Admits setting good) (location fuel : Nat)
    {stack : List MethodRef} (hstack : good stack) (method : MethodRef) (args : List Expr) :
    Follows good (Ample setting fuel stack) stack _
      (Pass.inline setting location (setting.config.depth + 1 - stack.length) stack method args)
      (tryInline setting location fuel method args) := by
  induction fuel generalizing stack method args with
  | zero => exact .stopped fun h => Nat.lt_irrefl 0 h.1
  | succ fuel ih =>
    have htried : (Mark.tried stack method).Fits good := hstack
    rw [tryInline]
    refine .theStack (.mark htried ?_)
    by_cases hdepth : setting.config.depth < stack.length
    · -- no level remains
      have hzero : setting.config.depth + 1 - stack.length = 0 := by omega
      rw [hzero, if_pos (by simp [hdepth])]
      exact .pure none
    have hsucc : setting.config.depth + 1 - stack.length =
        setting.config.depth + 1 - (method :: stack).length + 1 := by
      rw [List.length_cons]
      omega
    rw [hsucc, decide_eq_false hdepth, Bool.or_false, Pass.inline_succ]
    refine .ite (fun _ => .pure none) fun hactive => ?_
    have hmethod : method ∉ stack := by simp_all
    cases setting.body? method with
    | none => exact .pure none
    | some callee =>
      refine .ite (fun _ => .ofScope _) fun _ => .ite (fun _ => .ofScope _) fun _ =>
        .ite (fun _ => .ofScope _) fun _ => .bind (.pushing (follows_attempt ?_ _ _ _)) fun r => ?_
      · -- one attempt less may be nested, but the stack is higher by one
        refine related_walker fun method' args' =>
          (ih (hgood hstack (by omega) hmethod) method' args').mono fun hample => ?_
        rw [Ample] at hample
        rw [Ample, List.length_cons]
        omega
      · cases r with
        | none => exact .pure none
        | some result =>
          have hinlined : (Mark.inlined stack method).Fits good := hmethod
          exact .mark hinlined (.bind (.ofScope _) fun _ => .pure _)

/-- The walk over a top-level statement follows the one with the levels that remain. -/
lemma related_topLevel (hgood : Admits setting good) (fuel location : Nat)
    {stack : List MethodRef} (hstack : good stack) :
    Walker.StmtRelated (Follows good (Ample setting fuel stack) stack)
      ⟨setting.policy.isFactory,
        Pass.inline setting location (setting.config.depth + 1 - stack.length) stack⟩
      (topLevel setting fuel location) :=
  related_walker (follows_tryInline hgood location fuel hstack)

/-- The walk with any stack. -/
lemma related_anyStack (setting : Setting) (fuel location : Nat) (stack : List MethodRef) :
    Walker.StmtRelated (Follows (fun _ => True) (Ample setting fuel stack) stack)
      ⟨setting.policy.isFactory,
        Pass.inline setting location (setting.config.depth + 1 - stack.length) stack⟩
      (topLevel setting fuel location) :=
  related_topLevel (fun _ _ _ => trivial) fuel location trivial

/-- The statements of a method are simplified alike. -/
lemma follows_topStmts (hgood : Admits setting good) (fuel : Nat) {method : MethodRef}
    (hroot : good [method]) (location : Nat) (stmts : List Stmt) :
    Follows good (Ample setting fuel [method]) [method] _
      (Pass.topStmts setting method location stmts) (topStmts setting fuel location stmts) := by
  induction stmts generalizing location with
  | nil => exact .pure ()
  | cons s rest ih =>
    exact .bind ((related_topLevel hgood fuel location hroot).stmt s) fun _ => ih (location + 1)

/-- The stack does not matter to the outcome. -/
lemma simplify_of_collect {fuel : Nat} {body : MethodBody} {log : EventLog} {st : Stacked}
    {marks : List Mark} (hst : st = ⟨Scope.root body.method body.vars
      (log ++ Pass.openingEvents setting.config body), [body.method], []⟩)
    (h : collect (topStmts setting fuel 0 body.stmts) st = some (st.ended marks
      (ScopeM.collect (Pass.topStmts setting body.method 0 body.stmts) st.scope))) :
    simplify setting fuel body log = some (Inliner.simplify setting body log, marks) := by
  subst hst
  rw [simplify, Inliner.simplify]
  dsimp only
  rw [h, ScopeM.collect]
  split <;> rename_i hrun <;> rw [hrun] <;> rfl

/-- Work that follows something else and is not stopped keeps the stack. -/
lemma keepsStack_of_follows {A : Type} {x : StackM A} {act : List MethodRef → ScopeM A}
    {ample : List MethodRef → Prop} (hample : ∀ stack, ample stack)
    (h : ∀ stack, Follows (fun _ => True) (ample stack) stack A (act stack) x) : KeepsStack x := by
  intro st
  rcases h st.stack st rfl with ⟨-, hnot⟩ | ⟨marks, -, hx⟩
  · exact absurd (hample st.stack) hnot
  · exact ⟨_, _, hx, st.stack_ended marks _⟩

end StackM

/-- The methods on the stack are distinct, at most one more than the depth allows to be nested, with
`root` at the bottom. -/
structure Setting.IsStack (setting : Setting) (root : MethodRef) (stack : List MethodRef) :
    Prop where
  nodup : stack.Nodup
  getLast?_eq : stack.getLast? = some root
  length_le : stack.length ≤ setting.config.depth + 1

namespace Setting.IsStack

variable {setting : Setting} {root : MethodRef}

/-- The method that is simplified is the lowest one. -/
lemma singleton (setting : Setting) (root : MethodRef) : setting.IsStack root [root] :=
  ⟨List.nodup_singleton root, rfl, Nat.le_add_left 1 _⟩

/-- A method may be pushed if it is not on the stack, and there is a level left. -/
lemma cons {stack : List MethodRef} {method : MethodRef} (h : setting.IsStack root stack)
    (hlength : stack.length ≤ setting.config.depth) (hmethod : method ∉ stack) :
    setting.IsStack root (method :: stack) where
  nodup := List.nodup_cons.2 ⟨hmethod, h.nodup⟩
  getLast?_eq := by rw [List.getLast?_cons, h.getLast?_eq]; rfl
  length_le := Nat.succ_le_succ hlength

end Setting.IsStack

/-- With a stack, every body is simplified in every setting, whatever the methods there call: it is
enough that two attempts more may be nested than the depth allows callees to be. The outcome is that
of `simplify`. At each attempt the methods on the stack are distinct, not more than the depth
allows, and the lowest one is the method that is simplified; no method is inlined that is on the
stack. The walks over expressions and statements and the inlining of a call come to an end from
every state, and leave the stack as they found it. -/
theorem simplify_with_stack {setting : Setting} {fuel : Nat}
    (hfuel : setting.config.depth + 1 < fuel) :
    (∀ (body : MethodBody) (log : EventLog), ∃ marks,
      StackM.simplify setting fuel body log = some (simplify setting body log, marks) ∧
      (∀ stack method, .tried stack method ∈ marks → setting.IsStack body.method stack) ∧
      ∀ stack method, .inlined stack method ∈ marks → method ∉ stack) ∧
    ∀ location, (∀ e, ((StackM.topLevel setting fuel location).expr e).KeepsStack) ∧
      (∀ s, ((StackM.topLevel setting fuel location).stmt s).KeepsStack) ∧
      ∀ method args, (StackM.tryInline setting location fuel method args).KeepsStack := by
  have hample (stack : List MethodRef) : StackM.Ample setting fuel stack := ⟨by omega, by omega⟩
  refine ⟨fun body log => ?_, fun location => ?_⟩
  · have hfollows := StackM.follows_collect (StackM.follows_topStmts Setting.IsStack.cons fuel
      (Setting.IsStack.singleton setting body.method) 0 body.stmts)
    let root := Scope.root body.method body.vars (log ++ Pass.openingEvents setting.config body)
    rcases hfollows ⟨root, [body.method], []⟩ rfl with ⟨-, hnot⟩ | ⟨marks, hmarks, hcollect⟩
    · exact absurd (hample [body.method]) hnot
    · exact ⟨marks, StackM.simplify_of_collect rfl hcollect,
        fun stack method => hmarks (.tried stack method),
        fun stack method => hmarks (.inlined stack method)⟩
  · have hwalk := StackM.related_anyStack setting fuel location
    exact ⟨fun e => StackM.keepsStack_of_follows hample fun stack => (hwalk stack).expr e,
      fun s => StackM.keepsStack_of_follows hample fun stack => (hwalk stack).stmt s,
      fun method args => StackM.keepsStack_of_follows hample fun stack =>
        (hwalk stack).inline method args⟩

/-! ## Methods that call each other -/

/-- One of two methods that call each other. -/
def pingRef : MethodRef :=
  ⟨⟨"lib", "Game", false⟩, "ping", 1, true⟩

/-- The other one. -/
def pongRef : MethodRef :=
  ⟨⟨"lib", "Game", false⟩, "pong", 1, true⟩

/-- A method that calls `ping`, which calls `pong`, which calls `ping`: `return ping(ping(n))`. -/
def pingCaller : MethodBody :=
  ⟨⟨⟨"lib", "Game", false⟩, "play", 1, true⟩, false, VarTable.empty.declareArgument "n" intType,
    [.ret (some (.call pingRef [.call pingRef [.readVar ⟨0⟩]]))]⟩

/-- The setting in which `ping` returns what `pong` does, and the other way round. -/
def pingSetting : Setting where
  body? method :=
    if method = pingRef ∨ method = pongRef then
      some ⟨method, false, VarTable.empty.declareArgument "n" intType,
        [.ret (some (.call (if method = pingRef then pongRef else pingRef) [.readVar ⟨0⟩]))]⟩
    else none
  policy := .permissive false [] [] []
  config := {}

/-- Each call of `ping` is inlined, and the call of `pong` in it, but not the call of `ping` there.
-/
theorem simplify_pingCaller_with_stack :
    pingSetting.config.depth + 1 < 6 ∧
      ∃ marks, StackM.simplify pingSetting 6 pingCaller [] =
          some (simplify pingSetting pingCaller [], marks) ∧
        (∀ stack method, .tried stack method ∈ marks →
          pingSetting.IsStack pingCaller.method stack) ∧
        (∀ stack method, .inlined stack method ∈ marks → method ∉ stack) ∧
        marks = (List.replicate 2 [.tried [pingCaller.method] pingRef,
          .tried [pingRef, pingCaller.method] pongRef,
          .tried [pongRef, pingRef, pingCaller.method] pingRef,
          .inlined [pingRef, pingCaller.method] pongRef,
          .inlined [pingCaller.method] pingRef]).flatten := by
  have hfuel : pingSetting.config.depth + 1 < 6 := by decide
  have hmarks : (StackM.simplify pingSetting 6 pingCaller []).map (fun p => p.2) =
      some (List.replicate 2 [.tried [pingCaller.method] pingRef,
        .tried [pingRef, pingCaller.method] pongRef,
        .tried [pongRef, pingRef, pingCaller.method] pingRef,
        .inlined [pingRef, pingCaller.method] pongRef,
        .inlined [pingCaller.method] pingRef]).flatten := by
    decide +kernel
  obtain ⟨marks, hsimplify, htried, hinlined⟩ := (simplify_with_stack hfuel).1 pingCaller []
  rw [hsimplify] at hmarks
  exact ⟨hfuel, marks, hsimplify, htried, hinlined, Option.some.inj hmarks⟩

end Inliner
