import Inliner.Proofs.CallStack
import Inliner.Proofs.Logging

/-!
# Scopes that are left as they were

Two kinds of work leave a scope as it was, up to events that are added to the log. One is the walk
over an expression where no statement can be emitted: calls are inlined by substitution there, which
needs no storage. The other one is an attempt at inlining that is given up: the grounds for giving
up are looked at before anything is declared, bound or emitted.

The first is shown along the walk (`ScopeM.Silent`), the second from the cases of an attempt.
-/

namespace Inliner

/-- From the scope `S` to the scope `S'`, events were added to the log, and nothing else was
changed. -/
def Scope.LoggedTo (S S' : Scope) : Prop :=
  ∃ events, S' = S.withLog (S.log ++ events)

namespace Scope.LoggedTo

variable {S S₁ S₂ : Scope}

/-- Nothing is logged. -/
lemma refl (S : Scope) : S.LoggedTo S :=
  ⟨[], by rw [List.append_nil]; rfl⟩

/-- More is logged. -/
lemma trans (h : S.LoggedTo S₁) (h' : S₁.LoggedTo S₂) : S.LoggedTo S₂ := by
  obtain ⟨events, rfl⟩ := h
  obtain ⟨events', rfl⟩ := h'
  exact ⟨events ++ events', by rw [← List.append_assoc]; rfl⟩

/-- The buffer is not touched. -/
lemma buffer_eq (h : S.LoggedTo S₁) : S₁.buffer = S.buffer := by
  obtain ⟨events, rfl⟩ := h
  rfl

end Scope.LoggedTo

/-! ## The walk where no statement can be emitted -/

namespace ScopeM

/-- Where no statement can be emitted, the work does nothing but to log, also if it is at fault. -/
def Silent {A : Type} (act : ScopeM A) : Prop :=
  ∀ S : Scope, S.buffer = none → S.LoggedTo (final (act S))

namespace Silent

variable {A B : Type} {act : ScopeM A}

/-- A result without any work. -/
protected lemma pure (a : A) : Silent (pure a) :=
  fun S _ => .refl S

/-- One step after the other. -/
protected lemma bind {k : A → ScopeM B} (h : Silent act) (hk : ∀ a, Silent (k a)) :
    Silent (act >>= k) := by
  intro S hS
  have hact := h S hS
  cases hrun : act S with
  | error fault S₁ =>
    rw [hrun] at hact
    rw [bind_of_error hrun]
    exact hact
  | ok a S₁ =>
    rw [hrun] at hact
    rw [bind_of_ok hrun]
    exact hact.trans (hk a S₁ (hact.buffer_eq.trans hS))

/-- What is computed from the scope. -/
lemma look (f : Scope → Except Fault A) : Silent (ScopeM.look f) := by
  intro S _
  change S.LoggedTo (final (ofExcept (f S) S))
  cases f S <;> exact .refl S

/-- Work in a nested scope without a buffer. -/
lemma withoutStatements (h : Silent act) : Silent (ScopeM.withoutStatements act) := by
  intro S hS
  obtain ⟨events, hevents⟩ := h { S with buffer := none } rfl
  refine ⟨events, ?_⟩
  rw [ScopeM.withoutStatements, nested]
  cases hrun : act { S with buffer := none } <;> rw [hrun] at hevents <;> cases hevents <;> rfl

end Silent

end ScopeM

namespace Pass

/-- A refusal is logged, and nothing else is done. -/
lemma loggedTo_refuse (location : Nat) (method : MethodRef) (refusal : Refusal) (S : Scope) :
    S.LoggedTo (final (refuse location method refusal S)) :=
  ⟨_, rfl⟩

/-- Substitution changes nothing in the scope, wherever it is done. -/
lemma loggedTo_substitute (location : Nat) (callee : MethodBody) (args : List Expr) (S : Scope) :
    S.LoggedTo (final (substitute location callee args S)) := by
  rcases substitute_cases location callee args S with
    ⟨refusal, hrefuse⟩ | ⟨e, -, -, hsubstitute⟩
  · rw [hrefuse]
    exact loggedTo_refuse location callee.method refusal S
  · rw [hsubstitute]
    cases Substitution.inlined? S.vars callee.parameters args e with
    | error fault => exact .refl S
    | ok r =>
      cases r with
      | none => exact loggedTo_refuse location callee.method .immovableArguments S
      | some result => exact .refl S

/-- Where no statement can be emitted, a call is inlined by substitution. -/
lemma silent_attempt (calls : CallTreatment) (location : Nat) (callee : MethodBody)
    (args : List Expr) : (attempt calls location callee args).Silent := by
  intro S hS
  have hbuffer : S.hasBuffer = false := by rw [Scope.hasBuffer, hS]; rfl
  rw [attempt, hbuffer]
  exact loggedTo_substitute location callee args S

/-- Where no statement can be emitted, inlining leaves the scope alone. -/
lemma silent_inline (setting : Setting) (location depth : Nat) (active : List MethodRef)
    (method : MethodRef) (args : List Expr) :
    (inline setting location depth active method args).Silent := by
  cases depth with
  | zero => exact .pure none
  | succ depth =>
    intro S hS
    rcases inline_cases setting location depth active method args S with
      hnone | ⟨refusal, hrefuse⟩ | ⟨callee, -, -, hinline⟩
    · rw [hnone]
      exact .refl S
    · rw [hrefuse]
      exact loggedTo_refuse location method refusal S
    · rw [hinline]
      refine (silent_attempt _ location callee _).bind (fun r => ?_) S hS
      cases r with
      | none => exact .pure none
      | some result => exact .bind (fun S _ => ⟨_, rfl⟩) fun _ => .pure _

/-- The walk is silent if the treatment of calls is. -/
lemma silent_expr (calls : CallTreatment)
    (hcalls : ∀ method args, (calls.inline method args).Silent) (e : Expr) :
    (expr calls e).Silent :=
  have hwalk : Walker.Related (fun _ act _ => act.Silent) calls (.ofCalls calls) :=
    { pure := .pure
      bind := .bind
      look := fun f _ => .look f
      withoutStatements := .withoutStatements
      isFactory := rfl
      inline := hcalls }
  hwalk.expr e

/-! ## Attempts that are given up -/

variable {location : Nat} {S S' : Scope}

/-- Splicing is given up only if the callee can be left early, before anything is done. -/
lemma loggedTo_of_splice {calls : CallTreatment} {callee : MethodBody} {args : List Expr}
    (h : splice calls location callee args S = .ok none S') : S.LoggedTo S' := by
  cases hsplit : callee.splitReturn? with
  | none =>
    have hrefuse := loggedTo_refuse location callee.method .earlyReturn S
    rw [splice, hsplit] at h
    change refuse location callee.method .earlyReturn S = _ at h
    rwa [h] at hrefuse
  | some split =>
    rw [splice_look hsplit] at h
    obtain ⟨_, _, -, h⟩ := exists_of_bind_eq_ok h
    obtain ⟨_, _, -, h⟩ := exists_of_bind_eq_ok h
    obtain ⟨_, _, -, h⟩ := exists_of_bind_eq_ok h
    obtain ⟨_, _, -, h⟩ := exists_of_bind_eq_ok h
    obtain ⟨_, _, -, h⟩ := exists_of_bind_eq_ok h
    cases h

/-- An attempt that is given up leaves the scope alone. -/
lemma loggedTo_of_attempt {calls : CallTreatment} {callee : MethodBody} {args : List Expr}
    (h : attempt calls location callee args S = .ok none S') : S.LoggedTo S' := by
  rw [attempt] at h
  split at h
  · exact loggedTo_of_splice h
  · have hsubstitute := loggedTo_substitute location callee args S
    rwa [h] at hsubstitute

/-- A call that is not inlined leaves the scope as it was. -/
lemma loggedTo_of_inline {setting : Setting} {depth : Nat} {active : List MethodRef}
    {method : MethodRef} {args : List Expr}
    (h : inline setting location depth active method args S = .ok none S') : S.LoggedTo S' := by
  cases depth with
  | zero =>
    cases h
    exact .refl S
  | succ depth =>
    rcases inline_cases setting location depth active method args S with
      hnone | ⟨refusal, hrefuse⟩ | ⟨callee, -, -, hinline⟩
    · rw [hnone] at h
      cases h
      exact .refl S
    · have hlogged := loggedTo_refuse location method refusal S
      rwa [← hrefuse, h] at hlogged
    · rw [hinline] at h
      obtain ⟨r, S₁, hattempt, h⟩ := exists_of_bind_eq_ok h
      cases r with
      | none =>
        cases h
        exact loggedTo_of_attempt hattempt
      | some result => cases h

end Pass

/-- The walk over an expression where no statement can be emitted leaves the variables, the
bindings, the buffer and the effects as they were, also if it is at fault. An attempt at inlining
that is given up does so everywhere, and leaves the stack as it was if there is one. -/
theorem loggedTo_of_given_up (setting : Setting) (location : Nat) :
    (∀ depth active e (S : Scope), S.buffer = none → S.LoggedTo (final (Pass.expr
      ⟨setting.policy.isFactory, Pass.inline setting location depth active⟩ e S))) ∧
    (∀ depth active method args S S',
      Pass.inline setting location depth active method args S = .ok none S' → S.LoggedTo S') ∧
    ∀ fuel method args st st',
      StackM.tryInline setting location fuel method args st = some (.ok none, st') →
        st.scope.LoggedTo st'.scope ∧ st'.stack = st.stack := by
  refine ⟨fun depth active e =>
      Pass.silent_expr _ (Pass.silent_inline setting location depth active) e,
    fun depth active method args S S' => Pass.loggedTo_of_inline,
    fun fuel method args st st' h => ?_⟩
  have hfollows : Follows (fun _ => True) (StackM.Ample setting fuel st.stack) st.stack _
      (Pass.inline setting location (setting.config.depth + 1 - st.stack.length) st.stack method
        args)
      (StackM.tryInline setting location fuel method args) :=
    StackM.follows_tryInline (fun _ _ _ => trivial) location fuel trivial method args
  obtain ⟨marks, hended⟩ := hfollows.ended_of_some rfl h
  cases hinline : Pass.inline setting location (setting.config.depth + 1 - st.stack.length) st.stack
    method args st.scope with
  | ok r S' =>
    rw [hinline] at hended
    cases hended
    exact ⟨Pass.loggedTo_of_inline hinline, rfl⟩
  | error fault S' =>
    rw [hinline] at hended
    cases hended

/-! ## A callee that may return early -/

/-- A callee that returns its parameter unless it is zero: `if n then return n; return 1`. -/
def guardCallee : MethodBody :=
  ⟨⟨⟨"lib", "Guard", false⟩, "guard", 1, true⟩, false, VarTable.empty.declareArgument "n" intType,
    [.branch (.readVar ⟨0⟩) [.ret (some (.readVar ⟨0⟩))] [], .ret (some (.const (.int 1)))]⟩

/-- The setting in which only `guard` is known, and may be inlined. -/
def guardSetting : Setting where
  body? method := if method = guardCallee.method then some guardCallee else none
  policy := .permissive false [] [] []
  config := {}

/-- A scope of `twice` with a statement in its buffer, and `twice` on the stack. -/
def guardStacked : Stacked where
  scope :=
    { Scope.root tickCaller.method tickCaller.vars [] with
      buffer := some [.assign (.static totalField) (.readVar ⟨0⟩)] }
  stack := [tickCaller.method]
  marks := []

/-- A call of `guard` is not inlined, where statements can be emitted and where they cannot. Each
time the refusal is logged, and nothing else is changed. -/
theorem loggedTo_guardStacked :
    (∃ st', StackM.tryInline guardSetting 0 6 guardCallee.method [.readVar ⟨0⟩] guardStacked =
        some (.ok none, st') ∧
      guardStacked.scope.LoggedTo st'.scope ∧ st'.stack = guardStacked.stack ∧
      st'.scope.log.map (fun event => event.kind) = [.inlineRejected]) ∧
    ∃ S', Pass.expr ⟨guardSetting.policy.isFactory,
          Pass.inline guardSetting 0 4 [tickCaller.method]⟩
        (.call guardCallee.method [.readVar ⟨0⟩])
        (.root tickCaller.method tickCaller.vars []) =
          .ok (.call guardCallee.method [.readVar ⟨0⟩]) S' ∧
      (Scope.root tickCaller.method tickCaller.vars []).LoggedTo S' ∧
      S'.log.map (fun event => event.kind) = [.inlineRejected] := by
  obtain ⟨hexpr, -, htryInline⟩ := loggedTo_of_given_up guardSetting 0
  have hstacked : StackM.tryInline guardSetting 0 6 guardCallee.method [.readVar ⟨0⟩] guardStacked =
      some (.ok none, guardStacked.after (guardStacked.scope.logged .inlineRejected (some 0)
        (guardCallee.method.render ++ ": " ++ Pass.Refusal.earlyReturn.reason))
        [.tried guardStacked.stack guardCallee.method]) := rfl
  obtain ⟨hlogged, hstack⟩ := htryInline _ _ _ _ _ hstacked
  refine ⟨⟨_, hstacked, hlogged, hstack, rfl⟩, (Scope.root tickCaller.method tickCaller.vars
    []).logged .inlineRejected (some 0)
      (guardCallee.method.render ++ ": " ++ Pass.Refusal.notSingleReturn.reason), rfl, ?_, rfl⟩
  exact hexpr 4 [tickCaller.method] (.call guardCallee.method [.readVar ⟨0⟩]) _ rfl

end Inliner
