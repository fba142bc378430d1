import Inliner.Substitution
import Inliner.Proofs.EffectOrder
import Inliner.Proofs.Replacement

/-!
# What the substitution walk does

The walk through the expression that a callee returns builds the expression with the parameters
replaced (`Expr.subst`), and leads the tracker from one state to another. This file describes both
without the monad: `expr_strict`, `expr_logical` and `expr_conditional` take a successful walk apart
along the nodes, and `Progress` collects what can happen to the tracker on the way. Arguments go
from pending to placed and never back, and an argument that is placed later commutes with everything
that the callee had done before.
-/

namespace Inliner

/-! ## Taking a walk apart -/

namespace Substitution

variable {vars : VarTable} {args : List Expr} {st st' : State} {u : Bool}

/-- A successful composition of walks is a walk after a walk. -/
lemma bind_eq_ok {A B : Type} {x : Walk A} {f : A → Walk B} {b : B}
    (h : (x >>= f) st = .ok (b, st')) :
    ∃ a st₁, x st = .ok (a, st₁) ∧ f a st₁ = .ok (b, st') := by
  change (x st >>= fun p => f p.1 p.2) = _ at h
  cases hx : x st with
  | error fault =>
    rw [hx] at h
    cases h
  | ok p =>
    rw [hx] at h
    exact ⟨p.1, p.2, rfl, h⟩

/-- The own work of a node is added to what was done, and the tracker does not hear of it. -/
lemma own_eq_ok {e e' : Expr} (h : own vars e st = .ok (e', st')) :
    e' = e ∧ ∃ E, Effects.ofSteps vars.frame (e.ownSteps vars) = .ok E ∧
      st' = { st with done := st.done.absorb E } := by
  obtain ⟨E, st₁, hE, h⟩ := bind_eq_ok h
  cases hE' : Effects.ofSteps vars.frame (e.ownSteps vars) with
  | error fault =>
    rw [hE'] at hE
    cases hE
  | ok E' =>
    rw [hE'] at hE
    cases hE
    cases h
    exact ⟨rfl, E, rfl, rfl⟩

/-- An occurrence of a parameter is replaced by the argument of the same position. -/
lemma argument_eq_ok {id : VarId} {e' : Expr} (h : argument args id u st = .ok (e', st')) :
    ∃ i, st.tracker.position? id = some i ∧ args[i]? = some e' ∧
      st' = { st with tracker := st.tracker.visit i st.done u } := by
  unfold argument at h
  obtain ⟨st₁, st₂, hget, h⟩ := bind_eq_ok h
  cases hget
  cases hi : st.tracker.position? id with
  | none =>
    rw [hi] at h
    cases h
  | some i =>
    rw [hi] at h
    obtain ⟨⟨⟩, st₃, hmodify, h⟩ := bind_eq_ok h
    cases hmodify
    cases ha : args[i]? with
    | none =>
      simp only [ha] at h
      cases h
    | some a =>
      simp only [ha] at h
      cases h
      exact ⟨i, rfl, ha, rfl⟩

/-- A walk through several expressions walks through one after the other. -/
lemma exprs_cons_eq_ok {e : Expr} {rest es' : List Expr}
    (h : exprs vars args (e :: rest) u st = .ok (es', st')) :
    ∃ e' rest' st₁, expr vars args e u st = .ok (e', st₁) ∧
      exprs vars args rest u st₁ = .ok (rest', st') ∧ es' = e' :: rest' := by
  rw [exprs] at h
  obtain ⟨e', st₁, he, h⟩ := bind_eq_ok h
  obtain ⟨rest', st₂, hrest, h⟩ := bind_eq_ok h
  cases h
  exact ⟨e', rest', st₁, he, hrest, rfl⟩

/-- At a strict node that neither reads nor points at a variable, the parts are walked through from
left to right, and then the operation is accounted for. -/
lemma expr_eq_of_strict {e : Expr} (he : e.isStrict = true) (hread : e.variableRead? = none)
    (haddress : ∀ id, e ≠ .addressOf (.var id)) :
    expr vars args e u = exprs vars args e.parts u >>= fun es => own vars (e.withParts es) := by
  cases e with
  | read c =>
    cases c with
    | var id => cases hread
    | _ => simp [expr, cell, exprs, Expr.parts, Cell.parts, Expr.withParts, Cell.withParts]
  | addressOf c =>
    cases c with
    | var id => exact absurd rfl (haddress id)
    | _ => simp [expr, cell, exprs, Expr.parts, Cell.parts, Expr.withParts, Cell.withParts]
  | logical op left right => cases he
  | conditional cond onTrue onFalse => cases he
  | _ => simp [expr, exprs, Expr.parts, Expr.withParts]

/-- A walk through a strict node that reads no variable walks through the parts, from left to right,
and then accounts for the operation. -/
lemma expr_strict {e e' : Expr} (he : e.isStrict = true) (hread : e.variableRead? = none)
    (h : expr vars args e u st = .ok (e', st')) :
    ∃ es st₁ E, exprs vars args e.parts u st = .ok (es, st₁) ∧ e' = e.withParts es ∧
      Effects.ofSteps vars.frame (e'.ownSteps vars) = .ok E ∧
      st' = { st₁ with done := st₁.done.absorb E } := by
  by_cases haddress : ∃ id, e = .addressOf (.var id)
  · -- the address of a parameter is refused
    obtain ⟨id, rfl⟩ := haddress
    rw [expr, cell] at h
    obtain ⟨c, st₁, hc, -⟩ := bind_eq_ok h
    cases hc
  · rw [expr_eq_of_strict he hread fun id hid => haddress ⟨id, hid⟩] at h
    obtain ⟨es, st₁, hes, h⟩ := bind_eq_ok h
    obtain ⟨rfl, E, hE, rfl⟩ := own_eq_ok h
    exact ⟨es, st₁, E, hes, rfl, hE, rfl⟩

/-- A walk through a short-circuit operation: the right operand is not evaluated on every path. -/
lemma expr_logical {op : LogicalOp} {left right e' : Expr}
    (h : expr vars args (.logical op left right) u st = .ok (e', st')) :
    ∃ left' right' st₁ st₂ E, expr vars args left u st = .ok (left', st₁) ∧
      expr vars args right false st₁ = .ok (right', st₂) ∧ e' = .logical op left' right' ∧
      Effects.ofSteps vars.frame (e'.ownSteps vars) = .ok E ∧
      st' = { st₂ with done := st₂.done.absorb E } := by
  rw [expr] at h
  obtain ⟨left', st₁, hl, h⟩ := bind_eq_ok h
  obtain ⟨right', st₂, hr, h⟩ := bind_eq_ok h
  obtain ⟨rfl, E, hE, rfl⟩ := own_eq_ok h
  exact ⟨left', right', st₁, st₂, E, hl, hr, rfl, hE, rfl⟩

/-- A walk through a conditional: neither arm is evaluated on every path. -/
lemma expr_conditional {cond onTrue onFalse e' : Expr}
    (h : expr vars args (.conditional cond onTrue onFalse) u st = .ok (e', st')) :
    ∃ cond' onTrue' onFalse' st₁ st₂ st₃ E, expr vars args cond u st = .ok (cond', st₁) ∧
      expr vars args onTrue false st₁ = .ok (onTrue', st₂) ∧
      expr vars args onFalse false st₂ = .ok (onFalse', st₃) ∧
      e' = .conditional cond' onTrue' onFalse' ∧
      Effects.ofSteps vars.frame (e'.ownSteps vars) = .ok E ∧
      st' = { st₃ with done := st₃.done.absorb E } := by
  rw [expr] at h
  obtain ⟨cond', st₁, hc, h⟩ := bind_eq_ok h
  obtain ⟨onTrue', st₂, ht, h⟩ := bind_eq_ok h
  obtain ⟨onFalse', st₃, hf, h⟩ := bind_eq_ok h
  obtain ⟨rfl, E, hE, rfl⟩ := own_eq_ok h
  exact ⟨cond', onTrue', onFalse', st₁, st₂, st₃, E, hc, ht, hf, rfl, hE, rfl⟩

/-- A relation that can be composed holds of a walk through several expressions, if it holds of the
walks through each. -/
lemma exprs_closed {R : State → State → Prop} (hrefl : ∀ st, R st st)
    (htrans : ∀ {st₁ st₂ st₃}, R st₁ st₂ → R st₂ st₃ → R st₁ st₃) {es es' : List Expr}
    (hes : ∀ e ∈ es, ∀ {st st' e'}, expr vars args e u st = .ok (e', st') → R st st')
    (h : exprs vars args es u st = .ok (es', st')) : R st st' := by
  induction es generalizing st es' with
  | nil =>
    rw [exprs] at h
    cases h
    exact hrefl _
  | cons e rest ih =>
    obtain ⟨e', rest', st₁, he, hrest, rfl⟩ := exprs_cons_eq_ok h
    refine htrans (hes e (by simp) he) ?_
    exact ih (fun a ha => hes a (by simp [ha])) hrest

/-- A relation that can be composed holds of a walk, if it holds of every occurrence of a parameter
and of the work of every node. -/
lemma expr_closed {R : State → State → Prop} (hrefl : ∀ st, R st st)
    (htrans : ∀ {st₁ st₂ st₃}, R st₁ st₂ → R st₂ st₃ → R st₁ st₃)
    (hown : ∀ st E, R st { st with done := st.done.absorb E })
    (hvisit : ∀ st i u', (u' = true → u = true) →
      R st { st with tracker := st.tracker.visit i st.done u' })
    {e e' : Expr} (h : expr vars args e u st = .ok (e', st')) : R st st' := by
  induction e using Expr.induct generalizing u st st' e' with
  | strict e he ih =>
    cases hread : e.variableRead? with
    | some v =>
      obtain rfl := Expr.eq_readVar hread
      rw [expr] at h
      obtain ⟨i, -, -, rfl⟩ := argument_eq_ok h
      exact hvisit st i u id
    | none =>
      obtain ⟨es, st₁, E, hes, -, -, rfl⟩ := expr_strict he hread h
      refine htrans (exprs_closed hrefl htrans (fun a ha => ?_) hes) (hown st₁ E)
      exact fun hwalk => ih a ha hvisit hwalk
  | logical op left right ihl ihr =>
    obtain ⟨left', right', st₁, st₂, E, hl, hr, -, -, rfl⟩ := expr_logical h
    refine htrans (htrans (ihl hvisit hl) (ihr ?_ hr)) (hown st₂ E)
    exact fun st i u' hu => hvisit st i u' fun hu' => by cases hu hu'
  | conditional cond onTrue onFalse ihc iht ihf =>
    obtain ⟨cond', onTrue', onFalse', st₁, st₂, st₃, E, hc, ht, hf, -, -, rfl⟩ :=
      expr_conditional h
    have harm : ∀ st i u', (u' = true → false = true) →
        R st { st with tracker := st.tracker.visit i st.done u' } :=
      fun st i u' hu => hvisit st i u' fun hu' => by cases hu hu'
    exact htrans (htrans (htrans (ihc hvisit hc) (iht harm ht)) (ihf harm hf)) (hown st₃ E)

end Substitution

/-! ## What happens to the tracker -/

/-- An occurrence of a parameter changes nothing but the states and the verdict. -/
lemma ArgumentTracker.visit_eq (t : ArgumentTracker) (i : Nat) (done : Effects) (u : Bool) :
    ∃ states failed, t.visit i done u = { t with states := states, failed := failed } := by
  unfold visit
  split
  · exact ⟨_, _, rfl⟩
  · split
    · exact ⟨_, _, rfl⟩
    · split <;> exact ⟨_, _, rfl⟩
    · exact ⟨_, _, rfl⟩

lemma ArgumentTracker.parameters_visit (t : ArgumentTracker) (i : Nat) (done : Effects) (u : Bool) :
    (t.visit i done u).parameters = t.parameters := by
  obtain ⟨states, failed, hvisit⟩ := t.visit_eq i done u
  rw [hvisit]

/-- An occurrence that violates no condition is one of a free argument, which changes nothing, or
the first one of a pending argument, on every path, in order, and commuting with what was done
before. -/
lemma ArgumentTracker.visit_cases {t : ArgumentTracker} {i : Nat} {done : Effects} {u : Bool}
    (h : (t.visit i done u).failed = false) :
    (t.failed = false ∧ t.states[i]? = some .free ∧ t.visit i done u = t) ∨
    (t.failed = false ∧ t.states[i]? = some .pending ∧ u = true ∧ t.inOrder i = true ∧
      (∃ E, t.effects[i]? = some E ∧ Domain.commutes done E = true) ∧
      t.visit i done u = { t with states := t.states.set i .placed }) := by
  unfold visit at h ⊢
  split at h
  · rename_i hfailed
    rw [hfailed] at h
    cases h
  · rename_i hfailed
    have hok : t.failed = false := by simpa using hfailed
    split at h
    · rename_i hfree
      exact .inl ⟨hok, hfree, by simp [hok]⟩
    · rename_i E hpending hE
      split at h
      · rename_i hall
        rw [Bool.and_eq_true, Bool.and_eq_true, movable_iff] at hall
        obtain ⟨⟨hu, horder⟩, hcomm⟩ := hall
        refine .inr ⟨hok, hpending, hu, horder, ⟨E, hE, hcomm⟩, ?_⟩
        simp [hok, hu, horder, (movable_iff done E).2 hcomm]
      · cases h
    · cases h

namespace Substitution

/-- What a walk without violation does to the state. -/
structure Progress (st st' : State) : Prop where
  parameters : st'.tracker.parameters = st.tracker.parameters
  effects : st'.tracker.effects = st.tracker.effects
  ok : st.tracker.failed = false
  done : st.done.Within st'.done
  /-- Only a pending argument changes its state. -/
  kept : ∀ i : Nat, st.tracker.states[i]? ≠ some .pending →
    st'.tracker.states[i]? = st.tracker.states[i]?
  /-- A pending argument stays pending or is placed, and then commutes with all that was done before
  the walk. -/
  pending : ∀ i : Nat, st.tracker.states[i]? = some .pending →
    st'.tracker.states[i]? = some .pending ∨ st'.tracker.states[i]? = some .placed ∧
      ∃ E, st.tracker.effects[i]? = some E ∧ Domain.commutes st.done E = true

namespace Progress

variable {st st₁ st₂ : State}

lemma refl (h : st.tracker.failed = false) : Progress st st :=
  ⟨rfl, rfl, h, .refl _, fun _ _ => rfl, fun _ hi => .inl hi⟩

lemma trans (h : Progress st st₁) (h' : Progress st₁ st₂) : Progress st st₂ := by
  refine ⟨h'.parameters.trans h.parameters, h'.effects.trans h.effects, h.ok, h.done.trans h'.done,
    fun i hi => ?_, fun i hi => ?_⟩
  · have hkept := h.kept i hi
    rw [h'.kept i (hkept ▸ hi), hkept]
  · rcases h.pending i hi with hpending | ⟨hplaced, E, hE, hcomm⟩
    · rcases h'.pending i hpending with hpending' | ⟨hplaced, E, hE, hcomm⟩
      · exact .inl hpending'
      · exact .inr ⟨hplaced, E, h.effects ▸ hE, h.done.commutes hcomm⟩
    · exact .inr ⟨(h'.kept i (by rw [hplaced]; decide)).trans hplaced, E, hE, hcomm⟩

/-- The positions of parameters do not change. -/
lemma position? (h : Progress st st₁) (id : VarId) :
    st₁.tracker.position? id = st.tracker.position? id := by
  unfold ArgumentTracker.position?
  rw [h.parameters]

/-- No argument appears or disappears. -/
lemma length_states (h : Progress st st₁) :
    st₁.tracker.states.length = st.tracker.states.length := by
  have hnone : ∀ i : Nat, st₁.tracker.states[i]? = none ↔ st.tracker.states[i]? = none := by
    intro i
    by_cases hi : st.tracker.states[i]? = some .pending
    · rcases h.pending i hi with h | ⟨h, -⟩ <;> simp [h, hi]
    · rw [h.kept i hi]
  simp only [List.getElem?_eq_none_iff] at hnone
  have h₁ := (hnone st₁.tracker.states.length).1 le_rfl
  have h₂ := (hnone st.tracker.states.length).2 le_rfl
  omega

/-- An occurrence of a parameter. -/
lemma visit {i : Nat} {u : Bool} (h : (st.tracker.visit i st.done u).failed = false) :
    Progress st { st with tracker := st.tracker.visit i st.done u } := by
  rcases ArgumentTracker.visit_cases h with ⟨hok, -, heq⟩ | ⟨hok, hpending, -, -, ⟨E, hE, hcomm⟩, heq⟩
  · rw [heq]
    exact .refl hok
  · rw [heq]
    refine ⟨rfl, rfl, hok, .refl _, fun j hj => ?_, fun j hj => ?_⟩
    · have hne : i ≠ j := by
        rintro rfl
        exact hj hpending
      exact List.getElem?_set_ne hne
    · by_cases hij : i = j
      · subst hij
        refine .inr ⟨?_, E, hE, hcomm⟩
        have hlt := (List.getElem?_eq_some_iff.1 hpending).1
        exact List.getElem?_set_self hlt
      · exact .inl ((List.getElem?_set_ne hij).trans hj)

end Progress

variable {vars : VarTable} {args : List Expr} {st st' : State} {u : Bool} {e e' : Expr}

/-- The work of a node is progress. -/
lemma progress_own (E : Effects) (hok : st.tracker.failed = false) :
    Progress st { st with done := st.done.absorb E } :=
  ⟨rfl, rfl, hok, (Effects.Within.absorb_iff.1 (.refl _)).1, fun _ _ => rfl, fun _ hi => .inl hi⟩

/-- Every walk without violation makes progress. -/
lemma progress_expr (h : expr vars args e u st = .ok (e', st')) (hok : st'.tracker.failed = false) :
    Progress st st' := by
  refine expr_closed (R := fun st st' => st'.tracker.failed = false → Progress st st')
    (fun st hok => .refl hok) (fun h₁ h₂ hok => ?_) (fun st E hok => ?_) (fun st i u' _ hok => ?_) h hok
  · exact (h₁ (h₂ hok).ok).trans (h₂ hok)
  · exact progress_own E hok
  · exact .visit hok

/-- Every walk through several expressions without violation makes progress. -/
lemma progress_exprs {es es' : List Expr} (h : exprs vars args es u st = .ok (es', st'))
    (hok : st'.tracker.failed = false) : Progress st st' := by
  refine exprs_closed (R := fun st st' => st'.tracker.failed = false → Progress st st')
    (fun st hok => .refl hok) (fun h₁ h₂ hok => ?_) (fun e _ _ _ _ h hok => progress_expr h hok) h hok
  exact (h₁ (h₂ hok).ok).trans (h₂ hok)

/-- Under a condition no argument is placed. -/
lemma states_of_conditional (h : expr vars args e false st = .ok (e', st'))
    (hok : st'.tracker.failed = false) : st'.tracker.states = st.tracker.states := by
  refine (expr_closed (R := fun st st' => st'.tracker.failed = false →
    st.tracker.failed = false ∧ st'.tracker.states = st.tracker.states)
    (fun st hok => ⟨hok, rfl⟩) (fun h₁ h₂ hok => ?_) (fun st E hok => ⟨hok, rfl⟩)
    (fun st i u' hu hok => ?_) h hok).2
  · obtain ⟨hok₂, heq₂⟩ := h₂ hok
    obtain ⟨hok₁, heq₁⟩ := h₁ hok₂
    exact ⟨hok₁, heq₂.trans heq₁⟩
  · rcases ArgumentTracker.visit_cases hok with ⟨hok, -, heq⟩ | ⟨-, -, hu', -⟩
    · exact ⟨hok, by rw [heq]⟩
    · cases hu hu'

/-! ## What the walk builds -/

/-- What takes the place of a variable: the argument at its position, if it has one. -/
def replacement (pos : VarId → Option Nat) (args : List Expr) (id : VarId) : Expr :=
  ((pos id).bind fun i => args[i]?).getD (.readVar id)

variable {pos : VarId → Option Nat}

/-- The walk builds the expressions with the parameters replaced, if it does so for each. -/
lemma exprs_eq_map {es es' : List Expr} (hes : ∀ e ∈ es, ∀ {st st' e'},
      (∀ id, st.tracker.position? id = pos id) → expr vars args e u st = .ok (e', st') →
      st'.tracker.failed = false → e' = e.subst (replacement pos args))
    (hpos : ∀ id, st.tracker.position? id = pos id)
    (h : exprs vars args es u st = .ok (es', st')) (hok : st'.tracker.failed = false) :
    es' = es.map (Expr.subst (replacement pos args)) := by
  induction es generalizing st es' with
  | nil =>
    rw [exprs] at h
    cases h
    rfl
  | cons e rest ih =>
    obtain ⟨e', rest', st₁, he, hrest, rfl⟩ := exprs_cons_eq_ok h
    have hprogress := progress_exprs hrest hok
    have hpos₁ : ∀ id, st₁.tracker.position? id = pos id := fun id =>
      ((progress_expr he hprogress.ok).position? id).trans (hpos id)
    rw [List.map_cons, hes e (by simp) hpos he hprogress.ok,
      ih (fun a ha => hes a (by simp [ha])) hpos₁ hrest]

/-- The walk builds the expression with the parameters replaced. -/
lemma expr_eq_subst (hpos : ∀ id, st.tracker.position? id = pos id)
    (h : expr vars args e u st = .ok (e', st')) (hok : st'.tracker.failed = false) :
    e' = e.subst (replacement pos args) := by
  induction e using Expr.induct generalizing u st st' e' with
  | strict e he ih =>
    cases hread : e.variableRead? with
    | some v =>
      obtain rfl := Expr.eq_readVar hread
      rw [expr] at h
      obtain ⟨i, hi, ha, -⟩ := argument_eq_ok h
      rw [hpos] at hi
      simp [Expr.subst, replacement, hi, ha]
    | none =>
      obtain ⟨es, st₁, E, hes, rfl, -, rfl⟩ := expr_strict he hread h
      rw [Expr.subst_eq_withParts hread,
        exprs_eq_map (fun a ha _ _ _ hpos hwalk hok => ih a ha hpos hwalk hok) hpos hes hok]
  | logical op left right ihl ihr =>
    obtain ⟨left', right', st₁, st₂, E, hl, hr, rfl, -, rfl⟩ := expr_logical h
    have hright := progress_expr hr hok
    have hleft := progress_expr hl hright.ok
    rw [Expr.subst, ihl hpos hl hright.ok,
      ihr (fun id => (hleft.position? id).trans (hpos id)) hr hok]
  | conditional cond onTrue onFalse ihc iht ihf =>
    obtain ⟨cond', onTrue', onFalse', st₁, st₂, st₃, E, hc, ht, hf, rfl, -, rfl⟩ :=
      expr_conditional h
    have hfalse := progress_expr hf hok
    have htrue := progress_expr ht hfalse.ok
    have hcond := progress_expr hc htrue.ok
    have hpos₁ : ∀ id, st₁.tracker.position? id = pos id := fun id =>
      (hcond.position? id).trans (hpos id)
    have hpos₂ : ∀ id, st₂.tracker.position? id = pos id := fun id =>
      (htrue.position? id).trans (hpos₁ id)
    rw [Expr.subst, ihc hpos hc htrue.ok, iht hpos₁ ht hfalse.ok, ihf hpos₂ hf hok]

/-! ## Occurrences of parameters -/

/-- A walk through several expressions contains one through each. -/
lemma exists_walk_of_mem {es es' : List Expr} (h : exprs vars args es u st = .ok (es', st'))
    (hok : st'.tracker.failed = false) {a : Expr} (ha : a ∈ es) :
    ∃ a' st₁ st₂, expr vars args a u st₁ = .ok (a', st₂) ∧ Progress st st₁ ∧ Progress st₂ st' := by
  induction es generalizing st es' with
  | nil => cases ha
  | cons e rest ih =>
    obtain ⟨e', rest', st₁, he, hrest, rfl⟩ := exprs_cons_eq_ok h
    have hprogress := progress_exprs hrest hok
    have hfirst := progress_expr he hprogress.ok
    rcases List.mem_cons.1 ha with rfl | ha
    · exact ⟨e', st, st₁, he, .refl hfirst.ok, hprogress⟩
    · obtain ⟨a', st₂, st₃, hwalk, hbefore, hafter⟩ := ih hrest ha
      exact ⟨a', st₂, st₃, hwalk, hfirst.trans hbefore, hafter⟩

/-- A walk through a node contains one through each of its parts. -/
lemma exists_walk_of_part (h : expr vars args e u st = .ok (e', st'))
    (hok : st'.tracker.failed = false) {a : Expr} (ha : a ∈ e.parts) :
    ∃ u' a' st₁ st₂, expr vars args a u' st₁ = .ok (a', st₂) ∧ Progress st st₁ ∧
      Progress st₂ st' := by
  cases hstrict : e.isStrict with
  | true =>
    cases hread : e.variableRead? with
    | some v =>
      obtain rfl := Expr.eq_readVar hread
      cases ha
    | none =>
      obtain ⟨es, st₁, E, hes, -, -, rfl⟩ := expr_strict hstrict hread h
      obtain ⟨a', st₂, st₃, hwalk, hbefore, hafter⟩ := exists_walk_of_mem hes hok ha
      exact ⟨u, a', st₂, st₃, hwalk, hbefore, hafter.trans (progress_own E hok)⟩
  | false =>
    cases e with
    | logical op left right =>
      obtain ⟨left', right', st₁, st₂, E, hl, hr, -, -, rfl⟩ := expr_logical h
      have hright := progress_expr hr hok
      have hleft := progress_expr hl hright.ok
      rcases List.mem_pair.1 ha with rfl | rfl
      · exact ⟨u, left', st, st₁, hl, .refl hleft.ok, hright.trans (progress_own E hok)⟩
      · exact ⟨false, right', st₁, st₂, hr, hleft, progress_own E hok⟩
    | conditional cond onTrue onFalse =>
      obtain ⟨cond', onTrue', onFalse', st₁, st₂, st₃, E, hc, ht, hf, -, -, rfl⟩ :=
        expr_conditional h
      have hown : Progress st₃ _ := progress_own E hok
      have hfalse := progress_expr hf hok
      have htrue := progress_expr ht hfalse.ok
      have hcond := progress_expr hc htrue.ok
      simp only [Expr.parts, List.mem_cons, List.not_mem_nil, or_false] at ha
      rcases ha with rfl | rfl | rfl
      · exact ⟨u, cond', st, st₁, hc, .refl hcond.ok, htrue.trans (hfalse.trans hown)⟩
      · exact ⟨false, onTrue', st₁, st₂, ht, hcond, hfalse.trans hown⟩
      · exact ⟨false, onFalse', st₂, st₃, hf, hcond.trans htrue, hown⟩
    | _ => cases hstrict

/-- After the walk no parameter that was read has a pending argument. -/
lemma not_pending_of_isNodeOf (hpos : ∀ id, st.tracker.position? id = pos id)
    (h : expr vars args e u st = .ok (e', st')) (hok : st'.tracker.failed = false) {v : VarId}
    (hv : (Expr.readVar v).IsNodeOf e) :
    ∃ i, pos v = some i ∧ st'.tracker.states[i]? ≠ some .pending := by
  induction hv generalizing u st st' e' with
  | self =>
    rw [expr] at h
    obtain ⟨i, hi, -, rfl⟩ := argument_eq_ok h
    refine ⟨i, (hpos v).symm.trans hi, ?_⟩
    rcases ArgumentTracker.visit_cases hok with ⟨-, hfree, heq⟩ | ⟨-, hpending, -, -, -, heq⟩
    · simp [heq, hfree]
    · have hlt := (List.getElem?_eq_some_iff.1 hpending).1
      simp [heq, List.getElem?_set_self hlt]
  | part ha _ ih =>
    obtain ⟨u', a', st₁, st₂, hwalk, hbefore, hafter⟩ := exists_walk_of_part h hok ha
    obtain ⟨i, hi, hstate⟩ := ih (fun id => (hbefore.position? id).trans (hpos id)) hwalk hafter.ok
    exact ⟨i, hi, by rwa [hafter.kept i hstate]⟩

end Substitution

end Inliner
