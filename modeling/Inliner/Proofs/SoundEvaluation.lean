import Inliner.Proofs.EffectOrder
import Inliner.Proofs.Evaluation

/-!
# Evaluation that respects effects

A meaning of expressions on the storage of a frame is *sound at* a node when the operation of the
node does no more than its own effects describe, and leaves alone every variable to which no pointer
exists. This is all that is asked of operations, calls included; in particular the meaning may
depend on the whole node.

Soundness at every node of an expression carries over to its evaluation: it respects the effects of
the expression (`respects_eval`) and leaves the same variables alone (`slot_eval`). The expressions
that count as values evaluate, without any effect, to something that depends on no other variables
(`eval_eq_of_isValue`).
-/

namespace Inliner

/-- The slot of a declared variable to which no pointer exists. -/
def VarTable.IsUnshared (vars : VarTable) (p : Slot) : Prop :=
  ∃ id v, vars.get? id = some v ∧ v.flags.addressTaken = false ∧ vars.slotOf id v = p

variable {V H X : Type}

namespace Evaluator

/-- The operation of the node does no more than the node's own effects describe, and leaves unshared
variables alone. -/
structure SoundAt (sem : Evaluator (Computation V H X) V) (vars : VarTable) (n : Expr) : Prop where
  respects : ∀ {E}, Effects.ofSteps vars.frame (n.ownSteps vars) = .ok E →
    ∀ vs, Respects E (sem.node n vs)
  keeps : ∀ {p}, vars.IsUnshared p → ∀ vs s, (final (sem.node n vs s)).slot p = s.slot p

/-- The operations of all nodes of an expression are sound. -/
def SoundOn (sem : Evaluator (Computation V H X) V) (vars : VarTable) (e : Expr) : Prop :=
  ∀ n, n.IsNodeOf e → sem.SoundAt vars n

variable {sem : Evaluator (Computation V H X) V} {vars : VarTable} {e : Expr}

/-- What is sound on an expression is sound on its parts. -/
lemma SoundOn.part (h : sem.SoundOn vars e) {a : Expr} (ha : a ∈ e.parts) : sem.SoundOn vars a :=
  fun n hn => h n (.part ha hn)

end Evaluator

/-! ## Evaluation -/

namespace Expr

variable {vars : VarTable}

/-- The steps of several expressions contain those of each. -/
lemma steps_subset_allSteps {es : List Expr} {a : Expr} (ha : a ∈ es) :
    a.steps vars ⊆ allSteps vars es := by
  induction es with
  | nil => cases ha
  | cons e rest ih =>
    rw [allSteps]
    rcases List.mem_cons.1 ha with rfl | ha
    · exact List.subset_append_left _ _
    · exact fun step hstep => List.mem_append_right _ (ih ha hstep)

/-- The operation of a node is among the steps of every expression it occurs in. -/
lemma ownSteps_subset {n e : Expr} (hn : n.IsNodeOf e) : n.ownSteps vars ⊆ e.steps vars := by
  induction hn with
  | self =>
    rw [steps_eq]
    exact List.subset_append_right _ _
  | part ha _ ih =>
    rw [steps_eq]
    exact fun step hstep => List.mem_append_left _ (steps_subset_allSteps ha (ih hstep))

/-- The nodes of an expression that has effects have effects, within those of the expression. -/
lemma exists_own_within {n e : Expr} {E : Effects} (hE : e.effects vars = .ok E)
    (hn : n.IsNodeOf e) :
    ∃ D, Effects.ofSteps vars.frame (n.ownSteps vars) = .ok D ∧ D.Within E := by
  have hsteps : ∀ step ∈ n.ownSteps vars, ∃ d, step = .ok d ∧ d.Within E :=
    fun step hstep => Effects.within_ofSteps hE (ownSteps_subset hn hstep)
  have hok : ∀ step ∈ n.ownSteps vars, ∃ d, step = .ok d :=
    fun step hstep => (hsteps step hstep).imp fun _ h => h.1
  obtain ⟨D, hD⟩ := Effects.exists_ofSteps (f := vars.frame) hok
  refine ⟨D, hD, Effects.ofSteps_within hD fun c hc => ?_⟩
  obtain ⟨d, hd, hwithin⟩ := hsteps _ hc
  cases hd
  exact hwithin

end Expr

namespace Evaluator

variable {sem : Evaluator (Computation V H X) V} {vars : VarTable} {e : Expr}

/-- The evaluation of an expression respects its effects. -/
lemma respects_eval (h : sem.SoundOn vars e) {E : Effects} (hE : e.effects vars = .ok E) :
    Respects E (sem.eval e) := by
  refine sem.eval_closed (Q := Respects E) (fun a => .pure a) (fun hf hk => hf.bind hk) e ?_
  intro n hn vs
  obtain ⟨D, hD, hwithin⟩ := Expr.exists_own_within hE hn
  exact ((h n hn).respects hD vs).mono hwithin

/-- The evaluation of an expression leaves unshared variables alone. -/
lemma slot_eval (h : sem.SoundOn vars e) {p : Slot} (hp : vars.IsUnshared p) (s : Store V H) :
    (final (sem.eval e s)).slot p = s.slot p := by
  refine sem.eval_closed (Q := fun f => ∀ s, (final (f s)).slot p = s.slot p) (fun a s => rfl) ?_ e
    (fun n hn vs s => (h n hn).keeps hp vs s) s
  intro A B f k hf hk s
  have hs := hf s
  cases hr : f s with
  | ok a s' =>
    rw [hr, final_ok] at hs
    rw [bind_of_ok hr, hk a s', hs]
  | error x s' =>
    rw [hr, final_error] at hs
    rw [bind_of_error hr, final_error, hs]

/-! ## Values -/

/-- A computation with the effects of a value: it has none, or reads one unshared variable. It
returns the same in all stores that agree on the unshared variables, and changes nothing. -/
lemma eq_ok_of_unshared {A : Type} {E : Effects} {f : Computation V H X A} (hf : Respects E f)
    (hreadonly : E.isReadOnly = true) (hthrows : E.throws = false) (hheap : E.heap = .untouched)
    (hslots : ∀ p, E.slotAccess p ≠ .untouched → vars.IsUnshared p) {s t : Store V H}
    (hst : ∀ p, vars.IsUnshared p → s.slot p = t.slot p) : ∃ a, f s = .ok a s ∧ f t = .ok a t := by
  obtain ⟨a, ha⟩ := hf.exists_ok hthrows s
  obtain ⟨b, hb⟩ := hf.exists_ok hthrows t
  rw [hf.final_of_isReadOnly hreadonly] at ha hb
  have hagree : AgreeOn E s t := ⟨fun p hp => hst p (hslots p hp), fun hp => absurd hheap hp⟩
  have hout := hf.outcome_eq hagree
  rw [ha, hb] at hout
  cases hout
  exact ⟨a, ha, hb⟩

/-- The effects of a value: nothing is written or raised, and only unshared variables are read. -/
lemma own_of_isValue (hvalue : e.isValue vars = true) :
    ∃ E, Effects.ofSteps vars.frame (e.ownSteps vars) = .ok E ∧ E.isReadOnly = true ∧
      E.throws = false ∧ E.heap = .untouched ∧
      ∀ p, E.slotAccess p ≠ .untouched → vars.IsUnshared p := by
  have hbottom : (Effects.bottom vars.frame).isReadOnly = true := by
    rw [Effects.isReadOnly_iff]
    exact ⟨fun p => by simp, by simp⟩
  unfold Expr.isValue at hvalue
  split at hvalue
  · exact ⟨_, rfl, hbottom, rfl, rfl, fun p hp => absurd (Effects.slotAccess_bottom _ p) hp⟩
  · exact ⟨_, rfl, hbottom, rfl, rfl, fun p hp => absurd (Effects.slotAccess_bottom _ p) hp⟩
  · rename_i id
    obtain ⟨v, hv, hflag⟩ := (Option.any_eq_true _ _).1 hvalue
    have hslot : vars.slot id = .ok (vars.slotOf id v) := by
      simp [VarTable.slot, VarTable.get, hv, Except.map]
    have hsteps : (Expr.read (.var id)).ownSteps vars =
        [.ok (.onSlot vars.frame (vars.slotOf id v) .read)] := by
      simp [Expr.ownSteps, Cell.accessSteps, hslot, Except.map]
    have hrow := Effects.slotAccess_onSlot vars.frame (vars.slotOf id v) .read
    have hother := fun p => Effects.slotAccess_onSlot_of_ne vars.frame (p := p)
      (q := vars.slotOf id v) .read
    refine ⟨_, by rw [hsteps]; rfl, ?_, by simp, by simp [Access.sup], fun p hp => ?_⟩
    · rw [Effects.isReadOnly_iff]
      refine ⟨fun p => ?_, by simp [Access.sup]⟩
      rw [Effects.slotAccess_absorb, Effects.slotAccess_bottom]
      by_cases hp : p = vars.slotOf id v
      · subst hp
        rcases hrow with h | h <;> rw [h] <;> decide
      · rw [hother p hp]
        decide
    · rw [Effects.slotAccess_absorb, Effects.slotAccess_bottom] at hp
      by_cases hpq : p = vars.slotOf id v
      · exact ⟨id, v, hv, by simpa using hflag, hpq.symm⟩
      · rw [hother p hpq] at hp
        exact absurd rfl hp
  · cases hvalue

/-- A value evaluates to the same in all stores that agree on the unshared variables, and its
evaluation changes nothing. -/
lemma eval_eq_of_isValue (hvalue : e.isValue vars = true) (h : sem.SoundOn vars e) {s t : Store V H}
    (hst : ∀ p, vars.IsUnshared p → s.slot p = t.slot p) :
    ∃ v, sem.eval e s = .ok v s ∧ sem.eval e t = .ok v t := by
  have hparts : e.isStrict = true ∧ e.parts = [] := by
    unfold Expr.isValue at hvalue
    split at hvalue
    · exact ⟨rfl, rfl⟩
    · exact ⟨rfl, rfl⟩
    · exact ⟨rfl, rfl⟩
    · cases hvalue
  have heval : sem.eval e = sem.node e [] := by
    rw [sem.eval_strict hparts.1, hparts.2, evalAll_nil, pure_bind]
  obtain ⟨E, hE, hreadonly, hthrows, hheap, hslots⟩ := own_of_isValue hvalue
  rw [heval]
  exact eq_ok_of_unshared ((h e .self).respects hE []) hreadonly hthrows hheap hslots hst

end Evaluator

end Inliner
