import Inliner.Pass.Calls
import Inliner.Proofs.SoundEvaluation
import Inliner.Proofs.SubstitutionWalk
import Mathlib.Logic.Function.Basic

/-!
# Moving arguments into the callee

A call evaluates its arguments from left to right, saves the values, and then evaluates what the
callee returns, reading the saved values. After substitution the arguments are evaluated where the
parameters were read. This file proves that the two cannot be told apart if the tracker accepted the
substitution.

Between the two stands a mixed evaluation: some pending arguments are evaluated up front, the others
in place, and both kinds are saved. `Moves` relates two descriptions of one piece of the callee's
work, one with certain arguments evaluated before it and one with what is left of them evaluated
after it. It holds of single operations, because what the callee does commutes with the arguments
that are still pending; of parameters, because an argument is taken out of the pending ones in order
or else commutes with those before it; and it is kept when work is composed. By induction along the
walk it holds of the whole callee, at whose end no argument is left.
-/

namespace Inliner

variable {V H X : Type}

/-! ## Saved values -/

namespace Evaluator

/-- The meaning of a callee's expression when values have been saved for the arguments: a parameter
has the value saved at its position, and a node does the operation of the node that takes its place
when the parameters are replaced. -/
def saved (sem : Evaluator (Computation V H X) V) (pos : VarId → Option Nat) (args : List Expr)
    (ρ : Nat → Option V) : Evaluator (Computation V H X) V where
  var id :=
    match (pos id).bind ρ with
    | some v => pure v
    | none => sem.var id
  op n vs := sem.op (n.subst (Substitution.replacement pos args)) vs
  truth := sem.truth

/-- The meaning of a callee's expression when the arguments are evaluated in place, and saved. -/
def placing (sem : Evaluator (Computation V H X) V) (pos : VarId → Option Nat) (args : List Expr) :
    Evaluator (StateT (Nat → Option V) (Computation V H X)) V where
  var id :=
    match pos id with
    | some i => do
      let v ← sem.eval (Substitution.replacement pos args id)
      modify fun ρ => Function.update ρ i (some v)
      return v
    | none => sem.var id
  op n vs := sem.op (n.subst (Substitution.replacement pos args)) vs
  truth := sem.truth

/-- Evaluates the arguments at the listed positions and saves their values. -/
def evalPending (sem : Evaluator (Computation V H X) V) (args : List Expr) :
    List Nat → (Nat → Option V) → Computation V H X (Nat → Option V)
  | [], ρ => pure ρ
  | i :: rest, ρ => do
    let v ← sem.eval (args.getD i (.const .null))
    sem.evalPending args rest (Function.update ρ i (some v))

variable (sem : Evaluator (Computation V H X) V) (pos : VarId → Option Nat) (args : List Expr)

@[simp] lemma saved_truth (ρ : Nat → Option V) : (sem.saved pos args ρ).truth = sem.truth := rfl

@[simp] lemma placing_truth : (sem.placing pos args).truth = sem.truth := rfl

/-- Away from the parameters a node does the operation of the node that takes its place. -/
lemma saved_node {e : Expr} (he : e.variableRead? = none) (ρ : Nat → Option V) (vs : List V) :
    (sem.saved pos args ρ).node e vs =
      sem.node (e.subst (Substitution.replacement pos args)) vs := by
  have hsubst : (e.subst (Substitution.replacement pos args)).variableRead? = none := by
    rw [Expr.subst_eq_withParts he, Expr.variableRead?_withParts, he]
  rw [node_of_not_read _ he, node_of_not_read _ hsubst]
  rfl

/-- Away from the parameters nothing is saved. -/
lemma placing_node {e : Expr} (he : e.variableRead? = none) (vs : List V) :
    (sem.placing pos args).node e vs =
      StateT.lift (sem.node (e.subst (Substitution.replacement pos args)) vs) := by
  have hsubst : (e.subst (Substitution.replacement pos args)).variableRead? = none := by
    rw [Expr.subst_eq_withParts he, Expr.variableRead?_withParts, he]
  rw [node_of_not_read _ he, node_of_not_read _ hsubst]
  rfl

/-- A parameter has the value saved at its position. -/
lemma saved_var_of_some {id : VarId} {i : Nat} (h : pos id = some i) (ρ : Nat → Option V) :
    (sem.saved pos args ρ).var id =
      match ρ i with
      | some v => pure v
      | none => sem.var id := by
  simp [saved, h]

/-- In place, a parameter has the value of its argument, which is saved. -/
lemma placing_var_of_some {id : VarId} {i : Nat} (h : pos id = some i) (ρ : Nat → Option V) :
    (sem.placing pos args).var id ρ = sem.eval (Substitution.replacement pos args id) >>= fun v =>
      pure (v, Function.update ρ i (some v)) := by
  have hvar : (sem.placing pos args).var id = (do
      let v ← (sem.eval (Substitution.replacement pos args id) : Computation V H X V)
      modify fun ρ => Function.update ρ i (some v)
      return v) := by
    simp only [placing, h]
  rw [hvar]
  change ((sem.eval (Substitution.replacement pos args id) >>= fun v => pure (v, ρ)) >>= fun p =>
    pure (p.1, Function.update p.2 i (some p.1))) = _
  simp

/-- A variable that is no parameter is read as it is. -/
lemma placing_var_of_none {id : VarId} (h : pos id = none) :
    (sem.placing pos args).var id = StateT.lift (sem.var id) := by
  simp only [placing, h]
  rfl

/-! ## Evaluation in place is evaluation after substitution -/

/-- The computation `y` does what `x` does, and saves values besides. -/
def Erases {A : Type} (y : StateT (Nat → Option V) (Computation V H X) A)
    (x : Computation V H X A) : Prop :=
  ∀ ρ, (y ρ >>= fun p => pure p.1) = x

namespace Erases

variable {A B : Type}

lemma pure (a : A) : Erases (pure a : StateT (Nat → Option V) (Computation V H X) A) (pure a) := by
  intro ρ
  rfl

lemma lift (x : Computation V H X A) : Erases (StateT.lift x) x := by
  intro ρ
  change ((x >>= fun a => Pure.pure (a, ρ)) >>= fun p => Pure.pure p.1) = x
  simp

lemma bind {y : StateT (Nat → Option V) (Computation V H X) A} {x : Computation V H X A}
    {k : A → StateT (Nat → Option V) (Computation V H X) B} {l : A → Computation V H X B}
    (h : Erases y x) (hk : ∀ a, Erases (k a) (l a)) : Erases (y >>= k) (x >>= l) := by
  intro ρ
  calc ((y >>= k) ρ >>= fun p => Pure.pure p.1)
      = y ρ >>= fun p => k p.1 p.2 >>= fun q => Pure.pure q.1 := bind_assoc _ _ _
    _ = y ρ >>= fun p => l p.1 := by simp only [hk _ _]
    _ = (y ρ >>= fun p => Pure.pure p.1) >>= l := by simp
    _ = x >>= l := by rw [h ρ]

end Erases

/-- Evaluating the arguments in place is evaluating the expression with the parameters replaced. -/
lemma erases_placing (e : Expr) :
    Erases ((sem.placing pos args).eval e)
      (sem.eval (e.subst (Substitution.replacement pos args))) := by
  refine eval_related (R := Erases) Erases.pure Erases.bind rfl e (fun n _ hn vs => ?_) fun id _ => ?_
  · rw [placing_node _ _ _ hn]
    exact .lift _
  · cases hpos : pos id with
    | none =>
      have hself : Substitution.replacement pos args id = .readVar id := by
        simp [Substitution.replacement, hpos]
      rw [placing_var_of_none _ _ _ hpos, hself, eval]
      exact .lift _
    | some i =>
      intro ρ
      rw [placing_var_of_some _ _ _ hpos]
      simp

/-- Saved values that are not read do not matter. -/
lemma eval_saved_congr {e : Expr} {ρ ρ' : Nat → Option V}
    (h : ∀ id, (Expr.readVar id).IsNodeOf e → (pos id).bind ρ = (pos id).bind ρ') :
    (sem.saved pos args ρ).eval e = (sem.saved pos args ρ').eval e := by
  have hrelated : (sem.saved pos args ρ).eval e =
      (sem.saved pos args ρ').eval (e.subst Expr.readVar) := by
    refine eval_related (M := Computation V H X) (N := Computation V H X) (R := Eq)
      (fun _ => rfl) (fun hf hk => by rw [hf, funext hk]) ?_ e ?_ ?_
    · rfl
    · intro n _ hn vs
      rw [n.subst_readVar, saved_node _ _ _ hn, saved_node _ _ _ hn]
    · intro id hid
      simp only [eval, saved, h id hid]
  rwa [e.subst_readVar] at hrelated

/-! ## Arguments up front -/

/-- The arguments at two positions can be evaluated in either order. -/
def Swappable (i j : Nat) : Prop :=
  ∀ (A : Type) (k : V → V → Computation V H X A),
    (sem.eval (args.getD i (.const .null)) >>= fun v =>
        sem.eval (args.getD j (.const .null)) >>= fun w => k v w) =
      sem.eval (args.getD j (.const .null)) >>= fun w =>
        sem.eval (args.getD i (.const .null)) >>= fun v => k v w

/-- Evaluating arguments does not change what is saved for others. -/
lemma evalPending_bind_of_not_mem {L : List Nat} {i : Nat} (hi : i ∉ L) (ρ : Nat → Option V)
    {A : Type} (k : Option V → (Nat → Option V) → Computation V H X A) :
    (sem.evalPending args L ρ >>= fun ρ' => k (ρ' i) ρ') =
      sem.evalPending args L ρ >>= fun ρ' => k (ρ i) ρ' := by
  induction L generalizing ρ with
  | nil => simp [evalPending]
  | cons j rest ih =>
    have hij : i ≠ j := fun h => hi (by simp [h])
    have hrest : i ∉ rest := fun h => hi (by simp [h])
    simp only [evalPending, bind_assoc, ih hrest, Function.update_of_ne hij]

variable {sem args}

/-- An argument that can be swapped with all listed before it can be evaluated first. -/
lemma evalPending_erase {L : List Nat} {i : Nat} (hi : i ∈ L) (hL : L.Pairwise (· < ·))
    (hswap : ∀ j ∈ L, j < i → sem.Swappable args j i) (ρ : Nat → Option V) :
    sem.evalPending args L ρ = sem.eval (args.getD i (.const .null)) >>= fun v =>
      sem.evalPending args (L.erase i) (Function.update ρ i (some v)) := by
  induction L generalizing ρ with
  | nil => cases hi
  | cons j rest ih =>
    rw [List.pairwise_cons] at hL
    by_cases hij : i = j
    · subst hij
      rw [List.erase_cons_head, evalPending]
    · have hmem : i ∈ rest := (List.mem_cons.1 hi).resolve_left hij
      have hrest := ih hmem hL.2 fun l hl => hswap l (by simp [hl])
      have herase : (j :: rest).erase i = j :: rest.erase i := by
        rw [List.erase_cons_tail (by simpa using fun h => hij h.symm)]
      simp only [evalPending, herase, hrest]
      rw [hswap j (by simp) (hL.1 i hmem)]
      simp only [Function.update_comm hij]

end Evaluator

/-! ## Moving work past pending arguments -/

/-- The arguments of a call: their effects are known, and evaluating them is sound. What became of
them in the end is `fin`; those that are free in it are values. -/
structure ArgumentsSound (sem : Evaluator (Computation V H X) V) (vars : VarTable)
    (args : List Expr) (effects : List Effects) (fin : List ArgState) : Prop where
  sound : ∀ a ∈ args, sem.SoundOn vars a
  effects_of : ∀ {i : Nat} {a}, args[i]? = some a →
    ∃ E, effects[i]? = some E ∧ a.effects vars = .ok E
  free : ∀ {i : Nat} {a}, fin[i]? = some .free → args[i]? = some a → a.isValue vars = true

/-- The values saved for free arguments are what these evaluate to. -/
def FreeSaved (sem : Evaluator (Computation V H X) V) (args : List Expr) (fin : List ArgState)
    (ρ : Nat → Option V) (s : Store V H) : Prop :=
  ∀ (i : Nat) a, fin[i]? = some .free → args[i]? = some a →
    ∃ v, ρ i = some v ∧ sem.eval a s = .ok v s

/-- The arguments that are still pending and will be placed. -/
def pendingOf (args : List Expr) (fin states : List ArgState) : List Nat :=
  (List.range args.length).filter fun i =>
    states[i]? == some ArgState.pending && fin[i]? == some ArgState.placed

/-- Evaluating the pending arguments `L` and then doing `x` with the saved values is the same as
doing `y`, which evaluates some of them in place, and then evaluating the others, `L'`. -/
structure Moves (sem : Evaluator (Computation V H X) V) (args : List Expr) (fin : List ArgState)
    (L L' : List Nat) {A : Type} (x : (Nat → Option V) → Computation V H X A)
    (y : StateT (Nat → Option V) (Computation V H X) A) : Prop where
  keeps : ∀ {ρ s a ρ' s'}, FreeSaved sem args fin ρ s → y ρ s = .ok (a, ρ') s' →
    FreeSaved sem args fin ρ' s'
  eq : ∀ {ρ s}, FreeSaved sem args fin ρ s →
    (sem.evalPending args L ρ >>= fun ρ' => x ρ' >>= fun a => pure (a, ρ')) s =
      (y ρ >>= fun p => sem.evalPending args L' p.2 >>= fun ρ' => pure (p.1, ρ')) s

section Moves

variable {sem : Evaluator (Computation V H X) V} {vars : VarTable} {args : List Expr}
  {effects : List Effects} {fin : List ArgState} {L L' L'' : List Nat}

/-- The saved values of free arguments stay right as long as unshared variables are left alone. -/
lemma FreeSaved.after (hargs : ArgumentsSound sem vars args effects fin) {ρ : Nat → Option V}
    {s s' : Store V H} (h : FreeSaved sem args fin ρ s)
    (hs : ∀ p, vars.IsUnshared p → s'.slot p = s.slot p) : FreeSaved sem args fin ρ s' := by
  intro i a hfree ha
  obtain ⟨v, hv, heval⟩ := h i a hfree ha
  obtain ⟨w, hw, hw'⟩ := Evaluator.eval_eq_of_isValue (hargs.free hfree ha)
    (hargs.sound a (List.mem_of_getElem? ha)) fun p hp => (hs p hp).symm
  rw [heval] at hw
  cases hw
  exact ⟨v, hv, hw'⟩

namespace Moves

variable {A B : Type} {x : (Nat → Option V) → Computation V H X A}
  {y : StateT (Nat → Option V) (Computation V H X) A}

/-- Work is moved piece by piece. -/
lemma bind {k : A → (Nat → Option V) → Computation V H X B}
    {l : A → StateT (Nat → Option V) (Computation V H X) B} (h : Moves sem args fin L L' x y)
    (hk : ∀ a, Moves sem args fin L' L'' (k a) (l a)) :
    Moves sem args fin L L'' (fun ρ => x ρ >>= fun a => k a ρ) (y >>= l) := by
  constructor
  · intro ρ s b ρ' s' hfree hrun
    change (y ρ >>= fun p => l p.1 p.2) s = _ at hrun
    cases hy : y ρ s with
    | error e s₁ =>
      rw [bind_of_error hy] at hrun
      cases hrun
    | ok p s₁ =>
      rw [bind_of_ok hy] at hrun
      exact (hk p.1).keeps (h.keeps hfree hy) hrun
  · intro ρ s hfree
    calc (sem.evalPending args L ρ >>= fun ρ' =>
            (x ρ' >>= fun a => k a ρ') >>= fun b => Pure.pure (b, ρ')) s
        = ((sem.evalPending args L ρ >>= fun ρ' => x ρ' >>= fun a => Pure.pure (a, ρ')) >>= fun q =>
            k q.1 q.2 >>= fun b => Pure.pure (b, q.2)) s := by simp
      _ = ((y ρ >>= fun p => sem.evalPending args L' p.2 >>= fun ρ' => Pure.pure (p.1, ρ')) >>= fun q =>
            k q.1 q.2 >>= fun b => Pure.pure (b, q.2)) s := by
          -- The two binds start with computations that agree on this store.
          change EStateM.bind _ _ s = EStateM.bind _ _ s
          simp only [EStateM.bind, h.eq hfree]
      _ = (y ρ >>= fun p => sem.evalPending args L' p.2 >>= fun ρ' =>
            k p.1 ρ' >>= fun b => Pure.pure (b, ρ')) s := by simp
      _ = (y ρ >>= fun p => l p.1 p.2 >>= fun q => sem.evalPending args L'' q.2 >>= fun ρ' =>
            Pure.pure (q.1, ρ')) s :=
          bind_congr_of_ok fun p s' hp => (hk p.1).eq (h.keeps hfree hp)
      _ = ((y >>= l) ρ >>= fun q => sem.evalPending args L'' q.2 >>= fun ρ' =>
            Pure.pure (q.1, ρ')) s := by
          change _ = ((y ρ >>= fun p => l p.1 p.2) >>= _) s
          rw [bind_assoc]

/-- Nothing is moved past no work. -/
lemma pure (a : A) : Moves sem args fin L L (fun _ => pure a) (pure a) := by
  constructor
  · intro ρ s b ρ' s' hfree hrun
    cases hrun
    exact hfree
  · intro ρ s _
    change _ = ((Pure.pure (a, ρ) : Computation V H X (A × (Nat → Option V))) >>= _) s
    simp

/-- An operation that commutes with the pending arguments is done before them. -/
lemma operation (hargs : ArgumentsSound sem vars args effects fin) {E : Effects}
    {f : Computation V H X A} (hf : Respects E f)
    (hkeeps : ∀ {p}, vars.IsUnshared p → ∀ s, (final (f s)).slot p = s.slot p)
    (hcomm : ∀ i ∈ L, ∃ a D, args[i]? = some a ∧ a.effects vars = .ok D ∧
      Domain.commutes E D = true) :
    Moves sem args fin L L (fun _ => f) (StateT.lift f) := by
  have hrun : ∀ ρ : Nat → Option V, StateT.lift f ρ = f >>= fun a => Pure.pure (a, ρ) := fun _ => rfl
  have hswap : ∀ ρ : Nat → Option V, (sem.evalPending args L ρ >>= fun ρ' => f >>= fun a =>
      Pure.pure (a, ρ')) = f >>= fun a => sem.evalPending args L ρ >>= fun ρ' => Pure.pure (a, ρ') := by
    induction L with
    | nil => simp [Evaluator.evalPending]
    | cons i rest ih =>
      obtain ⟨a, D, ha, hD, hED⟩ := hcomm i (by simp)
      have heval : Respects D (sem.eval (args.getD i (.const .null))) := by
        rw [List.getD_eq_getElem?_getD, ha]
        exact Evaluator.respects_eval (hargs.sound a (List.mem_of_getElem? ha)) hD
      intro ρ
      simp only [Evaluator.evalPending, bind_assoc, ih fun j hj => hcomm j (by simp [hj])]
      rw [hf.bind_comm heval hED]
  constructor
  · intro ρ s a ρ' s' hfree hlift
    rw [hrun] at hlift
    cases hs : f s with
    | error e s₁ =>
      rw [bind_of_error hs] at hlift
      cases hlift
    | ok b s₁ =>
      rw [bind_of_ok hs] at hlift
      cases hlift
      refine hfree.after hargs fun p hp => ?_
      have := hkeeps hp s
      rwa [hs, final_ok] at this
  · intro ρ s _
    rw [hswap, hrun, bind_assoc]
    simp

variable {pos : VarId → Option Nat} {id : VarId} {i : Nat}

/-- A parameter takes a pending argument out of the pending ones. -/
lemma place (hargs : ArgumentsSound sem vars args effects fin) (hpos : pos id = some i)
    (hL : L.Pairwise (· < ·)) (hi : i ∈ L) (hlt : i < args.length) (hfin : fin[i]? ≠ some .free)
    (hswap : ∀ j ∈ L, j < i → sem.Swappable args j i) :
    Moves sem args fin L (L.erase i) (fun ρ => (sem.saved pos args ρ).var id)
      ((sem.placing pos args).var id) := by
  have ha : args[i]? = some args[i] := List.getElem?_eq_getElem hlt
  have hrepl : Substitution.replacement pos args id = args[i] := by
    simp [Substitution.replacement, hpos, ha]
  have hgetD : args.getD i (.const .null) = args[i] := by
    rw [List.getD_eq_getElem?_getD, ha, Option.getD_some]
  constructor
  · intro ρ s v ρ' s' hfree hrun
    rw [Evaluator.placing_var_of_some _ _ _ hpos, hrepl] at hrun
    cases hs : sem.eval args[i] s with
    | error e s₁ =>
      rw [bind_of_error hs] at hrun
      cases hrun
    | ok w s₁ =>
      rw [bind_of_ok hs] at hrun
      cases hrun
      have hafter : FreeSaved sem args fin ρ s' := hfree.after hargs fun p hp => by
        have := Evaluator.slot_eval (hargs.sound _ (List.getElem_mem hlt)) hp s
        rwa [hs, final_ok] at this
      intro j a hj haj
      have hij : j ≠ i := fun h => hfin (h ▸ hj)
      rw [Function.update_of_ne hij]
      exact hafter j a hj haj
  · intro ρ s _
    have hnot : i ∉ L.erase i := fun h => by
      have hnodup : L.Nodup := hL.imp fun h => Nat.ne_of_lt h
      exact (hnodup.mem_erase_iff.1 h).1 rfl
    have hread := fun v => sem.evalPending_bind_of_not_mem args hnot
      (Function.update ρ i (some v)) fun o ρ' =>
        (match o with
          | some v => Pure.pure v
          | none => sem.var id) >>= fun w => Pure.pure (w, ρ')
    rw [Evaluator.evalPending_erase hi hL hswap, Evaluator.placing_var_of_some _ _ _ hpos, hrepl,
      hgetD]
    simp only [Evaluator.saved_var_of_some _ _ _ hpos, bind_assoc, hread, pure_bind,
      Function.update_self]

/-- A free argument may be evaluated at any time. -/
lemma free (hpos : pos id = some i) {a : Expr} (ha : args[i]? = some a) (hi : i ∉ L)
    (hfin : fin[i]? = some .free) :
    Moves sem args fin L L (fun ρ => (sem.saved pos args ρ).var id)
      ((sem.placing pos args).var id) := by
  have hrepl : Substitution.replacement pos args id = a := by
    simp [Substitution.replacement, hpos, ha]
  -- The value was saved before, so saving it again changes nothing.
  have hplace : ∀ {ρ s}, FreeSaved sem args fin ρ s → ∃ v, ρ i = some v ∧
      (sem.placing pos args).var id ρ s = .ok (v, ρ) s := by
    intro ρ s hfree
    obtain ⟨v, hv, heval⟩ := hfree i a hfin ha
    refine ⟨v, hv, ?_⟩
    rw [Evaluator.placing_var_of_some _ _ _ hpos, hrepl, bind_of_ok heval, ← hv,
      Function.update_eq_self]
    rfl
  constructor
  · intro ρ s v ρ' s' hfree hrun
    obtain ⟨w, -, hw⟩ := hplace hfree
    rw [hw] at hrun
    cases hrun
    exact hfree
  · intro ρ s hfree
    obtain ⟨v, hv, hrun⟩ := hplace hfree
    have hread := sem.evalPending_bind_of_not_mem args hi ρ fun o ρ' =>
      (match o with
        | some v => Pure.pure v
        | none => sem.var id) >>= fun w => Pure.pure (w, ρ')
    simp only [Evaluator.saved_var_of_some _ _ _ hpos, hread, hv, pure_bind]
    rw [bind_of_ok hrun]

end Moves

/-- The pending arguments are listed in order. -/
lemma pairwise_pendingOf (states : List ArgState) : (pendingOf args fin states).Pairwise (· < ·) :=
  List.pairwise_lt_range.filter _

lemma mem_pendingOf {states : List ArgState} {i : Nat} :
    i ∈ pendingOf args fin states ↔
      i < args.length ∧ states[i]? = some .pending ∧ fin[i]? = some .placed := by
  simp [pendingOf]

/-- Placing an argument takes it out of the pending ones. -/
lemma pendingOf_set {states : List ArgState} {i : Nat} (hi : states[i]? = some .pending) :
    pendingOf args fin (states.set i .placed) = (pendingOf args fin states).erase i := by
  have hlt := (List.getElem?_eq_some_iff.1 hi).1
  have hnodup : (pendingOf args fin states).Nodup :=
    (pairwise_pendingOf states).imp fun h => Nat.ne_of_lt h
  rw [hnodup.erase_eq_filter, pendingOf, pendingOf, List.filter_filter]
  refine List.filter_congr fun j _ => ?_
  by_cases hij : j = i
  · subst hij
    simp [List.getElem?_set_self hlt]
  · rw [List.getElem?_set_ne (Ne.symm hij)]
    simp [hij]

/-- Effects that neither write nor raise commute. -/
lemma commutes_of_isPure {D E : Effects} (hD : D.isPure = true) (hE : E.isPure = true) :
    Domain.commutes D E = true := by
  unfold Effects.isPure at hD hE
  rw [Bool.and_eq_true, Bool.not_eq_true'] at hD hE
  have haccess : ∀ a b : Access, a ≠ .write → b ≠ .write → Domain.commutes a b = true := by
    intro a b ha hb
    cases a <;> cases b <;> simp_all [Domain.commutes]
  obtain ⟨hDslots, hDheap⟩ := (Effects.isReadOnly_iff D).1 hD.1
  obtain ⟨hEslots, hEheap⟩ := (Effects.isReadOnly_iff E).1 hE.1
  refine (Effects.commutes_iff D E).2 ⟨fun h => ?_, fun h => ?_, fun p => ?_, ?_⟩
  · rw [hD.2] at h
    cases h
  · rw [hE.2] at h
    cases h
  · exact haccess _ _ (hDslots p) (hEslots p)
  · exact haccess _ _ hDheap hEheap

/-- Arguments whose effects commute can be swapped. -/
lemma swappable_of_commutes (hargs : ArgumentsSound sem vars args effects fin) {i j : Nat}
    {D E : Effects} (hi : i < args.length) (hj : j < args.length) (hD : effects[i]? = some D)
    (hE : effects[j]? = some E) (h : Domain.commutes D E = true) : sem.Swappable args i j := by
  have hrespects : ∀ {i D}, i < args.length → effects[i]? = some D →
      Respects D (sem.eval (args.getD i (.const .null))) := by
    intro i D hi hD
    have ha : args[i]? = some args[i] := List.getElem?_eq_getElem hi
    obtain ⟨D', hD', heffects⟩ := hargs.effects_of ha
    rw [hD] at hD'
    cases hD'
    rw [List.getD_eq_getElem?_getD, ha]
    exact Evaluator.respects_eval (hargs.sound _ (List.getElem_mem hi)) heffects
  intro A k
  exact (hrespects hi hD).bind_comm (hrespects hj hE) h k

end Moves

/-! ## The whole walk -/

namespace Substitution

variable {sem : Evaluator (Computation V H X) V} {vars : VarTable} {args : List Expr}
  {pos : VarId → Option Nat} {st st' last : State} {u : Bool}

/-- An occurrence of a parameter moves its argument to where it is. -/
lemma moves_argument {id : VarId} {e' : Expr} (h : argument args id u st = .ok (e', st'))
    (hpos : ∀ id, st.tracker.position? id = pos id) (hlast : Progress st' last)
    (hargs : ArgumentsSound sem vars args last.tracker.effects last.tracker.states) :
    Moves sem args last.tracker.states (pendingOf args last.tracker.states st.tracker.states)
      (pendingOf args last.tracker.states st'.tracker.states)
      (fun ρ => (sem.saved pos args ρ).var id) ((sem.placing pos args).var id) := by
  obtain ⟨i, hi, ha, rfl⟩ := argument_eq_ok h
  have hpos' : pos id = some i := (hpos id).symm.trans hi
  have hlt : i < args.length := (List.getElem?_eq_some_iff.1 ha).1
  have hprogress := (Progress.visit hlast.ok).trans hlast
  have hkept := hlast.kept i
  rcases ArgumentTracker.visit_cases hlast.ok with
    ⟨-, hfree, heq⟩ | ⟨-, hpending, -, horder, ⟨E, hE, -⟩, heq⟩
  · rw [heq] at hkept ⊢
    have hfin := (hkept (by rw [hfree]; decide)).trans hfree
    refine .free hpos' ha (fun hmem => ?_) hfin
    rw [mem_pendingOf, hfree] at hmem
    cases hmem.2.1
  · have hplaced : (st.tracker.states.set i .placed)[i]? = some .placed :=
      List.getElem?_set_self (List.getElem?_eq_some_iff.1 hpending).1
    rw [heq] at hkept ⊢
    have hfin := (hkept (by rw [hplaced]; decide)).trans hplaced
    rw [pendingOf_set hpending]
    refine .place hargs hpos' (pairwise_pendingOf _)
      (mem_pendingOf.2 ⟨hlt, hpending, hfin⟩) hlt (by rw [hfin]; decide) fun j hj hji => ?_
    -- An earlier argument is pending, so the order does not matter because all of them are pure.
    obtain ⟨hjlt, hjpending, -⟩ := mem_pendingOf.1 hj
    have hpure : Effects.allPure st.tracker.effects = true := by
      refine (Bool.or_eq_true_iff.1 horder).resolve_right fun hall => ?_
      have hmem : ArgState.pending ∈ st.tracker.states.take i :=
        List.mem_of_getElem? (i := j) (by rw [List.getElem?_take_of_lt hji, hjpending])
      simpa using List.all_eq_true.1 hall _ hmem
    obtain ⟨D, hD, -⟩ := hargs.effects_of (List.getElem?_eq_getElem hjlt)
    have hE' : last.tracker.effects[i]? = some E := hprogress.effects ▸ hE
    have hall := List.all_eq_true.1 hpure
    refine swappable_of_commutes hargs hjlt hlt hD hE' (commutes_of_isPure ?_ ?_)
    · exact hall D (List.mem_of_getElem? (hprogress.effects ▸ hD))
    · exact hall E (List.mem_of_getElem? hE)

/-- The operation of a node is done before the arguments that are still pending, because these are
found to commute with it when they are placed. -/
lemma moves_node {e' : Expr} {E : Effects}
    (hE : Effects.ofSteps vars.frame (e'.ownSteps vars) = .ok E)
    (hlast : Progress { st with done := st.done.absorb E } last)
    (hargs : ArgumentsSound sem vars args last.tracker.effects last.tracker.states)
    (hsound : sem.SoundAt vars e') (vs : List V) :
    Moves sem args last.tracker.states (pendingOf args last.tracker.states st.tracker.states)
      (pendingOf args last.tracker.states st.tracker.states)
      (fun _ => sem.node e' vs) (StateT.lift (sem.node e' vs)) := by
  refine .operation hargs (hsound.respects hE vs) (fun hp s => hsound.keeps hp vs s) fun i hi => ?_
  obtain ⟨hlt, hpending, hplaced⟩ := mem_pendingOf.1 hi
  have ha : args[i]? = some args[i] := List.getElem?_eq_getElem hlt
  obtain ⟨D, hD, heffects⟩ := hargs.effects_of ha
  rcases hlast.pending i hpending with hpending' | ⟨-, D', hD', hcomm⟩
  · rw [hplaced] at hpending'
    cases hpending'
  · have hDD' : D' = D := by
      rw [hlast.effects, hD'] at hD
      exact Option.some.inj hD
    subst hDD'
    have hwithin : E.Within (st.done.absorb E) := (Effects.Within.absorb_iff.1 (.refl _)).2
    exact ⟨args[i], D', ha, heffects, hwithin.commutes hcomm⟩

/-- A walk through several expressions moves arguments if the walks through each do. -/
lemma moves_exprs {es es' : List Expr}
    (hes : ∀ e ∈ es, ∀ {st st' e'}, expr vars args e u st = .ok (e', st') →
      (∀ id, st.tracker.position? id = pos id) → Progress st' last → sem.SoundOn vars e' →
      Moves sem args last.tracker.states (pendingOf args last.tracker.states st.tracker.states)
        (pendingOf args last.tracker.states st'.tracker.states)
        (fun ρ => (sem.saved pos args ρ).eval e) ((sem.placing pos args).eval e))
    (h : exprs vars args es u st = .ok (es', st'))
    (hpos : ∀ id, st.tracker.position? id = pos id) (hlast : Progress st' last)
    (hsound : ∀ e' ∈ es', sem.SoundOn vars e') :
    Moves sem args last.tracker.states (pendingOf args last.tracker.states st.tracker.states)
      (pendingOf args last.tracker.states st'.tracker.states)
      (fun ρ => (sem.saved pos args ρ).evalAll es) ((sem.placing pos args).evalAll es) := by
  induction es generalizing st es' with
  | nil =>
    rw [exprs] at h
    cases h
    simp only [Evaluator.evalAll_nil]
    exact .pure []
  | cons e rest ih =>
    obtain ⟨e', rest', st₁, he, hrest, rfl⟩ := exprs_cons_eq_ok h
    have hprogress := progress_exprs hrest hlast.ok
    have hpos₁ : ∀ id, st₁.tracker.position? id = pos id := fun id =>
      ((progress_expr he hprogress.ok).position? id).trans (hpos id)
    simp only [Evaluator.evalAll_cons]
    refine (hes e (by simp) he hpos (hprogress.trans hlast) (hsound e' (by simp))).bind fun v => ?_
    refine (ih (fun a ha => hes a (by simp [ha])) hrest hpos₁
      fun a ha => hsound a (by simp [ha])).bind fun vs => ?_
    exact .pure (v :: vs)

/-- The walk moves arguments. The induction follows the nodes; the arms of conditional nodes place
nothing, so the pending arguments are the same on every path. -/
lemma moves_expr {e e' : Expr} (h : expr vars args e u st = .ok (e', st'))
    (hpos : ∀ id, st.tracker.position? id = pos id) (hlast : Progress st' last)
    (hargs : ArgumentsSound sem vars args last.tracker.effects last.tracker.states)
    (hsound : sem.SoundOn vars e') :
    Moves sem args last.tracker.states (pendingOf args last.tracker.states st.tracker.states)
      (pendingOf args last.tracker.states st'.tracker.states)
      (fun ρ => (sem.saved pos args ρ).eval e) ((sem.placing pos args).eval e) := by
  have hsubst := expr_eq_subst hpos h hlast.ok
  induction e using Expr.induct generalizing u st st' e' with
  | strict e he ih =>
    cases hread : e.variableRead? with
    | some v =>
      obtain rfl := Expr.eq_readVar hread
      rw [expr] at h
      simp only [Evaluator.eval]
      exact moves_argument h hpos hlast hargs
    | none =>
      obtain ⟨es, st₁, E, hes, he', hE, rfl⟩ := expr_strict he hread h
      have hnode := fun vs => moves_node hE hlast hargs (hsound e' .self) vs
      have hown : Progress st₁ _ := progress_own E hlast.ok
      have hparts : e'.parts = es := by
        rw [hsubst, Expr.parts_subst hread,
          exprs_eq_map (fun a _ _ _ _ hpos hwalk hok => expr_eq_subst hpos hwalk hok) hpos hes hown.ok]
      simp only [Evaluator.eval_strict _ he, Evaluator.saved_node _ _ _ hread,
        Evaluator.placing_node _ _ _ hread, ← hsubst]
      refine (moves_exprs (fun a ha _ _ _ hwalk hpos' hlast' hsound' => ?_) hes hpos
        (hown.trans hlast) fun a ha => ?_).bind hnode
      · exact ih a ha hwalk hpos' hlast' hsound' (expr_eq_subst hpos' hwalk hlast'.ok)
      · exact hsound.part (hparts ▸ ha)
  | logical op left right ihl ihr =>
    obtain ⟨left', right', st₁, st₂, E, hl, hr, rfl, hE, rfl⟩ := expr_logical h
    have hnode := fun vs => moves_node hE hlast hargs (hsound _ .self) vs
    have hown : Progress st₂ _ := progress_own E hlast.ok
    have hright := progress_expr hr hown.ok
    have hpos₁ : ∀ id, st₁.tracker.position? id = pos id := fun id =>
      ((progress_expr hl hright.ok).position? id).trans (hpos id)
    have hl' := ihl hl hpos (hright.trans (hown.trans hlast))
      (hsound.part (by simp [Expr.parts])) (expr_eq_subst hpos hl hright.ok)
    have hr' := ihr hr hpos₁ (hown.trans hlast) (hsound.part (by simp [Expr.parts]))
      (expr_eq_subst hpos₁ hr hown.ok)
    have hstates := states_of_conditional hr hown.ok
    simp only [Evaluator.eval_logical, Evaluator.saved_node _ _ _ (e := .logical op left right) rfl,
      Evaluator.placing_node _ _ _ (e := .logical op left right) rfl, ← hsubst]
    refine hl'.bind fun a => ?_
    by_cases hdecided : op.decidedBy (sem.truth a) = true
    · have hbranch := hnode [a]
      rw [hstates] at hbranch
      simpa only [Evaluator.saved_truth, Evaluator.placing_truth, hdecided, if_true, hstates]
        using hbranch
    · have hbranch := hr'.bind fun b => hnode [a, b]
      simpa only [Evaluator.saved_truth, Evaluator.placing_truth, hdecided, Bool.false_eq_true, if_false]
        using hbranch
  | conditional cond onTrue onFalse ihc iht ihf =>
    obtain ⟨cond', onTrue', onFalse', st₁, st₂, st₃, E, hc, ht, hf, rfl, hE, rfl⟩ :=
      expr_conditional h
    have hnode := fun vs => moves_node hE hlast hargs (hsound _ .self) vs
    have hown : Progress st₃ _ := progress_own E hlast.ok
    have hfalse := progress_expr hf hown.ok
    have htrue := progress_expr ht hfalse.ok
    have hpos₁ : ∀ id, st₁.tracker.position? id = pos id := fun id =>
      ((progress_expr hc htrue.ok).position? id).trans (hpos id)
    have hpos₂ : ∀ id, st₂.tracker.position? id = pos id := fun id =>
      (htrue.position? id).trans (hpos₁ id)
    have hc' := ihc hc hpos (htrue.trans (hfalse.trans (hown.trans hlast)))
      (hsound.part (by simp [Expr.parts])) (expr_eq_subst hpos hc htrue.ok)
    have ht' := iht ht hpos₁ (hfalse.trans (hown.trans hlast)) (hsound.part (by simp [Expr.parts]))
      (expr_eq_subst hpos₁ ht hfalse.ok)
    have hf' := ihf hf hpos₂ (hown.trans hlast) (hsound.part (by simp [Expr.parts]))
      (expr_eq_subst hpos₂ hf hown.ok)
    have hstates₂ := states_of_conditional ht hfalse.ok
    have hstates₃ := states_of_conditional hf hown.ok
    simp only [Evaluator.eval_conditional,
      Evaluator.saved_node _ _ _ (e := .conditional cond onTrue onFalse) rfl,
      Evaluator.placing_node _ _ _ (e := .conditional cond onTrue onFalse) rfl, ← hsubst]
    refine hc'.bind fun a => ?_
    simp only [hstates₃, hstates₂] at hnode ht' hf' ⊢
    by_cases hcond : sem.truth a = true
    · have hbranch := ht'.bind fun b => hnode [a, b]
      simpa only [Evaluator.saved_truth, Evaluator.placing_truth, hcond, if_true] using hbranch
    · have hbranch := hf'.bind fun b => hnode [a, b]
      simpa only [Evaluator.saved_truth, Evaluator.placing_truth, hcond, Bool.false_eq_true, if_false]
        using hbranch

end Substitution

end Inliner
