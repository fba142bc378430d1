import Inliner.Proofs.ExpressionInlining
import Inliner.Proofs.Machine

/-!
# Machines on the storage of a frame

A machine gives a meaning to expressions on storage too: variables are read from their slots, and
operations work on the heap. On storage, effects make sense. Every operation of a machine does no
more than its effects describe (`soundAt_onStore`), so the general facts about effects hold of it,
and they carry over to the meaning in an environment:

* an expression with pure effects returns a value and leaves the heap alone (`value_of_isPure`); *
an accepted substitution has the meaning of evaluating the arguments and then the callee's
expression in a new frame (`value_inlined`).
-/

namespace Inliner

namespace Machine

variable {V H X A B : Type}

/-! ## Computations on the heap of a store -/

/-- Does to the heap of a store what is done to a heap. -/
def onHeap (f : EStateM X H A) : Computation V H X A := fun s =>
  match f s.heap with
  | .ok a h => .ok a ⟨s.slot, h⟩
  | .error x h => .error x ⟨s.slot, h⟩

lemma final_onHeap (f : EStateM X H A) (s : Store V H) :
    final (onHeap f s) = ⟨s.slot, final (f s.heap)⟩ := by
  unfold onHeap
  cases f s.heap <;> rfl

lemma outcome_onHeap (f : EStateM X H A) (s : Store V H) :
    outcome (onHeap f s) = outcome (f s.heap) := by
  unfold onHeap
  cases f s.heap <;> rfl

/-- What is done to the heap can be told from what is done to the store. -/
lemma eq_of_onHeap_eq {f g : EStateM X H A} {slot : Slot → V} {h : H}
    (heq : onHeap f ⟨slot, h⟩ = onHeap g ⟨slot, h⟩) : f h = g h := by
  refine result_ext ?_ ?_
  · have hout := congrArg outcome heq
    rwa [outcome_onHeap, outcome_onHeap] at hout
  · have hfinal := congrArg (fun r => (final r).heap) heq
    simpa only [final_onHeap] using hfinal

/-- Steps on the heap are done one after the other. -/
lemma onHeap_bind (f : EStateM X H A) (k : A → EStateM X H B) :
    (onHeap (f >>= k) : Computation V H X B) = onHeap f >>= fun a => onHeap (k a) := by
  funext s
  cases hf : f s.heap with
  | ok a h =>
    have hleft : onHeap f s = .ok a ⟨s.slot, h⟩ := by simp [onHeap, hf]
    rw [bind_of_ok hleft]
    simp [onHeap, bind_of_ok hf]
  | error x h =>
    have hleft : onHeap f s = .error x ⟨s.slot, h⟩ := by simp [onHeap, hf]
    rw [bind_of_error hleft]
    simp [onHeap, bind_of_error hf]

/-- What may do anything to the heap respects effects that say so. -/
lemma respects_onHeap {E : Effects} (hheap : E.heap = .write) (hthrows : E.throws = true)
    (f : EStateM X H A) : Respects E (onHeap f : Computation V H X A) := by
  have hheaps : ∀ {s t : Store V H}, AgreeOn E s t → s.heap = t.heap :=
    fun hst => hst.heap (by rw [hheap]; decide)
  constructor
  · intro s p _
    rw [final_onHeap]
  · intro s hne
    exact absurd hheap hne
  · intro s t hst
    rw [outcome_onHeap, outcome_onHeap, hheaps hst]
  · intro s t hst p hp
    rw [final_onHeap, final_onHeap]
    exact hst.slot p (by rw [hp]; decide)
  · intro s t hst _
    rw [final_onHeap, final_onHeap, hheaps hst]
  · intro s x _
    exact hthrows

/-- What looks at the heap respects effects that say whether it depends on the heap and may
raise. -/
lemma respects_onHeap_peek {E : Effects} {f : H → Except X A}
    (hheap : E.heap ≠ .untouched ∨ ∀ h h', f h = f h')
    (hthrows : ∀ h x, f h = .error x → E.throws = true) :
    Respects E (onHeap (peek f) : Computation V H X A) := by
  have hfinal : ∀ h, final (peek f h) = h := by
    intro h
    unfold peek
    cases f h <;> rfl
  have houtcome : ∀ h, outcome (peek f h) = f h := by
    intro h
    unfold peek
    cases f h <;> rfl
  refine .of_final_eq (fun s => ?_) (fun {s t} hst => ?_) fun {s x} hx => ?_
  · rw [final_onHeap, hfinal]
  · rw [outcome_onHeap, outcome_onHeap, houtcome, houtcome]
    rcases hheap with hne | hconst
    · rw [hst.heap hne]
    · exact hconst _ _
  · rw [outcome_onHeap, houtcome] at hx
    exact hthrows _ _ hx

/-! ## The meaning on storage -/

/-- The meaning of expressions on storage. -/
def onStore (m : Machine V H X) (vars : VarTable) : Evaluator (Computation V H X) V where
  var := vars.readSlot (m.constant .null)
  op n vs := onHeap (m.operation n vs)
  truth := m.truth

variable {m : Machine V H X} {vars : VarTable}

/-- The operation of a node that reads no variable. -/
lemma node_onStore {e : Expr} (he : e.variableRead? = none) (vs : List V) :
    (m.onStore vars).node e vs = onHeap (m.operation e vs) :=
  Evaluator.node_of_not_read _ he vs

/-- Operations that are not looked into may do anything to the heap. -/
lemma respects_unknown {n : Expr} {es : List Expr} {E : Effects}
    (hn : n.ownSteps vars = Expr.unknownSteps vars es)
    (hE : Effects.ofSteps vars.frame (n.ownSteps vars) = .ok E) (f : EStateM X H V) :
    Respects E (onHeap f : Computation V H X V) := by
  have hstep : .ok (.onHeap vars.frame .write true) ∈ n.ownSteps vars := by
    simp [hn, Expr.unknownSteps]
  obtain ⟨d, hd, hwithin⟩ := Effects.within_ofSteps hE hstep
  cases hd
  refine respects_onHeap ?_ (hwithin.throws rfl) f
  by_contra hne
  exact Access.ne_write_of_rank_le hwithin.heap hne rfl

/-- Accesses to the heap depend on it and raise as their effects say. -/
lemma respects_access {n : Expr} {throws : Bool} {E : Effects} {f : H → Except X V}
    (hn : n.ownSteps vars = [.ok (.onHeap vars.frame .read throws)])
    (hE : Effects.ofSteps vars.frame (n.ownSteps vars) = .ok E)
    (hf : throws = true ∨ ∀ h, ∃ v, f h = .ok v) :
    Respects E (onHeap (peek f) : Computation V H X V) := by
  obtain ⟨d, hd, hwithin⟩ := Effects.within_ofSteps hE (hn ▸ List.mem_singleton_self _)
  cases hd
  refine respects_onHeap_peek (.inl ?_) fun h x hx => ?_
  · exact Access.ne_untouched_of_rank_le hwithin.heap (by simp [Effects.onHeap])
  · rcases hf with rfl | hok
    · exact hwithin.throws rfl
    · obtain ⟨v, hv⟩ := hok h
      rw [hv] at hx
      cases hx

/-- Binary operators do not depend on the heap, and raise as their effects say. -/
lemma respects_binary {op : BinaryOp} {left right : Expr} {E : Effects}
    (hE : Effects.ofSteps vars.frame ((Expr.binary op left right).ownSteps vars) = .ok E) (a b : V) :
    Respects E (onHeap (peek fun _ => m.binary op a b) : Computation V H X V) := by
  refine respects_onHeap_peek (.inr fun _ _ => rfl) fun h x hx => ?_
  cases hop : op.mayThrow with
  | false =>
    obtain ⟨v, hv⟩ := m.binary_ok op a b hop
    rw [hv] at hx
    cases hx
  | true =>
    have hstep : .ok (.raising vars.frame) ∈ (Expr.binary op left right).ownSteps vars := by
      simp [Expr.ownSteps, hop]
    obtain ⟨d, hd, hwithin⟩ := Effects.within_ofSteps hE hstep
    cases hd
    exact hwithin.throws rfl

/-- The operation of a node does no more than the own effects of the node describe. -/
lemma respects_operation {n : Expr} {E : Effects}
    (hE : Effects.ofSteps vars.frame (n.ownSteps vars) = .ok E) (vs : List V) :
    Respects E (onHeap (m.operation n vs) : Computation V H X V) := by
  fun_cases operation m n vs
  case case2 | case4 => exact respects_access rfl hE (.inl rfl)
  case case3 => exact respects_access rfl hE (.inr fun h => ⟨_, rfl⟩)
  case case6 => exact respects_binary hE _ _
  case case9 | case10 | case11 | case12 | case13 => exact respects_unknown rfl hE _
  -- All other operations just return a value.
  all_goals exact .pure _

/-- A machine is sound at every node. -/
lemma soundAt_onStore (m : Machine V H X) (vars : VarTable) (n : Expr) :
    (m.onStore vars).SoundAt vars n := by
  cases hread : n.variableRead? with
  | none =>
    refine ⟨fun hE vs => ?_, fun _ vs s => ?_⟩
    · rw [node_onStore hread]
      exact respects_operation hE vs
    · rw [node_onStore hread, final_onHeap]
  | some id =>
    obtain rfl := Expr.eq_readVar hread
    exact ⟨fun hE _ => VarTable.respects_readSlot hE _, fun _ _ _ => rfl⟩

/-! ## The same meaning in an environment -/

/-- Some slots hold what the variables hold in an environment. -/
lemma exists_slots (vars : VarTable) (env : Env V) (default : V) :
    ∃ slot : Slot → V, ∀ id v, vars.get? id = some v → slot (vars.slotOf id v) = env id := by
  classical
  refine ⟨fun p => if h : ∃ id v, vars.get? id = some v ∧ vars.slotOf id v = p then env h.choose
    else default, fun id v hv => ?_⟩
  have h : ∃ id' v', vars.get? id' = some v' ∧ vars.slotOf id' v' = vars.slotOf id v :=
    ⟨id, v, hv, rfl⟩
  obtain ⟨v', hv', hslot⟩ := h.choose_spec
  simp only [dif_pos h, VarTable.slotOf_inj hv' hv hslot]

/-- The computation on storage does, with the given slots, what the other one does on the heap. -/
def Lifts (slot : Slot → V) (f : Computation V H X A) (g : EStateM X H A) : Prop :=
  ∀ h, f ⟨slot, h⟩ = onHeap g ⟨slot, h⟩

namespace Lifts

variable {slot : Slot → V}

lemma pure (a : A) : Lifts slot (pure a : Computation V H X A) (pure a) :=
  fun _ => rfl

lemma onHeap (g : EStateM X H A) : Lifts slot (onHeap g) g :=
  fun _ => rfl

lemma bind {f : Computation V H X A} {g : EStateM X H A} {k : A → Computation V H X B}
    {l : A → EStateM X H B} (hf : Lifts slot f g)
    (hk : ∀ a h h', g h = .ok a h' → k a ⟨slot, h'⟩ = Machine.onHeap (l a) ⟨slot, h'⟩) :
    Lifts slot (f >>= k) (g >>= l) := by
  intro h
  rw [onHeap_bind]
  cases hg : g h with
  | ok a h' =>
    have hlift : Machine.onHeap g ⟨slot, h⟩ = .ok a ⟨slot, h'⟩ := by simp [Machine.onHeap, hg]
    rw [bind_of_ok ((hf h).trans hlift), bind_of_ok hlift, hk a h h' hg]
  | error x h' =>
    have hlift : Machine.onHeap g ⟨slot, h⟩ = .error x ⟨slot, h'⟩ := by simp [Machine.onHeap, hg]
    rw [bind_of_error ((hf h).trans hlift), bind_of_error hlift]

end Lifts

/-- A meaning on storage lifts the meaning in an environment on an expression, if it does on the
variables that it reads and does the operations of the machine. -/
lemma lifts_eval {sem : Evaluator (Computation V H X) V} {env : Env V} {slot : Slot → V}
    (htruth : sem.truth = m.truth) (e : Expr)
    (hnode : ∀ n : Expr, n.variableRead? = none → ∀ vs, sem.node n vs = onHeap (m.operation n vs))
    (hvar : ∀ id, (Expr.readVar id).IsNodeOf e → Lifts slot (sem.var id) (pure (env id))) :
    Lifts slot (sem.eval e) (m.value env e) := by
  have hrelated : Lifts slot (sem.eval e) (m.value env (e.subst Expr.readVar)) := by
    refine Evaluator.eval_related (R := Lifts slot) (fun a => .pure a)
      (fun hf hk => hf.bind fun a _ h' _ => hk a h') htruth e (fun n _ hn vs => ?_) fun id hid => ?_
    · rw [n.subst_readVar, hnode n hn, node_inEnv hn]
      exact .onHeap _
    · have hread : m.value env (.readVar id) = pure (env id) := by
        rw [value, Evaluator.eval]
        rfl
      rw [← value, hread]
      exact hvar id hid
  rwa [e.subst_readVar] at hrelated

section Environment

variable {env : Env V} {slot : Slot → V}

/-- On storage an expression does what it does in the environment of the variables. -/
lemma lifts_value {e : Expr} (he : e.allNodes (inScope vars.size) = true)
    (hslot : ∀ id v, vars.get? id = some v → slot (vars.slotOf id v) = env id) :
    Lifts slot ((m.onStore vars).eval e) (m.value env e) := by
  refine lifts_eval rfl e (fun n hn vs => node_onStore hn vs) fun id hid h => ?_
  have hscope := Expr.allNodes_of_isNodeOf he hid
  have hid' : id.index < vars.size := by simpa [inScope] using hscope
  obtain ⟨v, hv⟩ := VarTable.exists_get? hid'
  simp [onStore, VarTable.readSlot, hv, hslot id v hv, onHeap, pure, EStateM.pure]

/-- On storage expressions do what they do in the environment of the variables. -/
lemma lifts_values {es : List Expr} (hes : ∀ e ∈ es, e.allNodes (inScope vars.size) = true)
    (hslot : ∀ id v, vars.get? id = some v → slot (vars.slotOf id v) = env id) :
    Lifts slot ((m.onStore vars).evalAll es) (m.values env es) := by
  induction es with
  | nil =>
    rw [values, Evaluator.evalAll_nil, Evaluator.evalAll_nil]
    exact .pure _
  | cons e rest ih =>
    rw [values_cons, Evaluator.evalAll_cons]
    refine (lifts_value (hes e (by simp)) hslot).bind fun v _ h _ => ?_
    refine (ih fun a ha => hes a (by simp [ha])).bind (fun vs _ h' _ => ?_) h
    rfl

/-- An expression with pure effects returns a value and leaves the heap alone. -/
lemma value_of_isPure {e : Expr} {E : Effects} (he : e.allNodes (inScope vars.size) = true)
    (hE : e.effects vars = .ok E) (hpure : E.isPure = true) (env : Env V) (h : H) :
    ∃ v, m.value env e h = .ok v h := by
  obtain ⟨slot, hslot⟩ := exists_slots vars env (m.constant .null)
  obtain ⟨hreadonly, hthrows⟩ : E.isReadOnly = true ∧ E.throws = false := by
    simpa [Effects.isPure] using hpure
  have hrespects := Evaluator.respects_eval (fun n _ => m.soundAt_onStore vars n) hE
  obtain ⟨v, hv⟩ := hrespects.exists_ok hthrows ⟨slot, h⟩
  rw [hrespects.final_of_isReadOnly hreadonly, lifts_value he hslot h] at hv
  have hok : onHeap (m.value env e) ⟨slot, h⟩ = onHeap (pure v) ⟨slot, h⟩ := hv
  exact ⟨v, eq_of_onHeap_eq hok⟩

end Environment

/-! ## Substitution -/

/-- Where no locals are declared, every variable in scope is a parameter. -/
lemma mem_arguments {id : VarId} (hlocals : vars.locals = []) (hid : id.index < vars.size) :
    id ∈ vars.arguments := by
  have hmem := VarTable.mem_arguments_append_locals hid
  rwa [hlocals, List.append_nil] at hmem

/-- In a new frame a parameter holds the actual value of its position. -/
lemma newFrame_argument {actuals : List V} {id : VarId} {i : Nat} {v : V}
    (hi : vars.arguments.idxOf? id = some i) (hv : actuals[i]? = some v) :
    m.newFrame vars actuals id = v := by
  simp [newFrame, hi, hv]

/-- Evaluating the result of an accepted substitution is evaluating the arguments, and then the
expression that the callee returns in a new frame. -/
lemma value_inlined {callee : MethodBody} {args : List Expr} {e result : Expr} {env : Env V}
    (h : Substitution.inlined? vars callee.parameters args e = .ok (some result))
    (hlocals : callee.vars.locals = []) (hlength : callee.parameters.length = args.length)
    (he : e.allNodes (inScope callee.vars.size) = true)
    (hargs : ∀ a ∈ args, a.allNodes (inScope vars.size) = true)
    (hresult : result.allNodes (inScope vars.size) = true) :
    m.value env result =
      m.values env args >>= fun vs => m.value (m.newFrame callee.vars vs) e := by
  funext heap
  obtain ⟨slot, hslot⟩ := exists_slots vars env (m.constant .null)
  have hinlined : (m.onStore vars).eval result ⟨slot, heap⟩ =
      ((m.onStore vars).evalAll args >>= fun vs =>
        ((m.onStore vars).saved (fun id => callee.parameters.idxOf? id) args
          fun i => vs[i]?).eval e) ⟨slot, heap⟩ :=
    callee.eval_inlined h (fun n _ => m.soundAt_onStore vars n)
      (fun a _ n _ => m.soundAt_onStore vars n) _
  suffices hlift : onHeap (m.value env result) ⟨slot, heap⟩ =
      onHeap (m.values env args >>= fun vs => m.value (m.newFrame callee.vars vs) e)
        ⟨slot, heap⟩ from eq_of_onHeap_eq hlift
  rw [← lifts_value hresult hslot, hinlined]
  refine (lifts_values hargs hslot).bind (fun vs h₀ h' hvs => ?_) heap
  refine lifts_eval rfl e (fun n hn ws => ?_) (fun id hid => ?_) h'
  · -- replacing the parameters below a node does not change what it does
    rw [Evaluator.saved_node _ _ _ hn, node_onStore, operation_subst hn]
    rw [Expr.subst_eq_withParts hn, Expr.variableRead?_withParts, hn]
  · have hscope := Expr.allNodes_of_isNodeOf he hid
    have hmem : id ∈ callee.vars.arguments :=
      mem_arguments hlocals (by simpa [inScope] using hscope)
    obtain ⟨i, hi⟩ := Option.isSome_iff_exists.1 (List.isSome_idxOf?.2 hmem)
    obtain ⟨hlt, -, -⟩ := List.idxOf?_eq_some_iff.1 hi
    have hlt' : i < vs.length := by
      rw [length_of_values hvs, ← hlength]
      exact hlt
    have hv : vs[i]? = some vs[i] := List.getElem?_eq_getElem hlt'
    rw [Evaluator.saved_var_of_some _ _ _ hi, hv, newFrame_argument hi hv]
    exact .pure _

end Machine

end Inliner
