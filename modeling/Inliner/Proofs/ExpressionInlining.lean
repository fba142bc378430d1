import Inliner.Proofs.ArgumentMovement
import Inliner.Proofs.Slots
import Mathlib.Data.List.Forall2

/-!
# Inlining where only an expression can be built

Where no statement can be emitted, a call is replaced by the expression that the callee returns,
with the arguments in place of the parameters. The tracker accepts such a substitution only if the
arguments can be moved there. Here the movement of the pending arguments is completed: all arguments
are evaluated up front, the free ones because that is the same as saving their values, those that
are left out because evaluating them has no effect. So the result cannot be told apart from the call
(`eval_inlined`).
-/

namespace Inliner

variable {V H X : Type}

/-! ## All arguments up front -/

section Upfront

variable {sem : Evaluator (Computation V H X) V} {vars : VarTable} {args : List Expr}
  {effects : List Effects} {fin : List ArgState}

/-- Evaluating all arguments in order and saving them position by position. -/
lemma evalPending_range :
    sem.evalPending args (List.range args.length) (fun _ => none) =
      sem.evalAll args >>= fun vs => pure fun i => vs[i]? := by
  -- From any position on, with the values of the arguments before it saved already.
  have hsuffix : ∀ (before rest : List Expr) (ρ : Nat → Option V), args = before ++ rest →
      (∀ i, before.length ≤ i → ρ i = none) →
      sem.evalPending args (List.range' before.length rest.length) ρ =
        sem.evalAll rest >>= fun vs => pure fun i =>
          if i < before.length then ρ i else vs[i - before.length]? := by
    intro before rest
    induction rest generalizing before with
    | nil =>
      intro ρ _ hρ
      have hsame : ρ = fun i => if i < before.length then ρ i else none := by
        funext i
        split
        · rfl
        · exact hρ i (by omega)
      simp [Evaluator.evalPending, ← hsame]
    | cons a rest ih =>
      intro ρ heq hρ
      have ha : args.getD before.length (.const .null) = a := by simp [heq]
      have hnext := fun v => ih (before ++ [a]) (Function.update ρ before.length (some v))
        (by simp [heq]) fun i hi => by
          rw [Function.update_of_ne (by simp at hi; omega)]
          exact hρ i (by simp at hi; omega)
      have hlength : (before ++ [a]).length = before.length + 1 := by simp
      rw [List.length_cons, List.range'_succ, Evaluator.evalPending, ha, Evaluator.evalAll_cons]
      simp only [hlength] at hnext
      simp only [hnext, bind_assoc, pure_bind]
      refine congrArg _ (funext fun v => congrArg _ (funext fun vs => congrArg pure ?_))
      funext i
      rcases Nat.lt_trichotomy i before.length with hi | hi | hi
      · rw [if_pos (by omega), if_pos hi, Function.update_of_ne (by omega)]
      · subst hi
        simp
      · obtain ⟨d, rfl⟩ : ∃ d, i = before.length + 1 + d := ⟨i - (before.length + 1), by omega⟩
        rw [if_neg (by omega), if_neg (by omega)]
        have hd : before.length + 1 + d - before.length = d + 1 := by omega
        rw [hd, Nat.add_sub_cancel_left]
        rfl
  have hall := hsuffix [] args (fun _ => none) rfl fun _ _ => rfl
  rw [List.length_nil, ← List.range_eq_range'] at hall
  simpa using hall

/-- Free arguments need not be evaluated if their values are known, and arguments that are left out
need not be evaluated at all, if what follows does not look at them. -/
lemma evalPending_skip (hargs : ArgumentsSound sem vars args effects fin)
    (hlength : fin.length = args.length)
    (hdropped : ∀ {i : Nat} {a}, fin[i]? = some .pending → args[i]? = some a →
      ∀ s, ∃ v, sem.eval a s = .ok v s)
    {A : Type} {k : (Nat → Option V) → Computation V H X A}
    (hk : ∀ {ρ ρ'}, (∀ i : Nat, fin[i]? ≠ some .pending → ρ i = ρ' i) → k ρ = k ρ')
    {L : List Nat} (hL : ∀ i ∈ L, i < args.length) {ρ ρ' : Nat → Option V} {s : Store V H}
    (hagree : ∀ i : Nat, i ∉ L → fin[i]? ≠ some .pending → ρ i = ρ' i)
    (hfree : FreeSaved sem args fin ρ' s) :
    (sem.evalPending args L ρ >>= k) s =
      (sem.evalPending args (L.filter fun i => fin[i]? == some ArgState.placed) ρ' >>= k) s := by
  induction L generalizing ρ ρ' s with
  | nil =>
    simp only [List.filter_nil, Evaluator.evalPending, pure_bind]
    rw [hk fun i hi => hagree i (by simp) hi]
  | cons i rest ih =>
    have hlt : i < args.length := hL i (by simp)
    have ha : args[i]? = some args[i] := List.getElem?_eq_getElem hlt
    have hgetD : args.getD i (.const .null) = args[i] := by
      rw [List.getD_eq_getElem?_getD, ha, Option.getD_some]
    have hrest : ∀ j ∈ rest, j < args.length := fun j hj => hL j (by simp [hj])
    have hfin : fin[i]? = some fin[i] := List.getElem?_eq_getElem (hlength ▸ hlt)
    rw [Evaluator.evalPending, hgetD, bind_assoc]
    cases hstate : fin[i] with
    | placed =>
      rw [hstate] at hfin
      rw [List.filter_cons_of_pos (by simp [hfin]), Evaluator.evalPending, hgetD, bind_assoc]
      refine bind_congr_of_ok fun v s' hs => ih hrest (fun j hj hpending => ?_) ?_
      · by_cases hji : j = i
        · simp [hji]
        · rw [Function.update_of_ne hji, Function.update_of_ne hji]
          exact hagree j (by simp [hji, hj]) hpending
      · have hafter : FreeSaved sem args fin ρ' s' := hfree.after hargs fun p hp => by
          have := Evaluator.slot_eval (hargs.sound _ (List.getElem_mem hlt)) hp s
          rwa [hs, final_ok] at this
        intro j a hj haj
        have hji : j ≠ i := by
          rintro rfl
          rw [hfin] at hj
          cases hj
        rw [Function.update_of_ne hji]
        exact hafter j a hj haj
    | free =>
      rw [hstate] at hfin
      obtain ⟨v, hv, hs⟩ := hfree i _ hfin ha
      rw [List.filter_cons_of_neg (by simp [hfin]), bind_of_ok hs]
      refine ih hrest (fun j hj hpending => ?_) hfree
      by_cases hji : j = i
      · rw [hji, Function.update_self, hv]
      · rw [Function.update_of_ne hji]
        exact hagree j (by simp [hji, hj]) hpending
    | pending =>
      rw [hstate] at hfin
      obtain ⟨v, hs⟩ := hdropped hfin ha s
      rw [List.filter_cons_of_neg (by simp [hfin]), bind_of_ok hs]
      refine ih hrest (fun j hj hpending => ?_) hfree
      have hji : j ≠ i := by
        rintro rfl
        exact hpending hfin
      rw [Function.update_of_ne hji]
      exact hagree j (by simp [hji, hj]) hpending

end Upfront

/-! ## Accepted substitutions -/

/-- What is computed for every element of a list, if no element is at fault. -/
lemma forall₂_of_mapM_eq_ok {A B : Type} {f : A → Except Fault B} {as : List A} {bs : List B}
    (h : as.mapM f = .ok bs) : List.Forall₂ (fun a b => f a = .ok b) as bs := by
  induction as generalizing bs with
  | nil =>
    cases h
    exact .nil
  | cons a as ih =>
    rw [List.mapM_cons] at h
    cases ha : f a with
    | error fault =>
      rw [ha] at h
      cases h
    | ok b =>
      cases has : as.mapM f with
      | error fault =>
        rw [ha, has] at h
        cases h
      | ok rest =>
        rw [ha, has] at h
        cases h
        exact .cons ha (ih has)

/-- What is computed for one element. -/
lemma getElem?_of_mapM_eq_ok {A B : Type} {f : A → Except Fault B} {as : List A} {bs : List B}
    (h : as.mapM f = .ok bs) {i : Nat} {a : A} (ha : as[i]? = some a) :
    ∃ b, bs[i]? = some b ∧ f a = .ok b := by
  have hall := forall₂_of_mapM_eq_ok h
  obtain ⟨hi, rfl⟩ := List.getElem?_eq_some_iff.1 ha
  have hi' : i < bs.length := hall.length_eq ▸ hi
  exact ⟨bs[i], List.getElem?_eq_getElem hi', hall.get hi hi'⟩

/-- The tracker starts with the effects of the arguments; the values among them are free and all
others pending. -/
lemma ArgumentTracker.start_eq_ok {vars : VarTable} {parameters : List VarId} {args : List Expr}
    {t : ArgumentTracker} (h : start vars parameters args = .ok t) :
    t.parameters = parameters ∧ parameters.length = args.length ∧
      args.mapM (Expr.effects vars) = .ok t.effects ∧
      t.states = args.map (fun e => if e.isValue vars then .free else .pending) ∧
      t.failed = false := by
  unfold start at h
  by_cases hlength : parameters.length = args.length
  · rw [if_neg (by simpa using hlength)] at h
    cases heffects : args.mapM (Expr.effects vars) with
    | error fault =>
      simp only [heffects] at h
      cases h
    | ok effects =>
      simp only [heffects] at h
      cases h
      exact ⟨rfl, hlength, rfl, rfl, rfl⟩
  · rw [if_pos (by simpa using hlength)] at h
    cases h

/-- At the end no condition was violated, and what was left out neither writes nor raises. -/
lemma ArgumentTracker.finish_isOk {t : ArgumentTracker} (h : t.finish.isOk = true) :
    t.failed = false ∧ ∀ (i : Nat) E, t.states[i]? = some .pending → t.effects[i]? = some E →
      E.isReadOnly = true ∧ E.throws = false := by
  unfold finish at h
  cases hdrops : t.dropsEffects with
  | true =>
    rw [hdrops] at h
    cases h
  | false =>
    rw [hdrops] at h
    refine ⟨by simpa [isOk] using h, fun i E hpending hE => ?_⟩
    have hmem : (ArgState.pending, E) ∈ t.states.zip t.effects :=
      List.mem_of_getElem? (i := i) (by rw [List.getElem?_zip_eq_some]; exact ⟨hpending, hE⟩)
    have hnone := List.any_eq_false.1 hdrops _ hmem
    simp only [beq_self_eq_true, Bool.true_and, Bool.or_eq_true, Bool.not_eq_true', not_or,
      Bool.not_eq_false, Bool.not_eq_true] at hnone
    exact ⟨List.all_eq_true.1 hnone.1 E (List.mem_of_getElem? hE), hnone.2⟩

namespace Substitution

/-- An accepted substitution is a walk from the start without violation, and what it left out
neither writes nor raises. -/
lemma inlined?_eq_ok {vars : VarTable} {parameters : List VarId} {args : List Expr} {e result : Expr}
    (h : inlined? vars parameters args e = .ok (some result)) :
    ∃ t last, ArgumentTracker.start vars parameters args = .ok t ∧
      expr vars args e true ⟨t, .bottom vars.frame⟩ = .ok (result, last) ∧
      last.tracker.finish.isOk = true := by
  unfold inlined? run at h
  cases ht : ArgumentTracker.start vars parameters args with
  | error fault =>
    rw [ht] at h
    cases h
  | ok t =>
    rw [ht] at h
    change (expr vars args e true ⟨t, .bottom vars.frame⟩ >>= fun p => _) = _ at h
    cases hwalk : expr vars args e true ⟨t, .bottom vars.frame⟩ with
    | error fault =>
      rw [hwalk] at h
      cases h
    | ok p =>
      rw [hwalk] at h
      obtain ⟨result', last⟩ := p
      change Except.ok (if last.tracker.finish.isOk then some result' else none) = _ at h
      split at h
      · rename_i hok
        cases h
        exact ⟨t, last, rfl, hwalk, hok⟩
      · cases h

variable {sem : Evaluator (Computation V H X) V} {vars : VarTable} {parameters : List VarId}
  {args : List Expr} {pos : VarId → Option Nat} {e result : Expr}

/-- The arguments of an accepted substitution are sound if evaluating each of them is. -/
lemma argumentsSound_of_walk {t : ArgumentTracker} {st last : State}
    (ht : ArgumentTracker.start vars parameters args = .ok t) (hst : st.tracker = t)
    (hprogress : Progress st last) (hargs : ∀ a ∈ args, sem.SoundOn vars a) :
    ArgumentsSound sem vars args last.tracker.effects last.tracker.states := by
  obtain ⟨-, -, heffects, hstates, -⟩ := ArgumentTracker.start_eq_ok ht
  refine ⟨hargs, fun ha => ?_, fun {i a} hfree ha => ?_⟩
  · rw [hprogress.effects, hst]
    exact getElem?_of_mapM_eq_ok heffects ha
  · -- An argument that is free at the end was free at the start.
    have hstart : t.states[i]? = some (if a.isValue vars then .free else .pending) := by
      simp [hstates, ha]
    by_contra hvalue
    rw [if_neg hvalue] at hstart
    rcases hprogress.pending i (hst ▸ hstart) with h | ⟨h, -⟩ <;>
    · rw [hfree] at h
      cases h

/-- Some saved values are right for all free arguments. -/
lemma exists_freeSaved {effects : List Effects} {fin : List ArgState}
    (hargs : ArgumentsSound sem vars args effects fin) (s : Store V H) :
    ∃ ρ, FreeSaved sem args fin ρ s ∧ ∀ i, args.length ≤ i → ρ i = none := by
  have hvalue : ∀ i : Nat, ∃ o : Option V, (∀ a, fin[i]? = some .free → args[i]? = some a →
      ∃ v, o = some v ∧ sem.eval a s = .ok v s) ∧ (args.length ≤ i → o = none) := by
    intro i
    by_cases h : fin[i]? = some .free ∧ ∃ a, args[i]? = some a
    · obtain ⟨hfree, a, ha⟩ := h
      obtain ⟨v, hv, -⟩ := Evaluator.eval_eq_of_isValue (hargs.free hfree ha)
        (hargs.sound a (List.mem_of_getElem? ha)) fun p _ => (rfl : s.slot p = s.slot p)
      refine ⟨some v, fun b _ hb => ⟨v, rfl, ?_⟩, fun hi => ?_⟩
      · rw [ha] at hb
        cases hb
        exact hv
      · rw [List.getElem?_eq_none hi] at ha
        cases ha
    · exact ⟨none, fun a hfree ha => absurd ⟨hfree, a, ha⟩ h, fun _ => rfl⟩
  choose ρ hρ hnone using hvalue
  exact ⟨ρ, fun i a hfree ha => hρ i a hfree ha, hnone⟩

/-- At the start of a walk, the arguments that will be placed are all pending. -/
lemma filter_placed_eq_pendingOf {t : ArgumentTracker} {st last : State}
    (ht : ArgumentTracker.start vars parameters args = .ok t) (hst : st.tracker = t)
    (hprogress : Progress st last) :
    (List.range args.length).filter (fun i => last.tracker.states[i]? == some ArgState.placed) =
      pendingOf args last.tracker.states st.tracker.states := by
  obtain ⟨-, -, -, hstates, -⟩ := ArgumentTracker.start_eq_ok ht
  refine List.filter_congr fun i hi => ?_
  have hlt : i < args.length := List.mem_range.1 hi
  have hstart : st.tracker.states[i]? = some .free ∨ st.tracker.states[i]? = some .pending := by
    rw [hst, hstates, List.getElem?_map, List.getElem?_eq_getElem hlt]
    by_cases hvalue : args[i].isValue vars = true <;> simp [hvalue]
  rcases hstart with hfree | hpending
  · rw [hprogress.kept i (by rw [hfree]; decide)]
    simp [hfree]
  · simp [hpending]

/-- At the end of a walk, no argument that was placed is pending. -/
lemma pendingOf_self (fin : List ArgState) : pendingOf args fin fin = [] := by
  refine List.filter_eq_nil_iff.2 fun i _ => ?_
  cases fin[i]? with
  | none => simp
  | some state => cases state <;> simp

/-- Evaluating the result of an accepted substitution is evaluating all arguments from left to
right, and then the callee's expression with the saved values. -/
lemma eval_inlined
    (hpos : ∀ {t : ArgumentTracker}, t.parameters = parameters → ∀ id, t.position? id = pos id)
    (h : inlined? vars parameters args e = .ok (some result)) (hsound : sem.SoundOn vars result)
    (hargs : ∀ a ∈ args, sem.SoundOn vars a) (s : Store V H) :
    sem.eval result s =
      (sem.evalAll args >>= fun vs => (sem.saved pos args fun i => vs[i]?).eval e) s := by
  obtain ⟨t, last, ht, hwalk, hfinish⟩ := inlined?_eq_ok h
  obtain ⟨hparameters, -, -, hstates, -⟩ := ArgumentTracker.start_eq_ok ht
  obtain ⟨hok, hdropped⟩ := ArgumentTracker.finish_isOk hfinish
  have hpos' := hpos hparameters
  have hprogress := progress_expr hwalk hok
  have hA := argumentsSound_of_walk ht rfl hprogress hargs
  have hmoves := moves_expr hwalk hpos' (.refl hok) hA hsound
  obtain ⟨ρ, hρ, hρnone⟩ := exists_freeSaved hA s
  have hlength : last.tracker.states.length = args.length := by
    rw [hprogress.length_states, hstates, List.length_map]
  calc sem.eval result s
      = ((sem.placing pos args).eval e ρ >>= fun p => pure p.1) s := by
        rw [sem.erases_placing pos args e ρ, expr_eq_subst hpos' hwalk hok]
    _ = (((sem.placing pos args).eval e ρ >>= fun p => sem.evalPending args [] p.2 >>= fun ρ' =>
          pure (p.1, ρ')) >>= fun q => pure q.1) s := by simp [Evaluator.evalPending]
    _ = ((sem.evalPending args (pendingOf args last.tracker.states t.states) ρ >>= fun ρ' =>
          (sem.saved pos args ρ').eval e >>= fun v => pure (v, ρ')) >>= fun q => pure q.1) s := by
        have heq := hmoves.eq hρ
        rw [pendingOf_self] at heq
        change EStateM.bind _ _ s = EStateM.bind _ _ s
        simp only [EStateM.bind, heq]
    _ = (sem.evalPending args (pendingOf args last.tracker.states t.states) ρ >>= fun ρ' =>
          (sem.saved pos args ρ').eval e) s := by simp
    _ = (sem.evalPending args (List.range args.length) (fun _ => none) >>= fun ρ' =>
          (sem.saved pos args ρ').eval e) s := by
        have hpending := filter_placed_eq_pendingOf ht rfl hprogress
        rw [← hpending]
        refine (evalPending_skip hA hlength (fun {i a} hi ha s => ?_) (fun {ρ₁ ρ₂} hagree => ?_)
          (fun i hi => List.mem_range.1 hi) (fun i hi _ => ?_) hρ).symm
        · -- What was left out neither writes nor raises.
          obtain ⟨E, hE, heffects⟩ := hA.effects_of ha
          obtain ⟨hreadonly, hthrows⟩ := hdropped i E hi hE
          have hrespects := Evaluator.respects_eval (hargs a (List.mem_of_getElem? ha)) heffects
          obtain ⟨v, hv⟩ := hrespects.exists_ok hthrows s
          exact ⟨v, by rw [hv, hrespects.final_of_isReadOnly hreadonly]⟩
        · refine sem.eval_saved_congr pos args fun id hid => ?_
          obtain ⟨i, hi, hstate⟩ := not_pending_of_isNodeOf hpos' hwalk hok hid
          simp [hi, hagree i hstate]
        · exact (hρnone i (by simpa using hi)).symm
    _ = (sem.evalAll args >>= fun vs => (sem.saved pos args fun i => vs[i]?).eval e) s := by
        rw [evalPending_range]
        simp

end Substitution

/-! ## Calls in expressions -/

/-- In a list without repetitions a parameter has one position. -/
lemma ArgumentTracker.position?_eq_idxOf? {t : ArgumentTracker} (h : t.parameters.Nodup)
    (id : VarId) : t.position? id = t.parameters.idxOf? id := by
  unfold position?
  generalize hfind : List.find? _ t.parameters.zipIdx.reverse = found
  cases found with
  | none =>
    have hnot : id ∉ t.parameters := by
      intro hmem
      obtain ⟨i, hi⟩ := List.getElem?_of_mem hmem
      have := List.find?_eq_none.1 hfind (id, i)
        (List.mem_reverse.2 (List.mem_zipIdx_iff_getElem?.2 hi))
      simp at this
    rw [Option.map_none, List.idxOf?_eq_none_iff.2 hnot]
  | some q =>
    obtain ⟨p, i⟩ := q
    have hp : p = id := by simpa using List.find?_some hfind
    have hi : t.parameters[i]? = some p :=
      List.mem_zipIdx_iff_getElem?.1 (List.mem_reverse.1 (List.mem_of_find?_eq_some hfind))
    subst hp
    obtain ⟨hlt, hget⟩ := List.getElem?_eq_some_iff.1 hi
    refine (List.idxOf?_eq_some_iff.2 ⟨hlt, hget, fun j hj hjget => ?_⟩).symm
    exact Nat.ne_of_lt hj ((List.Nodup.getElem_inj_iff h).1 (hjget.trans hget.symm))

/-- What an accepted substitution for the parameters of a method means. -/
lemma MethodBody.eval_inlined (callee : MethodBody) {vars : VarTable} {args : List Expr}
    {e result : Expr} {sem : Evaluator (Computation V H X) V}
    (h : Substitution.inlined? vars callee.parameters args e = .ok (some result))
    (hresult : sem.SoundOn vars result) (hargs : ∀ a ∈ args, sem.SoundOn vars a) (s : Store V H) :
    sem.eval result s = (sem.evalAll args >>= fun vs =>
      (sem.saved (fun id => callee.parameters.idxOf? id) args fun i => vs[i]?).eval e) s := by
  refine Substitution.eval_inlined (fun {t} ht id => ?_) h hresult hargs s
  rw [← ht]
  exact ArgumentTracker.position?_eq_idxOf? (ht ▸ callee.vars.nodup_idsOf .argument) id

/-- A substitution that was made was accepted. -/
lemma Pass.substitute_eq_ok {location : Nat} {callee : MethodBody} {args : List Expr}
    {scope scope' : Scope} {e result : Expr} (hcallee : callee.stmts = [.ret (some e)])
    (h : substitute location callee args scope = .ok (some result) scope') :
    Substitution.inlined? scope.vars callee.parameters args e = .ok (some result) ∧
      scope' = scope := by
  have hsingle : callee.singleReturn? = some e := by simp [MethodBody.singleReturn?, hcallee]
  unfold substitute at h
  rw [hsingle] at h
  simp only at h
  split at h
  · cases h
  · obtain ⟨scope₁, scope₂, hget, h⟩ := exists_of_bind_eq_ok h
    cases hget
    obtain ⟨r, scope₃, hr, h⟩ := exists_of_bind_eq_ok h
    cases hinlined : Substitution.inlined? scope.vars callee.parameters args e with
    | error fault =>
      rw [hinlined] at hr
      cases hr
    | ok r' =>
      rw [hinlined] at hr
      cases hr
      cases r with
      | none => cases h
      | some result' =>
        cases h
        exact ⟨rfl, rfl⟩

/-- Where only an expression can be built, inlining cannot be observed. Let a call be replaced by
the expression `result` because the callee just returns `e`. Take any meaning of expressions on
storage whose operations do no more than their effects say and leave unshared variables alone, at
every node of the result and of the arguments; an argument that was left out is no part of the
result. Then evaluating the result gives the same value or exception and the same final store as
evaluating all arguments from left to right and then `e`, every parameter having the value that was
saved for it. -/
theorem eval_substitute_eq_eval_call {location : Nat} {callee : MethodBody} {args : List Expr}
    {scope scope' : Scope} {e result : Expr} (hcallee : callee.stmts = [.ret (some e)])
    (h : Pass.substitute location callee args scope = .ok (some result) scope')
    (sem : Evaluator (Computation V H X) V) (hresult : sem.SoundOn scope.vars result)
    (hargs : ∀ a ∈ args, sem.SoundOn scope.vars a) (s : Store V H) :
    sem.eval result s = (do
      let values ← sem.evalAll args
      (sem.saved (fun id => callee.parameters.idxOf? id) args fun i => values[i]?).eval e) s := by
  obtain ⟨hinlined, -⟩ := Pass.substitute_eq_ok hcallee h
  exact callee.eval_inlined hinlined hresult hargs s

/-! ## A meaning with raising fields -/

/-- Operations on numbers. Reading a field of `0` raises; reading one of another number adds it to
the heap. What is not listed gives `0`. -/
def fieldOperation : Expr → List Int → Computation Int Int String Int
  | .const (.int k), _ => pure k
  | .read (.field _ _), [object] => fun s =>
    if object = 0 then .error "null" s else .ok (s.heap + object) s
  | .binary .sub _ _, [a, b] => pure (a - b)
  | .binary .mul _ _, [a, b] => pure (a * b)
  | _, _ => pure 0

/-- A meaning with numbers as values and on the heap. -/
def fieldSemantics (vars : VarTable) : Evaluator (Computation Int Int String) Int where
  var id := fun s => .ok ((vars.get? id).elim 0 fun v => s.slot (vars.slotOf id v)) s
  op := fieldOperation
  truth v := v ≠ 0

/-- Only the reading of a field is more than a constant computation. -/
lemma fieldOperation_cases (n : Expr) (vs : List Int) :
    (∃ k, fieldOperation n vs = pure k) ∨
      ∃ object member k, n = .read (.field object member) ∧ fieldOperation n vs = fun s =>
        if k = 0 then .error "null" s else .ok (s.heap + k) s := by
  fun_cases fieldOperation n vs
  · exact .inl ⟨_, rfl⟩
  · exact .inr ⟨_, _, _, rfl, rfl⟩
  · exact .inl ⟨_, rfl⟩
  · exact .inl ⟨_, rfl⟩
  · exact .inl ⟨_, rfl⟩

/-- Every operation on numbers respects the own effects of its node. -/
lemma respects_fieldOperation {vars : VarTable} {n : Expr} {E : Effects}
    (hE : Effects.ofSteps vars.frame (n.ownSteps vars) = .ok E) (vs : List Int) :
    Respects E (fieldOperation n vs) := by
  rcases fieldOperation_cases n vs with ⟨k, hk⟩ | ⟨object, member, k, rfl, hk⟩
  · rw [hk]
    exact .pure k
  · have hstep : .ok (.onHeap vars.frame .read true) ∈
        (Expr.read (.field object member)).ownSteps vars := by
      simp [Expr.ownSteps, Cell.accessSteps]
    obtain ⟨d, hd, hwithin⟩ := Effects.within_ofSteps hE hstep
    cases hd
    rw [hk]
    refine .of_final_eq (fun s => ?_) (fun {s t} hst => ?_) fun _ => hwithin.throws rfl
    · by_cases hzero : k = 0 <;> simp [hzero]
    · have hheap := hst.heap (Access.ne_untouched_of_rank_le hwithin.heap (by simp [Effects.onHeap]))
      by_cases hzero : k = 0 <;> simp [hzero, hheap]

/-- The meaning is sound at every node. -/
lemma soundAt_fieldSemantics (vars : VarTable) (n : Expr) :
    (fieldSemantics vars).SoundAt vars n := by
  cases hread : n.variableRead? with
  | none =>
    refine ⟨fun hE vs => ?_, fun _ vs s => ?_⟩
    · rw [Evaluator.node_of_not_read _ hread]
      exact respects_fieldOperation hE vs
    · rw [Evaluator.node_of_not_read _ hread]
      change (final (fieldOperation n vs s)).slot _ = _
      rcases fieldOperation_cases n vs with ⟨k, hk⟩ | ⟨object, member, k, -, hk⟩
      · rw [hk]
        rfl
      · rw [hk]
        by_cases hzero : k = 0 <;> simp [hzero]
  | some id =>
    obtain rfl := Expr.eq_readVar hread
    exact ⟨fun hE _ => VarTable.respects_readSlot hE 0, fun _ _ _ => rfl⟩

/-- A callee with two parameters that returns `(a - 1) * b`. -/
def productCallee : MethodBody :=
  ⟨⟨⟨"lib", "Sample", false⟩, "product", 2, true⟩, false,
    (VarTable.empty.declareArgument "a" ⟨"lib", "Int", false⟩).declareArgument "b"
      ⟨"lib", "Int", false⟩,
    [.ret (some (.binary .mul (.binary .sub (.readVar ⟨0⟩) (.const (.int 1))) (.readVar ⟨1⟩)))]⟩

/-- The scope of a caller with two locals. -/
def twoLocalsScope : Scope :=
  .root ⟨⟨"lib", "Sample", false⟩, "caller", 0, true⟩
    ((VarTable.empty.declareLocal "x" ⟨"lib", "Int", false⟩ {}).declareLocal "y"
      ⟨"lib", "Int", false⟩ {}) []

/-- The field of a local of the caller. -/
def fieldOfLocal (i : Nat) : Expr :=
  .read (.field (.readVar ⟨i⟩) ⟨⟨"lib", "Sample", false⟩, "f"⟩)

/-- Two arguments that read the heap and may raise are moved into the callee in order, past its
subtraction; whichever of them raises first, and whatever is on the heap, the outcome is that of the
call. -/
theorem eval_product_eq_eval_call :
    Pass.substitute 0 productCallee [fieldOfLocal 0, fieldOfLocal 1] twoLocalsScope =
        .ok (some (.binary .mul (.binary .sub (fieldOfLocal 0) (.const (.int 1))) (fieldOfLocal 1)))
          twoLocalsScope ∧
      ∀ s : Store Int Int,
        (fieldSemantics twoLocalsScope.vars).eval
            (.binary .mul (.binary .sub (fieldOfLocal 0) (.const (.int 1))) (fieldOfLocal 1)) s =
          (do
            let values ← (fieldSemantics twoLocalsScope.vars).evalAll [fieldOfLocal 0, fieldOfLocal 1]
            ((fieldSemantics twoLocalsScope.vars).saved
              (fun id => productCallee.parameters.idxOf? id) [fieldOfLocal 0, fieldOfLocal 1]
              fun i => values[i]?).eval
              (.binary .mul (.binary .sub (.readVar ⟨0⟩) (.const (.int 1))) (.readVar ⟨1⟩))) s := by
  have hsubstitute : Pass.substitute 0 productCallee [fieldOfLocal 0, fieldOfLocal 1]
      twoLocalsScope =
        .ok (some (.binary .mul (.binary .sub (fieldOfLocal 0) (.const (.int 1))) (fieldOfLocal 1)))
          twoLocalsScope := rfl
  refine ⟨hsubstitute, fun s => eval_substitute_eq_eval_call rfl hsubstitute _ ?_ ?_ s⟩
  · exact fun n _ => soundAt_fieldSemantics _ n
  · exact fun _ _ n _ => soundAt_fieldSemantics _ n

/-! ## Arguments that are left out -/

/-- Reading a static field raises, as if it could not be initialized. What is not listed gives
`0`. -/
def staticOperation : Expr → List Int → Computation Int Int String Int
  | .const (.int k), _ => pure k
  | .read (.static _), _ => fun s => .error "uninitialized" s
  | _, _ => pure 0

/-- A meaning in which static fields cannot be read. -/
def staticSemantics (vars : VarTable) : Evaluator (Computation Int Int String) Int where
  var id := fun s => .ok ((vars.get? id).elim 0 fun v => s.slot (vars.slotOf id v)) s
  op := staticOperation
  truth v := v ≠ 0

/-- No operation changes anything. -/
lemma final_node_staticSemantics (vars : VarTable) (n : Expr) (vs : List Int) (s : Store Int Int) :
    final ((staticSemantics vars).node n vs s) = s := by
  cases hread : n.variableRead? with
  | none =>
    rw [Evaluator.node_of_not_read _ hread]
    change final (staticOperation n vs s) = s
    fun_cases staticOperation n vs <;> rfl
  | some id =>
    obtain rfl := Expr.eq_readVar hread
    rfl

/-- A constant is sound under this meaning, since it has no other node. -/
lemma soundOn_const_staticSemantics (vars : VarTable) (k : Int) :
    (staticSemantics vars).SoundOn vars (.const (.int k)) := by
  rintro n (_ | ⟨hpart, _⟩)
  · exact ⟨fun _ _ => .pure k, fun _ _ _ => rfl⟩
  · cases hpart

/-- A callee that does not use its parameter. -/
def ignoringCallee : MethodBody :=
  ⟨⟨⟨"lib", "Sample", false⟩, "ignore", 1, true⟩, false,
    VarTable.empty.declareArgument "a" ⟨"lib", "Int", false⟩, [.ret (some (.const (.int 1)))]⟩

/-- The value of a static field. -/
def limitRead : Expr :=
  .read (.static ⟨⟨"lib", "Config", false⟩, "limit"⟩)

/-- That the operations in the result do no more than their effects say is not enough, even if no
operation at all changes an unshared variable: an argument that was left out is no part of the
result, and may raise. -/
theorem not_forall_eval_substitute_eq_eval_call :
    ¬ ∀ (location : Nat) (callee : MethodBody) (args : List Expr) (scope scope' : Scope)
      (e result : Expr), callee.stmts = [.ret (some e)] →
      Pass.substitute location callee args scope = .ok (some result) scope' →
      ∀ sem : Evaluator (Computation Int Int String) Int, sem.SoundOn scope.vars result →
      (∀ n p, scope.vars.IsUnshared p → ∀ vs s, (final (sem.node n vs s)).slot p = s.slot p) →
      ∀ s : Store Int Int, sem.eval result s = (do
        let values ← sem.evalAll args
        (sem.saved (fun id => callee.parameters.idxOf? id) args fun i => values[i]?).eval e) s := by
  intro h
  have hsubstitute : Pass.substitute 0 ignoringCallee [limitRead] twoLocalsScope =
      .ok (some (.const (.int 1))) twoLocalsScope := rfl
  have heval := h 0 ignoringCallee [limitRead] twoLocalsScope twoLocalsScope _ _ rfl hsubstitute
    (staticSemantics twoLocalsScope.vars) (soundOn_const_staticSemantics _ 1)
    (fun n p _ vs s => by rw [final_node_staticSemantics]) ⟨fun _ => 0, 0⟩
  cases heval

end Inliner
