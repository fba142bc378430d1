import Inliner.Proofs.Accumulation
import Inliner.Proofs.LegalOccurrences

/-!
# Effects on their own and joined with others

The steps of a term are joined one by one into what was accumulated before. What comes in from there
is not looked at: accumulating from any start is accumulating from nothing and then joining the
result to the start (`Effects.accumulate_eq`), and the first fault is the same. The only condition is
that the start has all slots of the frame, because a term without steps does not add any.

A substitution walk adds up effects in another way. It goes through the expression that a callee
returns, accounts for the operation of every node that it rebuilds, and leaves out the arguments that
it puts in. Nothing is lost by that: `Accounts` says that what was done before the walk, joined with
the steps of what the walk has built, is what is done after the walk, joined with the effects of the
arguments that were placed. Each node keeps this balance, whether the arguments may be moved or not.
-/

namespace Inliner

/-! ## Accumulators -/

namespace Frame

/-- The frame has all slots of `g`. -/
def Covers (f g : Frame) : Prop :=
  g.args ≤ f.args ∧ g.locals ≤ f.locals

instance (f g : Frame) : Decidable (f.Covers g) :=
  inferInstanceAs (Decidable (_ ∧ _))

/-- Joining with a covered frame changes nothing. -/
lemma Covers.sup_eq {f g : Frame} (h : f.Covers g) : f.sup g = f := by
  unfold sup
  rw [Nat.max_eq_left h.1, Nat.max_eq_left h.2]

/-- A larger frame covers what a smaller one does. -/
lemma Covers.sup {f g : Frame} (h : f.Covers g) (f' : Frame) : (f.sup f').Covers g :=
  ⟨h.1.trans (Nat.le_max_left _ _), h.2.trans (Nat.le_max_left _ _)⟩

end Frame

namespace Effects

variable {acc : Effects} {f : Frame}

/-- No effects in a frame. -/
@[simp] lemma frame_bottom (f : Frame) : (bottom f).frame = f := by
  simp [frame, bottom]

/-- Joining no effects changes nothing, if there are no new slots. -/
lemma absorb_bottom (h : acc.frame.Covers f) : acc.absorb (bottom f) = acc := by
  apply eq_of_slotAccess
  · rw [frame_absorb, frame_bottom, h.sup_eq]
  · intro p
    rw [slotAccess_absorb, slotAccess_bottom]
    cases acc.slotAccess p <;> rfl
  · rw [heap_absorb, heap_bottom]
    cases acc.heap <;> rfl
  · rw [throws_absorb, throws_bottom, Bool.or_false]

/-- What was joined to the start beforehand could as well be joined to the result. -/
lemma accumulate_absorb (acc e : Effects) (steps : List Step) :
    (acc.absorb e).accumulate steps =
      (acc.absorb (e.accumulate steps).1, (e.accumulate steps).2) := by
  induction steps generalizing e with
  | nil => rfl
  | cons step steps ih =>
    cases step with
    | error fault => rfl
    | ok d =>
      rw [accumulate, accumulate, absorb_assoc]
      exact ih (e.absorb d)

/-- Accumulating from any start joins to it what is accumulated from nothing. -/
lemma accumulate_eq (h : acc.frame.Covers f) (steps : List Step) :
    acc.accumulate steps =
      (acc.absorb ((bottom f).accumulate steps).1, ((bottom f).accumulate steps).2) := by
  have hstart := accumulate_absorb acc (bottom f) steps
  rwa [absorb_bottom h] at hstart

/-- The fault of an evaluation is that of the first step at fault. -/
lemma ofSteps_eq_error {f : Frame} {steps : List Step} {fault : Fault} :
    ofSteps f steps = .error fault ↔ ((bottom f).accumulate steps).2 = some fault := by
  unfold ofSteps
  cases (bottom f).accumulate steps with
  | mk acc fault? => cases fault? <;> simp

/-- The steps of a term that has the effects `alone` on its own, joined into `acc`. -/
structure JoinsInto (acc : Effects) (steps : List Step) (alone : Except Fault Effects) : Prop where
  succeeds_iff : (acc.accumulate steps).2 = none ↔ ∃ E, alone = .ok E
  fault_iff : ∀ fault, (acc.accumulate steps).2 = some fault ↔ alone = .error fault
  joined : ∀ E, alone = .ok E → (acc.accumulate steps).1 = acc.absorb E

/-- Steps may be joined on their own and then into what was there before. -/
lemma joinsInto_of_covers (h : acc.frame.Covers f) (steps : List Step) :
    JoinsInto acc steps (ofSteps f steps) := by
  have hacc := accumulate_eq h steps
  refine ⟨?_, fun fault => ?_, fun E hE => ?_⟩
  · rw [hacc]
    simp [ofSteps_eq_ok]
  · rw [hacc, ofSteps_eq_error]
  · obtain ⟨-, rfl⟩ := ofSteps_eq_ok.1 hE
    rw [hacc]

/-- Steps that have effects on their own, joined into an accumulator. -/
lemma accumulate_of_ofSteps (h : acc.frame.Covers f) {steps : List Step} {E : Effects}
    (hE : ofSteps f steps = .ok E) : acc.accumulate steps = (acc.absorb E, none) := by
  have hjoins := joinsInto_of_covers h steps
  exact Prod.ext (hjoins.joined E hE) (hjoins.succeeds_iff.2 ⟨E, hE⟩)

instance : RightCommutative absorb where
  right_comm a b c := by
    rw [absorb_assoc, absorb_comm b c, ← absorb_assoc]

/-- Effects that were joined to the start can be joined to the result instead. -/
lemma accumulate_foldl_absorb (acc : Effects) (Es : List Effects) (steps : List Step) :
    (Es.foldl absorb acc).accumulate steps =
      (Es.foldl absorb (acc.accumulate steps).1, (acc.accumulate steps).2) := by
  induction Es generalizing acc with
  | nil => rfl
  | cons E Es ih =>
    rw [List.foldl_cons, ih, absorb_comm acc E, accumulate_absorb, List.foldl_cons,
      absorb_comm E]

/-- What was absorbed first may be absorbed last. -/
lemma foldl_absorb_absorb (d e : Effects) (Es : List Effects) :
    Es.foldl absorb (d.absorb e) = d.absorb (Es.foldl absorb e) := by
  induction Es generalizing e with
  | nil => rfl
  | cons E Es ih => rw [List.foldl_cons, List.foldl_cons, absorb_assoc, ih]

/-- Accumulating steps does not shrink the frame. -/
lemma covers_accumulate (h : acc.frame.Covers f) (steps : List Step) :
    (acc.accumulate steps).1.frame.Covers f := by
  induction steps generalizing acc with
  | nil => exact h
  | cons step steps ih =>
    cases step with
    | error fault => exact h
    | ok e =>
      refine ih ?_
      rw [frame_absorb]
      exact h.sup _

/-- No effects in a frame cover the frame. -/
lemma covers_bottom (f : Frame) : (bottom f).frame.Covers f := by
  rw [frame_bottom]
  exact ⟨Nat.le_refl _, Nat.le_refl _⟩

/-- The effects of steps cover the frame of the table. -/
lemma covers_of_ofSteps {steps : List Step} {E : Effects} (h : ofSteps f steps = .ok E) :
    E.frame.Covers f := by
  obtain ⟨-, rfl⟩ := ofSteps_eq_ok.1 h
  exact covers_accumulate (covers_bottom f) steps

/-- Two lists of steps, one after the other, have their effects joined. -/
lemma ofSteps_append_eq_ok {steps steps' : List Step} {E : Effects} :
    ofSteps f (steps ++ steps') = .ok E ↔
      ∃ A B, ofSteps f steps = .ok A ∧ ofSteps f steps' = .ok B ∧ E = A.absorb B := by
  constructor
  · intro h
    obtain ⟨hnone, hE⟩ := ofSteps_eq_ok.1 h
    rw [accumulate_append] at hnone hE
    cases hfirst : ((bottom f).accumulate steps).2 with
    | some fault =>
      rw [hfirst] at hnone
      dsimp only at hnone
      rw [hfirst] at hnone
      cases hnone
    | none =>
      have hA := ofSteps_eq_ok.2 ⟨hfirst, rfl⟩
      rw [hfirst] at hnone hE
      have hjoins := joinsInto_of_covers (covers_of_ofSteps hA) steps'
      obtain ⟨B, hB⟩ := hjoins.succeeds_iff.1 hnone
      exact ⟨_, B, hA, hB, hE.symm.trans (hjoins.joined B hB)⟩
  · rintro ⟨A, B, hA, hB, rfl⟩
    have hrest := accumulate_of_ofSteps (covers_of_ofSteps hA) hB
    obtain ⟨hfirst, rfl⟩ := ofSteps_eq_ok.1 hA
    rw [ofSteps_eq_ok, accumulate_append, hfirst]
    dsimp only
    rw [hrest]
    exact ⟨rfl, rfl⟩

end Effects

/-! ## Parts of terms -/

namespace Expr

/-- Several expressions, one after the other, have their effects joined. -/
lemma ofSteps_allSteps_eq_ok (vars : VarTable) {es : List Expr} {E : Effects} :
    Effects.ofSteps vars.frame (allSteps vars es) = .ok E ↔
      ∃ Es, List.Forall₂ (fun a A => a.effects vars = .ok A) es Es ∧
        E = Es.foldl Effects.absorb (.bottom vars.frame) := by
  induction es generalizing E with
  | nil =>
    rw [allSteps, Effects.ofSteps_eq_ok]
    constructor
    · rintro ⟨-, rfl⟩
      exact ⟨[], .nil, rfl⟩
    · rintro ⟨Es, hEs, rfl⟩
      cases hEs
      exact ⟨rfl, rfl⟩
  | cons e rest ih =>
    have hjoin : ∀ (A : Effects) (Es : List Effects),
        A.absorb (Es.foldl Effects.absorb (.bottom vars.frame)) =
          (A :: Es).foldl Effects.absorb (.bottom vars.frame) := by
      intro A Es
      rw [← Effects.foldl_absorb_absorb, List.foldl_cons, Effects.absorb_comm]
    rw [allSteps, Effects.ofSteps_append_eq_ok]
    constructor
    · rintro ⟨A, B, hA, hB, rfl⟩
      obtain ⟨Es, hEs, rfl⟩ := ih.1 hB
      exact ⟨A :: Es, .cons hA hEs, hjoin A Es⟩
    · rintro ⟨_, hall, rfl⟩
      obtain ⟨A, Es, hA, hEs, rfl⟩ := List.forall₂_cons_left_iff.1 hall
      exact ⟨A, _, hA, ih.2 ⟨Es, hEs, rfl⟩, (hjoin A Es).symm⟩

/-- An expression has the effects of its parts joined with those of its own operation. -/
lemma effects_eq_ok_iff (vars : VarTable) {e : Expr} {E : Effects} :
    e.effects vars = .ok E ↔
      ∃ Es O, List.Forall₂ (fun a A => a.effects vars = .ok A) e.parts Es ∧
        Effects.ofSteps vars.frame (e.ownSteps vars) = .ok O ∧
        E = (Es.foldl Effects.absorb (.bottom vars.frame)).absorb O := by
  rw [effects, steps_eq, Effects.ofSteps_append_eq_ok]
  constructor
  · rintro ⟨A, O, hA, hO, rfl⟩
    obtain ⟨Es, hEs, rfl⟩ := (ofSteps_allSteps_eq_ok vars).1 hA
    exact ⟨Es, O, hEs, hO, rfl⟩
  · rintro ⟨Es, O, hEs, hO, rfl⟩
    exact ⟨_, O, (ofSteps_allSteps_eq_ok vars).2 ⟨Es, hEs, rfl⟩, hO, rfl⟩

end Expr

/-! ## Variables that are read -/

mutual

/-- The variables that are read in the operands of a cell, in evaluation order. -/
def Cell.operandReads : Cell → List VarId
  | .var _ => []
  | .field object _ => object.variablesRead
  | .static _ => []
  | .element array index => array.variablesRead ++ index.variablesRead
  | .deref pointer => pointer.variablesRead

/-- The variables that an expression reads, once for each time, in evaluation order. -/
def Expr.variablesRead : Expr → List VarId
  | .const _ => []
  | .read (.var id) => [id]
  | .read cell => cell.operandReads
  | .addressOf cell => cell.operandReads
  | .unary _ operand => operand.variablesRead
  | .binary _ left right => left.variablesRead ++ right.variablesRead
  | .logical _ left right => left.variablesRead ++ right.variablesRead
  | .conditional cond onTrue onFalse =>
    cond.variablesRead ++ (onTrue.variablesRead ++ onFalse.variablesRead)
  | .call _ args => Expr.allVariablesRead args
  | .callOn _ receiver args => receiver.variablesRead ++ Expr.allVariablesRead args
  | .construct _ args => Expr.allVariablesRead args
  | .marshalOut value => value.variablesRead
  | .marshalIn value => value.variablesRead

/-- The variables that several expressions read. -/
def Expr.allVariablesRead : List Expr → List VarId
  | [] => []
  | e :: rest => e.variablesRead ++ Expr.allVariablesRead rest

end

/-- The operands of a cell read what its parts do. -/
lemma Cell.operandReads_eq (c : Cell) : c.operandReads = Expr.allVariablesRead c.parts := by
  cases c <;> simp [operandReads, parts, Expr.allVariablesRead]

/-- A node that is no variable reads what its parts read. -/
lemma Expr.variablesRead_eq {e : Expr} (h : e.variableRead? = none) :
    e.variablesRead = allVariablesRead e.parts := by
  cases e with
  | read c =>
    cases c with
    | var id => cases h
    | _ => simp [variablesRead, parts, Cell.operandReads_eq]
  | _ => simp [variablesRead, parts, allVariablesRead, Cell.operandReads_eq]

/-- The steps of expressions come one after the other. -/
lemma Expr.allSteps_append (vars : VarTable) (es es' : List Expr) :
    allSteps vars (es ++ es') = allSteps vars es ++ allSteps vars es' := by
  induction es with
  | nil => rfl
  | cons e es ih => rw [List.cons_append, allSteps, allSteps, ih, List.append_assoc]

/-! ## The balance of a substitution walk -/

namespace Substitution

variable {vars : VarTable} {args : List Expr} {pos : VarId → Option Nat}

/-- The variable `id` is a parameter, and evaluating its argument has the effects `E`. -/
def PlacedEffects (vars : VarTable) (args : List Expr) (pos : VarId → Option Nat) (id : VarId)
    (E : Effects) : Prop :=
  ∃ i, pos id = some i ∧ ArgumentTracker.HasEffects vars args i E

/-- A walk from `st` to `st'` that reads the variables `ids` and builds the expressions `es`. The
steps of `es` are the work that the walk has accounted for and those of the arguments placed. -/
structure Accounts (vars : VarTable) (args : List Expr) (pos : VarId → Option Nat)
    (ids : List VarId) (es : List Expr) (st st' : State) : Prop where
  position : ∀ id, st'.tracker.position? id = pos id
  covers : st'.done.frame.Covers vars.frame
  balance : ∃ Es, List.Forall₂ (PlacedEffects vars args pos) ids Es ∧
    st.done.accumulate (Expr.allSteps vars es) = (Es.foldl Effects.absorb st'.done, none)

namespace Accounts

variable {ids ids' : List VarId} {es es' : List Expr} {st st₁ st₂ : State}

/-- Nothing is accounted for yet. -/
lemma nil (hpos : ∀ id, st.tracker.position? id = pos id)
    (hcovers : st.done.frame.Covers vars.frame) : Accounts vars args pos [] [] st st :=
  ⟨hpos, hcovers, [], .nil, rfl⟩

/-- One account after the other. -/
lemma append (h : Accounts vars args pos ids es st st₁) (h' : Accounts vars args pos ids' es' st₁ st₂) :
    Accounts vars args pos (ids ++ ids') (es ++ es') st st₂ := by
  obtain ⟨Es, hids, hes⟩ := h.balance
  obtain ⟨Es', hids', hes'⟩ := h'.balance
  have hswap : Es.foldl Effects.absorb (Es'.foldl Effects.absorb st₂.done) =
      (Es ++ Es').foldl Effects.absorb st₂.done := by
    rw [← List.foldl_append]
    exact List.perm_append_comm.foldl_eq st₂.done
  refine ⟨h'.position, h'.covers, Es ++ Es', List.rel_append hids hids', ?_⟩
  rw [Expr.allSteps_append, Effects.accumulate_append, hes]
  dsimp only
  rw [Effects.accumulate_foldl_absorb, hes', hswap]

/-- An argument is placed, and nothing is done. -/
lemma place {id : VarId} {a : Expr} {i : Nat} {u : Bool}
    (hargs : ∀ a ∈ args, ∃ E, a.effects vars = .ok E)
    (hpos : ∀ id, st.tracker.position? id = pos id)
    (hcovers : st.done.frame.Covers vars.frame) (hi : pos id = some i) (ha : args[i]? = some a) :
    Accounts vars args pos [id] [a] st { st with tracker := st.tracker.visit i st.done u } := by
  obtain ⟨E, hE⟩ := hargs a (List.mem_of_getElem? ha)
  refine ⟨fun id => ?_, hcovers, [E], .cons ⟨i, hi, a, ha, hE⟩ .nil, ?_⟩
  · rw [← hpos, ArgumentTracker.position?, ArgumentTracker.parameters_visit]
    rfl
  · rw [Expr.allSteps, Expr.allSteps, List.append_nil]
    exact Effects.accumulate_of_ofSteps hcovers hE

/-- The operation of a node is accounted for after its parts. -/
lemma node {e : Expr} {E : Effects} (h : Accounts vars args pos ids e.parts st st₁)
    (hE : Effects.ofSteps vars.frame (e.ownSteps vars) = .ok E) :
    Accounts vars args pos ids [e] st { st₁ with done := st₁.done.absorb E } := by
  obtain ⟨Es, hids, hparts⟩ := h.balance
  refine ⟨h.position, ?_, Es, hids, ?_⟩
  · rw [Effects.frame_absorb]
    exact h.covers.sup _
  · rw [Expr.allSteps, Expr.allSteps, List.append_nil, Expr.steps_eq, Effects.accumulate_append,
      hparts]
    dsimp only
    rw [Effects.accumulate_foldl_absorb, Effects.accumulate_of_ofSteps h.covers hE]

end Accounts

variable {u : Bool} {st st' : State}

/-- As many expressions as before. -/
lemma length_exprs {es es' : List Expr} (h : exprs vars args es u st = .ok (es', st')) :
    es'.length = es.length := by
  induction es generalizing st es' with
  | nil =>
    rw [exprs] at h
    cases h
    rfl
  | cons e rest ih =>
    obtain ⟨e', rest', st₁, -, hrest, rfl⟩ := exprs_cons_eq_ok h
    rw [List.length_cons, List.length_cons, ih hrest]

/-- A walk through several expressions keeps the balance, if the walks through each do. -/
lemma accounts_exprs {es es' : List Expr}
    (hes : ∀ e ∈ es, ∀ {st st' e'}, (∀ id, st.tracker.position? id = pos id) →
      st.done.frame.Covers vars.frame → expr vars args e u st = .ok (e', st') →
      Accounts vars args pos e.variablesRead [e'] st st')
    (hpos : ∀ id, st.tracker.position? id = pos id) (hcovers : st.done.frame.Covers vars.frame)
    (h : exprs vars args es u st = .ok (es', st')) :
    Accounts vars args pos (Expr.allVariablesRead es) es' st st' := by
  induction es generalizing st es' with
  | nil =>
    rw [exprs] at h
    cases h
    exact .nil hpos hcovers
  | cons e rest ih =>
    obtain ⟨e', rest', st₁, he, hrest, rfl⟩ := exprs_cons_eq_ok h
    have hfirst := hes e List.mem_cons_self hpos hcovers he
    have hothers := ih (fun a ha => hes a (List.mem_cons_of_mem _ ha)) hfirst.position
      hfirst.covers hrest
    exact hfirst.append hothers

/-- Every walk keeps the balance, also one that has met a violation. -/
lemma accounts_expr (hargs : ∀ a ∈ args, ∃ E, a.effects vars = .ok E) {e e' : Expr}
    (hpos : ∀ id, st.tracker.position? id = pos id) (hcovers : st.done.frame.Covers vars.frame)
    (h : expr vars args e u st = .ok (e', st')) :
    Accounts vars args pos e.variablesRead [e'] st st' := by
  induction e using Expr.induct generalizing u st st' e' with
  | strict e he ih =>
    cases hread : e.variableRead? with
    | some id =>
      obtain rfl := Expr.eq_readVar hread
      rw [expr] at h
      obtain ⟨i, hi, ha, rfl⟩ := argument_eq_ok h
      rw [hpos] at hi
      exact .place hargs hpos hcovers hi ha
    | none =>
      obtain ⟨es, st₁, E, hes, rfl, hE, rfl⟩ := expr_strict he hread h
      have hparts : (e.withParts es).parts = es := Expr.parts_withParts (length_exprs hes)
      have haccounts := accounts_exprs
        (fun a ha _ _ _ hpos hcovers hwalk => ih a ha hpos hcovers hwalk) hpos hcovers hes
      rw [← hparts, ← Expr.variablesRead_eq hread] at haccounts
      exact haccounts.node hE
  | logical op left right ihl ihr =>
    obtain ⟨left', right', st₁, st₂, E, hl, hr, rfl, hE, rfl⟩ := expr_logical h
    have hleft := ihl hpos hcovers hl
    have hright := ihr hleft.position hleft.covers hr
    exact (hleft.append hright).node hE
  | conditional cond onTrue onFalse ihc iht ihf =>
    obtain ⟨cond', onTrue', onFalse', st₁, st₂, st₃, E, hc, ht, hf, rfl, hE, rfl⟩ :=
      expr_conditional h
    have hcond := ihc hpos hcovers hc
    have htrue := iht hcond.position hcond.covers ht
    have hfalse := ihf htrue.position htrue.covers hf
    exact (hcond.append (htrue.append hfalse)).node hE

/-- A substitution starts with nothing done, at the positions of the parameters. -/
lemma run_eq_ok {parameters : List VarId} {e result : Expr} {st : State}
    (h : run vars parameters args e = .ok (result, st)) :
    ∃ t, ArgumentTracker.start vars parameters args = .ok t ∧
      expr vars args e true ⟨t, .bottom vars.frame⟩ = .ok (result, st) := by
  unfold run at h
  cases ht : ArgumentTracker.start vars parameters args with
  | error fault =>
    rw [ht] at h
    cases h
  | ok t =>
    rw [ht] at h
    exact ⟨t, rfl, h⟩

/-- The effects of what a substitution returns are those of the work that it has accounted for,
joined with those of the arguments that it has placed. -/
lemma effects_of_run {parameters : List VarId} {e result : Expr} {st : State}
    (h : run vars parameters args e = .ok (result, st)) :
    ∃ Es, List.Forall₂ (PlacedEffects vars args st.tracker.position?) e.variablesRead Es ∧
      result.effects vars = .ok (Es.foldl Effects.absorb st.done) := by
  obtain ⟨t, ht, hwalk⟩ := run_eq_ok h
  obtain ⟨-, -, heffects, -, -⟩ := ArgumentTracker.start_eq_ok ht
  have hargs : ∀ a ∈ args, ∃ E, a.effects vars = .ok E := by
    intro a ha
    obtain ⟨i, hi⟩ := List.getElem?_of_mem ha
    obtain ⟨E, -, hE⟩ := getElem?_of_mapM_eq_ok heffects hi
    exact ⟨E, hE⟩
  have hstart : ∀ id, (State.mk t (.bottom vars.frame)).tracker.position? id = t.position? id :=
    fun _ => rfl
  have haccounts := accounts_expr hargs hstart (Effects.covers_bottom vars.frame) hwalk
  obtain ⟨Es, hplaced, hsteps⟩ := haccounts.balance
  rw [← funext haccounts.position] at hplaced
  rw [Expr.allSteps, Expr.allSteps, List.append_nil] at hsteps
  refine ⟨Es, hplaced, Effects.ofSteps_eq_ok.2 ?_⟩
  rw [hsteps]
  exact ⟨rfl, rfl⟩

end Substitution

/-- Effects can be taken apart at will. Joining the steps of an expression or a statement into an
accumulator succeeds exactly if the term has effects on its own, fails with the same fault otherwise,
and joins just these effects. An expression has the effects of its parts joined with those of its
operation. And what a substitution returns has the effects of the work that the walk has accounted
for, joined with those of the arguments at the places where parameters are read, whether or not the
arguments may be moved there. -/
theorem effects_compose (vars : VarTable) :
    (∀ (e : Expr) (acc : Effects), acc.frame.Covers vars.frame →
      acc.JoinsInto (e.steps vars) (e.effects vars)) ∧
    (∀ (s : Stmt) (acc : Effects), acc.frame.Covers vars.frame →
      acc.JoinsInto (s.steps vars) (s.effects vars)) ∧
    (∀ (e : Expr) (E : Effects), e.effects vars = .ok E ↔
      ∃ Es O, List.Forall₂ (fun a A => a.effects vars = .ok A) e.parts Es ∧
        Effects.ofSteps vars.frame (e.ownSteps vars) = .ok O ∧
        E = (Es.foldl Effects.absorb (.bottom vars.frame)).absorb O) ∧
    ∀ (parameters : List VarId) (args : List Expr) (e result : Expr) (st : Substitution.State),
      Substitution.run vars parameters args e = .ok (result, st) →
      ∃ Es, List.Forall₂ (Substitution.PlacedEffects vars args st.tracker.position?)
          e.variablesRead Es ∧
        result.effects vars = .ok (Es.foldl Effects.absorb st.done) :=
  ⟨fun e _ hacc => Effects.joinsInto_of_covers hacc (e.steps vars),
    fun s _ hacc => Effects.joinsInto_of_covers hacc (s.steps vars),
    fun _ _ => Expr.effects_eq_ok_iff vars,
    fun _ _ _ _ _ hrun => Substitution.effects_of_run hrun⟩

/-- The quotient of two parameters, the second one first. -/
def swappedQuotient : Expr :=
  .binary .div (.readVar ⟨1⟩) (.readVar ⟨0⟩)

/-- The effects of reading a value on the heap, in a frame with one more local. -/
def heapReadBefore : Effects :=
  .onHeap ⟨0, 3⟩ .read false

/-- A call and the field of a local cannot be moved into a quotient that evaluates them in the other
order. The walk through it returns a result all the same, with effects that are made up by the
division, which may raise, by the field and by the call, and that can be joined to others. -/
theorem effects_compose_swappedQuotient :
    ∃ result st, Substitution.run twoLocalsScope.vars productCallee.parameters
          ArgumentTracker.callAndField swappedQuotient = .ok (result, st) ∧
      st.tracker.finish.isOk = false ∧
      st.done = .raising twoLocalsScope.vars.frame ∧
      (∃ Es, List.Forall₂ (Substitution.PlacedEffects twoLocalsScope.vars
            ArgumentTracker.callAndField st.tracker.position?) swappedQuotient.variablesRead Es ∧
        result.effects twoLocalsScope.vars = .ok (Es.foldl Effects.absorb st.done)) ∧
      heapReadBefore.frame.Covers twoLocalsScope.vars.frame ∧
      heapReadBefore.JoinsInto (result.steps twoLocalsScope.vars)
        (result.effects twoLocalsScope.vars) ∧
      heapReadBefore.JoinsInto ((Stmt.raise result).steps twoLocalsScope.vars)
        ((Stmt.raise result).effects twoLocalsScope.vars) := by
  obtain ⟨hexpr, hstmt, -, hrun⟩ := effects_compose twoLocalsScope.vars
  have hcovers : heapReadBefore.frame.Covers twoLocalsScope.vars.frame := by decide
  exact ⟨_, _, rfl, by decide, by decide, hrun productCallee.parameters _ _ _ _ rfl, hcovers,
    hexpr _ _ hcovers, hstmt _ _ hcovers⟩

end Inliner
