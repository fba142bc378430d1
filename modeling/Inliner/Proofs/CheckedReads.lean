import Inliner.Proofs.CallStack
import Inliner.Proofs.MapEntries
import Inliner.Proofs.WalkRules

/-!
# Reads that are checked

A variable that is not declared is noticed when effects are computed: every statement that is emitted
and every argument of an inlined call has its effects computed, and these exist only if each variable
that is read or stored into has a slot (`Expr.reads_of_effects`, `Stmt.reads_of_effects`). Making a
pointer to a variable has no effects, so it is not noticed.

What is checked is what became of a term, not the term itself. The check comes late, too: an expression
is walked over first, and the statement that contains the outcome is emitted afterwards. `Vouches`
accounts for this. Work vouches for a term if the term reads known variables only, provided that the
outcome of the work reads declared ones; a variable is known if it stands for something or is declared.
Work is put together from the back: what is learnt from the last step tells that the outcomes of the
earlier ones pass (`Vouches.bind`, `Site.Vouched.trans`).

The main result is that the walk over a term vouches for it, if the treatment of calls vouches for
their arguments. By the rule for walks it is enough to look at single nodes
(`StackM.vouchesAt_walker`).
-/

namespace Inliner

/-! ## Variables that are read -/

/-- The variable that the node reads, if it reads one, passes the test. -/
def readsOnly (p : VarId → Bool) : Expr → Bool
  | .read (.var id) => p id
  | _ => true

/-- The variable is one of the first `n` ones. -/
def below (n : Nat) (id : VarId) : Bool :=
  id.index < n

/-- The variable is declared in the table. -/
def VarTable.declares (t : VarTable) : VarId → Bool :=
  below t.size

/-- More variables may pass. -/
lemma readsOnly_mono {p q : VarId → Bool} (h : ∀ id, p id = true → q id = true) (e : Expr)
    (he : readsOnly p e = true) : readsOnly q e = true := by
  unfold readsOnly at he ⊢
  split
  · exact h _ he
  · rfl

/-- There may be more variables. -/
lemma below_mono {n m : Nat} (h : n ≤ m) (id : VarId) (hid : below n id = true) :
    below m id = true := by
  simp only [below, decide_eq_true_eq] at hid ⊢
  omega

/-- The expression reads no variable but those that pass the test. -/
def Expr.Reads (p : VarId → Bool) (e : Expr) : Prop :=
  e.allNodes (readsOnly p) = true

/-- The statement reads and stores into no variable but those that pass the test. -/
def Stmt.Reads (p : VarId → Bool) (s : Stmt) : Prop :=
  s.allNodes (readsOnly p) = true

/-- The statements read and store into no variable but those that pass the test. -/
def Stmt.BlockReads (p : VarId → Bool) (stmts : List Stmt) : Prop :=
  blockNodes (readsOnly p) stmts = true

instance (p : VarId → Bool) (stmts : List Stmt) : Decidable (Stmt.BlockReads p stmts) :=
  inferInstanceAs (Decidable (_ = true))

/-- More variables may be read by an expression. -/
lemma Expr.Reads.mono {p q : VarId → Bool} {e : Expr} (he : e.Reads p)
    (h : ∀ id, p id = true → q id = true) : e.Reads q :=
  allNodes_mono (readsOnly_mono h) he

/-- More variables may be read by a statement. -/
lemma Stmt.Reads.mono {p q : VarId → Bool} {s : Stmt} (hs : s.Reads p)
    (h : ∀ id, p id = true → q id = true) : s.Reads q :=
  allNodes_mono (readsOnly_mono h) hs

/-- More variables may be read by a block. -/
lemma Stmt.BlockReads.mono {p q : VarId → Bool} {stmts : List Stmt}
    (hstmts : Stmt.BlockReads p stmts) (h : ∀ id, p id = true → q id = true) :
    Stmt.BlockReads q stmts :=
  blockNodes_mono (readsOnly_mono h) hstmts

/-- An expression reads what the node and its parts read. -/
lemma Expr.reads_iff {p : VarId → Bool} {e : Expr} :
    e.Reads p ↔ readsOnly p e = true ∧ ∀ a ∈ e.parts, a.Reads p :=
  allNodes_iff

/-- Pointing at a cell reads no more than reading it does. -/
lemma Expr.reads_addressOf {p : VarId → Bool} {c : Cell} (h : (Expr.read c).Reads p) :
    (Expr.addressOf c).Reads p :=
  reads_iff.2 ⟨rfl, (reads_iff.1 h).2⟩

/-- The node itself reads no variable, unless it names one. -/
lemma readsOnly_of_namesVar {p : VarId → Bool} {e : Expr} (h : e.namesVar = false) :
    readsOnly p e = true := by
  unfold readsOnly
  split
  · cases h
  · rfl

/-- What the parts of a node read is all that is read, unless the node names a variable. -/
lemma Expr.reads_of_parts {p : VarId → Bool} {e : Expr} (h : e.namesVar = false)
    (hparts : ∀ a ∈ e.parts, a.Reads p) : e.Reads p :=
  reads_iff.2 ⟨readsOnly_of_namesVar h, hparts⟩

section Effects

variable {vars : VarTable}

/-- A variable has a slot only if it is declared. -/
lemma VarTable.declares_of_slot {id : VarId} {slot : Slot} (h : vars.slot id = .ok slot) :
    vars.declares id = true := by
  cases hv : vars.get? id with
  | none => simp [VarTable.slot, VarTable.get, hv, Except.map] at h
  | some v => exact decide_eq_true (List.getElem?_eq_some_iff.1 hv).1

/-- Where a cell is accessed without a fault, it is no undeclared variable. -/
lemma Cell.readsOnly_of_access {c : Cell} {a : Access}
    (h : ∀ step ∈ c.accessSteps vars a, StepOk step) :
    readsOnly vars.declares (.read c) = true := by
  cases c with
  | var id =>
    obtain ⟨E, hE⟩ := h _ (List.mem_singleton_self _)
    cases hslot : vars.slot id with
    | error fault => rw [hslot] at hE; cases hE
    | ok slot => exact VarTable.declares_of_slot hslot
  | _ => rfl

/-- Among the steps of several expressions are those of each one. -/
lemma Expr.stepOk_of_mem {es : List Expr} (h : ∀ step ∈ allSteps vars es, StepOk step) {a : Expr}
    (ha : a ∈ es) : ∀ step ∈ a.steps vars, StepOk step := by
  induction es with
  | nil => cases ha
  | cons e es ih =>
    obtain ⟨he, hes⟩ := List.forall_mem_append.1 h
    rcases List.mem_cons.1 ha with rfl | ha
    · exact he
    · exact ih hes ha

/-- What is evaluated without a fault reads declared variables only. -/
lemma Expr.reads_of_steps {e : Expr} (h : ∀ step ∈ e.steps vars, StepOk step) :
    e.Reads vars.declares := by
  induction e using Expr.induct_parts with
  | step e ih =>
    rw [steps_eq] at h
    obtain ⟨hparts, hown⟩ := List.forall_mem_append.1 h
    refine allNodes_iff.2 ⟨?_, fun a ha => ih a ha (stepOk_of_mem hparts ha)⟩
    cases e with
    | read c => exact Cell.readsOnly_of_access hown
    | _ => rfl

/-- What a cell is accessed through is declared, and the cell itself is, if it is a variable. -/
lemma Cell.reads_of_steps {c : Cell} {a : Access} (h : ∀ step ∈ c.steps vars a, StepOk step) :
    (Expr.read c).Reads vars.declares := by
  obtain ⟨hoperands, haccess⟩ := List.forall_mem_append.1 h
  have haddress : (Expr.addressOf c).Reads vars.declares := Expr.reads_of_steps hoperands
  refine Expr.allNodes_iff.2 ⟨Cell.readsOnly_of_access haccess, ?_⟩
  exact (Expr.allNodes_iff.1 haddress).2

mutual

/-- What is executed without a fault reads and stores into declared variables only. -/
lemma Stmt.reads_of_steps {s : Stmt} (h : ∀ step ∈ s.steps vars, StepOk step) :
    s.Reads vars.declares := by
  cases s with
  | eval value => exact Expr.reads_of_steps h
  | assign target value =>
    obtain ⟨hvalue, htarget⟩ := List.forall_mem_append.1 h
    exact Bool.and_eq_true_iff.2 ⟨Cell.reads_of_steps htarget, Expr.reads_of_steps hvalue⟩
  | ret value =>
    cases value with
    | none => rfl
    | some value => exact Expr.reads_of_steps h
  | raise exception => exact Expr.reads_of_steps (List.forall_mem_append.1 h).1
  | branch cond onTrue onFalse =>
    rw [steps] at h
    obtain ⟨h, hfalse⟩ := List.forall_mem_append.1 h
    obtain ⟨hcond, htrue⟩ := List.forall_mem_append.1 h
    exact Bool.and_eq_true_iff.2 ⟨Expr.reads_of_steps hcond, Bool.and_eq_true_iff.2
      ⟨Stmt.reads_of_blockSteps htrue, Stmt.reads_of_blockSteps hfalse⟩⟩

/-- What is executed without a fault reads and stores into declared variables only. -/
lemma Stmt.reads_of_blockSteps {stmts : List Stmt}
    (h : ∀ step ∈ Stmt.blockSteps vars stmts, StepOk step) :
    Stmt.BlockReads vars.declares stmts := by
  cases stmts with
  | nil => rfl
  | cons s rest =>
    rw [blockSteps] at h
    obtain ⟨hs, hrest⟩ := List.forall_mem_append.1 h
    exact Bool.and_eq_true_iff.2 ⟨Stmt.reads_of_steps hs, Stmt.reads_of_blockSteps hrest⟩

end

/-- If there are effects, then no step was at fault. -/
lemma Effects.stepOk_of_ofSteps {f : Frame} {steps : List Step} {E : Effects}
    (h : ofSteps f steps = .ok E) : ∀ step ∈ steps, StepOk step := by
  intro step hstep
  obtain ⟨d, hd, -⟩ := within_ofSteps h hstep
  exact ⟨d, hd⟩

/-- An expression that has effects reads declared variables only. -/
lemma Expr.reads_of_effects {e : Expr} {E : Effects} (h : e.effects vars = .ok E) :
    e.Reads vars.declares :=
  reads_of_steps (Effects.stepOk_of_ofSteps h)

/-- A statement that has effects reads and stores into declared variables only. -/
lemma Stmt.reads_of_effects {s : Stmt} {E : Effects} (h : s.effects vars = .ok E) :
    s.Reads vars.declares :=
  reads_of_steps (Effects.stepOk_of_ofSteps h)

end Effects

/-! ## Vouching for what was read -/

/-- The variable stands for something, or it is one of the first `n` ones. -/
def known (bindings : KeyMap VarId Expr) (n : Nat) (id : VarId) : Bool :=
  bindings.contains id || below n id

/-- Some of the methods declare the variable. -/
def Setting.declaresIn (setting : Setting) (methods : List MethodRef) (id : VarId) : Bool :=
  methods.any fun method => (setting.body? method).any fun callee => callee.vars.declares id

/-- If a method was inlined, each variable that it reads or stores into is one of its own, or one of a
method that was being inlined then, or one of the first `n` ones of the method that is simplified. -/
def Mark.Sound (setting : Setting) (n : Nat) : Mark → Prop
  | .tried _ _ => True
  | .inlined stack method => ∀ callee, setting.body? method = some callee →
      Stmt.BlockReads (fun id =>
        callee.vars.declares id || setting.declaresIn stack.dropLast id || below n id) callee.stmts

/-- What variables stand for and the stack are as they were; variables were declared, and marks
made. -/
structure Stacked.Grown (st st' : Stacked) (marks : List Mark) : Prop where
  bindings : st'.scope.bindings = st.scope.bindings
  stack : st'.stack = st.stack
  size_le : st.scope.vars.size ≤ st'.scope.vars.size
  marks : st'.marks = st.marks ++ marks

namespace Stacked.Grown

variable {st st₁ st₂ : Stacked} {marks marks' : List Mark}

/-- Nothing is done. -/
lemma refl (st : Stacked) : st.Grown st [] :=
  ⟨rfl, rfl, Nat.le_refl _, (List.append_nil _).symm⟩

/-- Marks are made one after the other. -/
lemma trans (h : st.Grown st₁ marks) (h' : st₁.Grown st₂ marks') :
    st.Grown st₂ (marks ++ marks') where
  bindings := h'.bindings.trans h.bindings
  stack := h'.stack.trans h.stack
  size_le := Nat.le_trans h.size_le h'.size_le
  marks := by rw [h'.marks, h.marks, List.append_assoc]

/-- Work in the scope that keeps what variables stand for. -/
lemma ofScope {S : Scope} (hbindings : S.bindings = st.scope.bindings)
    (hsize : st.scope.vars.size ≤ S.vars.size) : st.Grown { st with scope := S } [] :=
  ⟨hbindings, rfl, hsize, (List.append_nil _).symm⟩

end Stacked.Grown

namespace StackM

variable {A B : Type}

/-- How work that has an outcome was put together. -/
lemma exists_of_bind_eq_ok {x : StackM A} {k : A → StackM B} {st st' : Stacked} {b : B}
    (h : (x >>= k) st = some (.ok b, st')) :
    ∃ a st₁, x st = some (.ok a, st₁) ∧ k a st₁ = some (.ok b, st') := by
  cases hx : x st with
  | none => rw [bind_of_none hx] at h; cases h
  | some p =>
    obtain ⟨r, st₁⟩ := p
    cases r with
    | error fault => rw [bind_of_error hx] at h; cases h
    | ok a => exact ⟨a, st₁, rfl, (bind_of_ok hx).symm.trans h⟩

/-- How work in the scope ended. -/
lemma of_ofScope_eq_ok {act : ScopeM A} {st st' : Stacked} {a : A}
    (h : ofScope act st = some (.ok a, st')) :
    ∃ S, act st.scope = .ok a S ∧ st' = { st with scope := S } := by
  unfold ofScope at h
  cases hact : act st.scope with
  | error fault S => rw [hact] at h; cases h
  | ok a' S =>
    rw [hact] at h
    cases h
    exact ⟨S, rfl, rfl⟩

/-- How work in a nested scope ended. -/
lemma of_nested_eq_ok {enter : Scope → Scope} {leave : Scope → Scope → Scope} {x : StackM A}
    {st st' : Stacked} {a : A} (h : nested enter leave x st = some (.ok a, st')) :
    ∃ st₁, x { st with scope := enter st.scope } = some (.ok a, st₁) ∧
      st' = { st₁ with scope := leave st.scope st₁.scope } := by
  obtain ⟨p, hx, hp⟩ := Option.map_eq_some_iff.1 h
  obtain ⟨r, st₁⟩ := p
  cases hp
  exact ⟨st₁, hx, rfl⟩

/-- How something was computed from the scope. -/
lemma of_look_eq_ok {f : Scope → Except Fault A} {st st' : Stacked} {a : A}
    (h : ofScope (ScopeM.look f) st = some (.ok a, st')) : f st.scope = .ok a ∧ st' = st := by
  obtain ⟨S, hact, rfl⟩ := of_ofScope_eq_ok h
  change ScopeM.ofExcept (f st.scope) st.scope = .ok a S at hact
  cases hf : f st.scope with
  | error fault =>
    rw [hf] at hact
    cases hact
  | ok a' =>
    rw [hf] at hact
    cases hact
    exact ⟨rfl, rfl⟩

end StackM

/-- Taking statements out of the buffer does nothing else. -/
lemma ScopeM.of_takeStatements {S S' : Scope} {stmts : List Stmt}
    (h : takeStatements S = .ok stmts S') : S'.bindings = S.bindings ∧ S'.vars = S.vars := by
  rw [takeStatements_getD] at h
  cases h
  exact ⟨rfl, rfl⟩

/-- Where a term is walked over: what variables stand for there, and the stack. -/
structure Site where
  setting : Setting
  bindings : KeyMap VarId Expr
  stack : List MethodRef

/-- The work is done at the site. -/
structure Site.Holds (site : Site) (st : Stacked) : Prop where
  bindings : st.scope.bindings = site.bindings
  stack : st.stack = site.stack

/-- The site stays the same. -/
lemma Site.Holds.grown {site : Site} {st st' : Stacked} {marks : List Mark} (h : site.Holds st)
    (hgrown : st.Grown st' marks) : site.Holds st' :=
  ⟨hgrown.bindings.trans h.bindings, hgrown.stack.trans h.stack⟩

/-- From the state `st` to the state `st'`, variables were declared and marks made. Once `passes` holds,
also with variables declared later, the marks are sound and `good` holds. -/
def Site.Vouched (site : Site) (st st' : Stacked) (passes good : Nat → Prop) : Prop :=
  ∃ marks, st.Grown st' marks ∧ ∀ n, st'.scope.vars.size ≤ n → passes n →
    (∀ m ∈ marks, m.Sound site.setting n) ∧ good n

namespace Site.Vouched

variable {site : Site} {st st₁ st₂ : Stacked} {passes good passes' good' : Nat → Prop}

/-- Work that is vouched for stays at its site. -/
lemma holds (h : site.Vouched st st₁ passes good) (hst : site.Holds st) : site.Holds st₁ := by
  obtain ⟨marks, hgrown, -⟩ := h
  exact hst.grown hgrown

/-- Nothing was done. -/
lemma refl (h : ∀ n, st.scope.vars.size ≤ n → passes n → good n) : site.Vouched st st passes good :=
  ⟨[], .refl st, fun n hn hpasses => ⟨List.forall_mem_nil _, h n hn hpasses⟩⟩

/-- Work that vouches for less, if more passes. -/
lemma mono (h : site.Vouched st st₁ passes good)
    (hgood : ∀ n, st₁.scope.vars.size ≤ n → passes' n → passes n ∧ (good n → good' n)) :
    site.Vouched st st₁ passes' good' := by
  obtain ⟨marks, hgrown, hrest⟩ := h
  refine ⟨marks, hgrown, fun n hn hpasses => ?_⟩
  obtain ⟨hfirst, hlast⟩ := hgood n hn hpasses
  exact (hrest n hn hfirst).imp_right hlast

/-- Once the outcome of the second step passes, that of the first one does, and then what is good
about the first step can be used. -/
lemma trans_marking (h : site.Vouched st st₁ passes good) {marks' : List Mark}
    (hgrown' : st₁.Grown st₂ marks')
    (hgood : ∀ n, st₂.scope.vars.size ≤ n → passes' n →
      passes n ∧ (good n → (∀ m ∈ marks', m.Sound site.setting n) ∧ good' n)) :
    site.Vouched st st₂ passes' good' := by
  obtain ⟨marks, hgrown, hrest⟩ := h
  refine ⟨marks ++ marks', hgrown.trans hgrown', fun n hn hpasses => ?_⟩
  obtain ⟨hfirst, hsecond⟩ := hgood n hn hpasses
  obtain ⟨hmarks, hg⟩ := hrest n (Nat.le_trans hgrown'.size_le hn) hfirst
  obtain ⟨hmarks', hg'⟩ := hsecond hg
  exact ⟨List.forall_mem_append.2 ⟨hmarks, hmarks'⟩, hg'⟩

/-- Both steps are vouched for on their own. -/
lemma trans {passes'' good'' : Nat → Prop} (h : site.Vouched st st₁ passes good)
    (h' : site.Vouched st₁ st₂ passes' good')
    (hgood : ∀ n, passes'' n → passes' n ∧ (good' n → passes n ∧ (good n → good'' n))) :
    site.Vouched st st₂ passes'' good'' := by
  obtain ⟨marks', hgrown', hrest'⟩ := h'
  refine h.trans_marking hgrown' fun n hn hpasses => ?_
  obtain ⟨hsecond, hfirst⟩ := hgood n hpasses
  obtain ⟨hmarks', hg'⟩ := hrest' n hn hsecond
  exact (hfirst hg').imp_right fun hlast hg => ⟨hmarks', hlast hg⟩

end Site.Vouched

/-- Whenever the work succeeds at the site and its outcome passes, also with variables declared later,
the marks that it makes are sound and `good` holds. -/
def Vouches {A : Type} (site : Site) (x : StackM A) (passes good : A → Nat → Prop) : Prop :=
  ∀ st a st', site.Holds st → x st = some (.ok a, st') → site.Vouched st st' (passes a) (good a)

namespace Vouches

variable {A B : Type} {site : Site} {x : StackM A} {passes good : A → Nat → Prop}
  {passes' good' : B → Nat → Prop}

/-- The second step may make marks that are sound because of what is good about the first one. -/
lemma bind_marking {k : A → StackM B} (hx : Vouches site x passes good)
    (hk : ∀ a st b st', site.Holds st → k a st = some (.ok b, st') →
      ∃ marks, st.Grown st' marks ∧ ∀ n, st'.scope.vars.size ≤ n → passes' b n →
        passes a n ∧ (good a n → (∀ m ∈ marks, m.Sound site.setting n) ∧ good' b n)) :
    Vouches site (x >>= k) passes' good' := by
  intro st b st₂ hst hrun
  obtain ⟨a, st₁, hfirst, hsecond⟩ := StackM.exists_of_bind_eq_ok hrun
  have hvouched := hx st a st₁ hst hfirst
  obtain ⟨marks, hgrown, hgood⟩ := hk a st₁ b st₂ (hvouched.holds hst) hsecond
  exact hvouched.trans_marking hgrown hgood

/-- What the last step vouches for tells that the outcome of the first one passes. -/
protected lemma bind {k : A → StackM B} (hx : Vouches site x passes good)
    (hk : ∀ a, Vouches site (k a) passes' fun b n => passes a n ∧ (good a n → good' b n)) :
    Vouches site (x >>= k) passes' good' := by
  intro st b st₂ hst hrun
  obtain ⟨a, st₁, hfirst, hsecond⟩ := StackM.exists_of_bind_eq_ok hrun
  have hvouched := hx st a st₁ hst hfirst
  exact hvouched.trans (hk a st₁ b st₂ (hvouched.holds hst) hsecond) fun _ hb =>
    ⟨hb, fun hgood => hgood⟩

/-- A step whose outcome does not matter. -/
lemma skip {k : A → StackM B} (hx : Vouches site x (fun _ _ => True) fun _ _ => True)
    (hk : ∀ a, Vouches site (k a) passes' good') : Vouches site (x >>= k) passes' good' := by
  refine hx.bind fun a st b st' hst hrun => ?_
  exact (hk a st b st' hst hrun).mono fun _ _ hb => ⟨hb, fun hgood => ⟨trivial, fun _ => hgood⟩⟩

/-- Work that makes no marks and keeps what variables stand for. -/
lemma ofScope {act : ScopeM A} (hact : ∀ S a S', act S = .ok a S' → S'.bindings = S.bindings ∧
      S.vars.size ≤ S'.vars.size ∧ (S.bindings = site.bindings → ∀ n, S'.vars.size ≤ n →
        passes a n → good a n)) : Vouches site (StackM.ofScope act) passes good := by
  intro st a st' hst hrun
  obtain ⟨S, hS, rfl⟩ := StackM.of_ofScope_eq_ok hrun
  obtain ⟨hbindings, hsize, hgood⟩ := hact st.scope a S hS
  exact ⟨[], .ofScope hbindings hsize, fun n hn ha =>
    ⟨List.forall_mem_nil _, hgood hst.bindings n hn ha⟩⟩

/-- A result without any work. -/
protected lemma pure {a : A} (h : ∀ n, passes a n → good a n) :
    Vouches site (pure a) passes good := by
  have hscope : Vouches site (StackM.ofScope (pure a)) passes good := ofScope fun S _ S' hact => by
    cases hact
    exact ⟨rfl, Nat.le_refl _, fun _ n _ ha => h n ha⟩
  exact hscope

/-- What is computed from the scope. -/
lemma look {f : Scope → Except Fault A} (h : ∀ S a n, S.bindings = site.bindings →
      S.vars.size ≤ n → f S = .ok a → passes a n → good a n) :
    Vouches site (StackM.ofScope (ScopeM.look f)) passes good := by
  intro st a st' hst hrun
  obtain ⟨hf, rfl⟩ := StackM.of_look_eq_ok hrun
  exact .refl fun n hn ha => h st'.scope a n hst.bindings hn hf ha

/-- Work that vouches for less, if more passes. -/
lemma mono {passes₁ good₁ : A → Nat → Prop} (h : Vouches site x passes good)
    (hpasses : ∀ a n, passes₁ a n → passes a n)
    (hgood : ∀ a n, passes₁ a n → good a n → good₁ a n) : Vouches site x passes₁ good₁ := by
  intro st a st' hst hrun
  exact (h st a st' hst hrun).mono fun n _ ha => ⟨hpasses a n ha, hgood a n ha⟩

/-- The work is done in a nested scope in which variables stand for the same, and in which they are
declared for all scopes. -/
lemma nested {enter : Scope → Scope} {leave : Scope → Scope → Scope}
    (h : Vouches site x passes good)
    (henter : ∀ S, (enter S).bindings = S.bindings ∧ (enter S).vars = S.vars)
    (hleave : ∀ S S', (leave S S').bindings = S'.bindings ∧ (leave S S').vars = S'.vars) :
    Vouches site (StackM.nested enter leave x) passes good := by
  intro st a st' hst hrun
  obtain ⟨st₁, hx, rfl⟩ := StackM.of_nested_eq_ok hrun
  obtain ⟨hbindings, hvars⟩ := henter st.scope
  obtain ⟨hbindings', hvars'⟩ := hleave st.scope st₁.scope
  obtain ⟨marks, hgrown, hgood⟩ := h { st with scope := enter st.scope } a st₁
    ⟨hbindings.trans hst.bindings, hst.stack⟩ hx
  refine ⟨marks, ⟨?_, hgrown.stack, ?_, hgrown.marks⟩, fun n hn => hgood n ?_⟩
  · exact hbindings'.trans (hgrown.bindings.trans hbindings)
  · dsimp only
    rw [← hvars, hvars']
    exact hgrown.size_le
  · rwa [← hvars']

/-- The work is done where no statement can be emitted. -/
lemma withoutStatements (h : Vouches site x passes good) :
    Vouches site (StackM.nested (fun S => { S with buffer := none })
      (fun outer inner => { inner with buffer := outer.buffer, effects := outer.effects }) x)
      passes good :=
  h.nested (fun _ => ⟨rfl, rfl⟩) fun _ _ => ⟨rfl, rfl⟩

/-- A statement that is emitted is checked. -/
lemma emit {s : Stmt} {passes good : Unit → Nat → Prop}
    (h : ∀ n, s.Reads (below n) → good () n) :
    Vouches site (StackM.ofScope (ScopeM.emit s)) passes good := by
  refine ofScope fun S _ S' hact => ?_
  obtain ⟨stmts, E, -, hE, rfl⟩ := ScopeM.exists_of_emit_eq_ok hact
  exact ⟨rfl, Nat.le_refl _, fun _ n hn _ => h n ((Stmt.reads_of_effects hE).mono (below_mono hn))⟩

/-- Statements are taken out of the buffer. -/
lemma takeStatements {passes good : List Stmt → Nat → Prop}
    (h : ∀ stmts n, passes stmts n → good stmts n) :
    Vouches site (StackM.ofScope ScopeM.takeStatements) passes good := by
  refine ofScope fun S stmts S' hact => ?_
  obtain ⟨hbindings, hvars⟩ := ScopeM.of_takeStatements hact
  exact ⟨hbindings, Nat.le_of_eq (congrArg VarTable.size hvars.symm), fun _ n _ => h stmts n⟩

/-- What is emitted into a buffer of its own is checked there. -/
lemma collect {x : StackM Unit} {good : Nat → Prop}
    (h : Vouches site x (fun _ _ => True) fun _ => good) :
    Vouches site (StackM.collect x) (fun _ _ => True) fun _ => good := by
  refine nested (.bind h fun _ => takeStatements fun _ _ _ => ?_) (fun S => ?_) fun S S' => ?_
  · exact ⟨trivial, fun hgood => hgood⟩
  · exact ⟨rfl, rfl⟩
  · exact ⟨rfl, rfl⟩

end Vouches

/-! ## The walk -/

/-- If a call of the arguments is inlined by the work, they are vouched for. -/
abbrev VouchesArguments (site : Site) (args : List Expr) (x : StackM (Option Expr)) : Prop :=
  Vouches site x (fun r n => ∀ e ∈ r, e.Reads (below n))
    fun r n => r.isSome = true → ∀ a ∈ args, a.Reads (below n)

/-- Work with a stack that succeeds has an outcome as described. -/
def StackM.outcomes : Outcomes StackM Stacked where
  view st := st.scope
  fine _ := True
  Ensures st x Q := ∀ a st', x st = some (.ok a, st') → Q a st'
  pure h a st' hrun := by
    cases hrun
    exact h
  bind h b st₂ hrun := by
    obtain ⟨a, st₁, hfirst, hsecond⟩ := exists_of_bind_eq_ok hrun
    exact h a st₁ hfirst b st₂ hsecond
  mono h hQ a st' hrun := hQ a st' (h a st' hrun)

namespace Site

variable {site : Site} {st st' : Stacked}

/-- What a term is replaced by vouches for the term. A statement has passed when it was emitted. -/
def spec (site : Site) : WalkSpec Stacked where
  fit := site.Holds
  fitStmt := site.Holds
  source _ := True
  sourceTarget _ := True
  sourceStmt _ := True
  expr st e e' st' := site.Vouched st st' (fun n => e'.Reads (below n))
    fun n => e.Reads (known site.bindings n)
  target st c c' st' := site.Vouched st st' (fun n => (Expr.read c').Reads (below n))
    fun n => (Expr.read c).Reads (known site.bindings n)
  arm st stmts _ st' := site.Vouched st st' (fun _ => True)
    fun n => Stmt.BlockReads (known site.bindings n) stmts
  stmt st s st' := site.Vouched st st' (fun _ => True) fun n => s.Reads (known site.bindings n)

/-- Several expressions are vouched for. -/
lemma of_exprs {es es' : List Expr} (h : site.spec.Exprs st es es' st') :
    es'.length = es.length ∧ site.Vouched st st' (fun n => ∀ a ∈ es', a.Reads (below n))
      fun n => ∀ a ∈ es, a.Reads (known site.bindings n) := by
  induction h with
  | nil st => exact ⟨rfl, .refl fun _ _ _ => List.forall_mem_nil _⟩
  | cons he _ ih =>
    refine ⟨congrArg Nat.succ ih.1, Vouched.trans he ih.2 fun n hpasses => ?_⟩
    obtain ⟨he', hes'⟩ := List.forall_mem_cons.1 hpasses
    exact ⟨hes', fun hes => ⟨he', fun he => List.forall_mem_cons.2 ⟨he, hes⟩⟩⟩

/-- Several statements are vouched for. -/
lemma of_stmts {stmts : List Stmt} (h : site.spec.Stmts st stmts st') :
    site.Vouched st st' (fun _ => True) fun n => Stmt.BlockReads (known site.bindings n) stmts := by
  induction h with
  | nil st => exact .refl fun _ _ _ => rfl
  | cons hs _ ih =>
    exact Vouched.trans hs ih fun n _ =>
      ⟨trivial, fun hrest => ⟨trivial, fun hs => Bool.and_eq_true_iff.2 ⟨hs, hrest⟩⟩⟩

/-- What is left of a statement vouches for it. -/
lemma of_left {s s' : Stmt} (h : site.spec.Left st s s' st') :
    site.Vouched st st' (fun n => s'.Reads (below n)) fun n => s.Reads (known site.bindings n) := by
  cases h with
  | eval he => exact he
  | retNone => exact .refl fun _ _ _ => rfl
  | ret he => exact he
  | raise he => exact he
  | assign hc he =>
    refine Vouched.trans hc he fun n hpasses => ?_
    obtain ⟨hc', he'⟩ := Bool.and_eq_true_iff.1 hpasses
    exact ⟨he', fun he => ⟨hc', fun hc => Bool.and_eq_true_iff.2 ⟨hc, he⟩⟩⟩
  | branch hcond htrue hfalse =>
    have harms := Vouched.trans htrue hfalse fun n (_ : True) =>
      ⟨trivial, fun hfalse => ⟨trivial, fun htrue => Bool.and_eq_true_iff.2 ⟨htrue, hfalse⟩⟩⟩
    refine Vouched.trans hcond harms fun n hpasses => ⟨trivial, fun harms => ?_⟩
    exact ⟨(Bool.and_eq_true_iff.1 hpasses).1, fun hcond => Bool.and_eq_true_iff.2 ⟨hcond, harms⟩⟩

/-- A node is vouched for if its parts are. -/
lemma vouched_node {e : Expr} {es : List Expr} (hvar : e.namesVar = false)
    (hes : site.spec.Exprs st e.parts es st') : site.spec.expr st e (e.withParts es) st' := by
  obtain ⟨hlength, hvouched⟩ := of_exprs hes
  refine hvouched.mono fun n _ hpasses => ⟨?_, fun hparts => ?_⟩
  · have hparts := (Expr.reads_iff.1 hpasses).2
    rwa [Expr.parts_withParts hlength] at hparts
  · exact Expr.reads_of_parts hvar hparts

/-- A variable is bound, or what is left of it is the variable itself. -/
lemma known_of_reads (hst : site.Holds st) {id : VarId} {e : Expr} {n : Nat}
    (hself : st.scope.bindings.get? id = none → e = .readVar id) (he : e.Reads (below n)) :
    (Expr.readVar id).Reads (known site.bindings n) := by
  refine Expr.reads_iff.2 ⟨Bool.or_eq_true_iff.2 ?_, List.forall_mem_nil _⟩
  rw [KeyMap.contains, ← hst.bindings]
  cases hbound : st.scope.bindings.get? id with
  | none =>
    rw [hself hbound] at he
    exact .inr (Expr.reads_iff.1 he).1
  | some e' => exact .inl rfl

/-- A call is vouched for if it is left alone, or else if the arguments are. -/
lemma vouched_inlined {e : Expr} {es : List Expr} {st'' : Stacked}
    {r : Option Expr} (hvar : e.namesVar = false) (hes : site.spec.Exprs st e.parts es st')
    (hr : site.Vouched st' st'' (fun n => ∀ e ∈ r, e.Reads (below n))
      fun n => r.isSome = true → ∀ a ∈ es, a.Reads (below n)) :
    site.spec.expr st e (r.getD (e.withParts es)) st'' := by
  obtain ⟨hlength, hvouched⟩ := of_exprs hes
  refine Vouched.trans hvouched hr fun n hpasses => ?_
  cases r with
  | none =>
    have hparts := (Expr.reads_iff.1 hpasses).2
    rw [Option.getD_none, Expr.parts_withParts hlength] at hparts
    refine ⟨fun _ he => ?_, fun _ => ⟨hparts, Expr.reads_of_parts hvar⟩⟩
    cases he
  | some e' =>
    refine ⟨fun _ he => ?_, fun hargs => ⟨hargs rfl, Expr.reads_of_parts hvar⟩⟩
    cases he
    exact hpasses

end Site

/-- At the site, the walk vouches for the terms that it is given. -/
def Walker.VouchesAt (site : Site) (w : Walker StackM) : Prop :=
  w.KeepsStmts StackM.outcomes site.spec

/-- The walk with a stack vouches for what it is given if the treatment of calls does. -/
theorem StackM.vouchesAt_walker {site : Site} (isFactory : MethodRef → Bool)
    {inline : MethodRef → List Expr → StackM (Option Expr)}
    (h : ∀ method args, VouchesArguments site args (inline method args)) :
    (walker isFactory inline).VouchesAt site where
  fit_expr he hst := he.holds hst
  part _ _ := trivial
  look hf a st' hrun := by
    obtain ⟨ha, rfl⟩ := of_look_eq_ok hrun
    simpa only [GivesOr, outcomes, ha] using hf
  withoutStatements hst hact a st' hrun :=
    Vouches.withoutStatements (fun st a st' hst => hact st hst a st') _ a st' hst hrun
  readVar hst _ := .refl fun n _ hpasses => site.known_of_reads hst
    (fun hnone => by rw [outcomes, Scope.readVar, hnone, Option.getD_none]) hpasses
  pointTo _ _ := .of_forall (fun _ => trivial) fun _ _ => .refl fun _ _ _ => rfl
  node _ hvar hes := site.vouched_node hvar hes
  follow hpointer := by
    refine ⟨hpointer.mono fun n _ hpasses => ⟨Expr.reads_addressOf hpasses, fun hknown => ?_⟩,
      hpointer.mono fun n _ hpasses => ⟨hpasses, fun hknown => ?_⟩⟩
    · exact Expr.reads_iff.2 ⟨rfl, List.forall_mem_singleton.2 hknown⟩
    · exact Expr.reads_iff.2 ⟨rfl, List.forall_mem_singleton.2 hknown⟩
  inline {_ method es _ st'} _ hmethod hes hst r st'' hrun :=
    site.vouched_inlined (Expr.namesVar_of_method? hmethod) hes (h method es st' r st'' hst hrun)
  fit_of_fitStmt hst := hst
  fitStmt_expr he hst := he.holds hst
  fitStmt_target hc hst := hc.holds hst
  fitStmt_arm hD hst := hD.holds hst
  fitStmt_stmt hs hst := hs.holds hst
  madeOf _ := Stmt.madeOf_of_forall (fun _ => trivial) (fun _ => trivial) (fun _ _ _ => trivial) _
  storeVar hst _ := .of_forall (fun _ => trivial) fun c hc => .refl fun n _ hpasses =>
    site.known_of_reads hst (fun hnone => by
      rw [outcomes, Scope.resolveCell, hnone] at hc
      cases hc
      rfl) hpasses
  source_address _ _ := trivial
  store {c c' st st'} _ hc hexpr := hexpr.mono fun n _ hpasses =>
    ⟨Expr.reads_addressOf hpasses, fun hknown =>
      Expr.reads_of_parts (Walker.Keeps.namesVar_read hc).1 (Expr.reads_iff.1 hknown).2⟩
  drop _ he := .of_forall (fun _ => trivial) fun E hE _ => he.mono fun n hn _ =>
    ⟨(Expr.reads_of_effects hE).mono (below_mono hn), fun hknown => hknown⟩
  emit {s s' st st'} hst hs _ st'' hrun := by
    have hemit : Vouches site (ofScope (ScopeM.emit s')) (fun _ _ => True)
        fun _ n => s'.Reads (below n) := .emit fun _ hpasses => hpasses
    exact Site.Vouched.trans (site.of_left hs) (hemit st' () st'' hst hrun) fun n _ =>
      ⟨trivial, fun hpasses => ⟨hpasses, fun hgood => hgood⟩⟩
  collect hst hact D st'' hrun :=
    Vouches.collect (fun st a st' hst hrun => site.of_stmts (hact st hst a st' hrun)) _ D st'' hst
      hrun

namespace Walker.VouchesAt

variable {site : Site} {w : Walker StackM}

/-- An expression is vouched for by what becomes of it. -/
theorem expr (h : w.VouchesAt site) (e : Expr) :
    Vouches site (w.expr e) (fun e' n => e'.Reads (below n))
      fun _ n => e.Reads (known site.bindings n) :=
  fun st e' st' hst hrun => h.toKeeps.expr trivial st hst e' st' hrun

/-- The statement is vouched for once it was walked over. -/
theorem stmt (h : w.VouchesAt site) (s : Stmt) :
    Vouches site (w.stmt s) (fun _ _ => True) fun _ n => s.Reads (known site.bindings n) :=
  fun st _ st' hst hrun => KeepsStmts.stmt h s trivial st hst () st' hrun

/-- The statements are vouched for once they were walked over. -/
theorem block (h : w.VouchesAt site) (stmts : List Stmt) :
    Vouches site (w.block stmts) (fun _ _ => True)
      fun _ n => Stmt.BlockReads (known site.bindings n) stmts :=
  fun _ _ st' hst hrun =>
    site.of_stmts (KeepsStmts.block h (fun _ _ => trivial) hst () st' hrun)

end Walker.VouchesAt

end Inliner
