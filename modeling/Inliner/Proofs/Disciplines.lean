import Inliner.Proofs.Simulation
import Inliner.Proofs.WalkRules

/-!
# Disciplines of work in a scope

While a method is simplified, locals are declared and statements are emitted. A `Discipline` says
what the terms have to be like that are left behind, and in which ways work may be at fault. Work
under a discipline advances the scope: whatever it emits is as it has to be (`Advances`), and so is
what it returns (`Ensures`).

The walk over terms is such work if the terms that it is given are suitable (`Reading`) and calls are
treated under the discipline (`CallTreatment.Obeys`). This follows from the rule for walks; what a
particular discipline has to say about the walk are the fields of its readings.
-/

namespace Inliner

/-! ## Outcomes in a scope -/

namespace ScopeM

/-- Work in a scope has a result as described, or it is at fault in a way that is fine. -/
def outcomes (fine : Fault → Prop) : Outcomes ScopeM Scope where
  view S := S
  fine := fine
  Ensures S act Q :=
    match act S with
    | .ok a S' => Q a S'
    | .error fault _ => fine fault
  pure h := h
  bind {_ _ act k S Q} h := by
    cases hact : act S with
    | ok a S₁ =>
      rw [hact] at h
      rw [bind_of_ok hact]
      exact h
    | error fault S₁ =>
      rw [hact] at h
      rw [bind_of_error hact]
      exact h
  mono {_ act S Q R} h hQ := by
    cases hact : act S with
    | ok a S₁ =>
      rw [hact] at h
      exact hQ a S₁ h
    | error fault S₁ =>
      rw [hact] at h
      exact h

/-- What is known of work that succeeded. -/
lemma outcomes_of_ok {A : Type} {fine : Fault → Prop} {act : ScopeM A} {S S' : Scope} {a : A}
    {Q : A → Scope → Prop} (h : (outcomes fine).Ensures S act Q) (hact : act S = .ok a S') :
    Q a S' := by
  simpa only [outcomes, hact] using h

/-- What does not change the scope. -/
lemma outcomes_ofExcept {A : Type} {fine : Fault → Prop} {x : Except Fault A} {S : Scope}
    {Q : A → Scope → Prop} (h : GivesOr fine x fun a => Q a S) :
    (outcomes fine).Ensures S (ofExcept x) Q := by
  cases x with
  | ok a => exact (outcomes fine).pure h
  | error fault => exact h

end ScopeM

/-! ## Disciplines -/

/-- What is asked of work in a scope: the ways in which it may be at fault, and what the terms are
like that it leaves. This may depend on the variables, and lasts when locals are added. -/
structure Discipline where
  /-- Work may be at fault like this. -/
  fine : Fault → Prop
  expr : VarTable → Expr → Prop
  /-- Storage that is stored into. -/
  target : VarTable → Cell → Prop
  stmt : VarTable → Stmt → Prop
  expr_mono : ∀ {t t' : VarTable} {e : Expr}, t.ExtendedTo t' → expr t e → expr t' e
  target_mono : ∀ {t t' : VarTable} {c : Cell}, t.ExtendedTo t' → target t c → target t' c
  stmt_mono : ∀ {t t' : VarTable} {s : Stmt}, t.ExtendedTo t' → stmt t s → stmt t' s
  made : ∀ {t : VarTable} {s : Stmt},
    s.MadeOf (expr t) (target t) (fun stmts => ∀ s ∈ stmts, stmt t s) → stmt t s
  /-- What is pointed at can be read. -/
  follow : ∀ {t : VarTable} {c : Cell}, expr t (.addressOf c) → expr t (.read c)
  marshalOut : ∀ {t : VarTable} {e : Expr}, expr t (.marshalOut e) ↔ expr t e
  marshalIn : ∀ {t : VarTable} {e : Expr}, expr t (.marshalIn e) ↔ expr t e
  null : ∀ {t : VarTable}, expr t (.const .null)
  expr_effects : ∀ {t : VarTable} {e : Expr}, expr t e →
    GivesOr fine (e.effects t) fun _ => True
  stmt_effects : ∀ {t : VarTable} {s : Stmt}, stmt t s →
    GivesOr fine (s.effects t) fun _ => True

namespace Discipline

variable {I : Discipline} {S S₁ S₂ : Scope}

/-- Locals were declared, and statements were emitted under the discipline. -/
structure Grows (I : Discipline) (S S' : Scope) : Prop where
  vars : S.vars.ExtendedTo S'.vars
  buffer : ∃ D, S'.buffer = S.buffer.map (· ++ D) ∧ ∀ s ∈ D, I.stmt S'.vars s

namespace Grows

/-- No statement is emitted. -/
lemma of_eq (hbuffer : S₁.buffer = S.buffer) (hvars : S.vars.ExtendedTo S₁.vars) :
    I.Grows S S₁ where
  vars := hvars
  buffer := ⟨[], by simp [hbuffer], List.forall_mem_nil _⟩

/-- The statements of two steps are emitted one after the other. -/
lemma trans (h : I.Grows S S₁) (h' : I.Grows S₁ S₂) : I.Grows S S₂ where
  vars := h.vars.trans h'.vars
  buffer := by
    obtain ⟨D, hbuffer, hD⟩ := h.buffer
    obtain ⟨D', hbuffer', hD'⟩ := h'.buffer
    refine ⟨D ++ D', ?_, List.forall_mem_append.2 ⟨fun s hs => I.stmt_mono h'.vars (hD s hs), hD'⟩⟩
    rw [hbuffer', hbuffer, Option.map_map]
    cases S.buffer <;> simp

/-- No buffer is opened or closed. -/
lemma hasBuffer (h : I.Grows S S₁) : S₁.hasBuffer = S.hasBuffer := by
  obtain ⟨D, hbuffer, -⟩ := h.buffer
  rw [Scope.hasBuffer, Scope.hasBuffer, hbuffer, Option.isSome_map]

/-- What was emitted into an empty buffer. -/
lemma collected (h : I.Grows S S₁) (hbuffer : S.buffer = some []) :
    ∀ s ∈ S₁.buffer.getD [], I.stmt S₁.vars s := by
  obtain ⟨D, hbuffer', hD⟩ := h.buffer
  rw [hbuffer] at hbuffer'
  rw [hbuffer']
  exact hD

end Grows

/-- The scope grew, and variables stand for what they stood for. -/
structure Advances (I : Discipline) (S S' : Scope) : Prop extends I.Grows S S' where
  bindings : S'.bindings = S.bindings

namespace Advances

/-- Nothing of this changes. -/
lemma of_eq (hbindings : S₁.bindings = S.bindings) (hbuffer : S₁.buffer = S.buffer)
    (hvars : S₁.vars = S.vars) : I.Advances S S₁ :=
  ⟨.of_eq hbuffer (hvars ▸ .refl _), hbindings⟩

/-- Nothing is done. -/
lemma refl (S : Scope) : I.Advances S S :=
  .of_eq rfl rfl rfl

/-- One step after the other. -/
lemma trans (h : I.Advances S S₁) (h' : I.Advances S₁ S₂) : I.Advances S S₂ :=
  ⟨h.toGrows.trans h'.toGrows, h'.bindings.trans h.bindings⟩

/-- Of a nested scope, the variables and bindings are kept. -/
lemma leave {b : Option (List Stmt)} {E : Effects}
    (h : I.Advances { S with buffer := b, effects := E } S₁) :
    I.Advances S { S₁ with buffer := S.buffer, effects := S.effects } :=
  ⟨.of_eq rfl h.vars, h.bindings⟩

end Advances

/-! ## Work under a discipline -/

/-- In the scope `S` the work advances the scope, and `Q` holds of what it returns and of the
variables afterwards; or it is at fault in a way that is fine. -/
def Ensures {A : Type} (I : Discipline) (S : Scope) (act : ScopeM A) (Q : A → VarTable → Prop) :
    Prop :=
  (ScopeM.outcomes I.fine).Ensures S act fun a S' => I.Advances S S' ∧ Q a S'.vars

namespace Ensures

variable {A B : Type} {act : ScopeM A} {a : A} {Q : A → VarTable → Prop} {R : B → VarTable → Prop}

/-- Work that cannot be at fault. -/
lemma of_eq_ok (hact : act S = .ok a S₁) (hadvances : I.Advances S S₁) (hQ : Q a S₁.vars) :
    I.Ensures S act Q := by
  simp only [Ensures, ScopeM.outcomes, hact]
  exact ⟨hadvances, hQ⟩

/-- What is known of work that succeeded. -/
lemma of_ok (h : I.Ensures S act Q) (hact : act S = .ok a S₁) : I.Advances S S₁ ∧ Q a S₁.vars :=
  ScopeM.outcomes_of_ok h hact

/-- What is known of work that failed. -/
lemma of_error (h : I.Ensures S act Q) {fault : Fault} (hact : act S = .error fault S₁) :
    I.fine fault := by
  simpa only [Ensures, ScopeM.outcomes, hact] using h

/-- A result without any work. -/
protected lemma pure (h : Q a S.vars) : I.Ensures S (pure a) Q :=
  .of_eq_ok rfl (.refl S) h

/-- The second step may rely on what the first one ensures. -/
protected lemma bind {k : A → ScopeM B} (h : I.Ensures S act Q)
    (hk : ∀ a S', I.Advances S S' → Q a S'.vars → I.Ensures S' (k a) R) :
    I.Ensures S (act >>= k) R := by
  refine (ScopeM.outcomes I.fine).seq h fun a S₁ h₁ => ?_
  refine (ScopeM.outcomes I.fine).mono (hk a S₁ h₁.1 h₁.2) fun b S₂ h₂ => ?_
  exact ⟨h₁.1.trans h₂.1, h₂.2⟩

/-- Only what the work does in the scope matters. -/
lemma congr {act' : ScopeM A} (hact : act S = act' S) (h : I.Ensures S act' Q) :
    I.Ensures S act Q := by
  simp only [Ensures, ScopeM.outcomes, hact] at h ⊢
  exact h

/-- Looking at the scope. -/
lemma get_bind {k : Scope → ScopeM A} (h : I.Ensures S (k S) Q) : I.Ensures S (get >>= k) Q :=
  .congr (show (get >>= k) S = k S S from rfl) h

/-- What is computed without the scope. -/
lemma ofExcept {x : Except Fault A} (h : GivesOr I.fine x fun a => Q a S.vars) :
    I.Ensures S (ScopeM.ofExcept x) Q :=
  ScopeM.outcomes_ofExcept (h.mono fun _ hQ => ⟨.refl S, hQ⟩)

/-- What is computed from the scope. -/
lemma look {f : Scope → Except Fault A} (h : GivesOr I.fine (f S) fun a => Q a S.vars) :
    I.Ensures S (ScopeM.look f) Q :=
  .get_bind (.ofExcept h)

/-- In a nested scope. -/
lemma nested {enter : Scope → Scope} {leave : Scope → Scope → Scope} {Q' : A → Scope → Prop}
    (h : (ScopeM.outcomes I.fine).Ensures (enter S) act Q')
    (hleave : ∀ a inner, Q' a inner →
      I.Advances S (leave S inner) ∧ Q a (leave S inner).vars) :
    I.Ensures S (ScopeM.nested enter leave act) Q := by
  simp only [ScopeM.outcomes] at h
  cases hact : act (enter S) with
  | ok a inner =>
    rw [hact] at h
    obtain ⟨hadvances, hQ⟩ := hleave a inner h
    exact .of_eq_ok (by rw [ScopeM.nested, hact]) hadvances hQ
  | error fault inner =>
    rw [hact] at h
    simp only [Ensures, ScopeM.outcomes, ScopeM.nested, hact]
    exact h

/-- Where no statement can be emitted, none is. -/
lemma withoutStatements (h : I.Ensures { S with buffer := none } act Q) :
    I.Ensures S (ScopeM.withoutStatements act) Q :=
  .nested h fun _ _ h' => ⟨h'.1.leave, h'.2⟩

/-- What is emitted into a buffer of its own is returned. -/
lemma collect {act : ScopeM Unit} {Q : Unit → VarTable → Prop}
    (h : I.Ensures { S with buffer := some [], effects := .bottom S.vars.frame } act Q) :
    I.Ensures S (ScopeM.collect act) fun D t => ∀ s ∈ D, I.stmt t s := by
  have htaken : (ScopeM.outcomes I.fine).Ensures
      { S with buffer := some [], effects := .bottom S.vars.frame }
      (do act; ScopeM.takeStatements : ScopeM (List Stmt)) fun D inner =>
        I.Advances S { inner with buffer := S.buffer, effects := S.effects } ∧
          ∀ s ∈ D, I.stmt inner.vars s := by
    refine (ScopeM.outcomes I.fine).seq h fun _ S₁ h₁ => ?_
    simp only [ScopeM.outcomes, ScopeM.takeStatements_getD]
    exact ⟨h₁.1.leave, h₁.1.collected rfl⟩
  exact .nested htaken fun _ _ h' => h'

/-- An event is recorded. -/
lemma record (kind : EventKind) (location : Option Nat) (message : String) :
    I.Ensures S (ScopeM.record kind location message) fun _ _ => True :=
  .of_eq_ok rfl (.of_eq rfl rfl rfl) trivial

/-- Effects are added up. -/
lemma addEffects (effects : Effects) : I.Ensures S (ScopeM.addEffects effects) fun _ _ => True :=
  .of_eq_ok rfl (.of_eq rfl rfl rfl) trivial

end Ensures

/-- Statements can be emitted in the scope, or it is fine if they cannot. -/
def CanEmit (I : Discipline) (S : Scope) : Prop :=
  S.hasBuffer = true ∨ I.fine .noStatementBuffer

/-- Statements can still be emitted later. -/
lemma Grows.canEmit (h : I.Grows S S₁) (hS : I.CanEmit S) : I.CanEmit S₁ :=
  hS.imp_left h.hasBuffer.trans

/-- A statement is put into the buffer. -/
lemma ensures_append {s : Stmt} (hS : I.CanEmit S) (hs : I.stmt S.vars s) :
    I.Ensures S (ScopeM.append s) fun _ _ => True := by
  cases hbuffer : S.buffer with
  | some stmts =>
    refine .of_eq_ok (ScopeM.append_eq hbuffer s) ⟨⟨.refl _, [s], ?_, ?_⟩, rfl⟩ trivial
    · rw [hbuffer]
      rfl
    · exact List.forall_mem_singleton.2 hs
  | none =>
    have hfine : I.fine .noStatementBuffer := by
      simpa [CanEmit, Scope.hasBuffer, hbuffer] using hS
    simpa only [Ensures, ScopeM.outcomes, ScopeM.append_of_none hbuffer s] using hfine

/-- Statements that were collected are appended. -/
lemma ensures_forM_append {D : List Stmt} (hS : I.CanEmit S) (hD : ∀ s ∈ D, I.stmt S.vars s) :
    I.Ensures S (D.forM ScopeM.append) fun _ _ => True := by
  induction D generalizing S with
  | nil => exact .pure trivial
  | cons s rest ih =>
    obtain ⟨hs, hrest⟩ := List.forall_mem_cons.1 hD
    exact .bind (ensures_append hS hs) fun _ S₁ h₁ _ =>
      ih (h₁.canEmit hS) fun s hs => I.stmt_mono h₁.vars (hrest s hs)

/-- A statement is emitted under the discipline. -/
lemma ensures_emit {s : Stmt} (hS : I.CanEmit S) (hs : I.stmt S.vars s) :
    I.Ensures S (ScopeM.emit s) fun _ _ => True := by
  refine .get_bind (.bind (Q := fun _ _ => True) (.ofExcept (I.stmt_effects hs)) fun E S₁ h₁ _ => ?_)
  exact .bind (ensures_append (h₁.canEmit hS) (I.stmt_mono h₁.vars hs)) fun _ _ _ _ =>
    .addEffects E

/-! ## The walk -/

/-- What takes the place of a call, if anything does, is as it has to be. -/
def Replaces (I : Discipline) (r : Option Expr) (t : VarTable) : Prop :=
  ∀ e, r = some e → I.expr t e

/-- Terms that can be walked over under the discipline, and the scopes in which this is done. -/
structure Reading (I : Discipline) where
  source : Expr → Prop
  /-- Storage that is stored into. -/
  sourceTarget : Cell → Prop
  sourceStmt : Stmt → Prop
  fit : Scope → Prop
  part : ∀ {e a : Expr}, source e → a ∈ e.parts → source a
  madeOf : ∀ {s : Stmt}, sourceStmt s →
    s.MadeOf source sourceTarget fun stmts => ∀ s ∈ stmts, sourceStmt s
  address : ∀ {c : Cell}, sourceTarget c → (∀ id, c ≠ .var id) → source (.addressOf c)
  /-- Neither the buffer nor locals that were added matter. -/
  fit_congr : ∀ {S S' : Scope}, S'.bindings = S.bindings → S.vars.ExtendedTo S'.vars → fit S →
    fit S'
  node : ∀ {t : VarTable} {e : Expr} {es : List Expr}, source e → e.namesVar = false →
    es.length = e.parts.length → (∀ a ∈ es, I.expr t a) → I.expr t (e.withParts es)
  readVar : ∀ {S : Scope} {id : VarId}, fit S → source (.readVar id) →
    I.expr S.vars (S.readVar id)
  pointTo : ∀ {S : Scope} {id : VarId}, fit S → source (.addressOf (.var id)) →
    GivesOr I.fine (S.resolveCell (.var id)) fun c => I.expr S.vars (.addressOf c)
  storeVar : ∀ {S : Scope} {id : VarId}, fit S → sourceTarget (.var id) →
    GivesOr I.fine (S.resolveCell (.var id)) fun c => I.target S.vars c
  store : ∀ {S : Scope} {c : Cell}, fit S → I.expr S.vars (.addressOf c) → I.target S.vars c

end Discipline

open Discipline (Reading)

/-- In the terms that are read, calls are treated under the discipline. -/
def CallTreatment.Obeys {I : Discipline} (calls : CallTreatment) (R : I.Reading) : Prop :=
  ∀ (S : Scope) (e : Expr) (method : MethodRef) (args : List Expr), R.source e →
    e.method? = some method → R.fit S → args.length = e.parts.length →
      (∀ a ∈ args, I.expr S.vars a) → I.Ensures S (calls.inline method args) I.Replaces

namespace Discipline.Reading

variable {I : Discipline} {R : I.Reading} {S S' : Scope}

/-- A scope stays fit while work is done in it. -/
lemma fit_advances (R : I.Reading) (h : I.Advances S S') (hS : R.fit S) : R.fit S' :=
  R.fit_congr h.bindings h.vars hS

/-- A scope with a buffer of its own is as fit as the one around it. -/
lemma fit_inside (R : I.Reading) (hS : R.fit S) (b : Option (List Stmt)) (E : Effects) :
    R.fit { S with buffer := b, effects := E } :=
  R.fit_congr (S := S) rfl (.refl _) hS

/-- What is shown of the walk under a discipline. -/
def spec (R : I.Reading) : WalkSpec Scope where
  fit := R.fit
  fitStmt S := R.fit S ∧ I.CanEmit S
  source := R.source
  sourceTarget := R.sourceTarget
  sourceStmt := R.sourceStmt
  expr S _ e S' := I.Advances S S' ∧ I.expr S'.vars e
  target S _ c S' := I.Advances S S' ∧ I.target S'.vars c
  arm S _ D S' := I.Advances S S' ∧ ∀ s ∈ D, I.stmt S'.vars s
  stmt S _ S' := I.Advances S S'

/-- What is known of several expressions that were walked over. -/
lemma of_exprs {es es' : List Expr} (h : R.spec.Exprs S es es' S') :
    I.Advances S S' ∧ es'.length = es.length ∧ ∀ a ∈ es', I.expr S'.vars a := by
  induction h with
  | nil S => exact ⟨.refl S, rfl, List.forall_mem_nil _⟩
  | cons he hes ih =>
    obtain ⟨hadvances, hlength, hes'⟩ := ih
    refine ⟨he.1.trans hadvances, congrArg Nat.succ hlength, ?_⟩
    exact List.forall_mem_cons.2 ⟨I.expr_mono hadvances.vars he.2, hes'⟩

/-- What is known of several statements that were walked over. -/
lemma of_stmts {stmts : List Stmt} (h : R.spec.Stmts S stmts S') : I.Advances S S' := by
  induction h with
  | nil S => exact .refl S
  | cons hs _ ih => exact hs.trans ih

/-- What is left of a statement is as it has to be. -/
lemma of_left {s s' : Stmt} (h : R.spec.Left S s s' S') :
    I.Advances S S' ∧ I.stmt S'.vars s' := by
  cases h with
  | eval he => exact ⟨he.1, I.made he.2⟩
  | assign hc he => exact ⟨hc.1.trans he.1, I.made ⟨I.target_mono he.1.vars hc.2, he.2⟩⟩
  | retNone => exact ⟨.refl S, I.made trivial⟩
  | ret he => exact ⟨he.1, I.made he.2⟩
  | raise he => exact ⟨he.1, I.made he.2⟩
  | branch hc ht hf =>
    refine ⟨hc.1.trans (ht.1.trans hf.1), I.made ⟨?_, fun s hs => ?_, hf.2⟩⟩
    · exact I.expr_mono (ht.1.trans hf.1).vars hc.2
    · exact I.stmt_mono hf.1.vars (ht.2 s hs)

/-- The walk is under the discipline at every node. -/
lemma keeps {calls : CallTreatment} (hcalls : calls.Obeys R) :
    (Walker.ofCalls calls).KeepsStmts (ScopeM.outcomes I.fine) R.spec where
  fit_expr he hst := R.fit_advances he.1 hst
  part := R.part
  look h := ScopeM.outcomes_ofExcept h
  withoutStatements {act _ S} hst h := by
    have hact : I.Ensures { S with buffer := none } act fun e t => I.expr t e :=
      h _ (R.fit_inside hst none S.effects)
    exact hact.withoutStatements
  readVar hst hsource := ⟨.refl _, R.readVar hst hsource⟩
  pointTo hst hsource := (R.pointTo hst hsource).mono fun _ hc => ⟨.refl _, hc⟩
  node hsource hvar hes := by
    obtain ⟨hadvances, hlength, hes'⟩ := of_exprs hes
    exact ⟨hadvances, R.node hsource hvar hlength hes'⟩
  follow h := ⟨⟨h.1, I.follow h.2⟩, h⟩
  inline {e _ es S S'} hsource hmethod hes hst := by
    obtain ⟨hadvances, hlength, hes'⟩ := of_exprs hes
    refine (ScopeM.outcomes I.fine).mono (hcalls _ e _ es hsource hmethod hst hlength hes')
      fun r S₂ hr => ⟨hadvances.trans hr.1, ?_⟩
    cases r with
    | some e' => exact hr.2 e' rfl
    | none =>
      have hvar := Expr.namesVar_of_method? hmethod
      exact I.expr_mono hr.1.vars (R.node hsource hvar hlength hes')
  fit_of_fitStmt hst := hst.1
  fitStmt_expr he hst := ⟨R.fit_advances he.1 hst.1, he.1.canEmit hst.2⟩
  fitStmt_target hc hst := ⟨R.fit_advances hc.1 hst.1, hc.1.canEmit hst.2⟩
  fitStmt_arm hD hst := ⟨R.fit_advances hD.1 hst.1, hD.1.canEmit hst.2⟩
  fitStmt_stmt hs hst := ⟨R.fit_advances hs hst.1, hs.canEmit hst.2⟩
  madeOf := R.madeOf
  storeVar hst hsource := (R.storeVar hst.1 hsource).mono fun _ hc => ⟨.refl _, hc⟩
  source_address := R.address
  store hst _ he := ⟨he.1, R.store hst.1 he.2⟩
  drop _ he := (I.expr_effects he.2).mono fun _ _ _ => he.1
  emit hst hs := by
    obtain ⟨hadvances, hs'⟩ := of_left hs
    exact (ScopeM.outcomes I.fine).mono (ensures_emit hst.2 hs') fun _ _ h => hadvances.trans h.1
  collect hst h := by
    refine Ensures.collect (Q := fun _ _ => True) ?_
    exact (ScopeM.outcomes I.fine).mono (h _ ⟨R.fit_inside hst.1 (some []) _, .inl rfl⟩)
      fun _ _ hs => ⟨of_stmts hs, trivial⟩

end Discipline.Reading

namespace CallTreatment.Obeys

variable {I : Discipline} {R : I.Reading} {calls : CallTreatment} {S : Scope}

/-- What becomes of an expression is as it has to be. -/
theorem expr (h : calls.Obeys R) {e : Expr} (hS : R.fit S) (he : R.source e) :
    I.Ensures S (Pass.expr calls e) fun e' t => I.expr t e' := by
  rw [(Walker.related_ofCalls calls).expr e]
  exact (Reading.keeps h).toKeeps.expr he S hS

/-- A statement is simplified under the discipline. -/
theorem stmt (h : calls.Obeys R) {s : Stmt} (hS : R.fit S) (hbuffer : I.CanEmit S)
    (hs : R.sourceStmt s) : I.Ensures S (Pass.stmt calls s) fun _ _ => True := by
  rw [(Walker.stmtRelated_ofCalls calls).stmt s]
  exact (ScopeM.outcomes I.fine).mono ((Reading.keeps h).stmt s hs S ⟨hS, hbuffer⟩)
    fun _ _ hadvances => ⟨hadvances, trivial⟩

/-- A block is simplified under the discipline. -/
theorem block (h : calls.Obeys R) {stmts : List Stmt} (hS : R.fit S) (hbuffer : I.CanEmit S)
    (hstmts : ∀ s ∈ stmts, R.sourceStmt s) :
    I.Ensures S (Pass.block calls stmts) fun _ _ => True := by
  rw [(Walker.stmtRelated_ofCalls calls).block stmts]
  exact (ScopeM.outcomes I.fine).mono ((Reading.keeps h).block hstmts ⟨hS, hbuffer⟩)
    fun _ _ hblock => ⟨Reading.of_stmts hblock, trivial⟩

end CallTreatment.Obeys

end Inliner
