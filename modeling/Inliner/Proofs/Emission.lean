import Inliner.Scope
import Inliner.Proofs.Machine
import Inliner.Proofs.MapEntries

/-!
# Statements emitted in a scope

Simplifying a term in a scope emits statements, declares locals and leaves the bindings as they
were. `Emits lo S S' D` says that this leads from the scope `S` to the scope `S'` with the
statements `D` emitted, which assign no variable below `lo`.

Two environments play a role: one for the term that is simplified and one for the result. They are
related by the bindings: `Stands` says that what a variable stands for has the value of the
variable. A variable stands for a constant or another variable (`Binds`), so this is kept as long as
those variables are not assigned. Locals that were declared on the way are `Fresh`, they hold the
defaults of their types, until the emitted statements assign them.
-/

namespace Inliner

/-- What is bound after one more variable was. -/
lemma Scope.get?_bound (S : Scope) (id id' : VarId) (e : Expr) :
    (S.bound id e).bindings.get? id' = if id' = id then some e else S.bindings.get? id' := by
  rw [Scope.bound, KeyMap.get?_insert]

/-- What variables stand for after one more was bound. -/
lemma Scope.readVar_bound (S : Scope) (id id' : VarId) (e : Expr) :
    (S.bound id e).readVar id' = if id' = id then e else S.readVar id' := by
  unfold Scope.readVar Scope.bound
  rw [KeyMap.get?_insert]
  by_cases h : id' = id <;> simp [h]

/-! ## Declaring more locals -/

namespace VarTable

/-- The second table declares more locals than the first. -/
def ExtendedTo (t t' : VarTable) : Prop :=
  ∃ added : List Variable, t'.vars = t.vars ++ added ∧ ∀ v ∈ added, v.storage = .localVar

/-- A variable that is declared is one of the table. -/
lemma index_lt_of_get? {t : VarTable} {id : VarId} {v : Variable} (hv : t.get? id = some v) :
    id.index < t.size :=
  (List.getElem?_eq_some_iff.1 hv).1

namespace ExtendedTo

variable {t t₁ t₂ : VarTable}

/-- Nothing is declared. -/
lemma refl (t : VarTable) : t.ExtendedTo t :=
  ⟨[], by simp, by simp⟩

/-- More is declared. -/
lemma trans (h : t.ExtendedTo t₁) (h' : t₁.ExtendedTo t₂) : t.ExtendedTo t₂ := by
  obtain ⟨added, hvars, hlocal⟩ := h
  obtain ⟨added', hvars', hlocal'⟩ := h'
  refine ⟨added ++ added', by rw [hvars', hvars, List.append_assoc], fun v hv => ?_⟩
  rcases List.mem_append.1 hv with hv | hv
  · exact hlocal v hv
  · exact hlocal' v hv

/-- The table does not shrink. -/
lemma size_le (h : t.ExtendedTo t₁) : t.size ≤ t₁.size := by
  obtain ⟨added, hvars, -⟩ := h
  simp [size, hvars]

/-- What is declared stays as it is. -/
lemma get?_eq (h : t.ExtendedTo t₁) {id : VarId} (hid : id.index < t.size) :
    t₁.get? id = t.get? id := by
  obtain ⟨added, hvars, -⟩ := h
  unfold get?
  rw [hvars, List.getElem?_append_left hid]

/-- Variables that were declared stay as they are. -/
lemma get?_of_some (h : t.ExtendedTo t₁) {id : VarId} {v : Variable} (hv : t.get? id = some v) :
    t₁.get? id = some v := by
  rw [h.get?_eq (index_lt_of_get? hv), hv]

/-- What is added to a table are locals. -/
lemma storage_eq (h : t.ExtendedTo t₁) {id : VarId} {v : Variable} (hid : t.size ≤ id.index)
    (hv : t₁.get? id = some v) : v.storage = .localVar := by
  obtain ⟨added, hvars, hlocal⟩ := h
  unfold get? at hv
  rw [hvars, List.getElem?_append_right hid] at hv
  exact hlocal v (List.mem_of_getElem? hv)

/-- A new local comes last. -/
lemma declareLocal (t : VarTable) (name : String) (type : TypeRef) (flags : Flags) :
    t.ExtendedTo (t.declareLocal name type flags) :=
  ⟨[⟨name, type, .localVar, flags⟩], rfl, by simp⟩

end ExtendedTo

end VarTable

/-! ## Constants and variables -/

/-- The expression is a constant or reads one of the first `n` variables. -/
def Expr.IsSimple (n : Nat) (e : Expr) : Prop :=
  (∃ c, e = .const c) ∨ ∃ id : VarId, id.index < n ∧ e = .readVar id

namespace Expr.IsSimple

variable {V H X : Type} {m : Machine V H X} {n : Nat} {e : Expr}

/-- There may be more variables. -/
lemma mono (h : e.IsSimple n) {n' : Nat} (hn : n ≤ n') : e.IsSimple n' :=
  h.imp id fun ⟨id, hid, he⟩ => ⟨id, Nat.lt_of_lt_of_le hid hn, he⟩

/-- What reads a variable that exists and has nothing to do with pointers is plain. -/
lemma allNodes_plain (h : e.IsSimple n) : e.allNodes (plain n) = true := by
  rcases h with ⟨c, rfl⟩ | ⟨id, hid, rfl⟩
  · simp [Expr.allNodes, plain, inScope, noPointer]
  · simp [Expr.allNodes, Cell.allNodes, plain, inScope, noPointer, hid]

/-- A plain expression that counts as a value is simple. -/
lemma of_isValue {vars : VarTable} (hplain : e.allNodes (plain n) = true)
    (hvalue : e.isValue vars = true) : e.IsSimple n := by
  have hself := (Expr.allNodes_iff.1 hplain).1
  unfold Expr.isValue at hvalue
  split at hvalue
  · exact .inl ⟨_, rfl⟩
  · simp [plain, noPointer] at hself
  · exact .inr ⟨_, by simpa [plain, inScope, noPointer] using hself, rfl⟩
  · cases hvalue

/-- Evaluating a simple expression has no effect. -/
lemma exists_value (h : e.IsSimple n) (env : Env V) : ∃ v, m.value env e = pure v := by
  rcases h with ⟨c, rfl⟩ | ⟨id, hid, rfl⟩
  · exact ⟨m.constant c, by rw [Machine.value, Evaluator.eval]; rfl⟩
  · exact ⟨env id, by rw [Machine.value, Evaluator.eval]; rfl⟩

end Expr.IsSimple

namespace Machine

variable {V H X : Type} {m : Machine V H X}

/-- The value of a variable. -/
lemma value_readVar (env : Env V) (id : VarId) : m.value env (.readVar id) = pure (env id) := by
  rw [value, Evaluator.eval]
  rfl

/-- Plain expressions depend on the variables that exist. -/
lemma value_congr_of_plain {n : Nat} {e : Expr} {env env' : Env V}
    (he : e.allNodes (plain n) = true) (henv : ∀ id : VarId, id.index < n → env id = env' id) :
    m.value env e = m.value env' e :=
  value_congr (Expr.allNodes_mono (fun _ => inScope_of_plain) he) henv

/-- Plain expressions depend on the variables that exist. -/
lemma values_congr_of_plain {n : Nat} {es : List Expr} {env env' : Env V}
    (hes : ∀ e ∈ es, e.allNodes (plain n) = true)
    (henv : ∀ id : VarId, id.index < n → env id = env' id) : m.values env es = m.values env' es :=
  values_congr (fun e he => Expr.allNodes_mono (fun _ => inScope_of_plain) (hes e he)) henv

/-! ## Fresh locals -/

/-- The locals that the second table declares and the first does not hold their defaults. -/
def Fresh (m : Machine V H X) (t t' : VarTable) (env : Env V) : Prop :=
  ∀ id v, t.size ≤ id.index → t'.get? id = some v → env id = m.default v.type

namespace Fresh

variable {t t₁ t₂ : VarTable} {env env' : Env V}

/-- Fewer locals are fresh too. -/
lemma left (h : m.Fresh t t₂ env) (ht : t₁.ExtendedTo t₂) : m.Fresh t t₁ env := by
  intro id v hid hv
  have hlt : id.index < t₁.size := (List.getElem?_eq_some_iff.1 hv).1
  exact h id v hid (by rw [ht.get?_eq hlt, hv])

/-- Fewer locals are fresh too, also if other variables were assigned. -/
lemma right (h : m.Fresh t t₂ env) (ht : t.ExtendedTo t₁)
    (henv : ∀ id : VarId, t₁.size ≤ id.index → env' id = env id) : m.Fresh t₁ t₂ env' := by
  intro id v hid hv
  rw [henv id hid]
  exact h id v (ht.size_le.trans hid) hv

end Fresh

end Machine

/-! ## Bindings -/

namespace Scope

/-- Each of the first `k` variables stands for a constant or a variable of the scope. -/
def Binds (S : Scope) (k : Nat) : Prop :=
  ∀ id : VarId, id.index < k → (S.readVar id).IsSimple S.vars.size

/-- The variable stands for one from `lo` on, which no other of the first `k` variables stands
for. -/
def Owns (S : Scope) (lo k : Nat) (id : VarId) : Prop :=
  ∃ t : VarId, lo ≤ t.index ∧ S.readVar id = .readVar t ∧
    ∀ id' : VarId, id'.index < k → S.readVar id' = .readVar t → id' = id

/-- A variable that stands for another one can be assigned. -/
lemma resolveCell_of_readVar {S : Scope} {id t : VarId} (h : S.readVar id = .readVar t) :
    S.resolveCell (.var id) = .ok (.var t) := by
  unfold readVar at h
  cases hget : S.bindings.get? id with
  | none =>
    rw [hget] at h
    cases h
    simp [resolveCell, hget]
  | some e =>
    rw [hget] at h
    obtain rfl : e = .readVar t := h
    simp [resolveCell, hget]

/-- What a variable stands for depends on the bindings only. -/
lemma readVar_congr {S S' : Scope} (h : S'.bindings = S.bindings) (id : VarId) :
    S'.readVar id = S.readVar id := by
  rw [readVar, readVar, h]

end Scope

/-- What the first `k` variables stand for has, in the environment `τ`, the values that they have in
the environment `σ`. -/
def Machine.Stands {V H X : Type} (m : Machine V H X) (S : Scope) (k : Nat) (τ σ : Env V) : Prop :=
  ∀ id : VarId, id.index < k → m.value τ (S.readVar id) = pure (σ id)

/-- This is kept as long as the variables of the scope are not assigned. -/
lemma Machine.Stands.congr {V H X : Type} {m : Machine V H X} {S S' : Scope} {k : Nat}
    {τ τ' σ : Env V} (h : m.Stands S k τ σ) (hbinds : S.Binds k) (hS : S'.bindings = S.bindings)
    (hτ : ∀ id : VarId, id.index < S.vars.size → τ' id = τ id) : m.Stands S' k τ' σ := by
  intro id hid
  rw [Scope.readVar_congr hS, ← h id hid]
  exact value_congr_of_plain (hbinds id hid).allNodes_plain hτ

/-! ## Emitted statements -/

mutual

/-- A plain statement assigns variables that exist only. -/
lemma Stmt.index_lt_of_assigns {n : Nat} {s : Stmt} {id : VarId}
    (hplain : s.allNodes (plain n) = true) (h : s.assigns id = true) : id.index < n := by
  cases s with
  | assign c e =>
    cases c with
    | var target =>
      obtain rfl : target = id := by simpa [Stmt.assigns] using h
      simp only [Stmt.allNodes, Bool.and_eq_true] at hplain
      simpa [plain, inScope, noPointer] using (Expr.allNodes_iff.1 hplain.1).1
    | _ => cases h
  | branch cond onTrue onFalse =>
    simp only [Stmt.allNodes, Stmt.assigns, Bool.and_eq_true, Bool.or_eq_true] at hplain h
    rcases h with h | h
    · exact Stmt.index_lt_of_blockAssigns hplain.2.1 h
    · exact Stmt.index_lt_of_blockAssigns hplain.2.2 h
  | _ => cases h

/-- A plain block assigns variables that exist only. -/
lemma Stmt.index_lt_of_blockAssigns {n : Nat} {stmts : List Stmt} {id : VarId}
    (hplain : Stmt.blockNodes (plain n) stmts = true) (h : Stmt.blockAssigns id stmts = true) :
    id.index < n := by
  cases stmts with
  | nil => cases h
  | cons s rest =>
    simp only [Stmt.blockNodes, Stmt.blockAssigns, Bool.and_eq_true, Bool.or_eq_true] at hplain h
    rcases h with h | h
    · exact Stmt.index_lt_of_assigns hplain.1 h
    · exact Stmt.index_lt_of_blockAssigns hplain.2 h

end

/-- A block assigns to a variable if one of its parts does. -/
lemma Stmt.blockAssigns_append (id : VarId) (xs ys : List Stmt) :
    Stmt.blockAssigns id (xs ++ ys) = (Stmt.blockAssigns id xs || Stmt.blockAssigns id ys) := by
  induction xs with
  | nil => simp [Stmt.blockAssigns]
  | cons s xs ih => simp [Stmt.blockAssigns, ih, Bool.or_assoc]

/-- A block contains a return if one of its parts does. -/
lemma Stmt.blockContainsReturn_append (xs ys : List Stmt) :
    Stmt.blockContainsReturn (xs ++ ys) =
      (Stmt.blockContainsReturn xs || Stmt.blockContainsReturn ys) := by
  induction xs with
  | nil => simp [Stmt.blockContainsReturn]
  | cons s xs ih => simp [Stmt.blockContainsReturn, ih, Bool.or_assoc]

/-- Work in the scope `S` led to the scope `S'` and emitted the statements `D`, which assign no
variable below `lo`. -/
structure Emits (lo : Nat) (S S' : Scope) (D : List Stmt) : Prop where
  bindings : S'.bindings = S.bindings
  buffer : S'.buffer = S.buffer.map (· ++ D)
  /-- Where no statement can be emitted, none was. -/
  nothing : S.buffer = none → D = []
  vars : S.vars.ExtendedTo S'.vars
  assigned : ∀ id, Stmt.blockAssigns id D = true → lo ≤ id.index
  nodes : Stmt.blockNodes (plain S'.vars.size) D = true

namespace Emits

variable {lo lo' : Nat} {S S₁ S₂ : Scope} {D D₁ D₂ : List Stmt}

/-- Nothing was emitted or declared. -/
lemma silent (hbindings : S₁.bindings = S.bindings) (hbuffer : S₁.buffer = S.buffer)
    (hvars : S₁.vars = S.vars) : Emits lo S S₁ [] where
  bindings := hbindings
  buffer := by simp [hbuffer]
  nothing _ := rfl
  vars := hvars ▸ .refl _
  assigned id h := by cases h
  nodes := rfl

/-- Statements are emitted one after the other. -/
lemma trans (h : Emits lo S S₁ D₁) (h' : Emits lo' S₁ S₂ D₂) (hlo : lo ≤ lo') :
    Emits lo S S₂ (D₁ ++ D₂) where
  bindings := h'.bindings.trans h.bindings
  buffer := by
    rw [h'.buffer, h.buffer, Option.map_map]
    cases S.buffer <;> simp
  nothing hS := by
    rw [h.nothing hS, h'.nothing (by rw [h.buffer, hS]; rfl), List.append_nil]
  vars := h.vars.trans h'.vars
  assigned id hid := by
    rw [Stmt.blockAssigns_append, Bool.or_eq_true] at hid
    rcases hid with hid | hid
    · exact h.assigned id hid
    · exact hlo.trans (h'.assigned id hid)
  nodes := by
    rw [Stmt.blockNodes_append, Bool.and_eq_true]
    exact ⟨Stmt.blockNodes_mono (fun _ => plain_mono h'.vars.size_le) h.nodes, h'.nodes⟩

/-- Less is known of what is assigned. -/
lemma weaken (h : Emits lo S S₁ D) (hlo : lo' ≤ lo) : Emits lo' S S₁ D :=
  { h with assigned := fun id hid => hlo.trans (h.assigned id hid) }

/-- What was emitted into a buffer of its own could have been emitted into the outer one. -/
lemma ofNested {E F : Effects} (hbuffer : S.hasBuffer = true)
    (h : Emits lo { S with buffer := some [], effects := E } S₁ D) :
    Emits lo S { S₁ with buffer := S.buffer.map (· ++ D), effects := F } D where
  bindings := h.bindings
  buffer := rfl
  nothing hnone := by
    rw [Scope.hasBuffer, hnone] at hbuffer
    cases hbuffer
  vars := h.vars
  assigned := h.assigned
  nodes := h.nodes

/-- What is not assigned: the variables below `lo`, and those not yet declared. -/
lemma unassigned (h : Emits lo S S₁ D) {id : VarId}
    (hid : id.index < lo ∨ S₁.vars.size ≤ id.index) : Stmt.blockAssigns id D = false := by
  by_contra hne
  rw [Bool.not_eq_false] at hne
  have hle := h.assigned id hne
  have hlt := Stmt.index_lt_of_blockAssigns h.nodes hne
  omega

/-- No buffer is opened or closed. -/
lemma hasBuffer (h : Emits lo S S₁ D) : S₁.hasBuffer = S.hasBuffer := by
  rw [Scope.hasBuffer, Scope.hasBuffer, h.buffer, Option.isSome_map]

/-- What is bound stays bound. -/
lemma binds (h : Emits lo S S₁ D) {k : Nat} (hbinds : S.Binds k) : S₁.Binds k := by
  intro id hid
  rw [Scope.readVar_congr h.bindings]
  exact (hbinds id hid).mono h.vars.size_le

/-- A variable that is owned stays so. -/
lemma owns (h : Emits lo S S₁ D) {lo k : Nat} {id : VarId} (howns : S.Owns lo k id) :
    S₁.Owns lo k id := by
  obtain ⟨t, hlo, hread, hunique⟩ := howns
  refine ⟨t, hlo, by rw [Scope.readVar_congr h.bindings, hread], fun id' hid' hread' => ?_⟩
  rw [Scope.readVar_congr h.bindings] at hread'
  exact hunique id' hid' hread'

section Environments

variable {V H X : Type} {m : Machine V H X} {τ τ' σ : Env V} {h h' : H} {k : Nat}

/-- Running what was emitted for an expression does not change what variables stand for. -/
lemma stands (he : Emits S.vars.size S S₁ D) (hrun : m.runBlock D τ h = .ok τ' h')
    (hbinds : S.Binds k) (hstands : m.Stands S k τ σ) : m.Stands S₁ k τ' σ :=
  hstands.congr hbinds he.bindings fun _ hid =>
    Machine.runBlock_frame hrun (he.unassigned (.inl hid))

/-- Running what was emitted does not touch locals that are declared later. -/
lemma fresh (he : Emits lo S S₁ D) (hrun : m.runBlock D τ h = .ok τ' h') {t : VarTable}
    (hfresh : m.Fresh S.vars t τ) : m.Fresh S₁.vars t τ' :=
  hfresh.right he.vars fun _ hid => Machine.runBlock_frame hrun (he.unassigned (.inr hid))

end Environments

end Emits

/-! ## Steps of work -/

namespace ScopeM

variable {S : Scope}

/-- A statement is appended to a buffer. -/
lemma append_eq {buffer : List Stmt} (hbuffer : S.buffer = some buffer) (s : Stmt) :
    append s S = .ok () { S with buffer := some (buffer ++ [s]) } := by
  have hget : (get : ScopeM Scope) S = .ok S S := rfl
  rw [append, bind_of_ok hget, hbuffer]
  rfl

/-- Emitting a statement appends it and adds its effects. -/
lemma emit_eq {s : Stmt} {stmts : List Stmt} {E : Effects} (hbuffer : S.buffer = some stmts)
    (hE : s.effects S.vars = .ok E) :
    emit s S = .ok () { S with
      buffer := some (stmts ++ [s])
      effects := S.effects.absorb E } := by
  change (ofExcept (s.effects S.vars) >>= fun effects => append s >>= fun _ =>
    addEffects effects) S = _
  rw [hE]
  change (append s >>= fun _ => addEffects E) S = _
  rw [bind_of_ok (append_eq hbuffer s)]
  rfl

/-- Nothing can be appended where there is no buffer. -/
lemma append_of_none (hbuffer : S.buffer = none) (s : Stmt) :
    append s S = .error .noStatementBuffer S := by
  have hget : (get : ScopeM Scope) S = .ok S S := rfl
  rw [append, bind_of_ok hget, hbuffer]
  rfl

/-- Emitting succeeds only where there is a buffer, and only if the statement has effects. -/
lemma exists_of_emit_eq_ok {S' : Scope} {s : Stmt} (h : emit s S = .ok () S') :
    ∃ stmts E, S.buffer = some stmts ∧ s.effects S.vars = .ok E ∧
      S' = { S with
        buffer := some (stmts ++ [s])
        effects := S.effects.absorb E } := by
  change (ofExcept (s.effects S.vars) >>= fun effects => append s >>= fun _ =>
    addEffects effects) S = _ at h
  cases hE : s.effects S.vars with
  | error fault =>
    rw [hE] at h
    cases h
  | ok E =>
    rw [hE] at h
    change (append s >>= fun _ => addEffects E) S = _ at h
    cases hbuffer : S.buffer with
    | none =>
      rw [bind_of_error (append_of_none hbuffer s)] at h
      cases h
    | some stmts =>
      rw [bind_of_ok (append_eq hbuffer s)] at h
      cases h
      exact ⟨stmts, E, rfl, rfl, rfl⟩

/-- A statement can be emitted where there is a buffer. -/
lemma exists_emit (lo : Nat) {s : Stmt} (hbuffer : S.hasBuffer = true)
    (hplain : s.allNodes (plain S.vars.size) = true)
    (hassigns : ∀ id, s.assigns id = true → lo ≤ id.index) :
    ∃ S', emit s S = .ok () S' ∧ Emits lo S S' [s] := by
  obtain ⟨stmts, hstmts⟩ := Option.isSome_iff_exists.1 hbuffer
  obtain ⟨E, hE⟩ := Stmt.exists_effects (Stmt.allNodes_mono (fun _ => inScope_of_plain) hplain)
  refine ⟨_, emit_eq hstmts hE, rfl, by simp [hstmts], fun hnone => ?_, .refl _, fun id hid => ?_,
    ?_⟩
  · rw [hstmts] at hnone
    cases hnone
  · exact hassigns id (by simpa [Stmt.blockAssigns] using hid)
  · simpa [Stmt.blockNodes] using hplain

/-- Recording an event is not seen in the terms. -/
lemma record_emits (lo : Nat) (kind : EventKind) (location : Option Nat) (message : String) :
    ∃ S', record kind location message S = .ok () S' ∧ Emits lo S S' [] :=
  ⟨S.logged kind location message, rfl, .silent rfl rfl rfl⟩

end ScopeM

end Inliner
