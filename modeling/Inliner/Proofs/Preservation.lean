import Inliner.Simplify
import Inliner.Proofs.Splicing

/-!
# Simplification preserves meaning

A method is simplified in a scope in which every variable stands for itself. Its top-level
statements are simplified one after the other, each with a treatment of calls of its own, so they
are transcribed as a block is (`exists_topStmts`).

The frame of the simplified method holds the parameters and locals of the method as they were, and
the locals that inlined methods brought with them, at their defaults (`newFrame_of_extended`,
`fresh_newFrame`). The two bodies therefore start from environments in which every variable has the
same value, and a run of the simplified method returns, raises and leaves on the heap what a run of
the method does.
-/

namespace Inliner

variable {V H X : Type}

/-! ## Frames of extended tables -/

namespace VarTable

/-- Locals that are added to a table are not parameters. -/
lemma ExtendedTo.arguments_eq {t t' : VarTable} (h : t.ExtendedTo t') :
    t'.arguments = t.arguments := by
  obtain ⟨added, hvars, hlocal⟩ := h
  rw [arguments, arguments, idsOf, idsOf, hvars, List.zipIdx_append, List.filter_append,
    List.map_append, List.append_right_eq_self, List.map_eq_nil_iff, List.filter_eq_nil_iff]
  rintro ⟨v, i⟩ hmem
  simp [hlocal v (List.fst_mem_of_mem_zipIdx hmem)]

end VarTable

namespace Machine

variable {m : Machine V H X} {t t' : VarTable}

/-- The variables of a table hold the same in a new frame of an extended table. -/
lemma newFrame_of_extended (h : t.ExtendedTo t') (actuals : List V) {id : VarId}
    (hid : id.index < t.size) : m.newFrame t' actuals id = m.newFrame t actuals id := by
  rw [newFrame, newFrame, h.arguments_eq, h.get?_eq hid]

/-- The added locals are fresh in a new frame. -/
lemma fresh_newFrame (h : t.ExtendedTo t') (actuals : List V) :
    m.Fresh t t' (m.newFrame t' actuals) :=
  fun _ _ hid hv => newFrame_local hv (h.storage_eq hid hv) actuals

end Machine

/-! ## Scopes without bindings -/

namespace Scope

variable {S : Scope}

/-- Where nothing is bound, variables stand for themselves. -/
lemma readVar_of_bindings_empty (h : S.bindings = ∅) (id : VarId) : S.readVar id = .readVar id := by
  rw [readVar, h]
  rfl

/-- So all of them stand for something declared. -/
lemma binds_of_bindings_empty (h : S.bindings = ∅) : S.Binds S.vars.size := by
  intro id hid
  rw [readVar_of_bindings_empty h]
  exact .inr ⟨id, hid, rfl⟩

/-- And all of them can be stored into. -/
lemma owns_of_bindings_empty (h : S.bindings = ∅) (k : Nat) (id : VarId) : S.Owns 0 k id := by
  refine ⟨id, Nat.zero_le _, readVar_of_bindings_empty h id, fun id' _ hread => ?_⟩
  rw [readVar_of_bindings_empty h] at hread
  cases hread
  rfl

end Scope

/-! ## Methods -/

section Method

variable {m : Machine V H X} {setting : Setting}

/-- The top-level statements of a method are transcribed. -/
lemma exists_topStmts (hplain : setting.IsPlain) (hagrees : m.Agrees setting) (method : MethodRef)
    {stmts : List Stmt} {lo k : Nat} (hs : Stmt.blockNodes (plain k) stmts = true) (location : Nat)
    {S : Scope} (hbinds : S.Binds k) (hbuffer : S.hasBuffer = true) (hlo : lo ≤ S.vars.size)
    (howns : ∀ id, S.Owns lo k id) :
    ∃ S' D, Pass.topStmts setting method location stmts S = .ok () S' ∧
      Transcribes m lo k S S' D stmts := by
  induction stmts generalizing location S with
  | nil => exact ⟨S, [], rfl, .nil S⟩
  | cons s rest ih =>
    rw [Stmt.blockNodes, Bool.and_eq_true] at hs
    have hcalls : (Pass.topLevel setting method location).Sound m :=
      sound_inline hplain hagrees location setting.config.depth [method]
    obtain ⟨S₁, D₁, hstmt, h₁⟩ := walks_stmt hcalls hs.1 hbinds hbuffer hlo fun id _ => howns id
    obtain ⟨S₂, D₂, hrest, h₂⟩ := ih hs.2 (location + 1) (h₁.emits.binds hbinds)
      (by rw [h₁.emits.hasBuffer, hbuffer]) (hlo.trans h₁.emits.vars.size_le)
      fun id => h₁.emits.owns (howns id)
    refine ⟨S₂, D₁ ++ D₂, ?_, h₁.append h₂⟩
    rw [Pass.topStmts, bind_of_ok hstmt, hrest]

/-- What is transcribed from a scope without bindings runs, in a frame of its own, like the
original. -/
lemma Transcribes.run_eq {body out : MethodBody} {S S' : Scope} {lo : Nat}
    (h : Transcribes m lo body.vars.size S S' out.stmts body.stmts) (hbindings : S.bindings = ∅)
    (hS : S.vars = body.vars) (hS' : S'.vars = out.vars) (actuals : List V) :
    m.run out actuals = m.run body actuals := by
  have hvars : body.vars.ExtendedTo out.vars := hS ▸ hS' ▸ h.emits.vars
  have hstands : m.Stands S body.vars.size (m.newFrame out.vars actuals)
      (m.newFrame body.vars actuals) := by
    intro id hid
    rw [Scope.readVar_of_bindings_empty hbindings, Machine.value_readVar,
      Machine.newFrame_of_extended hvars actuals hid]
  have hfresh : m.Fresh S.vars S'.vars (m.newFrame out.vars actuals) := by
    rw [hS, hS']
    exact Machine.fresh_newFrame hvars actuals
  refine (h.simulates hstands hfresh).bind_eq fun ⟨_, r⟩ ⟨_, r'⟩ ⟨hresult, _⟩ => ?_
  obtain rfl : r = r' := hresult
  rfl

/-- The scope in which the statements of a method are simplified. -/
def Pass.start (setting : Setting) (body : MethodBody) (log : EventLog) : Scope :=
  { Scope.root body.method body.vars (log ++ Pass.openingEvents setting.config body) with
    buffer := some [] }

/-- The simplified method consists of what was emitted for the statements. -/
lemma simplify_of_topStmts {body : MethodBody} {log : EventLog} {S : Scope} {D : List Stmt}
    (htop : Pass.topStmts setting body.method 0 body.stmts (Pass.start setting body log) = .ok () S)
    (hbuffer : S.buffer = some D) :
    ∃ out log', simplify setting body log = .ok out log' ∧
      out.body = ⟨body.method, body.isImport, S.vars, D⟩ := by
  have hact : (do
      Pass.topStmts setting body.method 0 body.stmts
      ScopeM.takeStatements : ScopeM (List Stmt)) (Pass.start setting body log) =
        .ok D { S with buffer := some [] } := by
    rw [bind_of_ok htop]
    exact takeStatements_eq hbuffer
  let out : MethodBody := ⟨body.method, body.isImport, S.vars, D⟩
  refine ⟨⟨out, out.usage⟩, S.log ++ Pass.closingEvents setting.config out, ?_, rfl⟩
  unfold simplify ScopeM.withFreshStatements ScopeM.nested
  simp only [Pass.start] at hact
  simp only [Scope.root] at hact ⊢
  rw [hact]

/-- In every setting without pointers, a method without pointers is simplified, and the result
returns, raises and does to the heap what the method does. -/
theorem run_simplify_eq_run (hplain : setting.IsPlain) (hagrees : m.Agrees setting)
    {body : MethodBody} (hbody : Stmt.blockNodes (plain body.vars.size) body.stmts = true)
    (log : EventLog) :
    ∃ out log', simplify setting body log = .ok out log' ∧
      ∀ actuals, m.run out.body actuals = m.run body actuals := by
  obtain ⟨S, D, htop, htranscribes⟩ := exists_topStmts (S := Pass.start setting body log) hplain
    hagrees body.method hbody 0 (Scope.binds_of_bindings_empty rfl) rfl (Nat.zero_le _)
    (Scope.owns_of_bindings_empty rfl _)
  obtain ⟨out, log', hsimplify, hout⟩ := simplify_of_topStmts htop htranscribes.emits.buffer
  refine ⟨out, log', hsimplify, fun actuals => ?_⟩
  rw [hout]
  exact Transcribes.run_eq htranscribes rfl rfl rfl actuals

end Method

/-! ## A counter -/

/-- The type of the sample values. -/
def intType : TypeRef :=
  ⟨"lib", "Int", false⟩

/-- A static field in which calls leave a trace. -/
def totalField : FieldRef :=
  ⟨⟨"lib", "Counter", false⟩, "total"⟩

/-- A callee that adds its parameter to the total, and returns the new total:
`t := total + n; total := t; return t`. -/
def tickCallee : MethodBody :=
  ⟨⟨⟨"lib", "Counter", false⟩, "tick", 1, true⟩, false,
    (VarTable.empty.declareArgument "n" intType).declareLocal "t" intType {},
    [.assign (.var ⟨1⟩) (.binary .add (.read (.static totalField)) (.readVar ⟨0⟩)),
      .assign (.static totalField) (.readVar ⟨1⟩),
      .ret (some (.readVar ⟨1⟩))]⟩

/-- A caller that passes to one call what it makes of the result of another:
`return tick(tick(a) / a)`. -/
def tickCaller : MethodBody :=
  ⟨⟨⟨"lib", "Counter", false⟩, "twice", 1, true⟩, false,
    VarTable.empty.declareArgument "a" intType,
    [.ret (some (.call tickCallee.method
      [.binary .div (.call tickCallee.method [.readVar ⟨0⟩]) (.readVar ⟨0⟩)]))]⟩

/-- The setting in which only `tick` is known, and may be inlined. -/
def tickSetting : Setting where
  body? method := if method = tickCallee.method then some tickCallee else none
  policy := .permissive false [] [] []
  config := {}

/-- A machine whose heap is the total. Division by zero raises; no method can be called. -/
def totalMachine : Machine Int Int Int where
  constant c := match c with
    | .int i => i
    | _ => 0
  default _ := 0
  truth v := v ≠ 0
  unary _ v := -v
  binary op a b := match op with
    | .div => if b = 0 then .error a else .ok (a / b)
    | .rem => if b = 0 then .error a else .ok (a % b)
    | _ => .ok (a + b)
  logical _ a b := b.getD a
  readField _ _ h := .ok h
  writeField _ _ v := modify fun _ => v
  readStatic _ h := h
  writeStatic _ v _ := v
  readElement _ _ h := .ok h
  writeElement _ _ v := modify fun _ => v
  call _ _ := throw 0
  construct _ _ := throw 0
  marshalOut v := pure v
  marshalIn v := pure v
  exception v := v
  binary_ok op a b h := by cases op <;> simp_all [BinaryOp.mayThrow]

/-- The machine on which a call of `tick` runs its body. -/
def tickMachine : Machine Int Int Int :=
  { totalMachine with
    call := fun method actuals =>
      if method = tickCallee.method then totalMachine.run tickCallee actuals else throw 0 }

/-- The machine does what the body says. -/
lemma agrees_tickMachine : tickMachine.Agrees tickSetting where
  call {method callee actuals} hbody _ := by
    obtain ⟨rfl, rfl⟩ : method = tickCallee.method ∧ tickCallee = callee := by
      simpa [tickSetting] using hbody
    rfl
  construct hfactory := by simp [tickSetting, Policy.permissive] at hfactory

/-- The body makes no pointers. -/
lemma isPlain_tickSetting : tickSetting.IsPlain := by
  intro method callee hbody
  obtain ⟨-, rfl⟩ : method = tickCallee.method ∧ tickCallee = callee := by
    simpa [tickSetting] using hbody
  exact ⟨rfl, by decide⟩

/-- Both calls of `tick` are inlined, the inner one and the division before the body of the outer
one. On every argument and every total, also where the division raises after the first tick, this is
what the caller does. -/
theorem run_simplify_tickCaller :
    tickSetting.IsPlain ∧ tickMachine.Agrees tickSetting ∧
      Stmt.blockNodes (plain tickCaller.vars.size) tickCaller.stmts = true ∧
      ∃ out log', simplify tickSetting tickCaller [] = .ok out log' ∧ out.body.size = 6 ∧
        ∀ actuals, tickMachine.run out.body actuals = tickMachine.run tickCaller actuals := by
  have hbody : Stmt.blockNodes (plain tickCaller.vars.size) tickCaller.stmts = true := by decide
  have hsize : (outcome (simplify tickSetting tickCaller [])).toOption.map
      (fun out => out.body.size) = some 6 := by decide +kernel
  obtain ⟨out, log', hsimplify, hrun⟩ :=
    run_simplify_eq_run isPlain_tickSetting agrees_tickMachine hbody []
  rw [hsimplify] at hsize
  exact ⟨isPlain_tickSetting, agrees_tickMachine, hbody, out, log', hsimplify,
    Option.some.inj hsize, hrun⟩

end Inliner
