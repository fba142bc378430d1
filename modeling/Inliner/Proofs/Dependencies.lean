import Inliner.Proofs.MentionRules

/-!
# Where dependencies come from

Inlining brings what a callee mentions into its caller, so a simplified body may depend on
assemblies, types, methods and fields that the original body knows nothing of. They all come from
bodies that are inlined, directly or within others: from the original body along a chain of calls,
each of them made in the body before (`Setting.Reaches`), one can get to a body that mentions the
same entity. Such a chain has no more calls than callees may be nested.

The statements here are about what is mentioned apart from variables. While a body is simplified, what
variables stand for and what is emitted mentions only what is mentioned in bodies that can be reached
(`supplied`). A callee is one call further away than its caller, and one level of nesting is used up
by it, so the two together never exceed the limit.
-/

namespace Inliner

/-! ## Chains of calls -/

/-- From `body`, the last body is reached by a chain of that many calls or constructions, each made
in the body before. -/
inductive Setting.Reaches (setting : Setting) (body : MethodBody) : Nat → MethodBody → Prop where
  | start : setting.Reaches body 0 body
  | call {n : Nat} {b callee : MethodBody} {method : MethodRef} : setting.Reaches body n b →
      b.usage.Has (.method method) → setting.body? method = some callee →
      setting.Reaches body (n + 1) callee

/-- The entity is mentioned in a body that is reached within the limit on nested callees. -/
def Setting.Supplies (setting : Setting) (body : MethodBody) (r : Entity) : Prop :=
  ∃ n b, n ≤ setting.config.depth ∧ setting.Reaches body n b ∧ r ∈ Stmt.blockMentions b.stmts

/-- What is called in a body can be reached from there. -/
lemma Setting.Reaches.of_mem_mentions {setting : Setting} {body b callee : MethodBody} {n : Nat}
    {method : MethodRef} (h : setting.Reaches body n b)
    (hmethod : Entity.method method ∈ Stmt.blockMentions b.stmts)
    (hcallee : setting.body? method = some callee) : setting.Reaches body (n + 1) callee := by
  refine h.call ?_ hcallee
  exact (Stmt.has_blockUsage b.stmts _).2 ⟨_, hmethod, Entity.mem_withOwners_self _⟩

/-! ## What may be mentioned -/

section Supplied

variable {setting : Setting} {body b : MethodBody} {n : Nat}

/-- Apart from variables, only what is supplied may be mentioned. -/
def supplied (setting : Setting) (body : MethodBody) : MentionRule where
  allows _ r := r.isVariable = false → setting.Supplies body r
  mono _ h := h
  follow _ h := by cases h

/-- Whatever stands for a variable is supplied. -/
def Scope.Supplied (S : Scope) (setting : Setting) (body : MethodBody) : Prop :=
  ∀ id, S.StandsIn (supplied setting body) (fun _ => True) id

/-- What the body mentions apart from variables. -/
def MethodBody.Names (b : MethodBody) (r : Entity) : Prop :=
  r.isVariable = false → r ∈ Stmt.blockMentions b.stmts

/-- Variables may be mentioned anyway. -/
lemma supplied_allows_variable {t : VarTable} {r : Entity} (hr : r.isVariable = true) :
    (supplied setting body).allows t r := fun hmember => by
  rw [hr] at hmember
  cases hmember

/-- Nothing is asked of the variables that are mentioned. -/
lemma MethodBody.names_variable {r : Entity} (hr : r.isVariable = true) : b.Names r :=
  fun hmember => by
    rw [hr] at hmember
    cases hmember

/-- A body that is reached within the limit may mention what it does. -/
lemma supplied_callee (hn : n ≤ setting.config.depth) (hb : setting.Reaches body n b) :
    (supplied setting body).Callee b b.Names fun _ => True where
  mentions s hs r hr _ := Stmt.forall_blockMentions_iff.1 (fun _ hr => hr) s hs r hr
  member _ _ hr hnames _ := ⟨n, b, hn, hb, hnames hr⟩
  undeclared _ _ := ⟨fun _ => trivial, fun _ => trivial⟩
  direct _ _ _ := supplied_allows_variable rfl
  fresh _ _ _ _ := ⟨fun _ => supplied_allows_variable rfl, fun _ => supplied_allows_variable rfl⟩

/-- In a scope for its terms, whatever stands for a variable is supplied. -/
lemma Scope.supplied_of_standsIn {S : Scope}
    (h : ∀ id, S.StandsIn (supplied setting body) b.Names id) : S.Supplied setting body :=
  fun id => ⟨fun _ => (h id).read (MethodBody.names_variable rfl),
    fun _ => (h id).pointed (MethodBody.names_variable rfl), (h id).stored⟩

/-- The terms that are read are those of a body that is reached, with so many levels of nesting left
that the limit is not exceeded. -/
def ReadsWithin (setting : Setting) (body : MethodBody) (depth : Nat)
    (R : (supplied setting body).discipline.Reading) : Prop :=
  ∃ n b, n + depth ≤ setting.config.depth ∧ setting.Reaches body n b ∧
    (∀ e, R.source e → ∀ r ∈ e.mentions, b.Names r) ∧ ∀ S, R.fit S → S.Supplied setting body

/-- The terms of a body that is reached are such terms. -/
lemma readsWithin_of_reaches {depth : Nat} (hn : n + depth ≤ setting.config.depth)
    (hb : setting.Reaches body n b) :
    ReadsWithin setting body depth
      (supplied_callee (Nat.le_of_add_right_le hn) hb).intake.reading :=
  ⟨n, b, hn, hb, fun _ he => he, fun _ hS => Scope.supplied_of_standsIn hS⟩

/-- What is called in a body that is reached is one call further away. -/
lemma supports_supplied (setting : Setting) (body : MethodBody) :
    setting.Supports (ReadsWithin setting body) := by
  rintro depth R e method callee ⟨n, b, hn, hb, hsource, hfit⟩ he hmethod hbody
  have hnames := hsource e he _ (Expr.mem_mentions_of_method? hmethod)
  have hcallee := hb.of_mem_mentions (hnames rfl) hbody
  exact ⟨_, readsWithin_of_reaches (by omega) hcallee, hfit⟩

/-- What the simplified body mentions apart from variables is supplied. -/
lemma supplies_of_simplify {log log' : EventLog} {out : Simplified}
    (h : simplify setting body log = .ok out log') {r : Entity}
    (hr : r ∈ Stmt.blockMentions out.body.stmts) (hmember : r.isVariable = false) :
    setting.Supplies body r := by
  have hstart : setting.Reaches body 0 body := .start
  have hcallee := supplied_callee (Nat.zero_le _) hstart
  have hroot : ∀ log id, (Scope.root body.method body.vars log).StandsIn (supplied setting body)
      body.Names id :=
    fun log id => .of_readVar (Scope.readVar_of_bindings_empty rfl id)
      (fun _ => supplied_allows_variable rfl) fun _ => supplied_allows_variable rfl
  have hgives := givesOr_simplify (supports_supplied setting body)
    (readsWithin_of_reaches (Nat.zero_add _).le hstart) hroot hcallee.mentions log
  rw [h] at hgives
  exact Stmt.forall_blockMentions_iff.2 hgives.2 r hr hmember

end Supplied

/-! ## Simplification -/

/-- Simplification invents no dependencies. Whatever assembly, type, method or field the simplified
body refers to, the original body or a body that is reached from it refers to it too, along a chain
of calls that is no longer than callees may be nested. -/
theorem exists_reaches_of_has_usage {setting : Setting} {body : MethodBody} {log log' : EventLog}
    {out : Simplified} (h : simplify setting body log = .ok out log') {k : Entity}
    (hk : k.isVariable = false) (hhas : out.body.usage.Has k) :
    ∃ n b, n ≤ setting.config.depth ∧ setting.Reaches body n b ∧ b.usage.Has k := by
  obtain ⟨r, hr, hmem⟩ := (Stmt.has_blockUsage out.body.stmts k).1 hhas
  have hmember : r.isVariable = false := by
    cases hvariable : r.isVariable with
    | false => rfl
    | true => rwa [Entity.eq_of_mem_withOwners hmem (.inl hvariable), hvariable] at hk
  obtain ⟨n, b, hn, hreaches, hmentions⟩ := supplies_of_simplify h hr hmember
  exact ⟨n, b, hn, hreaches, (Stmt.has_blockUsage b.stmts k).2 ⟨r, hmentions, hmem⟩⟩

/-! ## A field at the end of a chain -/

/-- A static method of the type `Vault`. -/
def vaultMethod (name : String) : MethodRef :=
  ⟨⟨"lib", "Vault", false⟩, name, 0, true⟩

/-- A field in an assembly of its own. -/
def shelfItem : FieldRef :=
  ⟨⟨"store", "Shelf", false⟩, "item"⟩

/-- The body of a method of `Vault` that returns `e`. -/
def vaultBody (name : String) (e : Expr) : MethodBody :=
  .build (vaultMethod name) false .empty [.ret (some e)]

/-- The constructor returns what `fetch` does, and `fetch` reads the field. -/
def vaultSetting : Setting where
  body? method :=
    if method = vaultMethod ".ctor" then
      some (vaultBody ".ctor" (.call (vaultMethod "fetch") []))
    else if method = vaultMethod "fetch" then
      some (vaultBody "fetch" (.read (.static shelfItem)))
    else none
  policy := .permissive false [vaultMethod ".ctor"] [] []
  config := { depth := 2 }

/-- A body that only knows the constructor. -/
def vaultMain : MethodBody :=
  vaultBody "main" (.construct (vaultMethod ".ctor") [])

/-- The body depends on the assembly `store` after the constructor and `fetch` were inlined, and not
before. -/
theorem exists_reaches_vaultMain :
    ∃ out log, simplify vaultSetting vaultMain [] = .ok out log ∧
      out.body.stmts = [.ret (some (.read (.static shelfItem)))] ∧
      ¬ vaultMain.usage.Has (.assembly "store") ∧ out.body.usage.Has (.assembly "store") ∧
      ∃ n b, n ≤ 2 ∧ vaultSetting.Reaches vaultMain n b ∧ b.usage.Has (.assembly "store") := by
  have hsimplify : ∃ out log, simplify vaultSetting vaultMain [] = .ok out log ∧
      out.body.stmts = [.ret (some (.read (.static shelfItem)))] := ⟨_, _, rfl, rfl⟩
  obtain ⟨out, log, hsimplify, hstmts⟩ := hsimplify
  have hhas : out.body.usage.Has (.assembly "store") := by
    rw [MethodBody.usage, hstmts, Usage.Has]
    decide +kernel
  have hmain : ¬ vaultMain.usage.Has (.assembly "store") := by
    rw [Usage.Has]
    decide +kernel
  exact ⟨out, log, hsimplify, hstmts, hmain, hhas, exists_reaches_of_has_usage hsimplify rfl hhas⟩

end Inliner
