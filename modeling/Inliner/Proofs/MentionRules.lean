import Inliner.Proofs.InliningRules
import Inliner.Proofs.Mentions

/-!
# Disciplines on what terms mention

Some disciplines ask of a term only that everything that it mentions is allowed, which may depend on
the variables (`MentionRule`). A simplified expression mentions what its nodes mention by themselves,
and what is mentioned by the terms for which its variables stand. So such a discipline is kept if a
variable stands for a term that may be mentioned in its place (`Scope.StandsIn`). What has to be known
of a callee for this is collected in `MentionRule.Callee`.
-/

namespace Inliner

/-! ## Parts and what they mention -/

namespace Expr

/-- What the node mentions apart from its parts. -/
def ownMentions : Expr → List Entity
  | .read (.var id) => [.read id]
  | .read (.field _ member) => [.field member]
  | .read (.static member) => [.field member]
  | .addressOf (.var id) => [.pointer id]
  | .addressOf (.field _ member) => [.field member]
  | .addressOf (.static member) => [.field member]
  | .call method _ => [.method method]
  | .callOn method _ _ => [.method method]
  | .construct method _ => [.method method]
  | _ => []

variable {P : Entity → Prop} {e : Expr}

/-- Several expressions mention what each of them does. -/
lemma mem_allMentions_iff {es : List Expr} {r : Entity} :
    r ∈ allMentions es ↔ ∃ a ∈ es, r ∈ a.mentions := by
  induction es with
  | nil => simp [allMentions]
  | cons e es ih => simp [allMentions, ih]

/-- An expression mentions what its parts mention and what it mentions by itself. -/
lemma mem_mentions_iff {r : Entity} :
    r ∈ e.mentions ↔ r ∈ e.ownMentions ∨ ∃ a ∈ e.parts, r ∈ a.mentions := by
  cases e with
  | read c => cases c <;> simp [mentions, Cell.mentions, ownMentions, parts, Cell.parts, or_comm]
  | addressOf c =>
    cases c <;> simp [mentions, Cell.mentions, ownMentions, parts, Cell.parts, or_comm]
  | _ => simp [mentions, ownMentions, parts, mem_allMentions_iff]

/-- All that an expression mentions has a property if what the parts and the node mention has it. -/
lemma forall_mentions_iff :
    (∀ r ∈ e.mentions, P r) ↔
      (∀ r ∈ e.ownMentions, P r) ∧ ∀ a ∈ e.parts, ∀ r ∈ a.mentions, P r := by
  constructor
  · intro h
    exact ⟨fun r hr => h r (mem_mentions_iff.2 (.inl hr)),
      fun a ha r hr => h r (mem_mentions_iff.2 (.inr ⟨a, ha, hr⟩))⟩
  · rintro ⟨hown, hparts⟩ r hr
    rcases mem_mentions_iff.1 hr with hr | ⟨a, ha, hr⟩
    · exact hown r hr
    · exact hparts a ha r hr

/-- What a node mentions by itself does not depend on what is below it. -/
lemma ownMentions_withParts (es : List Expr) : (e.withParts es).ownMentions = e.ownMentions := by
  cases e with
  | read c =>
    change ownMentions (.read (c.withParts es)) = _
    unfold Cell.withParts
    split <;> rfl
  | addressOf c =>
    change ownMentions (.addressOf (c.withParts es)) = _
    unfold Cell.withParts
    split <;> rfl
  | _ =>
    unfold withParts
    split <;> simp_all [ownMentions]

/-- Variables are mentioned by the nodes that name one. -/
lemma isVariable_of_mem_ownMentions (h : e.namesVar = false) :
    ∀ r ∈ e.ownMentions, r.isVariable = false := by
  cases e with
  | read c => cases c <;> simp_all [ownMentions, namesVar, Entity.isVariable]
  | addressOf c => cases c <;> simp_all [ownMentions, namesVar, Entity.isVariable]
  | _ => simp [ownMentions, Entity.isVariable]

/-- A call mentions the method. -/
lemma mem_mentions_of_method? {method : MethodRef} (h : e.method? = some method) :
    .method method ∈ e.mentions := by
  cases e with
  | call _ _ => cases h; exact List.mem_cons_self
  | callOn _ _ _ => cases h; exact List.mem_cons_self
  | construct _ _ => cases h; exact List.mem_cons_self
  | _ => cases h

/-- What is pointed at is mentioned as if it were stored into. -/
lemma forall_targetMentions {c : Cell} (h : ∀ r ∈ (addressOf c).mentions, P r) :
    ∀ r ∈ c.targetMentions, P r := by
  cases c with
  | var id => exact List.forall_mem_nil _
  | _ => exact h

end Expr

namespace Stmt

variable {P : Entity → Prop}

/-- A block mentions what its statements mention. -/
lemma forall_blockMentions_iff {stmts : List Stmt} :
    (∀ r ∈ blockMentions stmts, P r) ↔ ∀ s ∈ stmts, ∀ r ∈ s.mentions, P r := by
  induction stmts with
  | nil => simp [blockMentions]
  | cons s stmts ih => rw [blockMentions, List.forall_mem_append, ih, List.forall_mem_cons]

/-- A statement mentions what it is made of. -/
lemma forall_mentions_iff {s : Stmt} :
    (∀ r ∈ s.mentions, P r) ↔
      s.MadeOf (fun e => ∀ r ∈ e.mentions, P r) (fun c => ∀ r ∈ c.targetMentions, P r)
        fun stmts => ∀ s ∈ stmts, ∀ r ∈ s.mentions, P r := by
  cases s with
  | ret value => cases value <;> simp [mentions, MadeOf]
  | assign c e => rw [mentions, List.forall_mem_append, MadeOf]
  | branch cond onTrue onFalse =>
    rw [mentions, List.forall_mem_append, List.forall_mem_append, forall_blockMentions_iff,
      forall_blockMentions_iff, MadeOf]
  | _ => rfl

end Stmt

/-! ## Rules -/

/-- A rule for what may be mentioned. It lasts when locals are added, and variables that may be
pointed at may be read. -/
structure MentionRule where
  allows : VarTable → Entity → Prop
  mono : ∀ {t t' : VarTable} {r : Entity}, t.ExtendedTo t' → allows t r → allows t' r
  follow : ∀ {t : VarTable} {id : VarId}, allows t (.pointer id) → allows t (.read id)

variable {M : MentionRule} {src : Entity → Prop} {S S' : Scope} {id : VarId}

/-- What the variable stands for may be mentioned where `src` mentions the variable, and it may be
stored into. -/
structure Scope.StandsIn (S : Scope) (M : MentionRule) (src : Entity → Prop) (id : VarId) :
    Prop where
  read : src (.read id) → ∀ r ∈ (S.readVar id).mentions, M.allows S.vars r
  pointed : src (.pointer id) → ∀ c, S.resolveCell (.var id) = .ok c →
    ∀ r ∈ (Expr.addressOf c).mentions, M.allows S.vars r
  stored : ∀ c, S.resolveCell (.var id) = .ok c → ∀ r ∈ c.targetMentions, M.allows S.vars r

namespace Scope.StandsIn

/-- Only what the variable is bound to matters, and not the locals that were added. -/
lemma congr (h : S.StandsIn M src id) (hget : S'.bindings.get? id = S.bindings.get? id)
    (hvars : S.vars.ExtendedTo S'.vars) : S'.StandsIn M src id := by
  have hread : S'.readVar id = S.readVar id := by rw [readVar, readVar, hget]
  have hresolve : S'.resolveCell (.var id) = S.resolveCell (.var id) := by
    rw [resolveCell, resolveCell, hget]
  refine ⟨fun hsrc r hr => ?_, fun hsrc c hc r hr => ?_, fun c hc r hr => ?_⟩
  · rw [hread] at hr
    exact M.mono hvars (h.read hsrc r hr)
  · rw [hresolve] at hc
    exact M.mono hvars (h.pointed hsrc c hc r hr)
  · rw [hresolve] at hc
    exact M.mono hvars (h.stored c hc r hr)

/-- A variable may stand for a variable that may be mentioned in its place. -/
lemma of_readVar {target : VarId} (hread : S.readVar id = .readVar target)
    (hsrc : src (.read id) → M.allows S.vars (.read target))
    (hpointer : src (.pointer id) → M.allows S.vars (.pointer target)) : S.StandsIn M src id := by
  have hresolve := Scope.resolveCell_of_readVar hread
  refine ⟨fun h => ?_, fun h c hc => ?_, fun c hc => ?_⟩
  · rw [hread]
    exact List.forall_mem_singleton.2 (hsrc h)
  · rw [hresolve] at hc
    cases hc
    exact List.forall_mem_singleton.2 (hpointer h)
  · rw [hresolve] at hc
    cases hc
    exact List.forall_mem_nil _

/-- A variable may stand for what may be mentioned. If it is pointed at and stands for another
variable, then this one has to be such that it may be pointed at. -/
lemma of_bound {e : Expr} (he : ∀ r ∈ e.mentions, M.allows S.vars r)
    (hpointer : ∀ target, src (.pointer id) → M.allows S.vars (.pointer target)) :
    (S.bound id e).StandsIn M src id := by
  have hresolve : ∀ c, (S.bound id e).resolveCell (.var id) = .ok c → e = .read c := by
    intro c hc
    rw [resolveCell, Scope.get?_bound, if_pos rfl] at hc
    cases e <;> cases hc
    rfl
  refine ⟨fun _ => ?_, fun hsrc c hc => ?_, fun c hc => ?_⟩
  · rw [Scope.readVar_bound, if_pos rfl]
    exact he
  · obtain rfl := hresolve c hc
    cases c with
    | var target => exact List.forall_mem_singleton.2 (hpointer target hsrc)
    | _ => exact he
  · obtain rfl := hresolve c hc
    cases c with
    | var target => exact List.forall_mem_nil _
    | _ => exact he

end Scope.StandsIn

namespace MentionRule

/-- All that is mentioned is allowed, and every fault is fine. -/
def discipline (M : MentionRule) : Discipline where
  fine _ := True
  expr t e := ∀ r ∈ e.mentions, M.allows t r
  target t c := ∀ r ∈ c.targetMentions, M.allows t r
  stmt t s := ∀ r ∈ s.mentions, M.allows t r
  expr_mono ht he r hr := M.mono ht (he r hr)
  target_mono ht hc r hr := M.mono ht (hc r hr)
  stmt_mono ht hs r hr := M.mono ht (hs r hr)
  made := Stmt.forall_mentions_iff.2
  follow {t c} he := by
    cases c with
    | var id => exact List.forall_mem_singleton.2 (M.follow (List.forall_mem_singleton.1 he))
    | _ => exact he
  marshalOut := .rfl
  marshalIn := .rfl
  null := List.forall_mem_nil _
  expr_effects _ := .of_forall (fun _ => trivial) fun _ _ => trivial
  stmt_effects _ := .of_forall (fun _ => trivial) fun _ _ => trivial

/-- Terms that mention what is in `src`. Members that are in `src` have to be allowed. -/
def reading (M : MentionRule) (src : Entity → Prop)
    (hsrc : ∀ t r, r.isVariable = false → src r → M.allows t r) : M.discipline.Reading where
  source e := ∀ r ∈ e.mentions, src r
  sourceTarget c := ∀ r ∈ c.targetMentions, src r
  sourceStmt s := ∀ r ∈ s.mentions, src r
  fit S := ∀ id, S.StandsIn M src id
  part he ha := (Expr.forall_mentions_iff.1 he).2 _ ha
  madeOf := Stmt.forall_mentions_iff.1
  address {c} hc hne := by
    cases c with
    | var id => exact absurd rfl (hne id)
    | _ => exact hc
  fit_congr hbindings hvars hS id := (hS id).congr (by rw [hbindings]) hvars
  node {t e es} he hvar hlength hes := by
    refine Expr.forall_mentions_iff.2 ⟨fun r hr => ?_, ?_⟩
    · rw [Expr.ownMentions_withParts] at hr
      exact hsrc t r (Expr.isVariable_of_mem_ownMentions hvar r hr)
        ((Expr.forall_mentions_iff.1 he).1 r hr)
    · rwa [Expr.parts_withParts hlength]
  readVar {_ id} hS he := (hS id).read (List.forall_mem_singleton.1 he)
  pointTo {_ id} hS he := .of_forall (fun _ => trivial) fun c hc =>
    (hS id).pointed (List.forall_mem_singleton.1 he) c hc
  storeVar {_ id} hS _ := .of_forall (fun _ => trivial) fun c hc => (hS id).stored c hc
  store _ he := Expr.forall_targetMentions he

/-! ## Callees -/

/-- What has to be known of a callee that mentions what is in `src`. Where it is called, variables
stand for what may be mentioned in place of the variables in `loose`. -/
structure Callee (M : MentionRule) (callee : MethodBody) (src loose : Entity → Prop) : Prop where
  mentions : ∀ s ∈ callee.stmts, ∀ r ∈ s.mentions, src r
  member : ∀ t r, r.isVariable = false → src r → M.allows t r
  /-- Undeclared variables stand for what they do where the callee is called. -/
  undeclared : ∀ id, callee.vars.get? id = none →
    (src (.read id) → loose (.read id)) ∧ (src (.pointer id) → loose (.pointer id))
  /-- Parameters that are not flagged for it are not pointed at, or it does not matter. -/
  direct : ∀ {t : VarTable} {id target : VarId} {v : Variable}, callee.vars.get? id = some v →
    v.flags.addressTaken = false → src (.pointer id) → M.allows t (.pointer target)
  /-- A local with the flags of a variable may be mentioned in its place. -/
  fresh : ∀ {t : VarTable} {id target : VarId} {v w : Variable} (more : Flags),
    callee.vars.get? id = some v → t.get? target = some w → w.flags = v.flags.union more →
      (src (.read id) → M.allows t (.read target)) ∧
        (src (.pointer id) → M.allows t (.pointer target))

/-- Such a callee is taken in. -/
def Callee.intake {callee : MethodBody} {loose : Entity → Prop} (h : M.Callee callee src loose) :
    M.discipline.Intake callee where
  reading := M.reading src h.member
  host S := ∀ id, S.StandsIn M loose id
  serves S id := S.StandsIn M src id
  source := h.mentions
  host_congr hbindings hvars hS id := (hS id).congr (by rw [hbindings]) hvars
  serves_congr hget hvars hid := hid.congr hget hvars
  direct hv hflag _ harg := .of_bound harg fun _ => h.direct hv hflag
  fresh {_ S S' id v name type} more _ _ hv hvars hget := by
    have hread : S'.readVar id = .readVar S.vars.nextId := by
      rw [Scope.readVar, hget]
      rfl
    have hw : S'.vars.get? S.vars.nextId = some ⟨name, type, .localVar, v.flags.union more⟩ := by
      rw [hvars]
      exact List.getElem?_concat_length
    obtain ⟨hsrc, hpointer⟩ := h.fresh more hv hw rfl
    exact .of_readVar hread hsrc hpointer
  target _ _ _ _ _ := List.forall_mem_nil _
  fit {S S'} hhost hvars hkept hserved id := by
    by_cases hid : id ∈ callee.vars.arguments ++ callee.vars.locals
    · exact hserved id hid
    · have hnone : callee.vars.get? id = none := by
        by_contra hsome
        obtain ⟨v, hv⟩ := Option.ne_none_iff_exists'.1 hsome
        exact hid (VarTable.mem_arguments_append_locals (VarTable.index_lt_of_get? hv))
      have hS' := (hhost id).congr (hkept id hid) hvars
      obtain ⟨hread, hpointer⟩ := h.undeclared id hnone
      exact ⟨fun hsrc => hS'.read (hread hsrc), fun hsrc => hS'.pointed (hpointer hsrc), hS'.stored⟩
  substituted {S args e} _ _ hargs hstmts _ := by
    refine (M.reading src h.member).givesOr_inlined (fun _ => trivial) hargs ?_
    have hret := h.mentions (.ret (some e)) (by rw [hstmts]; exact List.mem_singleton_self _)
    exact hret

end MentionRule

end Inliner
