import Inliner.Proofs.InliningRules

/-!
# Well-named terms under simplification

A term is well named in a variable table if it names declared variables only, and takes the address of
such variables only as are flagged for it (`wellNamed`). While a body is simplified, terms are to stay
well named, and nothing is to be at fault. Besides, some variables of the method are to be *spared*,
none of which may be pointed at (`VarTable.Shelters`): what is emitted stores into none of them. This
is the discipline `sparing`.

What makes the walk succeed is that the scope *hosts* the table of the source: every variable declared
there stands for a well-named expression, and one that is stored into or pointed at stands for a
variable, which may be pointed at if the original may, and which is not spared if it is stored into.
-/

namespace Inliner

/-! ## Well-named terms -/

/-- The node names a declared variable if it names one, and one that is flagged for it if it takes its
address. -/
def wellNamed (t : VarTable) : Expr → Bool
  | .read (.var id) => (t.get? id).isSome
  | .addressOf (.var id) => (t.get? id).any fun v => v.flags.addressTaken
  | _ => true

/-- A table that gets more variables names the old ones as before. -/
lemma wellNamed_mono {t t' : VarTable} (h : t.ExtendedTo t') {e : Expr}
    (he : wellNamed t e = true) : wellNamed t' e = true := by
  unfold wellNamed at he ⊢
  split
  · obtain ⟨v, hv⟩ := Option.isSome_iff_exists.1 he
    rw [h.get?_of_some hv]
    rfl
  · obtain ⟨v, hv, hflag⟩ := (Option.any_eq_true _ _).1 he
    rw [h.get?_of_some hv]
    exact hflag
  · rfl

/-- What is well-named is declared. -/
lemma inScope_of_wellNamed {t : VarTable} {e : Expr} (he : wellNamed t e = true) :
    inScope t.size e = true := by
  unfold inScope
  split
  · obtain ⟨v, hv⟩ := Option.isSome_iff_exists.1 he
    exact decide_eq_true (VarTable.index_lt_of_get? hv)
  · obtain ⟨v, hv, -⟩ := (Option.any_eq_true _ _).1 he
    exact decide_eq_true (VarTable.index_lt_of_get? hv)
  · rfl

/-- Whether a node is well named does not depend on what is below it. -/
lemma wellNamed_withParts (t : VarTable) (e : Expr) (es : List Expr) :
    wellNamed t (e.withParts es) = wellNamed t e := by
  cases e with
  | read c =>
    change wellNamed t (.read (c.withParts es)) = _
    unfold Cell.withParts
    split <;> rfl
  | addressOf c =>
    change wellNamed t (.addressOf (c.withParts es)) = _
    unfold Cell.withParts
    split <;> rfl
  | _ =>
    unfold Expr.withParts
    split <;> simp_all [wellNamed]

/-- A variable that may be pointed at may be read. -/
lemma allNodes_read_of_addressOf {t : VarTable} {c : Cell}
    (h : (Expr.addressOf c).allNodes (wellNamed t) = true) :
    (Expr.read c).allNodes (wellNamed t) = true := by
  simp only [Expr.allNodes, Bool.and_eq_true] at h ⊢
  refine ⟨?_, h.2⟩
  cases c with
  | var id =>
    obtain ⟨v, hv, -⟩ := (Option.any_eq_true _ _).1 h.1
    exact Option.isSome_iff_exists.2 ⟨v, hv⟩
  | _ => rfl

/-- A node that names no variable is well named everywhere. -/
lemma wellNamed_of_namesVar {t : VarTable} {e : Expr} (h : e.namesVar = false) :
    wellNamed t e = true := by
  unfold wellNamed
  split
  · cases h
  · cases h
  · rfl

/-! ## Variables that are stored into -/

namespace Stmt

/-- A block assigns to a variable if one of its statements does. -/
lemma blockAssigns_iff {id : VarId} {stmts : List Stmt} :
    blockAssigns id stmts = true ↔ ∃ s ∈ stmts, s.assigns id = true := by
  induction stmts with
  | nil => simp [blockAssigns]
  | cons s stmts ih => simp [blockAssigns, ih]

/-- The nodes of a statement, and the variables that it stores into, are those of its parts. -/
lemma nodes_and_assigns_iff {p : Expr → Bool} {P : VarId → Prop} {s : Stmt} :
    (s.allNodes p = true ∧ ∀ id, s.assigns id = true → P id) ↔
      s.MadeOf (fun e => e.allNodes p = true)
        (fun c => (Expr.read c).allNodes p = true ∧ ∀ id, c = .var id → P id)
        fun stmts => ∀ s ∈ stmts, s.allNodes p = true ∧ ∀ id, s.assigns id = true → P id := by
  cases s with
  | assign c e =>
    cases c with
    | var target => simp [allNodes, assigns, MadeOf, and_right_comm]
    | _ => simp [allNodes, assigns, MadeOf]
  | ret value => cases value <;> simp [allNodes, assigns, MadeOf]
  | branch cond onTrue onFalse =>
    simp only [allNodes, assigns, MadeOf, Bool.and_eq_true, Bool.or_eq_true, blockNodes_iff,
      blockAssigns_iff, or_imp, forall_exists_index, and_imp, forall_and]
    constructor
    · rintro ⟨⟨hcond, htrue, hfalse⟩, htrue', hfalse'⟩
      exact ⟨hcond, ⟨htrue, fun s hs id => htrue' id s hs⟩, hfalse, fun s hs id => hfalse' id s hs⟩
    · rintro ⟨hcond, ⟨htrue, htrue'⟩, hfalse, hfalse'⟩
      exact ⟨⟨hcond, htrue, hfalse⟩, fun id s hs => htrue' s hs id, fun id s hs => hfalse' s hs id⟩
  | _ => simp [allNodes, assigns, MadeOf]

end Stmt

/-- The spared variables are declared in the table, and none of them may be pointed at. -/
def VarTable.Shelters (t : VarTable) (spared : VarId → Prop) : Prop :=
  ∀ id, spared id → ∃ v, t.get? id = some v ∧ v.flags.addressTaken = false

namespace VarTable.Shelters

variable {t t' : VarTable} {spared : VarId → Prop} {id : VarId}

/-- New locals are none of the spared ones. -/
lemma mono (h : t.Shelters spared) (ht : t.ExtendedTo t') : t'.Shelters spared := fun id hid =>
  (h id hid).imp fun _ hv => ⟨ht.get?_of_some hv.1, hv.2⟩

/-- A new variable is none of them. -/
lemma nextId (h : t.Shelters spared) : ¬ spared t.nextId := by
  intro hid
  obtain ⟨v, hv, -⟩ := h t.nextId hid
  exact Nat.lt_irrefl _ (index_lt_of_get? hv)

/-- What is pointed at is none of them. -/
lemma of_addressOf (h : t.Shelters spared)
    (hid : (Expr.addressOf (.var id)).allNodes (wellNamed t) = true) : ¬ spared id := by
  intro hspared
  obtain ⟨v, hv, hflag⟩ := h id hspared
  simp [Expr.allNodes, Cell.allNodes, wellNamed, hv, hflag] at hid

end VarTable.Shelters

/-! ## The discipline -/

section Sparing

variable {spared : VarId → Prop}

/-- Terms are well named, no spared variable is stored into, and nothing is at fault. -/
def sparing (spared : VarId → Prop) : Discipline where
  fine _ := False
  expr t e := e.allNodes (wellNamed t) = true
  target t c := (Expr.read c).allNodes (wellNamed t) = true ∧ ∀ id, c = .var id → ¬ spared id
  stmt t s := s.allNodes (wellNamed t) = true ∧ ∀ id, s.assigns id = true → ¬ spared id
  expr_mono ht := Expr.allNodes_mono fun _ => wellNamed_mono ht
  target_mono ht := And.imp_left (Expr.allNodes_mono fun _ => wellNamed_mono ht)
  stmt_mono ht := And.imp_left (Stmt.allNodes_mono fun _ => wellNamed_mono ht)
  made := Stmt.nodes_and_assigns_iff.2
  follow := allNodes_read_of_addressOf
  marshalOut := by simp [Expr.allNodes, wellNamed]
  marshalIn := by simp [Expr.allNodes, wellNamed]
  null := rfl
  expr_effects he := by
    obtain ⟨E, hE⟩ := Expr.exists_effects (Expr.allNodes_mono (fun _ => inScope_of_wellNamed) he)
    rw [hE]
    exact trivial
  stmt_effects hs := by
    obtain ⟨E, hE⟩ := Stmt.exists_effects (Stmt.allNodes_mono (fun _ => inScope_of_wellNamed) hs.1)
    rw [hE]
    exact trivial

/-! ## What variables stand for -/

/-- The variable `id`, declared as `v`, stands for a well-named expression. If it is stored into or
pointed at, this is a variable, which may be pointed at if the original may, and which is not spared
if it is stored into. -/
structure Scope.Serves (S : Scope) (spared : VarId → Prop) (written : Bool) (id : VarId)
    (v : Variable) : Prop where
  read : (S.readVar id).allNodes (wellNamed S.vars) = true
  stored : v.flags.addressTaken = true ∨ written = true → ∃ target w,
    S.readVar id = .readVar target ∧ S.vars.get? target = some w ∧
      (v.flags.addressTaken = true → w.flags.addressTaken = true) ∧
      (written = true → ¬ spared target)

/-- The scope is fit for terms with the variables of the table: each of them stands for what can be
put in its place. The test `written` tells which variables are stored into. -/
structure Scope.Hosts (S : Scope) (spared : VarId → Prop) (t : VarTable) (written : VarId → Bool) :
    Prop where
  covers : ∀ id v, t.get? id = some v → S.Serves spared (written id) id v
  shelters : S.vars.Shelters spared

variable {S S' : Scope} {t : VarTable} {written : VarId → Bool}

/-- What a variable stands for serves as long as it is the same. -/
lemma Scope.Serves.congr {w : Bool} {id : VarId} {v : Variable} (h : S.Serves spared w id v)
    (hread : S'.readVar id = S.readVar id) (hvars : S.vars.ExtendedTo S'.vars) :
    S'.Serves spared w id v where
  read := by
    rw [hread]
    exact Expr.allNodes_mono (fun _ => wellNamed_mono hvars) h.read
  stored hstored := by
    obtain ⟨target, w, htarget, hw, hflag⟩ := h.stored hstored
    exact ⟨target, w, by rw [hread, htarget], hvars.get?_of_some hw, hflag⟩

/-- A variable may stand for a variable that may be pointed at if it may. -/
lemma Scope.Serves.of_readVar {written : Bool} {id target : VarId} {v w : Variable}
    (hread : S.readVar id = .readVar target) (hw : S.vars.get? target = some w)
    (hflag : v.flags.addressTaken = true → w.flags.addressTaken = true)
    (hspared : written = true → ¬ spared target) : S.Serves spared written id v where
  read := by
    rw [hread]
    simp [Expr.allNodes, Cell.allNodes, wellNamed, hw]
  stored _ := ⟨target, w, hread, hw, hflag, hspared⟩

/-- Neither the buffer nor locals that were added matter to what variables stand for. -/
lemma Scope.Hosts.congr (h : S.Hosts spared t written) (hbindings : S'.bindings = S.bindings)
    (hvars : S.vars.ExtendedTo S'.vars) : S'.Hosts spared t written where
  covers id v hv := (h.covers id v hv).congr (Scope.readVar_congr hbindings id) hvars
  shelters := h.shelters.mono hvars

/-- A variable that may be stored into or pointed at is replaced by a variable. -/
lemma Scope.Serves.exists_resolveCell {w : Bool} {id : VarId} {v : Variable}
    (h : S.Serves spared w id v) (hstored : v.flags.addressTaken = true ∨ w = true) :
    ∃ target, S.resolveCell (.var id) = .ok (.var target) ∧
      (Expr.read (.var target)).allNodes (wellNamed S.vars) = true ∧
      (v.flags.addressTaken = true →
        (Expr.addressOf (.var target)).allNodes (wellNamed S.vars) = true) ∧
      (w = true → ¬ spared target) := by
  obtain ⟨target, u, htarget, hu, hflag, hspared⟩ := h.stored hstored
  refine ⟨target, Scope.resolveCell_of_readVar htarget, ?_, fun hv => ?_, hspared⟩
  · simp [Expr.allNodes, Cell.allNodes, wellNamed, hu]
  · simp [Expr.allNodes, Cell.allNodes, wellNamed, hu, hflag hv]

/-- Well-named terms of a method with the table `t`, which store into written variables only. -/
def sparingReading (spared : VarId → Prop) (t : VarTable) (written : VarId → Bool) :
    (sparing spared).Reading where
  source e := e.allNodes (wellNamed t) = true
  sourceTarget c :=
    (Expr.read c).allNodes (wellNamed t) = true ∧ ∀ id, c = .var id → written id = true
  sourceStmt s := s.allNodes (wellNamed t) = true ∧ ∀ id, s.assigns id = true → written id = true
  fit S := S.Hosts spared t written
  part he ha := (Expr.allNodes_iff.1 he).2 _ ha
  madeOf := Stmt.nodes_and_assigns_iff.1
  address {c} hc hne := by
    refine Expr.allNodes_iff.2 ⟨?_, (Expr.allNodes_iff.1 hc.1).2⟩
    cases c with
    | var id => exact absurd rfl (hne id)
    | _ => rfl
  fit_congr hbindings hvars hS := hS.congr hbindings hvars
  node _ hvar hlength hes := by
    refine Expr.allNodes_iff.2 ⟨?_, ?_⟩
    · rw [wellNamed_withParts]
      exact wellNamed_of_namesVar hvar
    · rwa [Expr.parts_withParts hlength]
  readVar hS he := by
    obtain ⟨v, hv⟩ := Option.isSome_iff_exists.1 (Expr.allNodes_iff.1 he).1
    exact (hS.covers _ v hv).read
  pointTo hS he := by
    obtain ⟨v, hv, hflag⟩ := (Option.any_eq_true _ _).1 (Expr.allNodes_iff.1 he).1
    obtain ⟨target, htarget, -, haddress, -⟩ := (hS.covers _ v hv).exists_resolveCell (.inl hflag)
    rw [htarget]
    exact haddress hflag
  storeVar hS hc := by
    obtain ⟨v, hv⟩ := Option.isSome_iff_exists.1 (Expr.allNodes_iff.1 hc.1).1
    have hwritten := hc.2 _ rfl
    obtain ⟨target, htarget, hread, -, hspared⟩ :=
      (hS.covers _ v hv).exists_resolveCell (.inr hwritten)
    rw [htarget]
    refine ⟨hread, ?_⟩
    rintro _ ⟨⟩
    exact hspared hwritten
  store hS he := by
    refine ⟨allNodes_read_of_addressOf he, ?_⟩
    rintro id rfl
    exact hS.shelters.of_addressOf he

end Sparing

end Inliner
