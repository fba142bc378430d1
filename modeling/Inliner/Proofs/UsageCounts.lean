import Inliner.Proofs.Routes
import Inliner.Proofs.UsageComposition

/-!
# What usage counts say about paths

`Counts ps f` says that the function `f` on usage records does justice to the paths `ps`: it makes
as many references certain as every path makes, and it has a count for what some path refers to.
This is kept when one piece of code follows another and when one of two pieces is chosen, so it
holds of all expressions (`Expr.counts`) and of the statements that control passes through to the
end (`Stmt.counts`). For those, counts are exact (`Counts.exact`).

Statements after a place where control may leave the method are counted as if they were always
reached. What is counted as certain is therefore made up by a route together with the statements
that it skips (`Stmt.definite_le_of_mem_blockRoutes`), and not by the route alone.
-/

namespace Inliner

open RefPath

/-- Adding references by `f` says what code with the paths `ps` refers to. -/
structure Counts (ps : List RefPath) (f : Usage Int → Usage Int) : Prop where
  /-- There is a way through the code. -/
  ne_nil : ps ≠ []
  /-- What is certain is what every path refers to. -/
  definite : ∀ u k, (f u).definite k = u.definite k + fewest k ps
  /-- What has a count is what some path refers to. -/
  has : ∀ u k, (f u).Has k ↔ u.Has k ∨ ∃ p ∈ ps, 0 < p.references k
  proper : ∀ u, u.Proper → (f u).Proper

namespace Counts

variable {ps qs : List RefPath} {f g : Usage Int → Usage Int}

/-- Code that refers to nothing. -/
lemma nothing : Counts [[]] fun u => u where
  ne_nil := by simp
  definite u k := by simp [fewest, references]
  has u k := by simp [references]
  proper u h := h

/-- Code that consists of one reference. -/
lemma refer (r : Entity) : Counts [[r]] fun u => u.refer 1 true r where
  ne_nil := by simp
  definite u k := by
    rw [Usage.definite_refer Count.one_pos fun _ => Count.fits_int _]
    by_cases h : k ∈ r.withOwners <;> simp [fewest, references, h]
  has u k := by
    rw [Usage.has_refer]
    by_cases h : k ∈ r.withOwners <;> simp [references, h]
  proper u h := h.refer_unbounded (fun _ => Int.one_pos) r

/-- One piece of code after another. -/
lemma inTurn (hf : Counts ps f) (hg : Counts qs g) :
    Counts (RefPath.inTurn ps qs) fun u => g (f u) where
  ne_nil := inTurn_ne_nil hf.ne_nil hg.ne_nil
  definite u k := by
    rw [hg.definite, hf.definite, fewest_inTurn hf.ne_nil hg.ne_nil, Nat.add_assoc]
  has u k := by
    rw [hg.has, hf.has, exists_references_inTurn hf.ne_nil hg.ne_nil, or_assoc]
  proper u h := hg.proper _ (hf.proper u h)

/-- One of two pieces of code. -/
lemma either (hf : Counts ps f) (hg : Counts qs g) :
    Counts (ps ++ qs) fun u => u.merge (Usage.either [f .empty, g .empty]) true where
  ne_nil := List.append_ne_nil_of_left_ne_nil hf.ne_nil qs
  definite u k := by
    rw [Usage.definite_merge (Count.fits_int _), Usage.definite_either, hf.definite, hg.definite,
      fewest_append hf.ne_nil hg.ne_nil, Usage.definite_empty, Nat.zero_add, Nat.zero_add]
  has u k := by
    rw [Usage.has_merge, Usage.has_either]
    simp [hf.has, hg.has, or_and_right, exists_or]
  proper u h := h.merge_unbounded _ _

/-- What is certain is added to what was certain before. -/
lemma definite_add (hf : Counts ps f) (u : Usage Int) (k : Entity) :
    (f u).definite k = u.definite k + (f .empty).definite k := by
  rw [hf.definite, hf.definite, Usage.definite_empty, Nat.zero_add]

/-- No path refers to an entity less often than is certain. -/
lemma definite_le (hf : Counts ps f) {p : RefPath} (hp : p ∈ ps) (k : Entity) :
    (f .empty).definite k ≤ p.references k := by
  rw [hf.definite, Usage.definite_empty, Nat.zero_add]
  exact fewest_le hp k

end Counts

/-! ## Expressions -/

mutual

/-- The operands of a cell are referred to on each path through it. -/
lemma Cell.counts : ∀ c : Cell, Counts c.paths (c.addUsage true)
  | .var id => .refer (.read id)
  | .field object member => object.counts.inTurn (.refer (.field member))
  | .static member => .refer (.field member)
  | .element array index => array.counts.inTurn index.counts
  | .deref pointer => pointer.counts

/-- Adding an expression counts what its paths have in common. -/
lemma Expr.counts : ∀ e : Expr, Counts e.paths (e.addUsage true)
  | .const _ => .nothing
  | .read cell => cell.counts
  | .addressOf (.var id) => .refer (.pointer id)
  | .addressOf (.field object member) => (Cell.field object member).counts
  | .addressOf (.static member) => (Cell.static member).counts
  | .addressOf (.element array index) => (Cell.element array index).counts
  | .addressOf (.deref pointer) => (Cell.deref pointer).counts
  | .unary _ operand => operand.counts
  | .binary _ left right => left.counts.inTurn right.counts
  | .logical _ left right => left.counts.inTurn (right.counts.either .nothing)
  | .conditional cond onTrue onFalse => cond.counts.inTurn (onTrue.counts.either onFalse.counts)
  | .call method args => (Counts.refer (.method method)).inTurn (Expr.counts_all args)
  | .callOn method receiver args =>
    (Counts.refer (.method method)).inTurn (receiver.counts.inTurn (Expr.counts_all args))
  | .construct method args => (Counts.refer (.method method)).inTurn (Expr.counts_all args)
  | .marshalOut value => value.counts
  | .marshalIn value => value.counts

/-- So does adding several expressions. -/
lemma Expr.counts_all : ∀ es : List Expr, Counts (Expr.allPaths es) (Expr.addUsages es true)
  | [] => .nothing
  | e :: rest => e.counts.inTurn (Expr.counts_all rest)

end

/-- And adding a cell that is stored into. -/
lemma Cell.counts_target : ∀ c : Cell, Counts c.targetPaths (c.addTargetUsage true)
  | .var _ => .nothing
  | .field object member => (Cell.field object member).counts
  | .static member => (Cell.static member).counts
  | .element array index => (Cell.element array index).counts
  | .deref pointer => (Cell.deref pointer).counts

/-! ## Statements that control passes through -/

namespace Stmt

/-- The paths of routes that go on. -/
lemma map_path_through (ps : List RefPath) : (ps.map Route.through).map Route.path = ps := by
  simp [Function.comp_def, Route.through]

/-- The paths of routes that leave. -/
lemma map_path_leaving (ps : List RefPath) : (ps.map Route.leaving).map Route.path = ps := by
  simp [Function.comp_def, Route.leaving]

/-- A branch takes a path through its condition, and then one through an arm. -/
lemma map_path_branch (cond : Expr) (onTrue onFalse : List Stmt) :
    (branch cond onTrue onFalse).routes.map Route.path =
      RefPath.inTurn cond.paths ((blockRoutes onTrue).map Route.path ++
        (blockRoutes onFalse).map Route.path) := by
  simp [routes, RefPath.inTurn, List.map_flatMap, Function.comp_def, Route.after]

/-- The routes of a branch are those of its arms, after its condition. -/
lemma mem_routes_branch {cond : Expr} {onTrue onFalse : List Stmt} {r : Route} :
    r ∈ (branch cond onTrue onFalse).routes ↔
      ∃ p ∈ cond.paths, ∃ q, (q ∈ blockRoutes onTrue ∨ q ∈ blockRoutes onFalse) ∧
        q.after p = r := by
  simp only [routes, List.mem_flatMap, List.mem_map, List.mem_append]

/-- A route through a block begins with one through its first statement. -/
lemma mem_blockRoutes_cons {s : Stmt} {rest : List Stmt} {r : Route} :
    r ∈ blockRoutes (s :: rest) ↔
      ∃ q ∈ s.routes, r ∈ q.followed rest (blockRoutes rest) := by
  simp only [blockRoutes, List.mem_flatMap]

-- Where nothing leaves, all routes are followed by what comes next.
mutual

/-- A statement that cannot leave is gone through to its end. -/
lemma left?_of_mem_routes : ∀ s : Stmt, s.mayLeave = false → ∀ r ∈ s.routes, r.left? = none
  | .eval value, _, r, hr => by
    obtain ⟨p, -, rfl⟩ := List.mem_map.1 hr
    rfl
  | .assign target value, _, r, hr => by
    obtain ⟨p, -, rfl⟩ := List.mem_map.1 hr
    rfl
  | .branch cond onTrue onFalse, h, r, hr => by
    have hstays : blockMayLeave onTrue = false ∧ blockMayLeave onFalse = false := by
      simpa [mayLeave] using h
    obtain ⟨p, -, q, hq | hq, rfl⟩ := mem_routes_branch.1 hr
    · exact left?_of_mem_blockRoutes onTrue hstays.1 q hq
    · exact left?_of_mem_blockRoutes onFalse hstays.2 q hq

/-- So is a block. -/
lemma left?_of_mem_blockRoutes : ∀ block : List Stmt, blockMayLeave block = false →
    ∀ r ∈ blockRoutes block, r.left? = none
  | [], _, r, hr => by
    rw [List.mem_singleton.1 hr]
    rfl
  | s :: rest, h, r, hr => by
    have hstays : s.mayLeave = false ∧ blockMayLeave rest = false := by
      simpa [blockMayLeave] using h
    obtain ⟨q, hq, hr⟩ := mem_blockRoutes_cons.1 hr
    rw [Route.followed, left?_of_mem_routes s hstays.1 q hq] at hr
    obtain ⟨q', hq', rfl⟩ := List.mem_map.1 hr
    exact left?_of_mem_blockRoutes rest hstays.2 q' hq'

end

/-- After a statement that cannot leave, the rest of the block follows. -/
lemma map_path_cons {s : Stmt} (hs : s.mayLeave = false) (rest : List Stmt) :
    (blockRoutes (s :: rest)).map Route.path =
      RefPath.inTurn (s.routes.map Route.path) ((blockRoutes rest).map Route.path) := by
  have hfollowed : ∀ r ∈ s.routes,
      (r.followed rest (blockRoutes rest)).map Route.path =
        ((blockRoutes rest).map Route.path).map (r.path ++ ·) := by
    intro r hr
    rw [Route.followed, left?_of_mem_routes s hs r hr]
    simp [Function.comp_def, Route.after]
  rw [blockRoutes, List.map_flatMap, RefPath.inTurn, List.flatMap_map]
  exact List.flatMap_congr hfollowed

/-- A block of one statement has the paths of the statement. -/
lemma map_path_singleton (s : Stmt) :
    (blockRoutes [s]).map Route.path = s.routes.map Route.path := by
  have hfollowed : ∀ r ∈ s.routes,
      (r.followed [] (blockRoutes [])).map Route.path = [r.path] := by
    intro r _
    unfold Route.followed
    split <;> simp [blockRoutes, Route.after, Route.through]
  rw [blockRoutes, List.map_flatMap, List.flatMap_congr hfollowed]
  exact List.map_eq_flatMap.symm

mutual

/-- Adding a statement counts what its paths have in common. -/
lemma counts : ∀ s : Stmt, (s.isExit || !s.mayLeave) = true →
    Counts (s.routes.map Route.path) (s.addUsage true)
  | .eval value, _ => by
    rw [routes, map_path_through]
    exact value.counts
  | .assign target value, _ => by
    rw [routes, map_path_through]
    exact target.counts_target.inTurn value.counts
  | .ret none, _ => .nothing
  | .ret (some value), _ => by
    rw [routes, map_path_leaving]
    exact value.counts
  | .raise exception, _ => by
    rw [routes, map_path_leaving]
    exact exception.counts
  | .branch cond onTrue onFalse, h => by
    have hstays : blockMayLeave onTrue = false ∧ blockMayLeave onFalse = false := by
      simpa [isExit, mayLeave] using h
    rw [map_path_branch]
    exact cond.counts.inTurn ((counts_block onTrue hstays.1).either (counts_block onFalse hstays.2))

/-- So does adding a block that cannot be left early. -/
lemma counts_block : ∀ block : List Stmt, blockMayLeave block = false →
    Counts ((blockRoutes block).map Route.path) (addBlockUsage block true)
  | [], _ => .nothing
  | s :: rest, h => by
    have hstays : s.mayLeave = false ∧ blockMayLeave rest = false := by
      simpa [blockMayLeave] using h
    rw [map_path_cons hstays.1]
    exact (counts s (by simp [hstays.1])).inTurn (counts_block rest hstays.2)

end

/-- Leaving at the very end does not matter. -/
lemma counts_of_leavesLast : ∀ block : List Stmt, leavesLast block = true →
    Counts ((blockRoutes block).map Route.path) (addBlockUsage block true)
  | [], _ => .nothing
  | [s], h => by
    rw [map_path_singleton]
    exact counts s h
  | s :: s' :: rest, h => by
    have hstays : s.mayLeave = false ∧ leavesLast (s' :: rest) = true := by
      simpa [leavesLast] using h
    rw [map_path_cons hstays.1]
    exact (counts s (by simp [hstays.1])).inTurn (counts_of_leavesLast (s' :: rest) hstays.2)

end Stmt

/-! ## Exact counts -/

/-- The counts of the record say exactly how often the paths refer to each entity. -/
structure Exact (ps : List RefPath) (u : Usage Int) : Prop where
  /-- There is no count if no path refers to the entity. -/
  absent : ∀ k, u.count? k = none ↔ ∀ p ∈ ps, p.references k = 0
  /-- The count is `possible` if some paths refer to the entity and some do not. -/
  possible : ∀ k, u.count? k = some Tally.possible ↔
    (∃ p ∈ ps, p.references k = 0) ∧ ∃ p ∈ ps, 0 < p.references k
  /-- A positive count is the smallest number of references on a path. -/
  positive : ∀ k (n : Nat), 0 < n →
    (u.count? k = some (n : Int) ↔ IsLeast {m | ∃ p ∈ ps, p.references k = m} n)

/-- Added to an empty record, the counts are exact. -/
lemma Counts.exact {ps : List RefPath} {f : Usage Int → Usage Int} (h : Counts ps f) :
    Exact ps (f .empty) := by
  have hdefinite : ∀ k, (f .empty).definite k = fewest k ps := fun k => by
    rw [h.definite, Usage.definite_empty, Nat.zero_add]
  have hhas : ∀ k, (f .empty).Has k ↔ ∃ p ∈ ps, 0 < p.references k := fun k => by
    simp [h.has]
  have hproper : (f .empty).Proper := h.proper _ Usage.proper_empty
  have hleast := isLeast_fewest h.ne_nil
  refine ⟨fun k => ?_, fun k => ?_, fun k n hn => ?_⟩
  · rw [Usage.count?_eq_none_iff, hhas]
    simp
  · rw [hproper.count?_eq_possible_iff, hhas, hdefinite, and_comm]
    refine and_congr_left fun _ => ⟨fun hzero => hzero ▸ exists_fewest h.ne_nil k, ?_⟩
    rintro ⟨p, hp, hzero⟩
    exact Nat.le_zero.1 (hzero ▸ fewest_le hp k)
  · rw [Usage.count?_eq_some_iff _ _ hn, hdefinite]
    exact ⟨fun heq => heq ▸ hleast k, fun hn => (hleast k).unique hn⟩

/-- The counts of expressions are exact, and so are those of statements in which control leaves at
the very end only: an entity has no count if no path refers to it, a possible one if some paths do
and some do not, and otherwise the smallest number of references that a path makes. -/
theorem exact_usage :
    (∀ e : Expr, Exact e.paths e.usage) ∧
      ∀ block : List Stmt, Stmt.leavesLast block = true →
        Exact ((Stmt.blockRoutes block).map Route.path) (Stmt.blockUsage block) :=
  ⟨fun e => e.counts.exact, fun block h => (Stmt.counts_of_leavesLast block h).exact⟩

/-- A method of the type `Audit`. -/
def auditMethod (name : String) : MethodRef :=
  ⟨⟨"lib", "Audit", false⟩, name, 0, true⟩

/-- Checks, if the first variable is true, and then logs twice or once. The value returned is chosen
again by the first variable. -/
def auditBlock : List Stmt :=
  [.branch (.logical .and (.readVar ⟨0⟩) (.call (auditMethod "check") []))
      [.eval (.call (auditMethod "log") []), .eval (.call (auditMethod "log") [])]
      [.eval (.call (auditMethod "log") [])],
    .ret (some (.conditional (.readVar ⟨0⟩) (.readVar ⟨1⟩) (.const .null)))]

/-- Logging is certain once, the check is possible, and their type is referred to wherever one of
them is. -/
theorem exact_usage_auditBlock :
    Stmt.leavesLast auditBlock = true ∧
      Exact ((Stmt.blockRoutes auditBlock).map Route.path) (Stmt.blockUsage auditBlock) ∧
      (Stmt.blockUsage auditBlock).count? (.method (auditMethod "log")) = some (1 : Int) ∧
      (Stmt.blockUsage auditBlock).count? (.method (auditMethod "check")) =
        some (Tally.possible : Int) ∧
      (Stmt.blockUsage auditBlock).count? (.read ⟨0⟩) = some (2 : Int) :=
  ⟨by decide, exact_usage.2 auditBlock (by decide), by decide +kernel, by decide +kernel,
    by decide +kernel⟩

/-! ## Leaving early -/

namespace Stmt

/-- Definite references add up, whatever was counted before. -/
lemma definite_addUsage (s : Stmt) (u : Usage Int) (k : Entity) :
    (s.addUsage true u).definite k = u.definite k + (s.addUsage true .empty : Usage Int).definite k := by
  cases s with
  | branch cond onTrue onFalse =>
    simp only [addUsage, Usage.definite_merge (Count.fits_int _), cond.counts.definite_add u,
      Nat.add_assoc]
  | _ => exact (counts _ rfl).definite_add u k

/-- An empty block refers to nothing. -/
@[simp] lemma definite_blockUsage_nil (k : Entity) :
    (blockUsage [] : Usage Int).definite k = 0 :=
  Usage.definite_empty k

/-- The same for the definite references of a block. -/
lemma definite_addBlockUsage (block : List Stmt) (u : Usage Int) (k : Entity) :
    (addBlockUsage block true u).definite k =
      u.definite k + (blockUsage block : Usage Int).definite k := by
  induction block generalizing u with
  | nil => rw [definite_blockUsage_nil, addBlockUsage, Nat.add_zero]
  | cons s rest ih =>
    simp only [blockUsage, addBlockUsage]
    rw [ih, ih (s.addUsage true .empty), definite_addUsage, Nat.add_assoc]

/-- A block counts its first statement and the rest. -/
lemma definite_blockUsage_cons (s : Stmt) (rest : List Stmt) (k : Entity) :
    (blockUsage (s :: rest) : Usage Int).definite k =
      (s.addUsage true .empty : Usage Int).definite k + (blockUsage rest : Usage Int).definite k :=
  definite_addBlockUsage rest _ k

/-- A block counts its parts. -/
lemma definite_blockUsage_append (block rest : List Stmt) (k : Entity) :
    (blockUsage (block ++ rest) : Usage Int).definite k =
      (blockUsage block : Usage Int).definite k + (blockUsage rest : Usage Int).definite k := by
  induction block with
  | nil => rw [definite_blockUsage_nil, List.nil_append, Nat.zero_add]
  | cons s block ih =>
    rw [List.cons_append, definite_blockUsage_cons, definite_blockUsage_cons, ih, Nat.add_assoc]

/-- What a statement makes certain is found on every route through it, if control leaves at its end
or not at all. -/
lemma definite_le_references {s : Stmt} (hs : (s.isExit || !s.mayLeave) = true) {r : Route}
    (hr : r ∈ s.routes) (k : Entity) :
    (s.addUsage true .empty : Usage Int).definite k ≤ r.path.references k :=
  (counts s hs).definite_le (List.mem_map.2 ⟨r, hr, rfl⟩) k

-- The induction is over statements and blocks together. A block that a route leaves adds the
-- statements behind the one in which it does to those that are skipped.
mutual

/-- On each route through a statement, what is counted for it is referred to or skipped. -/
lemma definite_le_of_mem_routes (k : Entity) : ∀ (s : Stmt), ∀ r ∈ s.routes,
    (s.addUsage true .empty : Usage Int).definite k ≤
      r.path.references k + (blockUsage r.skipped : Usage Int).definite k
  | .eval _, _, hr => (definite_le_references rfl hr k).trans (Nat.le_add_right _ _)
  | .assign _ _, _, hr => (definite_le_references rfl hr k).trans (Nat.le_add_right _ _)
  | .ret _, _, hr => (definite_le_references rfl hr k).trans (Nat.le_add_right _ _)
  | .raise _, _, hr => (definite_le_references rfl hr k).trans (Nat.le_add_right _ _)
  | .branch cond onTrue onFalse, r, hr => by
    obtain ⟨p, hp, q, hq, rfl⟩ := mem_routes_branch.1 hr
    have hcond := cond.counts.definite_le hp k
    have harm : min ((blockUsage onTrue : Usage Int).definite k)
        ((blockUsage onFalse : Usage Int).definite k) ≤
        q.path.references k + (blockUsage q.skipped : Usage Int).definite k := by
      rcases hq with hq | hq
      · exact (min_le_left _ _).trans (definite_le_of_mem_blockRoutes k onTrue q hq)
      · exact (min_le_right _ _).trans (definite_le_of_mem_blockRoutes k onFalse q hq)
    rw [addUsage, Usage.definite_merge (Count.fits_int _), Usage.definite_either]
    change _ + min ((blockUsage onTrue).definite k) ((blockUsage onFalse).definite k) ≤
      references (p ++ q.path) k + (blockUsage q.skipped : Usage Int).definite k
    rw [references_append]
    omega

/-- So it is on each route through a block. -/
lemma definite_le_of_mem_blockRoutes (k : Entity) : ∀ (block : List Stmt), ∀ r ∈ blockRoutes block,
    (blockUsage block : Usage Int).definite k ≤
      r.path.references k + (blockUsage r.skipped : Usage Int).definite k
  | [], _, _ => by simp
  | s :: rest, r, hr => by
    obtain ⟨q, hq, hr⟩ := mem_blockRoutes_cons.1 hr
    have hfirst := definite_le_of_mem_routes k s q hq
    rw [definite_blockUsage_cons]
    unfold Route.followed at hr
    unfold Route.skipped at hfirst
    cases hleft : q.left? with
    | none =>
      rw [hleft] at hr hfirst
      obtain ⟨q', hq', rfl⟩ := List.mem_map.1 hr
      have hrest := definite_le_of_mem_blockRoutes k rest q' hq'
      rw [Option.getD_none, definite_blockUsage_nil] at hfirst
      change _ ≤ references (q.path ++ q'.path) k + (blockUsage q'.skipped : Usage Int).definite k
      rw [references_append]
      omega
    | some skipped =>
      rw [hleft] at hr hfirst
      obtain rfl := List.mem_singleton.1 hr
      rw [Option.getD_some] at hfirst
      change _ ≤ references q.path k + (blockUsage (skipped ++ rest) : Usage Int).definite k
      rw [definite_blockUsage_append]
      omega

end

end Stmt

/-- A positive count of a method body is made up by every route through it together with the
statements that the route skips because control has left the method. A route that skips nothing
refers to the entity at least that often. The body is counted in words, which may be too small but
not too large. -/
theorem count_le_references_add_skipped (body : MethodBody) (r : Route)
    (hr : r ∈ Stmt.blockRoutes body.stmts) (k : Entity) (count : Int32)
    (hcount : body.usage.count? k = some count) :
    count.toInt ≤ r.path.references k + (Stmt.blockUsage r.skipped : Usage Int).definite k ∧
      (r.skipped = [] → count.toInt ≤ r.path.references k) := by
  have hdefinite : body.usage.definite k = count.toInt.toNat := by
    rw [Usage.definite, hcount]
    rfl
  have hle : count.toInt.toNat ≤
      r.path.references k + (Stmt.blockUsage r.skipped : Usage Int).definite k := by
    rw [← hdefinite]
    exact (Stmt.definite_blockUsage_le body.stmts k).trans
      (Stmt.definite_le_of_mem_blockRoutes k body.stmts r hr)
  refine ⟨by omega, fun hskipped => ?_⟩
  rw [hskipped, Stmt.definite_blockUsage_nil] at hle
  omega

/-- The call that logs. -/
def logCall : Stmt :=
  .eval (.call (auditMethod "log") [])

/-- Returns at once if its argument is true, and logs otherwise. -/
def quietMethod : MethodBody :=
  .build ⟨⟨"app", "Program", false⟩, "main", 1, true⟩ false
    (VarTable.empty.declareArgument "quiet" ⟨"lib", "Boolean", false⟩)
    [.branch (.readVar ⟨0⟩) [.ret none] [], logCall]

/-- The route on which the method returns at once. -/
def quietRoute : Route :=
  ⟨[.read ⟨0⟩], some [logCall]⟩

/-- The route on which it logs. -/
def loggingRoute : Route :=
  ⟨[.read ⟨0⟩, .method (auditMethod "log")], none⟩

/-- The method can be left early. -/
lemma quietRoute_mem : quietRoute ∈ Stmt.blockRoutes quietMethod.stmts :=
  List.mem_cons_self

/-- The reference that is skipped counts as a definite one. -/
lemma count?_quietMethod :
    quietMethod.usage.count? (.method (auditMethod "log")) = some 1 := by
  decide +kernel

/-- On the one route the call is made, on the other it is skipped. -/
theorem count_le_quietMethod :
    quietRoute ∈ Stmt.blockRoutes quietMethod.stmts ∧
      loggingRoute ∈ Stmt.blockRoutes quietMethod.stmts ∧
      quietMethod.usage.count? (.method (auditMethod "log")) = some 1 ∧
      (1 : Int32).toInt ≤ quietRoute.path.references (.method (auditMethod "log")) +
        (Stmt.blockUsage quietRoute.skipped : Usage Int).definite (.method (auditMethod "log")) ∧
      (1 : Int32).toInt ≤ loggingRoute.path.references (.method (auditMethod "log")) := by
  have hlogging : loggingRoute ∈ Stmt.blockRoutes quietMethod.stmts :=
    List.mem_cons_of_mem _ List.mem_cons_self
  exact ⟨quietRoute_mem, hlogging, count?_quietMethod,
    (count_le_references_add_skipped _ _ quietRoute_mem _ _ count?_quietMethod).1,
    (count_le_references_add_skipped _ _ hlogging _ _ count?_quietMethod).2 rfl⟩

/-- A route on which control leaves the method early may refer to an entity less often than its
count says. -/
theorem not_forall_count_le_references :
    ¬ ∀ (body : MethodBody), ∀ r ∈ Stmt.blockRoutes body.stmts, ∀ (k : Entity) (count : Int32),
      0 < count → body.usage.count? k = some count → count.toInt ≤ r.path.references k := by
  intro h
  have hle := h quietMethod quietRoute quietRoute_mem _ 1 (by decide) count?_quietMethod
  have hzero : quietRoute.path.references (.method (auditMethod "log")) = 0 := by decide
  rw [hzero] at hle
  exact absurd hle (by decide)

end Inliner
