import Inliner.MethodBody
import Inliner.Proofs.UsageEntries
import Mathlib.Order.Bounds.Basic

/-!
# Ways through a term

A `RefPath` lists the entities that are referred to along one way through a piece of code. There is
one for each choice of an arm at the conditionals, and of running or not running the right operand
at the short-circuit operators.

Through statements there are *routes*. A route ends where control leaves the method, at the first
`ret` or `raise` that it reaches, and remembers the statements that it does not reach for this
reason.

The smallest number of references along a set of paths (`RefPath.fewest`) is added up when one piece
of code follows another, since the choices in them are independent.
-/

namespace Inliner

/-- The entities that are referred to along one way through a piece of code, in order. -/
abbrev RefPath : Type :=
  List Entity

namespace RefPath

/-- How often an entity is referred to along the path, members counting for their owners too. -/
def references (p : RefPath) (k : Entity) : Nat :=
  p.countP fun r => decide (k ∈ r.withOwners)

/-- Every path of the first list followed by every path of the second. -/
def inTurn (ps qs : List RefPath) : List RefPath :=
  ps.flatMap fun p => qs.map (p ++ ·)

/-- The smallest number of references to an entity along one of the paths. -/
def fewest (k : Entity) (ps : List RefPath) : Nat :=
  ((ps.map fun p => p.references k).min?).getD 0

end RefPath

/-! ## Paths through expressions -/

open RefPath in
mutual

/-- The paths through the reading of a cell. -/
def Cell.paths : Cell → List RefPath
  | .var id => [[.read id]]
  | .field object member => inTurn object.paths [[.field member]]
  | .static member => [[.field member]]
  | .element array index => inTurn array.paths index.paths
  | .deref pointer => pointer.paths

/-- The paths through an expression. -/
def Expr.paths : Expr → List RefPath
  | .const _ => [[]]
  | .read cell => cell.paths
  | .addressOf (.var id) => [[.pointer id]]
  | .addressOf cell => cell.paths
  | .unary _ operand => operand.paths
  | .binary _ left right => inTurn left.paths right.paths
  | .logical _ left right => inTurn left.paths (right.paths ++ [[]])
  | .conditional cond onTrue onFalse => inTurn cond.paths (onTrue.paths ++ onFalse.paths)
  | .call method args => inTurn [[.method method]] (Expr.allPaths args)
  | .callOn method receiver args =>
    inTurn [[.method method]] (inTurn receiver.paths (Expr.allPaths args))
  | .construct method args => inTurn [[.method method]] (Expr.allPaths args)
  | .marshalOut value => value.paths
  | .marshalIn value => value.paths

/-- The paths through several expressions, one after the other. -/
def Expr.allPaths : List Expr → List RefPath
  | [] => [[]]
  | e :: rest => inTurn e.paths (Expr.allPaths rest)

end

/-- The paths through finding out where a cell is, to store into it. -/
def Cell.targetPaths : Cell → List RefPath
  | .var _ => [[]]
  | cell => cell.paths

/-! ## Routes through statements -/

/-- One way through statements. -/
structure Route where
  /-- What is referred to on the way. -/
  path : RefPath
  /-- If control leaves the method at the end of the route, the statements that were still to come.
  -/
  left? : Option (List Stmt)

namespace Route

/-- A route that goes on with what comes next. -/
def through (p : RefPath) : Route :=
  ⟨p, none⟩

/-- A route that leaves the method. -/
def leaving (p : RefPath) : Route :=
  ⟨p, some []⟩

/-- The statements that are not reached since control has left the method before. -/
def skipped (r : Route) : List Stmt :=
  r.left?.getD []

/-- The route with a path in front of it. -/
def after (p : RefPath) (r : Route) : Route :=
  { r with path := p ++ r.path }

/-- The route with the routes `next` through the statements `rest` behind it; they are skipped if
control has left. -/
def followed (r : Route) (rest : List Stmt) (next : List Route) : List Route :=
  match r.left? with
  | none => next.map (after r.path)
  | some skipped => [⟨r.path, some (skipped ++ rest)⟩]

end Route

namespace Stmt

mutual

/-- The routes through a statement. -/
def routes : Stmt → List Route
  | .eval value => value.paths.map .through
  | .assign target value => (RefPath.inTurn target.targetPaths value.paths).map .through
  | .ret none => [.leaving []]
  | .ret (some value) => value.paths.map .leaving
  | .raise exception => exception.paths.map .leaving
  | .branch cond onTrue onFalse =>
    cond.paths.flatMap fun p => (blockRoutes onTrue ++ blockRoutes onFalse).map (.after p)

/-- The routes through a block. -/
def blockRoutes : List Stmt → List Route
  | [] => [.through []]
  | s :: rest => s.routes.flatMap fun r => r.followed rest (blockRoutes rest)

end

mutual

/-- Control may leave the method in the statement: it is a `ret` or `raise`, or has one nested in
it. -/
def mayLeave : Stmt → Bool
  | .ret _ => true
  | .raise _ => true
  | .branch _ onTrue onFalse => blockMayLeave onTrue || blockMayLeave onFalse
  | _ => false

/-- Control may leave the method in some statement of the block. -/
def blockMayLeave : List Stmt → Bool
  | [] => false
  | s :: rest => s.mayLeave || blockMayLeave rest

end

/-- The statement is a `ret` or `raise`. -/
def isExit : Stmt → Bool
  | .ret _ => true
  | .raise _ => true
  | _ => false

/-- In the block `ret` and `raise` occur as the last statement, if at all. -/
def leavesLast : List Stmt → Bool
  | [] => true
  | [s] => s.isExit || !s.mayLeave
  | s :: rest => !s.mayLeave && leavesLast rest

end Stmt

/-! ## Numbers of references along paths -/

namespace RefPath

variable {ps qs : List RefPath} {k : Entity}

/-- References on a path add up. -/
lemma references_append (p q : RefPath) (k : Entity) :
    references (p ++ q) k = p.references k + q.references k :=
  List.countP_append

/-- A path through both goes through the first and then through the second. -/
lemma mem_inTurn {r : RefPath} : r ∈ inTurn ps qs ↔ ∃ p ∈ ps, ∃ q ∈ qs, p ++ q = r := by
  simp [inTurn]

/-- If there are paths through both, then there are paths through them in turn. -/
lemma inTurn_ne_nil (hps : ps ≠ []) (hqs : qs ≠ []) : inTurn ps qs ≠ [] := by
  obtain ⟨p, hp⟩ := List.exists_mem_of_ne_nil _ hps
  obtain ⟨q, hq⟩ := List.exists_mem_of_ne_nil _ hqs
  exact List.ne_nil_of_mem (mem_inTurn.2 ⟨p, hp, q, hq, rfl⟩)

/-- The smallest number is reached on some path, and no path stays below it. -/
lemma isLeast_fewest (hps : ps ≠ []) (k : Entity) :
    IsLeast {n | ∃ p ∈ ps, p.references k = n} (fewest k ps) := by
  have hne : ps.map (fun p => p.references k) ≠ [] := by simpa using hps
  obtain ⟨n, hn⟩ := Option.isSome_iff_exists.1 (List.isSome_min?_of_ne_nil hne)
  obtain ⟨hmem, hle⟩ := List.min?_eq_some_iff.1 hn
  rw [fewest, hn, Option.getD_some]
  constructor
  · simpa using hmem
  · rintro _ ⟨p, hp, rfl⟩
    exact hle _ (List.mem_map.2 ⟨p, hp, rfl⟩)

/-- No path has fewer references than the fewest. -/
lemma fewest_le {p : RefPath} (hp : p ∈ ps) (k : Entity) : fewest k ps ≤ p.references k :=
  (isLeast_fewest (List.ne_nil_of_mem hp) k).2 ⟨p, hp, rfl⟩

/-- Some path has as few. -/
lemma exists_fewest (hps : ps ≠ []) (k : Entity) : ∃ p ∈ ps, p.references k = fewest k ps :=
  (isLeast_fewest hps k).1

/-- These two facts determine the number. -/
lemma fewest_eq {n : Nat} (hmem : ∃ p ∈ ps, p.references k = n)
    (hle : ∀ p ∈ ps, n ≤ p.references k) : fewest k ps = n := by
  obtain ⟨p, hp, rfl⟩ := hmem
  refine le_antisymm (fewest_le hp k) ?_
  obtain ⟨q, hq, hfewest⟩ := exists_fewest (List.ne_nil_of_mem hp) k
  exact hfewest ▸ hle q hq

/-- The choices in two pieces of code are independent. -/
lemma fewest_inTurn (hps : ps ≠ []) (hqs : qs ≠ []) (k : Entity) :
    fewest k (inTurn ps qs) = fewest k ps + fewest k qs := by
  obtain ⟨p, hp, hfewest⟩ := exists_fewest hps k
  obtain ⟨q, hq, hfewest'⟩ := exists_fewest hqs k
  refine fewest_eq ⟨p ++ q, mem_inTurn.2 ⟨p, hp, q, hq, rfl⟩, ?_⟩ fun r hr => ?_
  · rw [references_append, hfewest, hfewest']
  · obtain ⟨p, hp, q, hq, rfl⟩ := mem_inTurn.1 hr
    rw [references_append]
    exact Nat.add_le_add (fewest_le hp k) (fewest_le hq k)

/-- Of more paths, the fewest references are those of one of the parts. -/
lemma fewest_append (hps : ps ≠ []) (hqs : qs ≠ []) (k : Entity) :
    fewest k (ps ++ qs) = min (fewest k ps) (fewest k qs) := by
  obtain ⟨p, hp, hfewest⟩ := exists_fewest hps k
  obtain ⟨q, hq, hfewest'⟩ := exists_fewest hqs k
  refine fewest_eq ?_ fun r hr => ?_
  · rcases le_total (fewest k ps) (fewest k qs) with h | h
    · exact ⟨p, List.mem_append_left _ hp, by rw [hfewest, min_eq_left h]⟩
    · exact ⟨q, List.mem_append_right _ hq, by rw [hfewest', min_eq_right h]⟩
  · rcases List.mem_append.1 hr with hr | hr
    · exact (min_le_left _ _).trans (fewest_le hr k)
    · exact (min_le_right _ _).trans (fewest_le hr k)

/-- A reference is made by one of two pieces of code if it is made by one after the other. -/
lemma exists_references_inTurn (hps : ps ≠ []) (hqs : qs ≠ []) :
    (∃ r ∈ inTurn ps qs, 0 < r.references k) ↔
      (∃ p ∈ ps, 0 < p.references k) ∨ ∃ q ∈ qs, 0 < q.references k := by
  constructor
  · rintro ⟨r, hr, hpos⟩
    obtain ⟨p, hp, q, hq, rfl⟩ := mem_inTurn.1 hr
    rw [references_append] at hpos
    rcases Nat.eq_zero_or_pos (p.references k) with hzero | hpos'
    · exact .inr ⟨q, hq, by omega⟩
    · exact .inl ⟨p, hp, hpos'⟩
  · obtain ⟨p₀, hp₀⟩ := List.exists_mem_of_ne_nil _ hps
    obtain ⟨q₀, hq₀⟩ := List.exists_mem_of_ne_nil _ hqs
    rintro (⟨p, hp, hpos⟩ | ⟨q, hq, hpos⟩)
    · exact ⟨p ++ q₀, mem_inTurn.2 ⟨p, hp, q₀, hq₀, rfl⟩, by rw [references_append]; omega⟩
    · exact ⟨p₀ ++ q, mem_inTurn.2 ⟨p₀, hp₀, q, hq, rfl⟩, by rw [references_append]; omega⟩

end RefPath

end Inliner
