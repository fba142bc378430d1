import Inliner.Proofs.LogicClasses

/-!
# Refused unifications

Reconciling two values may change the first one and then refuse. The two classes stay apart in this
case, and no variable changes its representative, but what was done to the first value is not undone:
the value of the class of the first variable is as the refusal has left it.

The main result, `assigned_of_refused`, is about every arena that calls on issued variables can lead
to, refused unifications included. A refusal leaves the classes and their values as they were exactly
if it leaves the first value as it was.
-/

namespace Inliner

namespace Arena

variable {α : Type} {a a' b : Arena α} {v w : Nat} {reconcile : α → α → Bool → Reconciled α}
  {changed : Bool} {u : Unified} {fault : Fault}

/-! ## Arenas that calls lead to -/

/-- The unification of two issued variables is refused. -/
structure Refuses (a : Arena α) (v w : Nat) (reconcile : α → α → Bool → Reconciled α)
    (changed : Bool) (u : Unified) (fault : Fault) (a' : Arena α) : Prop where
  left_lt : v < a.size
  right_lt : w < a.size
  unify_eq : unify v w reconcile changed a = .ok u a'
  fault_eq : u.fault = some fault

/-- Calls on issued variables lead from the arena without variables to this one. -/
inductive Reachable : Arena α → Prop
  | start : Reachable empty
  | perform {a b : Arena α} (call : Call α) (h : Reachable a) (hcall : a.perform call = some b) :
      Reachable b
  | refuse {a b : Arena α} {v w : Nat} {reconcile : α → α → Bool → Reconciled α} {changed : Bool}
      {u : Unified} {fault : Fault} (h : Reachable a)
      (hrefuses : Refuses a v w reconcile changed u fault b) : Reachable b

/-- Both classes have values, and reconciling them has failed. -/
structure Disputed (a : Arena α) (v w : Nat) (reconcile : α → α → Bool → Reconciled α)
    (changed : Bool) (fault : Fault) (x y : α) : Prop where
  root_ne : a.root v ≠ a.root w
  left_eq : a.classValue v = some x
  right_eq : a.classValue w = some y
  fault_eq : (reconcile x y changed).fault = some fault

/-! ## What a refusal does -/

/-- Only two values can be refused. -/
lemma Refuses.disputed (h : Rooted a.cells) (hrefuses : Refuses a v w reconcile changed u fault a') :
    ∃ x y, Disputed a v w reconcile changed fault x y := by
  obtain ⟨hv, hw, hunify, hfault⟩ := hrefuses
  have hnot : ∀ {c r : Bool} {b : Arena α},
      unify v w reconcile changed a ≠ .ok ⟨none, c, r⟩ b := by
    intro c r b heq
    obtain ⟨rfl, -⟩ := EStateM.Result.ok.inj (hunify.symm.trans heq)
    cases hfault
  have hne : a.root v ≠ a.root w := by
    intro heq
    obtain ⟨b, hsame, -⟩ := exists_unify_same h hv hw heq
    exact hnot (hsame reconcile changed)
  have hsome : ¬ (a.classValue v = none ∨ a.classValue w = none) := by
    intro hnone
    obtain ⟨b, hone, -⟩ := exists_unify_one h hv hw hne hnone
    exact hnot (hone reconcile changed)
  obtain ⟨hv', hw'⟩ := not_or.1 hsome
  obtain ⟨x, hx⟩ := Option.ne_none_iff_exists'.1 hv'
  obtain ⟨y, hy⟩ := Option.ne_none_iff_exists'.1 hw'
  refine ⟨x, y, hne, hx, hy, ?_⟩
  cases hoff : (reconcile x y changed).fault with
  | none =>
    obtain ⟨next, hboth, -⟩ := exists_unify_both h hv hw hne hx hy
    exact absurd (hboth reconcile changed hoff) hnot
  | some fault' =>
    rw [unify_of_some h hv hw hne hx hy] at hunify
    generalize reconcile x y changed = outcome at hunify hoff
    obtain ⟨z, changed', _⟩ := outcome
    obtain rfl := hoff
    obtain ⟨rfl, -⟩ := EStateM.Result.ok.inj hunify
    exact hfault

/-- A class with a value has a variable that was issued. -/
lemma lt_size_of_classValue {x : α} (h : a.classValue v = some x) : v < a.size := by
  by_contra hv
  rw [classValue_of_size_le (Nat.le_of_not_lt hv)] at h
  cases h

/-- What reconciling has left of the first value is stored, and the classes are not merged. -/
lemma Disputed.unify_eq {x y : α} (h : Rooted a.cells)
    (hdisputed : Disputed a v w reconcile changed fault x y) :
    ∃ b, unify v w reconcile changed a =
        .ok ⟨some fault, (reconcile x y changed).changed, true⟩ b ∧
      Rooted b.cells ∧ Assigned a b v (reconcile x y changed).value := by
  obtain ⟨hne, hx, hy, hfault⟩ := hdisputed
  have hv := lt_size_of_classValue hx
  have hw := lt_size_of_classValue hy
  obtain ⟨hrooted, halike⟩ := alike_followedBoth h hv hw
  obtain ⟨hrooted', hassigned⟩ :=
    assigned_setCell hrooted (halike.size_eq.symm ▸ hv) (reconcile x y changed).value
  rw [halike.root_eq] at hrooted' hassigned
  refine ⟨_, ?_, hrooted', .of_alike halike hassigned⟩
  rw [unify_of_some h hv hw hne hx hy]
  generalize reconcile x y changed = outcome at hfault
  obtain ⟨z, changed', _⟩ := outcome
  obtain rfl := hfault
  rfl

/-- Storing a value changes nothing exactly if the class had this value. -/
lemma Assigned.alike_iff {x z : α} (h : Assigned a a' v z) (hx : a.classValue v = some x) :
    Alike a a' ↔ z = x := by
  have hsame : a'.classValue v = some z := h.classValue_same v rfl
  constructor
  · intro halike
    rw [halike.classValue_eq, hx] at hsame
    exact (Option.some.inj hsame).symm
  · rintro rfl
    refine ⟨h.size_eq, h.root_eq, fun u => ?_⟩
    by_cases hu : a.root u = a.root v
    · rw [h.classValue_same u hu, classValue, hu]
      exact hx.symm
    · exact h.classValue_other u hu

/-- A refusal in full: both classes had values, the refusal comes from reconciling them, and all that
it changes is the value of the first class. -/
lemma Refuses.assigned (h : Rooted a.cells) (hrefuses : Refuses a v w reconcile changed u fault a') :
    Rooted a'.cells ∧ ∃ x y, Disputed a v w reconcile changed fault x y ∧
      u = ⟨some fault, (reconcile x y changed).changed, true⟩ ∧
      Assigned a a' v (reconcile x y changed).value := by
  obtain ⟨x, y, hdisputed⟩ := hrefuses.disputed h
  obtain ⟨b, hunify, hrooted, hassigned⟩ := hdisputed.unify_eq h
  obtain ⟨rfl, rfl⟩ := EStateM.Result.ok.inj (hrefuses.unify_eq.symm.trans hunify)
  exact ⟨hrooted, x, y, hdisputed, rfl, hassigned⟩

/-- Every run keeps the links without cycles, whatever is refused on the way. -/
lemma Reachable.rooted (h : Reachable a) : Rooted a.cells := by
  induction h with
  | start => exact fun v hv => absurd hv (Nat.not_lt_zero v)
  | perform _ _ hcall ih => exact (rooted_joins_of_perform ih hcall).1
  | refuse _ hrefuses ih => exact (hrefuses.assigned ih).1

/-- The unification of two issued variables is refused exactly if both classes have values and these
cannot be reconciled. No variable has another representative afterwards, the class of `v` has the value
that reconciling has left, and all other classes have theirs. So every representative and every value is
as it was exactly if reconciling has left the value of `v` alone. -/
theorem assigned_of_refused (a : Arena α) (h : Reachable a) (v w : Nat)
    (reconcile : α → α → Bool → Reconciled α) (changed : Bool) (fault : Fault) :
    (∀ x y, Disputed a v w reconcile changed fault x y →
      ∃ u a', Refuses a v w reconcile changed u fault a') ∧
    ∀ u a', Refuses a v w reconcile changed u fault a' → Reachable a' ∧
      ∃ x y, Disputed a v w reconcile changed fault x y ∧
        u.changed = (reconcile x y changed).changed ∧
        Assigned a a' v (reconcile x y changed).value ∧
        (Alike a a' ↔ (reconcile x y changed).value = x) := by
  constructor
  · intro x y hdisputed
    obtain ⟨b, hunify, -⟩ := hdisputed.unify_eq h.rooted
    exact ⟨_, b, lt_size_of_classValue hdisputed.left_eq, lt_size_of_classValue hdisputed.right_eq,
      hunify, rfl⟩
  · intro u a' hrefuses
    obtain ⟨-, x, y, hdisputed, rfl, hassigned⟩ := hrefuses.assigned h.rooted
    exact ⟨h.refuse hrefuses, x, y, hdisputed, rfl, hassigned, hassigned.alike_iff hdisputed.left_eq⟩

/-! ## A value that a refusal changes -/

/-- Two classes with a value each. -/
def twoValues : Arena Nat :=
  ⟨[.bound 1, .bound 2]⟩

/-- Adds the second value to the first one, and refuses. -/
def addAndRefuse (x y : Nat) (_ : Bool) : Reconciled Nat :=
  ⟨x + y, true, some (.other "conflict")⟩

lemma reachable_twoValues : Reachable twoValues := by
  have hone : Reachable (⟨[.bound 1]⟩ : Arena Nat) := .perform (.freshBound 1) .start rfl
  exact .perform (.freshBound 2) hone rfl

lemma refuses_twoValues :
    Refuses twoValues 0 1 addAndRefuse false ⟨some (.other "conflict"), true, true⟩
      (.other "conflict") ⟨[.bound 3, .bound 2]⟩ :=
  ⟨by decide, by decide, rfl, rfl⟩

/-- The first class has the sum afterwards, although the unification was refused. -/
theorem assigned_twoValues : Reachable twoValues ∧
    Refuses twoValues 0 1 addAndRefuse false ⟨some (.other "conflict"), true, true⟩
      (.other "conflict") ⟨[.bound 3, .bound 2]⟩ ∧
    Assigned twoValues ⟨[.bound 3, .bound 2]⟩ 0 3 := by
  have hafter := (assigned_of_refused twoValues reachable_twoValues 0 1 addAndRefuse false
    (.other "conflict")).2 _ _ refuses_twoValues
  obtain ⟨-, x, y, hdisputed, -, hassigned, -⟩ := hafter
  obtain rfl : 1 = x := Option.some.inj hdisputed.left_eq
  obtain rfl : 2 = y := Option.some.inj hdisputed.right_eq
  exact ⟨reachable_twoValues, refuses_twoValues, hassigned⟩

/-- It is not true that a refusal leaves every value as it was. -/
theorem not_forall_alike_of_refused :
    ¬ ∀ (a a' : Arena Nat) (v w : Nat) (reconcile : Nat → Nat → Bool → Reconciled Nat)
      (changed : Bool) (u : Unified) (fault : Fault), Reachable a →
      Refuses a v w reconcile changed u fault a' → Alike a a' := by
  intro hall
  have halike := hall _ _ _ _ _ _ _ _ reachable_twoValues refuses_twoValues
  have hvalue : some 3 = some 1 := halike.classValue_eq 0
  cases hvalue

end Arena

end Inliner
