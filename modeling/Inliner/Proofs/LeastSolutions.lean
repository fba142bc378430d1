import Inliner.FixedPoint
import Inliner.Proofs.DomainLaws

/-!
# Least solutions by ascent

An element solves a step function above a start if it lies above the start and the step leads to
nothing new from there. `Domain.Ascends` says what the ascent along a step function has to do with
such solutions. It ends for every step function, and so it would if the step gave other answers each
time it is asked. Its limit is a solution, and the least one if the step is monotone. There is no
limit exactly if the step left the shape of the element at which it was evaluated.

All this follows from the laws of the domain, once the room above an element is bounded by a height
of its shape (`Lawful.ascends`). The heights of the domains are stated at the end.
-/

namespace Inliner

namespace Domain

variable {α σ : Type} [Domain α]

/-- One round of an ascent may lead from `x` to `z`: some answer of the step, not below `x`, was
joined in. -/
def Enlarges (x z : α) : Prop :=
  ∃ y, le y x = false ∧ join x y = some z

/-- The element lies above the start, and the step adds nothing to it. -/
structure IsSolution (start : α) (step : α → α) (r : α) : Prop where
  start_le : le start r = true
  step_le : le (step r) r = true

/-- The step keeps the order. -/
def IsMonotone (step : α → α) : Prop :=
  ∀ {x y : α}, le x y = true → le (step x) (step y) = true

/-- Ascents end after at most as many rounds as the height of the shape allows, and they end at
solutions. -/
structure Ascends [FiniteHeight α] (shape : α → σ) (height : σ → Nat) : Prop where
  /-- There is no endless ascent, whatever the step answers from round to round. -/
  wellFounded : WellFounded fun z x : α => Enlarges x z
  /-- The step is evaluated once more than the height says at most. -/
  length_visited_le : ∀ (step : α → α) (start : α),
    (ascend step start).visited.length ≤ height (shape start) + 1
  isSolution : ∀ {step : α → α} {start r : α}, lfp start step = some r → IsSolution start step r
  /-- There is no limit exactly if the step was seen to leave the shape. -/
  lfp_eq_none_iff : ∀ (step : α → α) (start : α), lfp start step = none ↔
    ∃ x ∈ (ascend step start).visited, shape (step x) ≠ shape x
  /-- If there is a solution of a monotone step, then there is a limit, and it lies below. -/
  least : ∀ {step : α → α}, IsMonotone step → ∀ {start y : α}, IsSolution start step y →
    ∃ r, lfp start step = some r ∧ le r y = true

/-! ## The course of an ascent -/

section Ascent

variable [FiniteHeight α] {step : α → α}

/-- Every round uses up room. -/
lemma Enlarges.room_lt {x z : α} (h : Enlarges x z) :
    FiniteHeight.room z < FiniteHeight.room x := by
  obtain ⟨y, hy, hz⟩ := h
  exact FiniteHeight.room_lt hz hy

/-- A solution is where the ascent ends. -/
lemma ascend_of_le {x : α} (h : le (step x) x = true) : ascend step x = ⟨[x], some x⟩ := by
  rw [ascend, dif_pos h]

/-- Without a join, the ascent fails. -/
lemma ascend_of_none {x : α} (h : ¬ le (step x) x = true) (hz : join x (step x) = none) :
    ascend step x = ⟨[x], none⟩ := by
  rw [ascend, dif_neg h]
  split
  · rfl
  · simp_all

/-- Otherwise it goes on with the join. -/
lemma ascend_of_some {x z : α} (h : ¬ le (step x) x = true) (hz : join x (step x) = some z) :
    ascend step x = ⟨x :: (ascend step z).visited, (ascend step z).limit⟩ := by
  rw [ascend, dif_neg h]
  split
  · simp_all
  · rename_i z' hz'
    obtain rfl : z = z' := Option.some.inj (hz.symm.trans hz')
    rfl

/-- What holds where an ascent stops, with or without a limit, and passes back over a round holds of
all ascents. -/
lemma ascend_induction (step : α → α) {P : α → Prop} (stop : ∀ x, le (step x) x = true → P x)
    (stuck : ∀ x, ¬ le (step x) x = true → join x (step x) = none → P x)
    (round : ∀ x z, ¬ le (step x) x = true → join x (step x) = some z → P z → P x) (x : α) :
    P x := by
  induction x using ascend.induct step with
  | case1 x hle => exact stop x hle
  | case2 x hle hz => exact stuck x hle hz
  | case3 x hle z hz ih => exact round x z hle hz ih

/-- No more elements are visited than there is room above the first one. -/
lemma length_visited_le_room (x : α) :
    (ascend step x).visited.length ≤ FiniteHeight.room x + 1 := by
  induction x using ascend_induction step with
  | stop x hle => simp [ascend_of_le hle]
  | stuck x hle hz => simp [ascend_of_none hle hz]
  | round x z hle hz ih =>
    have hroom : FiniteHeight.room z < FiniteHeight.room x :=
      Enlarges.room_lt ⟨step x, Bool.eq_false_iff.2 hle, hz⟩
    rw [ascend_of_some hle hz, List.length_cons]
    omega

variable {shape : α → σ}

/-- The limit is a solution. -/
lemma Lawful.isSolution_limit (h : Lawful shape) {x r : α} (hr : (ascend step x).limit = some r) :
    IsSolution x step r := by
  induction x using ascend_induction step with
  | stop x hle =>
    rw [ascend_of_le hle] at hr
    cases hr
    exact ⟨h.le_refl _, hle⟩
  | stuck x hle hz =>
    rw [ascend_of_none hle hz] at hr
    cases hr
  | round x z hle hz ih =>
    rw [ascend_of_some hle hz] at hr
    obtain ⟨hzr, hstep⟩ := ih hr
    exact ⟨h.le_trans (h.isJoin hz).left hzr, hstep⟩

/-- The ascent fails if and only if a step changes the shape. -/
lemma Lawful.limit_eq_none_iff (h : Lawful shape) (x : α) : (ascend step x).limit = none ↔
    ∃ y ∈ (ascend step x).visited, shape (step y) ≠ shape y := by
  induction x using ascend_induction step with
  | stop x hle => simp [ascend_of_le hle, h.shape_eq hle]
  | stuck x hle hz =>
    have hshape : shape (step x) ≠ shape x := by
      intro heq
      obtain ⟨z, hz'⟩ := h.exists_join heq.symm
      rw [hz] at hz'
      cases hz'
    simp [ascend_of_none hle hz, hshape]
  | round x z hle hz ih =>
    -- the answer at `x` could be joined, so it has the shape of `x`
    have hshape : shape (step x) = shape x :=
      (h.shape_eq (h.isJoin hz).right).trans (h.shape_eq (h.isJoin hz).left).symm
    simp [ascend_of_some hle hz, ih, hshape]

/-- An ascent along a monotone step stays below every solution. -/
lemma Lawful.exists_limit_le (h : Lawful shape) (hstep : IsMonotone step) {x y : α}
    (hy : IsSolution x step y) : ∃ r, (ascend step x).limit = some r ∧ le r y = true := by
  induction x using ascend_induction step with
  | stop x hle => exact ⟨x, by rw [ascend_of_le hle], hy.start_le⟩
  | stuck x hle hz =>
    have hbound : ∃ c, le x c = true ∧ le (step x) c = true :=
      ⟨y, hy.start_le, h.le_trans (hstep hy.start_le) hy.step_le⟩
    exact absurd hbound ((h.join_eq_none_iff x (step x)).1 hz)
  | round x z hle hz ih =>
    have hzy : le z y = true :=
      (h.isJoin hz).least y hy.start_le (h.le_trans (hstep hy.start_le) hy.step_le)
    rw [ascend_of_some hle hz]
    exact ih ⟨hzy, hy.step_le⟩

/-- Ascents in a lawful domain, where the room above an element is bounded by its shape. -/
lemma Lawful.ascends (h : Lawful shape) {height : σ → Nat}
    (hheight : ∀ x : α, FiniteHeight.room x ≤ height (shape x)) : Ascends shape height where
  wellFounded := Subrelation.wf Enlarges.room_lt (measure FiniteHeight.room).wf
  length_visited_le _ start :=
    (length_visited_le_room start).trans (Nat.succ_le_succ (hheight start))
  isSolution hr := h.isSolution_limit hr
  lfp_eq_none_iff _ start := h.limit_eq_none_iff start
  least hstep _ _ hy := h.exists_limit_le hstep hy

end Ascent

end Domain

/-! ## The heights of the domains -/

/-- Two steps lead from no access to writing. -/
lemma Access.room_le (a : Access) : FiniteHeight.room a ≤ 2 :=
  Nat.sub_le 2 a.rank

/-- One step leads from false to true. -/
lemma Domain.room_bool_le (b : Bool) : FiniteHeight.room b ≤ 1 := by
  cases b <;> decide

/-- Each slot can be raised twice. -/
lemma AccessVector.room_le (v : AccessVector) : FiniteHeight.room v ≤ 2 * v.length := by
  obtain ⟨slots⟩ := v
  change roomOf slots ≤ 2 * slots.length
  induction slots with
  | nil => exact le_rfl
  | cons a slots ih =>
    have ha := Access.room_le a
    change FiniteHeight.room a + roomOf slots ≤ 2 * (slots.length + 1)
    omega

/-- Each slot can be inserted once. -/
lemma SlotSet.room_le (s : SlotSet) : FiniteHeight.room s ≤ s.capacity := by
  have hcount := List.countP_le_length (p := fun i => !s.contains i) (l := List.range s.capacity)
  rwa [List.length_range] at hcount

/-- Each slot and the heap can be added once. -/
lemma PointsTo.room_le (p : PointsTo) :
    FiniteHeight.room p ≤ p.frame.args + p.frame.locals + 1 := by
  have hargs := p.args.room_le
  have hlocals := p.locals.room_le
  have hheap := Domain.room_bool_le p.heap
  change FiniteHeight.room p.args + FiniteHeight.room p.locals + FiniteHeight.room p.heap ≤
    p.args.capacity + p.locals.capacity + 1
  omega

/-- Each slot and the heap can be raised twice, and an exception added once. -/
lemma Effects.room_le (e : Effects) :
    FiniteHeight.room e ≤ 2 * (e.frame.args + e.frame.locals) + 3 := by
  have hargs := e.args.room_le
  have hlocals := e.locals.room_le
  have hheap := Access.room_le e.heap
  have hthrows := Domain.room_bool_le e.throws
  change FiniteHeight.room e.args + FiniteHeight.room e.locals + FiniteHeight.room e.heap +
    FiniteHeight.room e.throws ≤ 2 * (e.args.length + e.locals.length) + 3
  omega

/-- In each of the domains of the analyses, every ascent ends, after a number of rounds that is
linear in the number of slots. It ends at a solution, the least one if the step is monotone, or
where the step left the shape. -/
theorem ascends_domains :
    Domain.Ascends SlotSet.capacity (fun n => n) ∧
      Domain.Ascends AccessVector.length (fun n => 2 * n) ∧
      Domain.Ascends PointsTo.frame (fun f => f.args + f.locals + 1) ∧
      Domain.Ascends Effects.frame (fun f => 2 * (f.args + f.locals) + 3) :=
  ⟨SlotSet.lawful.ascends SlotSet.room_le, AccessVector.lawful.ascends AccessVector.room_le,
    PointsTo.lawful.ascends PointsTo.room_le, Effects.lawful.ascends Effects.room_le⟩

end Inliner
