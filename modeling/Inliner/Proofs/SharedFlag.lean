import Inliner.Proofs.DomainLaws

/-!
# Joins that share a flag

An accumulator takes in one element after the other, and one flag serves all these joins. Whoever
propagates facts until nothing changes stops when the flag stays lowered, so the flag must not miss
a change, and must not report one that did not take place.

`Domain.Accumulates` says that it does neither. A single join is exact: it is there exactly for
elements of the shape of the accumulator, it gives the least upper bound, and it raises the flag
exactly if this is a new value (`Accumulator.Tracks`). Many joins are exact as well. What they lead
to is the least element above the start and everything that was joined in, and such an element is
unique. So the order of the joins does not matter, neither for the value nor for the flag.
-/

namespace Inliner

/-- The flag of `acc'` is raised exactly if the one of `acc` is, or the value is another one. -/
def Accumulator.Tracks {α : Type} (acc acc' : Accumulator α) : Prop :=
  acc'.changed = true ↔ acc.changed = true ∨ acc'.value ≠ acc.value

namespace Domain

variable {α σ : Type} [Domain α]

/-- `z` is the least of the elements above `x` and all the listed ones. -/
structure IsJoinOf (x : α) (ys : List α) (z : α) : Prop where
  start : le x z = true
  items : ∀ y ∈ ys, le y z = true
  least : ∀ d, le x d = true → (∀ y ∈ ys, le y d = true) → le z d = true

/-- Joining elements into an accumulator is exact, and does not depend on their order. -/
structure Accumulates (shape : α → σ) : Prop where
  /-- Exactly the elements of its own shape can be joined into an accumulator. -/
  join?_isSome_iff : ∀ (acc : Accumulator α) (y : α),
    (acc.join? y).isSome = true ↔ shape acc.value = shape y
  /-- The value becomes the join, and the flag is raised if this is another value. -/
  join?_eq_some : ∀ {acc acc' : Accumulator α} {y : α}, acc.join? y = some acc' →
    join acc.value y = some acc'.value ∧ acc.Tracks acc'
  /-- An element of another shape leaves the value and the flag as they were. -/
  joinOrKeep_eq_self : ∀ {acc : Accumulator α} {y : α}, shape acc.value ≠ shape y →
    acc.joinOrKeep y = acc
  /-- Elements of the shape of the start can be joined in in any order. The value is then their
  least upper bound, and the flag is raised if this is not the start. -/
  foldlM_join? : ∀ {acc : Accumulator α} {ys : List α}, (∀ y ∈ ys, shape acc.value = shape y) →
    ∃ acc', (∀ ys', ys.Perm ys' → ys'.foldlM Accumulator.join? acc = some acc') ∧
      IsJoinOf acc.value ys acc'.value ∧ acc.Tracks acc'

/-! ## One join -/

section Join

variable {shape : α → σ} {acc acc' : Accumulator α} {y : α}

/-- Joining in what is below already changes nothing. -/
lemma Lawful.join_of_le (h : Lawful shape) {x : α} (hyx : le y x = true) : join x y = some x := by
  obtain ⟨z, hz⟩ := h.exists_join (h.shape_eq hyx).symm
  have hzx : le z x = true := (h.isJoin hz).least x (h.le_refl x) hyx
  rw [hz, h.le_antisymm hzx (h.isJoin hz).left]

/-- What has the shape of the value can be joined to it. -/
lemma Lawful.join?_isSome_iff (h : Lawful shape) (acc : Accumulator α) (y : α) :
    (acc.join? y).isSome = true ↔ shape acc.value = shape y := by
  unfold Accumulator.join?
  split
  · rename_i hle
    exact ⟨fun _ => (h.shape_eq hle).symm, fun _ => rfl⟩
  · rw [Option.isSome_map, Option.isSome_iff_ne_none, ne_eq, h.join_eq_none_iff, not_not,
      h.bounded_iff]

/-- The value becomes the join, and the flag tells whether it has changed. -/
lemma Lawful.join?_eq_some (h : Lawful shape) (hacc : acc.join? y = some acc') :
    join acc.value y = some acc'.value ∧ acc.Tracks acc' := by
  unfold Accumulator.join? at hacc
  split at hacc
  · rename_i hle
    cases hacc
    exact ⟨h.join_of_le hle, by simp [Accumulator.Tracks]⟩
  · rename_i hnot
    obtain ⟨z, hz, rfl⟩ := Option.map_eq_some_iff.1 hacc
    -- what was not below the value is below the join
    have hne : z ≠ acc.value := fun heq => hnot (heq ▸ (h.isJoin hz).right)
    exact ⟨hz, by simp [Accumulator.Tracks, hne]⟩

end Join

/-! ## Many joins -/

section Joins

variable {shape : α → σ} {x z : α} {ys : List α}

/-- The flag tracks the changes of two stages if it tracks those of each, and the value only
grows. -/
lemma Lawful.tracks_trans (h : Lawful shape) {acc acc₁ acc₂ : Accumulator α}
    (h₁ : acc.Tracks acc₁) (h₂ : acc₁.Tracks acc₂) (hle₁ : le acc.value acc₁.value = true)
    (hle₂ : le acc₁.value acc₂.value = true) : acc.Tracks acc₂ := by
  unfold Accumulator.Tracks at h₁ h₂ ⊢
  rw [h₂, h₁, or_assoc]
  refine or_congr_right ⟨?_, fun hne => ?_⟩
  · rintro (hne | hne) heq
    -- a value that has grown does not come back
    · exact hne (h.le_antisymm (heq ▸ hle₂) hle₁)
    · exact hne (h.le_antisymm (heq ▸ hle₁) hle₂)
  · by_cases heq : acc₁.value = acc.value
    · exact .inr (heq ▸ hne)
    · exact .inl heq

/-- A join of several elements is made one by one. -/
lemma Lawful.isJoinOf_cons (h : Lawful shape) {y x₁ : α} (hy : IsJoin x y x₁)
    (hys : IsJoinOf x₁ ys z) : IsJoinOf x (y :: ys) z where
  start := h.le_trans hy.left hys.start
  items := List.forall_mem_cons.2 ⟨h.le_trans hy.right hys.start, hys.items⟩
  least d hx hitems := by
    obtain ⟨hyd, hysd⟩ := List.forall_mem_cons.1 hitems
    exact hys.least d (hy.least d hx hyd) hysd

/-- The least element above the start and the listed elements depends neither on their order nor on
how it was found. -/
lemma Lawful.isJoinOf_unique (h : Lawful shape) {ys' : List α} {z' : α} (hperm : ys.Perm ys')
    (hz : IsJoinOf x ys z) (hz' : IsJoinOf x ys' z') : z = z' :=
  h.le_antisymm (hz.least z' hz'.start fun y hy => hz'.items y (hperm.mem_iff.1 hy))
    (hz'.least z hz.start fun y hy => hz.items y (hperm.mem_iff.2 hy))

/-- Elements of the shape of the start are joined in one after the other. -/
lemma Lawful.exists_foldlM_join? (h : Lawful shape) {acc : Accumulator α}
    (hys : ∀ y ∈ ys, shape acc.value = shape y) :
    ∃ acc', ys.foldlM Accumulator.join? acc = some acc' ∧ IsJoinOf acc.value ys acc'.value ∧
      acc.Tracks acc' := by
  induction ys generalizing acc with
  | nil =>
    refine ⟨acc, rfl, ⟨h.le_refl _, List.forall_mem_nil _, fun d hd _ => hd⟩, ?_⟩
    simp [Accumulator.Tracks]
  | cons y ys ih =>
    obtain ⟨hy, hys⟩ := List.forall_mem_cons.1 hys
    obtain ⟨acc₁, hacc₁⟩ := Option.isSome_iff_exists.1 ((h.join?_isSome_iff acc y).2 hy)
    obtain ⟨hjoin, htracks₁⟩ := h.join?_eq_some hacc₁
    have hle₁ := (h.isJoin hjoin).left
    obtain ⟨acc₂, hacc₂, hleast, htracks₂⟩ :=
      ih fun b hb => (h.shape_eq hle₁).symm.trans (hys b hb)
    refine ⟨acc₂, ?_, h.isJoinOf_cons (h.isJoin hjoin) hleast,
      h.tracks_trans htracks₁ htracks₂ hle₁ hleast.start⟩
    rw [List.foldlM_cons, hacc₁]
    exact hacc₂

end Joins

/-- In a lawful domain, joining with a flag is exact. -/
lemma Lawful.accumulates {shape : α → σ} (h : Lawful shape) : Accumulates shape where
  join?_isSome_iff := h.join?_isSome_iff
  join?_eq_some := h.join?_eq_some
  joinOrKeep_eq_self {acc y} hshape := by
    have hnone : acc.join? y = none := by
      rw [← Option.not_isSome_iff_eq_none, h.join?_isSome_iff]
      exact hshape
    rw [Accumulator.joinOrKeep, hnone, Option.getD_none]
  foldlM_join? {acc ys} hys := by
    obtain ⟨acc', hacc', hjoin, htracks⟩ := h.exists_foldlM_join? hys
    refine ⟨acc', fun ys' hperm => ?_, hjoin, htracks⟩
    obtain ⟨acc'', hacc'', hjoin', htracks'⟩ :=
      h.exists_foldlM_join? fun y hy => hys y (hperm.mem_iff.2 hy)
    -- both flags track the change from the start to one and the same value
    have hvalue := h.isJoinOf_unique hperm hjoin hjoin'
    have hchanged : acc'.changed = acc''.changed := by
      unfold Accumulator.Tracks at htracks htracks'
      rw [Bool.eq_iff_iff, htracks, htracks', hvalue]
    obtain rfl : acc' = acc'' := by
      cases acc'
      cases acc''
      cases hvalue
      cases hchanged
      rfl
    exact hacc''

end Domain

/-- In each of the domains of the analyses, a join with a flag succeeds exactly for elements of one
shape, then gives the join and raises the flag exactly if the value changed, and changes nothing
otherwise. Joining in many elements with one flag leads to the same value and flag in every order.
-/
theorem accumulates_domains :
    Domain.Accumulates SlotSet.capacity ∧ Domain.Accumulates AccessVector.length ∧
      Domain.Accumulates PointsTo.frame ∧ Domain.Accumulates Effects.frame :=
  ⟨SlotSet.lawful.accumulates, AccessVector.lawful.accumulates, PointsTo.lawful.accumulates,
    Effects.lawful.accumulates⟩

/-- Joining in what is there already leaves the flag lowered, and a write to the other slot raises
it. -/
example :
    let reads : AccessVector := ⟨[.read, .untouched]⟩
    let writes : AccessVector := ⟨[.untouched, .write]⟩
    [reads].foldlM Accumulator.join? ⟨reads, false⟩ = some ⟨reads, false⟩ ∧
      [reads, writes].foldlM Accumulator.join? ⟨reads, false⟩ =
        some ⟨⟨[.read, .write]⟩, true⟩ := by
  decide

end Inliner
