import Inliner.Proofs.EffectOrder
import Inliner.Proofs.SlotSets
import Mathlib.Logic.Equiv.Defs

/-!
# The laws of the abstract domains

The elements of a domain come in shapes. Within a shape they are ordered, any two of them have a
least upper bound, and the least and the greatest one are recognised; elements of different shapes
are unrelated. `Domain.Lawful` collects these laws.

The laws pass to pairs part by part (`Lawful.prod`) and along bijections that respect the operations
(`Lawful.of_iso`). Pointer targets and effects are tuples of simpler domains, so only truth values,
kinds of access, access vectors and slot sets are looked into here.
-/

namespace Inliner

namespace Domain

variable {α β σ τ : Type} [Domain α] [Domain β]

/-- `c` is the least of the elements above `a` and `b`. -/
structure IsJoin (a b c : α) : Prop where
  left : le a c = true
  right : le b c = true
  least : ∀ d, le a d = true → le b d = true → le c d = true

/-- Shape by shape, a partial order with joins, a bottom and a top. -/
structure Lawful (shape : α → σ) : Prop where
  le_refl : ∀ a : α, le a a = true
  le_trans : ∀ {a b c : α}, le a b = true → le b c = true → le a c = true
  le_antisymm : ∀ {a b : α}, le a b = true → le b a = true → a = b
  /-- Exactly the elements of one shape have a common upper bound. -/
  bounded_iff : ∀ a b : α, (∃ c, le a c = true ∧ le b c = true) ↔ shape a = shape b
  /-- There is no join exactly if there is no common upper bound. -/
  join_eq_none_iff : ∀ a b : α, join a b = none ↔ ¬ ∃ c, le a c = true ∧ le b c = true
  isJoin : ∀ {a b c : α}, join a b = some c → IsJoin a b c
  /-- A bottom is below every element of its shape. -/
  isBottom_iff : ∀ a : α, isBottom a = true ↔ ∀ b, shape b = shape a → le a b = true
  /-- A top is above every element of its shape. -/
  isTop_iff : ∀ a : α, isTop a = true ↔ ∀ b, shape b = shape a → le b a = true

namespace Lawful

variable {shape : α → σ} {shape' : β → τ}

/-- Elements that can be compared have the same shape. -/
lemma shape_eq (h : Lawful shape) {a b : α} (hab : le a b = true) : shape a = shape b :=
  (h.bounded_iff a b).1 ⟨b, hab, h.le_refl b⟩

/-- Elements of the same shape can be joined. -/
lemma exists_join (h : Lawful shape) {a b : α} (hshape : shape a = shape b) :
    ∃ c, join a b = some c := by
  refine Option.ne_none_iff_exists'.1 fun hnone => ?_
  exact (h.join_eq_none_iff a b).1 hnone ((h.bounded_iff a b).2 hshape)

/-- Upper bounds need not be looked at if only elements of one shape are related, and any two of
them have a join. -/
lemma of_join (le_refl : ∀ a : α, le a a = true)
    (le_trans : ∀ {a b c : α}, le a b = true → le b c = true → le a c = true)
    (le_antisymm : ∀ {a b : α}, le a b = true → le b a = true → a = b)
    (shape_eq : ∀ {a b : α}, le a b = true → shape a = shape b)
    (exists_join : ∀ {a b : α}, shape a = shape b → ∃ c, join a b = some c)
    (isJoin : ∀ {a b c : α}, join a b = some c → IsJoin a b c)
    (isBottom_iff : ∀ a : α, isBottom a = true ↔ ∀ b, shape b = shape a → le a b = true)
    (isTop_iff : ∀ a : α, isTop a = true ↔ ∀ b, shape b = shape a → le b a = true) :
    Lawful shape := by
  have hbounded : ∀ a b : α, (∃ c, le a c = true ∧ le b c = true) ↔ shape a = shape b := by
    intro a b
    constructor
    · rintro ⟨c, hac, hbc⟩
      exact (shape_eq hac).trans (shape_eq hbc).symm
    · intro hab
      obtain ⟨c, hc⟩ := exists_join hab
      exact ⟨c, (isJoin hc).left, (isJoin hc).right⟩
  refine ⟨le_refl, le_trans, le_antisymm, hbounded, fun a b => ?_, isJoin, isBottom_iff, isTop_iff⟩
  constructor
  · intro hnone hbound
    obtain ⟨c, hc⟩ := exists_join ((hbounded a b).1 hbound)
    rw [hnone] at hc
    cases hc
  · intro hbound
    refine Option.eq_none_iff_forall_ne_some.2 fun c hc => hbound ?_
    exact ⟨c, (isJoin hc).left, (isJoin hc).right⟩

end Lawful

/-! ## Pairs and bijections -/

/-- Pairs are ordered and joined part by part. -/
instance : Domain (α × β) where
  le p q := le p.1 q.1 && le p.2 q.2
  join p q := (join p.1 q.1).bind fun a => (join p.2 q.2).map fun b => (a, b)
  isBottom p := isBottom p.1 && isBottom p.2
  isTop p := isTop p.1 && isTop p.2
  commutes p q := commutes p.1 q.1 && commutes p.2 q.2

/-- Pairs are compared component by component. -/
lemma le_prod_iff {p q : α × β} : le p q = true ↔ le p.1 q.1 = true ∧ le p.2 q.2 = true :=
  Bool.and_eq_true_iff

/-- Pairs are joined component by component. -/
lemma join_prod_iff {p q r : α × β} :
    join p q = some r ↔ join p.1 q.1 = some r.1 ∧ join p.2 q.2 = some r.2 := by
  obtain ⟨a, b⟩ := r
  change ((join p.1 q.1).bind fun a => (join p.2 q.2).map fun b => (a, b)) = some (a, b) ↔ _
  cases join p.1 q.1 <;> cases join p.2 q.2 <;> simp

/-- Two domains are the same but for the names of their elements and shapes. -/
structure Iso (e : α ≃ β) (shape : α → σ) (shape' : β → τ) : Prop where
  le_eq : ∀ a b, le (e a) (e b) = le a b
  join_iff : ∀ a b c, join (e a) (e b) = some (e c) ↔ join a b = some c
  isBottom_eq : ∀ a, isBottom (e a) = isBottom a
  isTop_eq : ∀ a, isTop (e a) = isTop a
  shape_iff : ∀ a b, shape' (e a) = shape' (e b) ↔ shape a = shape b

namespace Lawful

variable {shape : α → σ} {shape' : β → τ}

omit [Domain α] [Domain β] in
/-- What holds of both parts of all pairs of a shape holds of each part alone: one part can be
varied while the other one stays. -/
lemma forall_prod_iff {P : α → Prop} {Q : β → Prop} {a : α} {b : β} :
    (∀ p : α × β, (shape p.1, shape' p.2) = (shape a, shape' b) → P p.1 ∧ Q p.2) ↔
      (∀ c, shape c = shape a → P c) ∧ ∀ d, shape' d = shape' b → Q d := by
  constructor
  · intro h
    exact ⟨fun c hc => (h (c, b) (Prod.ext hc rfl)).1, fun d hd => (h (a, d) (Prod.ext rfl hd)).2⟩
  · rintro ⟨hP, hQ⟩ p hp
    rw [Prod.mk.injEq] at hp
    exact ⟨hP p.1 hp.1, hQ p.2 hp.2⟩

/-- Pairs form a lawful domain. -/
lemma prod (hα : Lawful shape) (hβ : Lawful shape') :
    Lawful fun p : α × β => (shape p.1, shape' p.2) := by
  apply of_join
  case le_refl =>
    intro p
    exact le_prod_iff.2 ⟨hα.le_refl _, hβ.le_refl _⟩
  case le_trans =>
    intro p q r hpq hqr
    rw [le_prod_iff] at hpq hqr ⊢
    exact ⟨hα.le_trans hpq.1 hqr.1, hβ.le_trans hpq.2 hqr.2⟩
  case le_antisymm =>
    intro p q hpq hqp
    rw [le_prod_iff] at hpq hqp
    exact Prod.ext (hα.le_antisymm hpq.1 hqp.1) (hβ.le_antisymm hpq.2 hqp.2)
  case shape_eq =>
    intro p q hpq
    rw [le_prod_iff] at hpq
    exact Prod.ext (hα.shape_eq hpq.1) (hβ.shape_eq hpq.2)
  case exists_join =>
    intro p q hshape
    obtain ⟨a, ha⟩ := hα.exists_join (Prod.ext_iff.1 hshape).1
    obtain ⟨b, hb⟩ := hβ.exists_join (Prod.ext_iff.1 hshape).2
    exact ⟨(a, b), join_prod_iff.2 ⟨ha, hb⟩⟩
  case isJoin =>
    intro p q r hr
    have hfst := hα.isJoin (join_prod_iff.1 hr).1
    have hsnd := hβ.isJoin (join_prod_iff.1 hr).2
    refine ⟨le_prod_iff.2 ⟨hfst.left, hsnd.left⟩, le_prod_iff.2 ⟨hfst.right, hsnd.right⟩, ?_⟩
    intro d hpd hqd
    rw [le_prod_iff] at hpd hqd ⊢
    exact ⟨hfst.least _ hpd.1 hqd.1, hsnd.least _ hpd.2 hqd.2⟩
  case isBottom_iff =>
    rintro ⟨a, b⟩
    simp only [le_prod_iff]
    rw [forall_prod_iff (P := fun c => le a c = true) (Q := fun d => le b d = true),
      ← hα.isBottom_iff, ← hβ.isBottom_iff]
    exact Bool.and_eq_true_iff
  case isTop_iff =>
    rintro ⟨a, b⟩
    simp only [le_prod_iff]
    rw [forall_prod_iff (P := fun c => le c a = true) (Q := fun d => le d b = true),
      ← hα.isTop_iff, ← hβ.isTop_iff]
    exact Bool.and_eq_true_iff

/-- A domain that is like a lawful one is lawful. -/
lemma of_iso (hβ : Lawful shape') {e : α ≃ β} (he : Iso e shape shape') : Lawful shape := by
  apply of_join
  case le_refl =>
    intro a
    rw [← he.le_eq]
    exact hβ.le_refl _
  case le_trans =>
    intro a b c hab hbc
    rw [← he.le_eq] at hab hbc ⊢
    exact hβ.le_trans hab hbc
  case le_antisymm =>
    intro a b hab hba
    rw [← he.le_eq] at hab hba
    exact e.injective (hβ.le_antisymm hab hba)
  case shape_eq =>
    intro a b hab
    rw [← he.le_eq] at hab
    exact (he.shape_iff a b).1 (hβ.shape_eq hab)
  case exists_join =>
    intro a b hab
    obtain ⟨c, hc⟩ := hβ.exists_join ((he.shape_iff a b).2 hab)
    rw [← e.apply_symm_apply c] at hc
    exact ⟨e.symm c, (he.join_iff _ _ _).1 hc⟩
  case isJoin =>
    intro a b c hc
    obtain ⟨hleft, hright, hleast⟩ := hβ.isJoin ((he.join_iff a b c).2 hc)
    rw [he.le_eq] at hleft hright
    refine ⟨hleft, hright, fun d had hbd => ?_⟩
    rw [← he.le_eq] at had hbd ⊢
    exact hleast _ had hbd
  case isBottom_iff =>
    intro a
    rw [← he.isBottom_eq, hβ.isBottom_iff, e.surjective.forall]
    simp only [he.shape_iff, he.le_eq]
  case isTop_iff =>
    intro a
    rw [← he.isTop_eq, hβ.isTop_iff, e.surjective.forall]
    simp only [he.shape_iff, he.le_eq]

end Lawful

end Domain

/-! ## Truth values and kinds of access -/

/-- Truth values are of one shape. -/
lemma Domain.lawful_bool : Lawful fun _ : Bool => () := by
  apply Lawful.of_join
  case le_refl => decide
  case le_trans => decide
  case le_antisymm => decide
  case shape_eq => exact fun _ => rfl
  case exists_join => exact fun _ => ⟨_, rfl⟩
  case isJoin =>
    intro a b c hc
    cases hc
    exact ⟨by revert a b; decide, by revert a b; decide, by revert a b; decide⟩
  case isBottom_iff => decide
  case isTop_iff => decide

namespace Access

/-- The rank tells the accesses apart. -/
lemma eq_of_rank_eq {a b : Access} (h : a.rank = b.rank) : a = b := by
  cases a <;> cases b <;> simp_all [rank]

/-- Accesses are ordered by rank. -/
lemma le_iff {a b : Access} : Domain.le a b = true ↔ a.rank ≤ b.rank :=
  decide_eq_true_iff

/-- Writing is the most that can be done. -/
lemma le_write (a : Access) : Domain.le a .write = true := by
  cases a <;> rfl

/-- Kinds of access are of one shape. -/
lemma lawful : Domain.Lawful fun _ : Access => () := by
  apply Domain.Lawful.of_join
  case le_refl => exact fun a => le_iff.2 le_rfl
  case le_trans => exact fun hab hbc => le_iff.2 ((le_iff.1 hab).trans (le_iff.1 hbc))
  case le_antisymm => exact fun hab hba => eq_of_rank_eq ((le_iff.1 hab).antisymm (le_iff.1 hba))
  case shape_eq => exact fun _ => rfl
  case exists_join => exact fun _ => ⟨_, rfl⟩
  case isJoin =>
    intro a b c hc
    cases hc
    refine ⟨le_iff.2 ?_, le_iff.2 ?_, fun d had hbd => le_iff.2 ?_⟩
    · rw [rank_sup]
      exact le_max_left _ _
    · rw [rank_sup]
      exact le_max_right _ _
    · rw [rank_sup]
      exact max_le (le_iff.1 had) (le_iff.1 hbd)
  case isBottom_iff =>
    intro a
    change (a == untouched) = true ↔ _
    rw [beq_iff_eq]
    constructor
    · rintro rfl b -
      exact le_iff.2 (Nat.zero_le _)
    · intro h
      exact eq_of_rank_eq (Nat.le_zero.1 (le_iff.1 (h .untouched rfl)))
  case isTop_iff =>
    intro a
    change (a == write) = true ↔ _
    rw [beq_iff_eq]
    constructor
    · rintro rfl b -
      exact le_write b
    · intro h
      exact eq_of_rank_eq ((le_iff.1 (le_write a)).antisymm (le_iff.1 (h .write rfl)))

end Access

/-! ## Access vectors -/

namespace AccessVector

variable {v w u : AccessVector}

/-- A slot of the vector has its entry. -/
lemma get_eq_getElem {i : Nat} (h : i < v.slots.length) : v.get i = v.slots[i] := by
  rw [get, List.getD_eq_getElem?_getD, List.getElem?_eq_getElem h, Option.getD_some]

/-- Outside of the vector nothing is touched. -/
lemma get_of_length_le {i : Nat} (h : v.length ≤ i) : v.get i = .untouched := by
  rw [get, List.getD_eq_getElem?_getD, List.getElem?_eq_none h, Option.getD_none]

/-- Every slot of the greatest row is written. -/
lemma get_top {n i : Nat} (h : i < n) : (top n).get i = .write := by
  have hi : i < (top n).slots.length := by simpa [top] using h
  rw [get_eq_getElem hi]
  exact List.getElem_replicate _

/-- Rows of one length that touch every slot in the same way are equal. -/
lemma eq_of_get (hlen : v.length = w.length) (h : ∀ i, v.get i = w.get i) : v = w := by
  refine AccessVector.ext (List.ext_getElem hlen fun i hv hw => ?_)
  rw [← get_eq_getElem hv, ← get_eq_getElem hw]
  exact h i

/-- What every slot of a row satisfies can be read off slot by slot. -/
lemma all_slots_iff {p : Access → Bool} :
    v.slots.all p = true ↔ ∀ i < v.length, p (v.get i) = true := by
  rw [List.all_eq_true, List.forall_mem_iff_forall_getElem]
  constructor
  · intro h i hi
    rw [get_eq_getElem hi]
    exact h i hi
  · intro h i hi
    rw [← get_eq_getElem hi]
    exact h i hi

/-- Rows are compared slot by slot; past the end of both there is nothing to compare. -/
lemma le_iff : Domain.le v w = true ↔
    v.length = w.length ∧ ∀ i, Domain.le (v.get i) (w.get i) = true := by
  change (v.length == w.length && (List.zipWith Domain.le v.slots w.slots).all id) = true ↔ _
  rw [Bool.and_eq_true, beq_iff_eq]
  refine and_congr_right fun hlen => ?_
  rw [List.all_eq_true, List.forall_mem_iff_forall_getElem]
  constructor
  · intro h i
    by_cases hi : i < v.length
    · have hv : i < v.slots.length := hi
      have hw : i < w.slots.length := by
        change i < w.length
        omega
      have := h i (by simp [hv, hw])
      rw [get_eq_getElem hv, get_eq_getElem hw]
      simpa using this
    · rw [get_of_length_le (by omega), get_of_length_le (by omega)]
      rfl
  · intro h i hi
    simp only [List.length_zipWith, Nat.lt_min] at hi
    have := h i
    rw [get_eq_getElem hi.1, get_eq_getElem hi.2] at this
    simpa using this

/-- A join is as long as the rows that are joined. -/
lemma length_of_join (h : Domain.join v w = some u) :
    v.length = u.length ∧ w.length = u.length := by
  by_cases hlen : v.length = w.length
  · simp only [Domain.join, hlen, if_true, Option.some.injEq] at h
    subst h
    unfold length at hlen ⊢
    simp [hlen]
  · simp [Domain.join, hlen] at h

/-- Vectors of one length are of one shape. -/
lemma lawful : Domain.Lawful length := by
  apply Domain.Lawful.of_join
  case le_refl => exact fun v => le_iff.2 ⟨rfl, fun _ => Access.lawful.le_refl _⟩
  case le_trans =>
    intro v w u hvw hwu
    rw [le_iff] at hvw hwu ⊢
    exact ⟨hvw.1.trans hwu.1, fun i => Access.lawful.le_trans (hvw.2 i) (hwu.2 i)⟩
  case le_antisymm =>
    intro v w hvw hwv
    rw [le_iff] at hvw hwv
    exact eq_of_get hvw.1 fun i => Access.lawful.le_antisymm (hvw.2 i) (hwv.2 i)
  case shape_eq => exact fun hvw => (le_iff.1 hvw).1
  case exists_join => exact exists_join
  case isJoin =>
    intro v w u hu
    obtain ⟨hlen, hlen'⟩ := length_of_join hu
    have hslot : ∀ i, Domain.IsJoin (v.get i) (w.get i) (u.get i) := by
      intro i
      rw [get_join hu]
      exact Access.lawful.isJoin rfl
    refine ⟨le_iff.2 ⟨hlen, fun i => (hslot i).left⟩,
      le_iff.2 ⟨hlen', fun i => (hslot i).right⟩, ?_⟩
    intro d hvd hwd
    rw [le_iff] at hvd hwd ⊢
    exact ⟨hlen.symm.trans hvd.1, fun i => (hslot i).least _ (hvd.2 i) (hwd.2 i)⟩
  case isBottom_iff =>
    intro v
    change v.slots.all Domain.isBottom = true ↔ _
    rw [all_slots_iff]
    constructor
    · intro h w hw
      refine le_iff.2 ⟨hw.symm, fun i => ?_⟩
      by_cases hi : i < v.length
      · exact (Access.lawful.isBottom_iff _).1 (h i hi) _ rfl
      · rw [get_of_length_le (by omega)]
        exact Access.le_iff.2 (Nat.zero_le _)
    · intro h i _
      have hle := (le_iff.1 (h (bottom v.length) (length_bottom _))).2 i
      rw [get_bottom] at hle
      exact (Access.lawful.isBottom_iff _).2 fun b _ =>
        Access.lawful.le_trans hle (Access.le_iff.2 (Nat.zero_le _))
  case isTop_iff =>
    intro v
    change v.slots.all Domain.isTop = true ↔ _
    rw [all_slots_iff]
    constructor
    · intro h w hw
      refine le_iff.2 ⟨hw, fun i => ?_⟩
      by_cases hi : i < v.length
      · exact (Access.lawful.isTop_iff _).1 (h i hi) _ rfl
      · rw [get_of_length_le (v := w) (by omega)]
        exact Access.le_iff.2 (Nat.zero_le _)
    · intro h i hi
      have hle := (le_iff.1 (h (top v.length) (length_top _))).2 i
      rw [get_top hi] at hle
      exact (Access.lawful.isTop_iff _).2 fun b _ =>
        Access.lawful.le_trans (Access.le_write b) hle

end AccessVector

/-! ## Slot sets -/

namespace SlotSet

variable {s t u : SlotSet}

/-- Sets of the same capacity are ordered by inclusion. -/
lemma le_iff : Domain.le s t = true ↔
    s.capacity = t.capacity ∧ ∀ i, s.contains i = true → t.contains i = true := by
  change (s.capacity == t.capacity && s.isSubset t) = true ↔ _
  rw [Bool.and_eq_true, beq_iff_eq, isSubset_iff]

/-- Sets of one capacity are of one shape. -/
lemma lawful : Domain.Lawful capacity := by
  apply Domain.Lawful.of_join
  case le_refl => exact fun s => le_iff.2 ⟨rfl, fun _ => id⟩
  case le_trans =>
    intro s t u hst htu
    rw [le_iff] at hst htu ⊢
    exact ⟨hst.1.trans htu.1, fun i hi => htu.2 i (hst.2 i hi)⟩
  case le_antisymm =>
    intro s t hst hts
    rw [le_iff] at hst hts
    exact eq_of_contains hst.1 fun i => Bool.eq_iff_iff.2 ⟨hst.2 i, hts.2 i⟩
  case shape_eq => exact fun hst => (le_iff.1 hst).1
  case exists_join => exact exists_join
  case isJoin =>
    intro s t u hu
    have hcap := capacity_eq_of_join hu
    have hcontains : ∀ i, u.contains i = true ↔ s.contains i = true ∨ t.contains i = true := by
      intro i
      rw [contains_join hu, Bool.or_eq_true]
    have hunion : u.capacity = s.capacity := by
      rw [eq_union_of_join hcap hu]
      rfl
    refine ⟨le_iff.2 ⟨hunion.symm, fun i hi => (hcontains i).2 (.inl hi)⟩,
      le_iff.2 ⟨hcap.symm.trans hunion.symm, fun i hi => (hcontains i).2 (.inr hi)⟩, ?_⟩
    intro d hsd htd
    rw [le_iff] at hsd htd ⊢
    exact ⟨hunion.trans hsd.1, fun i hi => ((hcontains i).1 hi).elim (hsd.2 i) (htd.2 i)⟩
  case isBottom_iff =>
    intro s
    change s.isEmpty = true ↔ _
    rw [isEmpty_iff]
    constructor
    · intro h t ht
      refine le_iff.2 ⟨ht.symm, fun i hi => ?_⟩
      rw [h i] at hi
      cases hi
    · intro h i
      have hle := (le_iff.1 (h (empty s.capacity) rfl)).2 i
      rw [contains_empty] at hle
      exact Bool.eq_false_iff.2 fun hi => Bool.false_ne_true (hle hi)
  case isTop_iff =>
    intro s
    change s.isFull = true ↔ _
    rw [isFull_iff]
    constructor
    · intro h t ht
      exact le_iff.2 ⟨ht, fun i hi => h i (ht ▸ lt_capacity_of_contains hi)⟩
    · intro h i hi
      have hle := (le_iff.1 (h (full s.capacity) rfl)).2 i
      rw [contains_full, decide_eq_true hi] at hle
      exact hle rfl

end SlotSet

/-! ## Pointer targets and effects -/

namespace PointsTo

/-- Pointer targets as a tuple. -/
def parts : PointsTo ≃ SlotSet × SlotSet × Bool where
  toFun p := (p.args, p.locals, p.heap)
  invFun q := ⟨q.1, q.2.1, q.2.2⟩

/-- Targets are like triples of their parts. -/
lemma iso_parts : Domain.Iso parts frame
    (fun q => (q.1.capacity, q.2.1.capacity, ())) where
  le_eq p q := (Bool.and_assoc _ _ _).symm
  join_iff p q r := by
    rw [join_eq_some, Domain.join_prod_iff, Domain.join_prod_iff]
    rfl
  isBottom_eq p := (Bool.and_assoc _ _ _).symm
  isTop_eq p := (Bool.and_assoc _ _ _).symm
  shape_iff p q := by simp [parts, frame]

/-- Pointer targets in one frame are of one shape. -/
lemma lawful : Domain.Lawful frame :=
  (SlotSet.lawful.prod (SlotSet.lawful.prod Domain.lawful_bool)).of_iso iso_parts

end PointsTo

namespace Effects

/-- Effects as a tuple. -/
def parts : Effects ≃ AccessVector × AccessVector × Access × Bool where
  toFun e := (e.args, e.locals, e.heap, e.throws)
  invFun q := ⟨q.1, q.2.1, q.2.2.1, q.2.2.2⟩

/-- Effects are like quadruples of their parts. -/
lemma iso_parts : Domain.Iso parts frame
    (fun q => (q.1.length, q.2.1.length, (), ())) where
  le_eq d e := by
    change (_ && (_ && (_ && _))) = (((_ && _) && _) && _)
    rw [Bool.and_assoc, Bool.and_assoc]
    rfl
  join_iff d e r := by
    rw [join_eq_some, Domain.join_prod_iff, Domain.join_prod_iff, Domain.join_prod_iff]
    rfl
  isBottom_eq e := by
    change (_ && (_ && (_ && _))) = (((_ && _) && _) && _)
    rw [Bool.and_assoc, Bool.and_assoc]
    rfl
  isTop_eq e := by
    change (_ && (_ && (_ && _))) = (((_ && _) && _) && _)
    rw [Bool.and_assoc, Bool.and_assoc]
    rfl
  shape_iff d e := by simp [parts, frame]

/-- Effects in one frame are of one shape. -/
lemma lawful : Domain.Lawful frame :=
  (AccessVector.lawful.prod (AccessVector.lawful.prod
    (Access.lawful.prod Domain.lawful_bool))).of_iso iso_parts

end Effects

/-- All the domains of the analyses obey the laws. The slot sets are those that can be built by
insertions. -/
theorem lawful_domains :
    (∀ s : SlotSet, (SlotSet.empty s.capacity).insertAll? s.toList = some s) ∧
      Domain.Lawful SlotSet.capacity ∧ Domain.Lawful AccessVector.length ∧
      Domain.Lawful PointsTo.frame ∧ Domain.Lawful Effects.frame :=
  ⟨SlotSet.insertAll?_toList, SlotSet.lawful, AccessVector.lawful, PointsTo.lawful, Effects.lawful⟩

end Inliner
