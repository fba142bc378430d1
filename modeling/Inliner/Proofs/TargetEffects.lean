import Inliner.Proofs.Dereference

/-!
# Pointer targets as effects

An access through a pointer touches what the pointer may point at. So the targets of pointers and
the effects of accesses through them say the same about the places of a frame, the former by sets of
slots and the latter by rows of kinds of access. This file compares the two domains place by place
and concludes that pointer targets are embedded into effects: nothing is lost and nothing is added
by the order, by joins, by padding, and by the test for independence if the accesses are writes.
-/

namespace Inliner

/-! ## The domains place by place -/

namespace Domain

variable {a b : Bool}

/-- The order of truth values is implication. -/
lemma le_bool_iff : le a b = true ↔ (a = true → b = true) := by
  cases a <;> cases b <;> decide

/-- Truth values commute unless both are true. -/
lemma commutes_bool_iff : commutes a b = true ↔ (a = true → b = false) := by
  cases a <;> cases b <;> decide

end Domain

namespace PointsTo

variable {p q r : PointsTo}

/-- Targets are compared place by place in one frame. -/
lemma le_iff : Domain.le p q = true ↔
    p.frame = q.frame ∧ (∀ x, p.contains x = true → q.contains x = true) ∧
      (p.heap = true → q.heap = true) := by
  change (Domain.le p.args q.args && Domain.le p.locals q.locals && Domain.le p.heap q.heap) =
    true ↔ _
  rw [Bool.and_eq_true, Bool.and_eq_true, SlotSet.le_iff, SlotSet.le_iff, Domain.le_bool_iff]
  constructor
  · rintro ⟨⟨⟨hargs, hargs'⟩, hlocals, hlocals'⟩, hheap⟩
    refine ⟨Frame.ext hargs hlocals, fun x => ?_, hheap⟩
    cases x with
    | argument i => exact hargs' i
    | localVar i => exact hlocals' i
  · rintro ⟨hframe, hslots, hheap⟩
    exact ⟨⟨⟨congrArg Frame.args hframe, fun i => hslots (.argument i)⟩,
      congrArg Frame.locals hframe, fun i => hslots (.localVar i)⟩, hheap⟩

/-- Pointers are independent if no place is a target of both. -/
lemma commutes_iff : Domain.commutes p q = true ↔
    (∀ x, p.contains x = true → q.contains x = false) ∧ (p.heap = true → q.heap = false) := by
  change (p.args.isDisjoint q.args && p.locals.isDisjoint q.locals &&
    Domain.commutes p.heap q.heap) = true ↔ _
  rw [Bool.and_eq_true, Bool.and_eq_true, SlotSet.isDisjoint_iff, SlotSet.isDisjoint_iff,
    Domain.commutes_bool_iff]
  refine and_congr_left fun _ => ?_
  constructor
  · rintro ⟨hargs, hlocals⟩ x
    cases x with
    | argument i => exact hargs i
    | localVar i => exact hlocals i
  · intro h
    exact ⟨fun i => h (.argument i), fun i => h (.localVar i)⟩

/-- The frame grows. -/
lemma frame_extend (p : PointsTo) (f : Frame) : (p.extend f).frame = p.frame.sup f :=
  Frame.ext (SlotSet.capacity_extend _ _) (SlotSet.capacity_extend _ _)

/-- No slot is added. -/
lemma contains_extend (p : PointsTo) (f : Frame) (x : Slot) :
    (p.extend f).contains x = p.contains x := by
  cases x <;> exact SlotSet.contains_extend _ _ _

/-- A join is made in the frame of both sides. -/
lemma frame_eq_of_join (h : Domain.join p q = some r) : p.frame = r.frame ∧ q.frame = r.frame :=
  ⟨lawful.shape_eq (lawful.isJoin h).left, lawful.shape_eq (lawful.isJoin h).right⟩

/-- The heap is a target of a join if it is one of a part. -/
lemma heap_join (h : Domain.join p q = some r) : r.heap = (p.heap || q.heap) :=
  (Option.some.inj (join_eq_some.1 h).2.2).symm

end PointsTo

/-- Effects are compared place by place in one frame. -/
lemma Effects.le_iff {d e : Effects} : Domain.le d e = true ↔ d.frame = e.frame ∧ Within d e := by
  refine ⟨fun h => ⟨lawful.shape_eq h, within_of_le h⟩, ?_⟩
  rintro ⟨hframe, hwithin⟩
  have hargs : Domain.le d.args e.args = true := AccessVector.le_iff.2
    ⟨congrArg Frame.args hframe, fun i => Access.le_iff.2 (hwithin.slot (.argument i))⟩
  have hlocals : Domain.le d.locals e.locals = true := AccessVector.le_iff.2
    ⟨congrArg Frame.locals hframe, fun i => Access.le_iff.2 (hwithin.slot (.localVar i))⟩
  change (_ && _ && _ && _) = true
  rw [hargs, hlocals, Access.le_iff.2 hwithin.heap, Domain.le_bool_iff.2 hwithin.throws]
  rfl

/-! ## Accesses to one place -/

namespace Access

variable {a : Access}

/-- The accesses to a place are as the places that are touched. -/
lemma rank_ite_le_iff (ha : a ≠ .untouched) (x y : Bool) :
    (if x then a else .untouched).rank ≤ (if y then a else .untouched).rank ↔
      (x = true → y = true) := by
  cases a <;> cases x <;> cases y <;> simp_all [rank]

/-- An access is joined where one of the two takes place. -/
lemma sup_ite (a : Access) (x y : Bool) :
    (if x then a else .untouched).sup (if y then a else .untouched) =
      if x || y then a else .untouched := by
  cases a <;> cases x <;> cases y <;> rfl

/-- Writes to a place are independent if it is written at most once. -/
lemma commutes_ite_write_iff (x y : Bool) :
    Domain.commutes (if x then Access.write else .untouched)
      (if y then Access.write else .untouched) = true ↔ (x = true → y = false) := by
  cases x <;> cases y <;> decide

end Access

/-! ## Accesses through pointers -/

namespace PointsTo

variable {p q : PointsTo} {a : Access}

/-- Effects of an access are ordered like the targets. -/
lemma le_accessed_iff (ha : a ≠ .untouched) :
    Domain.le (p.accessed a) (q.accessed a) = true ↔ Domain.le p q = true := by
  rw [Effects.le_iff, le_iff, frame_accessed, frame_accessed]
  refine and_congr_right fun _ => ?_
  constructor
  · rintro ⟨hslot, hheap, -⟩
    refine ⟨fun x => ?_, (Access.rank_ite_le_iff ha _ _).1 hheap⟩
    have hx := hslot x
    rwa [slotAccess_accessed, slotAccess_accessed, Access.rank_ite_le_iff ha] at hx
  · rintro ⟨hslot, hheap⟩
    refine ⟨fun x => ?_, (Access.rank_ite_le_iff ha _ _).2 hheap, id⟩
    rw [slotAccess_accessed, slotAccess_accessed, Access.rank_ite_le_iff ha]
    exact hslot x

/-- The targets of a join are accessed as the targets of both sides are, and there is a join of the
accesses only where there is one of the targets. -/
lemma join_accessed (p q : PointsTo) (a : Access) :
    Domain.join (p.accessed a) (q.accessed a) = (Domain.join p q).map fun r => r.accessed a := by
  cases hjoin : Domain.join p q with
  | none =>
    have hframe : p.frame ≠ q.frame := by
      rw [Ne, ← lawful.bounded_iff]
      exact (lawful.join_eq_none_iff p q).1 hjoin
    rw [Option.map_none, Effects.lawful.join_eq_none_iff, Effects.lawful.bounded_iff,
      frame_accessed, frame_accessed]
    exact hframe
  | some r =>
    obtain ⟨hp, hq⟩ := frame_eq_of_join hjoin
    have hframe : (p.accessed a).frame = (q.accessed a).frame := by
      rw [frame_accessed, frame_accessed, hp, hq]
    rw [Effects.join_eq_absorb hframe, Option.map_some]
    congr 1
    apply Effects.eq_of_slotAccess
    · rw [Effects.frame_absorb, ← hframe, Frame.sup_self, frame_accessed, frame_accessed, hp]
    · intro x
      rw [Effects.slotAccess_absorb, slotAccess_accessed, slotAccess_accessed, Access.sup_ite,
        slotAccess_accessed, contains_join hjoin]
    · exact (Access.sup_ite a _ _).trans (by rw [← heap_join hjoin]; rfl)
    · rfl

/-- The frame may be extended before or after the access. -/
lemma accessed_extend (p : PointsTo) (f : Frame) (a : Access) :
    (p.extend f).accessed a = (p.accessed a).extend f := by
  apply Effects.eq_of_slotAccess
  · rw [frame_accessed, frame_extend, Effects.frame_extend, frame_accessed]
  · intro x
    rw [Effects.slotAccess_extend, slotAccess_accessed, slotAccess_accessed, contains_extend]
  · rfl
  · rfl

/-- Writes commute if the targets are disjoint. -/
lemma commutes_writeEffects (p q : PointsTo) :
    Domain.commutes p.writeEffects q.writeEffects = Domain.commutes p q := by
  rw [Bool.eq_iff_iff, Effects.commutes_iff, commutes_iff]
  simp only [writeEffects, slotAccess_accessed, Access.commutes_ite_write_iff]
  constructor
  · rintro ⟨-, -, hslot, hheap⟩
    exact ⟨hslot, (Access.commutes_ite_write_iff _ _).1 hheap⟩
  · rintro ⟨hslot, hheap⟩
    exact ⟨fun h => (by cases h), fun h => (by cases h), hslot,
      (Access.commutes_ite_write_iff _ _).2 hheap⟩

/-- The function `access` takes pointer targets to the effects of an access of kind `a` to each of
them, and respects whatever is done with targets. -/
structure EmbeddedBy (access : PointsTo → Effects) (a : Access) : Prop where
  frame_eq : ∀ p, (access p).frame = p.frame
  /-- Exactly the targets are touched. -/
  slot_eq : ∀ p x, (access p).slotAccess x = if p.contains x then a else .untouched
  heap_eq : ∀ p, (access p).heap = if p.heap then a else .untouched
  throws_eq : ∀ p, (access p).throws = false
  le_iff : ∀ p q, Domain.le p q = true ↔ Domain.le (access p) (access q) = true
  join_eq : ∀ p q, Domain.join (access p) (access q) = (Domain.join p q).map access
  extend_eq : ∀ p f, access (p.extend f) = (access p).extend f

/-- Each access embeds the targets into the effects. -/
lemma embeddedBy_accessed (ha : a ≠ .untouched) : EmbeddedBy (fun p => p.accessed a) a where
  frame_eq p := frame_accessed p a
  slot_eq p x := slotAccess_accessed p a x
  heap_eq _ := rfl
  throws_eq _ := rfl
  le_iff _ _ := (le_accessed_iff ha).symm
  join_eq p q := join_accessed p q a
  extend_eq p f := accessed_extend p f a

/-- Pointer targets are embedded into effects, by reading through pointers and by writing through
them. The two kinds of effects are ordered, joined and padded as the targets are; they raise nothing
and touch exactly the targets, in the way that is asked for. Targets of one frame have a join.
Pointers that cannot alias are those whose writes can be swapped. -/
theorem embedded_into_effects :
    EmbeddedBy readEffects .read ∧ EmbeddedBy writeEffects .write ∧
      (∀ p q : PointsTo, (∃ r, Domain.join p q = some r) ↔ p.frame = q.frame) ∧
      ∀ p q : PointsTo,
        Domain.commutes p q = true ↔ Domain.commutes p.writeEffects q.writeEffects = true := by
  refine ⟨embeddedBy_accessed (by decide), embeddedBy_accessed (by decide), fun p q => ?_,
    fun p q => by rw [commutes_writeEffects]⟩
  constructor
  · rintro ⟨r, hr⟩
    exact (frame_eq_of_join hr).1.trans (frame_eq_of_join hr).2.symm
  · exact lawful.exists_join

end PointsTo

end Inliner
