import Inliner.Proofs.DomainLaws

/-!
# Commuting with accumulated effects

Where many evaluations come before one that is to be moved, their effects are absorbed into one
element, and only this element is tested. `Effects.commutes_absorb` says that nothing is lost by
that: accumulated effects commute with others exactly if each of the accumulated ones does. Rows of
different lengths do no harm, because a slot past the end of a row is untouched and untouched slots
commute with everything.

Absorption is a join whatever the frames. It takes both sides to their common frame, where they have
a join (`Effects.join_extend`), and so the laws of joins hold of it.
-/

namespace Inliner

namespace Access

/-- Accesses are joined in any order. -/
lemma sup_comm (a b : Access) : a.sup b = b.sup a := by
  cases a <;> cases b <;> rfl

/-- Accesses are joined in any grouping. -/
lemma sup_assoc (a b c : Access) : (a.sup b).sup c = a.sup (b.sup c) := by
  cases a <;> cases b <;> cases c <;> rfl

/-- An access joined with itself is no more than that. -/
lemma sup_self (a : Access) : a.sup a = a := by
  cases a <;> rfl

/-- The stronger of two kinds of access writes if one of them does. -/
lemma sup_ne_write_iff {a b : Access} : a.sup b ≠ .write ↔ a ≠ .write ∧ b ≠ .write := by
  cases a <;> cases b <;> decide

/-- The stronger of two kinds of access commutes with what both commute with. -/
lemma commutes_sup_iff {a b c : Access} : Domain.commutes (a.sup b) c = true ↔
    Domain.commutes a c = true ∧ Domain.commutes b c = true := by
  cases a <;> cases b <;> cases c <;> decide

end Access

namespace Frame

/-- Frames are joined in any order. -/
lemma sup_comm (f g : Frame) : f.sup g = g.sup f := by
  unfold sup
  rw [Nat.max_comm, Nat.max_comm f.locals]

/-- A frame covers itself. -/
lemma sup_self (f : Frame) : f.sup f = f := by
  unfold sup
  rw [Nat.max_self, Nat.max_self]

/-- A frame that is covered adds nothing. -/
lemma sup_sup_left (f g : Frame) : f.sup (f.sup g) = f.sup g := by
  unfold sup
  ext <;> dsimp only <;> omega

end Frame

namespace Effects

variable {d e : Effects}

/-! ## Padding -/

/-- Extended effects have the larger frame. -/
lemma frame_extend (e : Effects) (f : Frame) : (e.extend f).frame = e.frame.sup f := by
  unfold extend frame Frame.sup
  rw [AccessVector.length_extend, AccessVector.length_extend]

/-- Effects of one frame that touch every place in the same way are equal. -/
lemma eq_of_slotAccess (hframe : d.frame = e.frame) (hslot : ∀ p, d.slotAccess p = e.slotAccess p)
    (hheap : d.heap = e.heap) (hthrows : d.throws = e.throws) : d = e := by
  have hargs : d.args = e.args :=
    AccessVector.eq_of_get (congrArg Frame.args hframe) fun i => hslot (.argument i)
  have hlocals : d.locals = e.locals :=
    AccessVector.eq_of_get (congrArg Frame.locals hframe) fun i => hslot (.localVar i)
  exact Effects.ext hargs hlocals hheap hthrows

/-! ## Absorption is a join -/

/-- In the common frame the two sides have a join, and this is what absorption yields. -/
lemma join_extend (d e : Effects) :
    Domain.join (d.extend (d.frame.sup e.frame)) (e.extend (d.frame.sup e.frame)) =
      some (d.absorb e) := by
  have hframe : (d.extend (d.frame.sup e.frame)).frame = (e.extend (d.frame.sup e.frame)).frame := by
    rw [frame_extend, frame_extend, Frame.sup_sup_left, Frame.sup_comm d.frame, Frame.sup_sup_left]
  obtain ⟨r, hr⟩ := lawful.exists_join hframe
  obtain ⟨hargs, hlocals, hheap, hthrows⟩ := join_eq_some.1 hr
  have habsorb : d.absorb e = r := by
    unfold absorb
    dsimp only
    rw [hargs, hlocals]
    exact Effects.ext rfl rfl (Option.some.inj hheap) (Option.some.inj hthrows)
  rw [hr, habsorb]

/-- Absorbed effects may enlarge the frame. -/
lemma frame_absorb (d e : Effects) : (d.absorb e).frame = d.frame.sup e.frame := by
  have hle := (lawful.isJoin (join_extend d e)).left
  rw [← lawful.shape_eq hle, frame_extend, Frame.sup_sup_left]

/-- Effects of one frame need no padding to be joined. -/
lemma join_eq_absorb (h : d.frame = e.frame) : Domain.join d e = some (d.absorb e) := by
  have hself : ∀ {x : Effects}, x.extend x.frame = x := by
    intro x
    exact eq_of_slotAccess (by rw [frame_extend, Frame.sup_self]) (slotAccess_extend x x.frame)
      rfl rfl
  have hjoin := join_extend d e
  rw [← h, Frame.sup_self, hself, h, hself] at hjoin
  exact hjoin

/-- Effects are absorbed in any order. -/
lemma absorb_comm (d e : Effects) : d.absorb e = e.absorb d := by
  apply eq_of_slotAccess
  · rw [frame_absorb, frame_absorb, Frame.sup_comm]
  · intro p
    rw [slotAccess_absorb, slotAccess_absorb, Access.sup_comm]
  · rw [heap_absorb, heap_absorb, Access.sup_comm]
  · rw [throws_absorb, throws_absorb, Bool.or_comm]

/-- Effects are absorbed in any grouping. -/
lemma absorb_assoc (a b c : Effects) : (a.absorb b).absorb c = a.absorb (b.absorb c) := by
  apply eq_of_slotAccess
  · simp only [frame_absorb, Frame.sup, Nat.max_assoc]
  · intro p
    simp only [slotAccess_absorb, Access.sup_assoc]
  · simp only [heap_absorb, Access.sup_assoc]
  · simp only [throws_absorb, Bool.or_assoc]

/-- Effects that were absorbed add nothing. -/
lemma absorb_self (e : Effects) : e.absorb e = e := by
  apply eq_of_slotAccess
  · rw [frame_absorb, Frame.sup_self]
  · intro p
    rw [slotAccess_absorb, Access.sup_self]
  · rw [heap_absorb, Access.sup_self]
  · rw [throws_absorb, Bool.or_self]

/-! ## The swap test on accumulated effects -/

/-- Smaller effects of the frame are smaller place by place. -/
lemma within_of_le (h : Domain.le d e = true) : Within d e := by
  have hparts : (((Domain.le d.args e.args = true ∧ Domain.le d.locals e.locals = true) ∧
      Domain.le d.heap e.heap = true) ∧ Domain.le d.throws e.throws = true) := by
    rw [← Bool.and_eq_true, ← Bool.and_eq_true, ← Bool.and_eq_true]
    exact h
  obtain ⟨⟨⟨hargs, hlocals⟩, hheap⟩, hthrows⟩ := hparts
  refine ⟨fun p => ?_, Access.le_iff.1 hheap, fun ht => ?_⟩
  · cases p with
    | argument i => exact Access.le_iff.1 ((AccessVector.le_iff.1 hargs).2 i)
    | localVar i => exact Access.le_iff.1 ((AccessVector.le_iff.1 hlocals).2 i)
  · rw [ht] at hthrows
    exact hthrows

/-- Only readers together do no more than read. -/
lemma isReadOnly_absorb_iff :
    (d.absorb e).isReadOnly = true ↔ d.isReadOnly = true ∧ e.isReadOnly = true := by
  simp only [isReadOnly_iff, slotAccess_absorb, heap_absorb, Access.sup_ne_write_iff]
  constructor
  · rintro ⟨hslot, hheap⟩
    exact ⟨⟨fun p => (hslot p).1, hheap.1⟩, fun p => (hslot p).2, hheap.2⟩
  · rintro ⟨⟨hd, hdheap⟩, he, heheap⟩
    exact ⟨fun p => ⟨hd p, he p⟩, hdheap, heheap⟩

/-- Absorbed effects commute with others exactly if both of them do. -/
lemma commutes_absorb (a b c : Effects) :
    Domain.commutes (a.absorb b) c = (Domain.commutes a c && Domain.commutes b c) := by
  rw [Bool.eq_iff_iff, Bool.and_eq_true]
  constructor
  · intro h
    obtain ⟨ha, hb⟩ := Within.absorb_iff.1 (.refl (a.absorb b))
    exact ⟨ha.commutes h, hb.commutes h⟩
  · rintro ⟨ha, hb⟩
    obtain ⟨haout, hain, haslot, haheap⟩ := (commutes_iff a c).1 ha
    obtain ⟨hbout, hbin, hbslot, hbheap⟩ := (commutes_iff b c).1 hb
    refine (commutes_iff _ c).2 ⟨fun ht => ?_, fun ht => ⟨?_, ?_⟩, fun p => ?_, ?_⟩
    · rw [throws_absorb, Bool.or_eq_true] at ht
      exact ht.elim haout hbout
    · rw [throws_absorb, (hain ht).1, (hbin ht).1, Bool.or_self]
    · exact isReadOnly_absorb_iff.2 ⟨(hain ht).2, (hbin ht).2⟩
    · rw [slotAccess_absorb]
      exact Access.commutes_sup_iff.2 ⟨haslot p, hbslot p⟩
    · rw [heap_absorb]
      exact Access.commutes_sup_iff.2 ⟨haheap, hbheap⟩

/-- One test of what was accumulated stands for a test of each part of it. -/
lemma commutes_foldl_absorb (a c : Effects) (es : List Effects) :
    Domain.commutes (es.foldl absorb a) c =
      (Domain.commutes a c && es.all fun e => Domain.commutes e c) := by
  induction es generalizing a with
  | nil => simp
  | cons e es ih => rw [List.foldl_cons, ih, commutes_absorb, List.all_cons, Bool.and_assoc]

/-! ## Steps in sequence -/

/-- Steps are accumulated one part after the other, up to the first fault. -/
lemma accumulate_append (acc : Effects) (xs ys : List Step) :
    acc.accumulate (xs ++ ys) =
      match (acc.accumulate xs).2 with
      | none => (acc.accumulate xs).1.accumulate ys
      | some _ => acc.accumulate xs := by
  induction xs generalizing acc with
  | nil => rfl
  | cons step xs ih =>
    cases step with
    | error fault => rfl
    | ok e => exact ih (acc.absorb e)

end Effects

/-- The swap test and accumulation, for effects of any frames. The test is symmetric, does not see
padding, and holds of smaller effects if it holds of larger ones. It holds of accumulated effects
exactly if it holds of everything accumulated. Absorption is commutative, associative and idempotent;
it is the join of the two sides in their common frame, where this join is always there, and of the
two sides as they are if their frames agree. -/
theorem commutes_distributes :
    (∀ a c : Effects, Domain.commutes a c = Domain.commutes c a) ∧
    (∀ (a c : Effects) (f : Frame), Domain.commutes (a.extend f) c = Domain.commutes a c ∧
      Domain.commutes a (c.extend f) = Domain.commutes a c) ∧
    (∀ a a' c : Effects, Domain.le a a' = true → Domain.commutes a' c = true →
      Domain.commutes a c = true) ∧
    (∀ a b c : Effects, Domain.commutes (a.absorb b) c = true ↔
      Domain.commutes a c = true ∧ Domain.commutes b c = true) ∧
    (∀ (a c : Effects) (es : List Effects), Domain.commutes (es.foldl Effects.absorb a) c =
      (Domain.commutes a c && es.all fun e => Domain.commutes e c)) ∧
    (∀ a b : Effects, a.absorb b = b.absorb a) ∧
    (∀ a b c : Effects, (a.absorb b).absorb c = a.absorb (b.absorb c)) ∧
    (∀ a : Effects, a.absorb a = a) ∧
    (∀ a b : Effects, a.frame = b.frame → Domain.join a b = some (a.absorb b)) ∧
    ∀ a b : Effects,
      Domain.join (a.extend (a.frame.sup b.frame)).args (b.extend (a.frame.sup b.frame)).args =
        some (a.absorb b).args ∧
      Domain.join (a.extend (a.frame.sup b.frame)).locals (b.extend (a.frame.sup b.frame)).locals =
        some (a.absorb b).locals := by
  refine ⟨Effects.commutes_comm, fun a c f => ⟨Effects.commutes_extend a c f, ?_⟩,
    fun a a' c hle => (Effects.within_of_le hle).commutes, fun a b c => ?_,
    Effects.commutes_foldl_absorb, Effects.absorb_comm, Effects.absorb_assoc, Effects.absorb_self,
    fun a b => Effects.join_eq_absorb, fun a b => ?_⟩
  · rw [Effects.commutes_comm, Effects.commutes_extend, Effects.commutes_comm]
  · rw [Effects.commutes_absorb, Bool.and_eq_true]
  · obtain ⟨hargs, hlocals, -, -⟩ := Effects.join_eq_some.1 (Effects.join_extend a b)
    exact ⟨hargs, hlocals⟩

end Inliner
