import Inliner.ArgumentTracker
import Inliner.Proofs.Commutation
import Mathlib.Order.MinMax

/-!
# Effects place by place

Effects of different frames can be compared place by place, because a slot past the end of a row is
untouched. `Effects.Within d e` says that `e` allows whatever `d` does. In this order the absorption
of effects is a least upper bound, whatever the frames, and so the effects of a list of steps are
the least ones that allow every step.

A computation that respects some effects respects all larger ones, and the computations that respect
given effects are closed under composition. Smaller effects commute with more.
-/

namespace Inliner

/-! ## Single places -/

namespace Access

/-- The stronger of two kinds of access has the larger rank. -/
lemma rank_sup (a b : Access) : (a.sup b).rank = max a.rank b.rank := by
  cases a <;> cases b <;> rfl

/-- A kind of access below one that does not write does not write. -/
lemma ne_write_of_rank_le {a b : Access} (h : a.rank ≤ b.rank) (hb : b ≠ .write) : a ≠ .write := by
  cases a <;> cases b <;> simp_all [rank]

/-- A kind of access above one that touches the place touches it. -/
lemma ne_untouched_of_rank_le {a b : Access} (h : a.rank ≤ b.rank) (ha : a ≠ .untouched) :
    b ≠ .untouched := by
  cases a <;> cases b <;> simp_all [rank]

/-- A smaller kind of access commutes with more. -/
lemma commutes_of_rank_le {a b c : Access} (h : a.rank ≤ b.rank)
    (hbc : Domain.commutes b c = true) : Domain.commutes a c = true := by
  cases a <;> cases b <;> cases c <;> simp_all [rank, Domain.commutes]

end Access

namespace AccessVector

/-- Lengthening a row does not change how its slots are touched. -/
lemma get_extend (v : AccessVector) (n i : Nat) : (v.extend n).get i = v.get i := by
  unfold get extend
  simp only [List.getD_eq_getElem?_getD, List.getElem?_append, List.getElem?_replicate]
  by_cases hi : i < v.slots.length
  · simp [hi]
  · rw [if_neg hi, List.getElem?_eq_none (Nat.le_of_not_lt hi)]
    split <;> rfl

/-- In the join of two rows every slot is touched by the stronger of the two kinds of access. -/
lemma get_join {v w u : AccessVector} (h : Domain.join v w = some u) (i : Nat) :
    u.get i = (v.get i).sup (w.get i) := by
  have hlen : v.length = w.length := by
    by_contra hne
    simp [Domain.join, hne] at h
  simp only [Domain.join, hlen, if_true, Option.some.injEq] at h
  subst h
  have hlen' : v.slots.length = w.slots.length := hlen
  unfold get
  simp only [List.getD_eq_getElem?_getD, List.getElem?_zipWith]
  by_cases hi : i < v.slots.length
  · rw [List.getElem?_eq_getElem hi, List.getElem?_eq_getElem (hlen' ▸ hi)]
    rfl
  · rw [List.getElem?_eq_none (Nat.le_of_not_lt hi),
      List.getElem?_eq_none (hlen' ▸ Nat.le_of_not_lt hi)]
    rfl

/-- In a row made from a list of positions, the listed slots of the row are touched. -/
lemma get_touching (n : Nat) (positions : List Nat) (a : Access) (i : Nat) :
    (touching n positions a).get i = if i < n ∧ i ∈ positions then a else .untouched := by
  unfold get touching
  simp only [List.getD_eq_getElem?_getD, List.getElem?_map, List.contains_iff_mem]
  by_cases hi : i < n
  · simp [hi]
  · simp [hi]

/-- No slot of the least row is touched. -/
lemma get_bottom (n i : Nat) : (bottom n).get i = .untouched := by
  unfold get bottom
  simp only [List.getD_eq_getElem?_getD, List.getElem?_replicate]
  split <;> rfl

/-- Rows of one length have a join. -/
lemma exists_join {v w : AccessVector} (h : v.length = w.length) :
    ∃ u, Domain.join v w = some u := by
  exact ⟨_, if_pos h⟩

end AccessVector

/-! ## The order -/

namespace Effects

/-- Padding does not change how slots are touched. -/
lemma slotAccess_extend (e : Effects) (f : Frame) (p : Slot) :
    (e.extend f).slotAccess p = e.slotAccess p := by
  cases p <;> exact AccessVector.get_extend _ _ _

/-- Padded effects write what the effects write. -/
lemma isReadOnly_extend (e : Effects) (f : Frame) : (e.extend f).isReadOnly = e.isReadOnly := by
  rw [Bool.eq_iff_iff, isReadOnly_iff, isReadOnly_iff]
  simp only [slotAccess_extend]
  rfl

/-- Padding does not matter to the swap test. -/
lemma commutes_extend (d e : Effects) (f : Frame) :
    Domain.commutes (d.extend f) e = Domain.commutes d e := by
  rw [Bool.eq_iff_iff, commutes_iff, commutes_iff]
  simp only [slotAccess_extend, isReadOnly_extend]
  rfl

/-- In absorbed effects every slot is touched by the stronger of the two kinds of access. -/
lemma slotAccess_absorb (d e : Effects) (p : Slot) :
    (d.absorb e).slotAccess p = (d.slotAccess p).sup (e.slotAccess p) := by
  have hargs : (d.extend (d.frame.sup e.frame)).args.length =
      (e.extend (d.frame.sup e.frame)).args.length := by
    simp only [extend, frame, Frame.sup, AccessVector.length_extend]
    omega
  have hlocals : (d.extend (d.frame.sup e.frame)).locals.length =
      (e.extend (d.frame.sup e.frame)).locals.length := by
    simp only [extend, frame, Frame.sup, AccessVector.length_extend]
    omega
  obtain ⟨args, ha⟩ := AccessVector.exists_join hargs
  obtain ⟨locals, hl⟩ := AccessVector.exists_join hlocals
  have ha' := AccessVector.get_join ha
  have hl' := AccessVector.get_join hl
  have habsorb : d.absorb e = ⟨args, locals, d.heap.sup e.heap, d.throws || e.throws⟩ := by
    simp only [absorb, ha, hl, Option.getD_some]
    rfl
  rw [habsorb]
  cases p with
  | argument i =>
    change args.get i = (d.args.get i).sup (e.args.get i)
    rw [ha' i]
    simp only [extend, AccessVector.get_extend]
  | localVar i =>
    change locals.get i = (d.locals.get i).sup (e.locals.get i)
    rw [hl' i]
    simp only [extend, AccessVector.get_extend]

@[simp] lemma heap_absorb (d e : Effects) : (d.absorb e).heap = d.heap.sup e.heap := rfl

@[simp] lemma throws_absorb (d e : Effects) : (d.absorb e).throws = (d.throws || e.throws) := rfl

/-- Whatever `d` does is allowed by `e`, in any frames. -/
structure Within (d e : Effects) : Prop where
  slot : ∀ p, (d.slotAccess p).rank ≤ (e.slotAccess p).rank
  heap : d.heap.rank ≤ e.heap.rank
  throws : d.throws = true → e.throws = true

namespace Within

lemma refl (d : Effects) : Within d d :=
  ⟨fun _ => le_rfl, le_rfl, id⟩

lemma trans {d e f : Effects} (hde : Within d e) (hef : Within e f) : Within d f :=
  ⟨fun p => (hde.slot p).trans (hef.slot p), hde.heap.trans hef.heap,
    fun h => hef.throws (hde.throws h)⟩

/-- Effects allow what was absorbed into them, exactly when they allow both. -/
lemma absorb_iff {d e f : Effects} : Within (d.absorb e) f ↔ Within d f ∧ Within e f := by
  constructor
  · rintro ⟨hslot, hheap, hthrows⟩
    have hslot' := fun p => (Access.rank_sup (d.slotAccess p) (e.slotAccess p)) ▸
      slotAccess_absorb d e p ▸ hslot p
    rw [heap_absorb, Access.rank_sup] at hheap
    rw [throws_absorb, Bool.or_eq_true] at hthrows
    exact ⟨⟨fun p => le_trans (le_max_left _ _) (hslot' p), le_trans (le_max_left _ _) hheap,
        fun h => hthrows (.inl h)⟩,
      ⟨fun p => le_trans (le_max_right _ _) (hslot' p), le_trans (le_max_right _ _) hheap,
        fun h => hthrows (.inr h)⟩⟩
  · rintro ⟨hd, he⟩
    refine ⟨fun p => ?_, ?_, ?_⟩
    · rw [slotAccess_absorb, Access.rank_sup]
      exact max_le (hd.slot p) (he.slot p)
    · rw [heap_absorb, Access.rank_sup]
      exact max_le hd.heap he.heap
    · rw [throws_absorb, Bool.or_eq_true]
      exact fun h => h.elim hd.throws he.throws

/-- Effects within read-only ones are read-only. -/
lemma isReadOnly {d e : Effects} (h : Within d e) (he : e.isReadOnly = true) :
    d.isReadOnly = true := by
  rw [isReadOnly_iff] at he ⊢
  exact ⟨fun p => Access.ne_write_of_rank_le (h.slot p) (he.1 p),
    Access.ne_write_of_rank_le h.heap he.2⟩

/-- Smaller effects commute with more. -/
lemma commutes {d d' e : Effects} (h : Within d d') (hc : Domain.commutes d' e = true) :
    Domain.commutes d e = true := by
  obtain ⟨hd, he, hslot, hheap⟩ := (commutes_iff d' e).1 hc
  refine (commutes_iff d e).2 ⟨fun ht => hd (h.throws ht), fun ht => ?_, fun p => ?_, ?_⟩
  · obtain ⟨hnothrow, hreadonly⟩ := he ht
    refine ⟨?_, h.isReadOnly hreadonly⟩
    by_contra hne
    rw [h.throws (by simpa using hne)] at hnothrow
    cases hnothrow
  · exact Access.commutes_of_rank_le (h.slot p) (hslot p)
  · exact Access.commutes_of_rank_le h.heap hheap

end Within

/-- The least effects touch no slot. -/
@[simp] lemma slotAccess_bottom (f : Frame) (p : Slot) : (bottom f).slotAccess p = .untouched := by
  cases p <;> exact AccessVector.get_bottom _ _

@[simp] lemma heap_bottom (f : Frame) : (bottom f).heap = .untouched := rfl

@[simp] lemma throws_bottom (f : Frame) : (bottom f).throws = false := rfl

@[simp] lemma heap_onSlot (f : Frame) (p : Slot) (a : Access) :
    (onSlot f p a).heap = .untouched := by
  cases p <;> rfl

@[simp] lemma throws_onSlot (f : Frame) (p : Slot) (a : Access) : (onSlot f p a).throws = false := by
  cases p <;> rfl

/-- Only the slot itself is touched by an access to it. -/
lemma slotAccess_onSlot_of_ne (f : Frame) {p q : Slot} (a : Access) (h : p ≠ q) :
    (onSlot f q a).slotAccess p = .untouched := by
  cases q with
  | argument i =>
    cases p with
    | argument j =>
      change (AccessVector.touching f.args [i] a).get j = _
      have hne : j ≠ i := fun hij => h (by rw [hij])
      simp [AccessVector.get_touching, hne]
    | localVar j => exact AccessVector.get_bottom _ _
  | localVar i =>
    cases p with
    | argument j => exact AccessVector.get_bottom _ _
    | localVar j =>
      change (AccessVector.touching f.locals [i] a).get j = _
      have hne : j ≠ i := fun hij => h (by rw [hij])
      simp [AccessVector.get_touching, hne]

/-- An access to a slot touches it in no other way. -/
lemma slotAccess_onSlot (f : Frame) (p : Slot) (a : Access) :
    (onSlot f p a).slotAccess p = a ∨ (onSlot f p a).slotAccess p = .untouched := by
  cases p with
  | argument i =>
    change (AccessVector.touching f.args [i] a).get i = _ ∨
      (AccessVector.touching f.args [i] a).get i = _
    rw [AccessVector.get_touching]
    split <;> simp
  | localVar i =>
    change (AccessVector.touching f.locals [i] a).get i = _ ∨
      (AccessVector.touching f.locals [i] a).get i = _
    rw [AccessVector.get_touching]
    split <;> simp

/-- Nothing is within every effect. -/
lemma bottom_within (f : Frame) (e : Effects) : Within (bottom f) e := by
  refine ⟨fun p => ?_, Nat.zero_le _, fun h => by cases h⟩
  rw [slotAccess_bottom]
  exact Nat.zero_le _

/-! ## Effects of steps -/

/-- What was accumulated so far is within what is accumulated in the end. -/
lemma within_accumulate (acc : Effects) (steps : List Step) :
    Within acc (acc.accumulate steps).1 := by
  induction steps generalizing acc with
  | nil => exact .refl acc
  | cons step rest ih =>
    cases step with
    | error fault => exact .refl acc
    | ok e => exact (Within.absorb_iff.1 (.refl (acc.absorb e))).1.trans (ih (acc.absorb e))

/-- Steps that can be accumulated are not at fault, and each is within the result. -/
lemma within_of_mem_accumulate {acc : Effects} {steps : List Step}
    (h : (acc.accumulate steps).2 = none) {step : Step} (hmem : step ∈ steps) :
    ∃ e, step = .ok e ∧ Within e (acc.accumulate steps).1 := by
  induction steps generalizing acc with
  | nil => cases hmem
  | cons first rest ih =>
    cases first with
    | error fault => cases h
    | ok e =>
      rcases List.mem_cons.1 hmem with rfl | hmem
      · refine ⟨e, rfl, ?_⟩
        exact (Within.absorb_iff.1 (.refl (acc.absorb e))).2.trans (within_accumulate _ rest)
      · exact ih h hmem

/-- What is accumulated is within everything that allows the start and all steps. -/
lemma accumulate_within {acc f : Effects} {steps : List Step} (hacc : Within acc f)
    (hsteps : ∀ e, .ok e ∈ steps → Within e f) : Within (acc.accumulate steps).1 f := by
  induction steps generalizing acc with
  | nil => exact hacc
  | cons step rest ih =>
    cases step with
    | error fault => exact hacc
    | ok e =>
      exact ih (Within.absorb_iff.2 ⟨hacc, hsteps e (by simp)⟩)
        fun d hd => hsteps d (by simp [hd])

/-- Steps without a fault can be accumulated. -/
lemma accumulate_snd_eq_none {acc : Effects} {steps : List Step}
    (h : ∀ step ∈ steps, ∃ e, step = .ok e) : (acc.accumulate steps).2 = none := by
  induction steps generalizing acc with
  | nil => rfl
  | cons step rest ih =>
    obtain ⟨e, rfl⟩ := h step (by simp)
    exact ih fun step hstep => h step (by simp [hstep])

/-- The effects of some steps are what is accumulated from nothing without a fault. -/
lemma ofSteps_eq_ok {f : Frame} {steps : List Step} {e : Effects} :
    ofSteps f steps = .ok e ↔
      ((bottom f).accumulate steps).2 = none ∧ ((bottom f).accumulate steps).1 = e := by
  unfold ofSteps
  cases h : (bottom f).accumulate steps with
  | mk acc fault? => cases fault? <;> simp

/-- Every step is within the effects of all steps. -/
lemma within_ofSteps {f : Frame} {steps : List Step} {e : Effects} (h : ofSteps f steps = .ok e)
    {step : Step} (hmem : step ∈ steps) : ∃ d, step = .ok d ∧ Within d e := by
  obtain ⟨hnone, rfl⟩ := ofSteps_eq_ok.1 h
  exact within_of_mem_accumulate hnone hmem

/-- The effects of some steps are within everything that allows all of them. -/
lemma ofSteps_within {f : Frame} {steps : List Step} {d e : Effects} (h : ofSteps f steps = .ok d)
    (hsteps : ∀ c, .ok c ∈ steps → Within c e) : Within d e := by
  obtain ⟨-, rfl⟩ := ofSteps_eq_ok.1 h
  exact accumulate_within (bottom_within f e) hsteps

/-- Steps without a fault have effects. -/
lemma exists_ofSteps {f : Frame} {steps : List Step} (h : ∀ step ∈ steps, ∃ e, step = .ok e) :
    ∃ e, ofSteps f steps = .ok e :=
  ⟨_, ofSteps_eq_ok.2 ⟨accumulate_snd_eq_none h, rfl⟩⟩

end Effects

/-- An argument can be moved over what was done exactly when the two commute; the padding does not
matter. -/
lemma ArgumentTracker.movable_iff (done arg : Effects) :
    ArgumentTracker.movable done arg = true ↔ Domain.commutes done arg = true := by
  unfold ArgumentTracker.movable
  dsimp only
  rw [Effects.commutes_extend, Effects.commutes_comm, Effects.commutes_extend, Effects.commutes_comm]

/-! ## Respecting larger effects -/

namespace Respects

variable {V H X A B : Type} {E E' : Effects} {f : Computation V H X A}

/-- A computation that respects some effects respects all larger ones. -/
lemma mono (hf : Respects E f) (h : E.Within E') : Respects E' f := by
  have hagree : ∀ {s t : Store V H}, AgreeOn E' s t → AgreeOn E s t := by
    intro s t hst
    exact ⟨fun p hp => hst.slot p (Access.ne_untouched_of_rank_le (h.slot p) hp),
      fun hp => hst.heap (Access.ne_untouched_of_rank_le h.heap hp)⟩
  constructor
  · intro s p hp
    exact hf.keeps_slot s p (Access.ne_write_of_rank_le (h.slot p) hp)
  · intro s hp
    exact hf.keeps_heap s (Access.ne_write_of_rank_le h.heap hp)
  · intro s t hst
    exact hf.outcome_eq (hagree hst)
  · intro s t hst p hp
    by_cases hw : E.slotAccess p = .write
    · exact hf.slot_eq (hagree hst) p hw
    · rw [hf.keeps_slot s p hw, hf.keeps_slot t p hw]
      exact hst.slot p (by rw [hp]; decide)
  · intro s t hst hp
    by_cases hw : E.heap = .write
    · exact hf.heap_eq (hagree hst) hw
    · rw [hf.keeps_heap s hw, hf.keeps_heap t hw]
      exact hst.heap (by rw [hp]; decide)
  · intro s x hx
    exact h.throws (hf.throws_of_error hx)

/-- A computation that changes nothing respects effects if they show what it depends on and whether
it raises. -/
lemma of_final_eq (hfinal : ∀ s, final (f s) = s)
    (houtcome : ∀ {s t}, AgreeOn E s t → outcome (f s) = outcome (f t))
    (hthrows : ∀ {s x}, outcome (f s) = .error x → E.throws = true) : Respects E f := by
  refine ⟨fun s p _ => by rw [hfinal], fun s _ => by rw [hfinal], houtcome, ?_, ?_, hthrows⟩
  · intro s t hst p hp
    rw [hfinal, hfinal]
    exact hst.slot p (by rw [hp]; decide)
  · intro s t hst hp
    rw [hfinal, hfinal]
    exact hst.heap (by rw [hp]; decide)

/-- Doing nothing respects all effects. -/
lemma pure (a : A) : Respects E (pure a : Computation V H X A) :=
  of_final_eq (fun _ => rfl) (fun _ => rfl) fun hx => by cases hx

/-- Stores that agree on what the effects mark still do so after the computation. -/
lemma agreeOn_after (hf : Respects E f) {s t : Store V H} (h : AgreeOn E s t) :
    AgreeOn E (final (f s)) (final (f t)) := by
  constructor
  · intro p hp
    by_cases hw : E.slotAccess p = .write
    · exact hf.slot_eq h p hw
    · rw [hf.keeps_slot s p hw, hf.keeps_slot t p hw]
      exact h.slot p hp
  · intro hp
    by_cases hw : E.heap = .write
    · exact hf.heap_eq h hw
    · rw [hf.keeps_heap s hw, hf.keeps_heap t hw]
      exact h.heap hp

/-- The computations that respect given effects can be composed. -/
lemma bind {k : A → Computation V H X B} (hf : Respects E f) (hk : ∀ a, Respects E (k a)) :
    Respects E (f >>= k) := by
  -- The composition ends where `f` raised, or where its continuation ends.
  have hcases : ∀ s : Store V H, (∃ x, f s = .error x (final (f s)) ∧
      (f >>= k) s = .error x (final (f s))) ∨
      ∃ a, f s = .ok a (final (f s)) ∧ (f >>= k) s = k a (final (f s)) := by
    intro s
    cases hs : f s with
    | ok a s' => exact .inr ⟨a, rfl, bind_of_ok hs⟩
    | error x s' => exact .inl ⟨x, rfl, bind_of_error hs⟩
  -- On stores that agree, both runs end in the same way.
  have hpair : ∀ {s t : Store V H}, AgreeOn E s t →
      (∃ x, (f >>= k) s = .error x (final (f s)) ∧ (f >>= k) t = .error x (final (f t))) ∨
      ∃ a, (f >>= k) s = k a (final (f s)) ∧ (f >>= k) t = k a (final (f t)) := by
    intro s t hst
    have hout := hf.outcome_eq hst
    rcases hcases s with ⟨x, hx, hs⟩ | ⟨a, ha, hs⟩ <;>
      rcases hcases t with ⟨y, hy, ht⟩ | ⟨b, hb, ht⟩
    · rw [hx, hy] at hout
      cases hout
      exact .inl ⟨x, hs, ht⟩
    · rw [hx, hb] at hout
      cases hout
    · rw [ha, hy] at hout
      cases hout
    · rw [ha, hb] at hout
      cases hout
      exact .inr ⟨a, hs, ht⟩
  constructor
  · intro s p hp
    rcases hcases s with ⟨x, -, hs⟩ | ⟨a, -, hs⟩
    · rw [hs]
      exact hf.keeps_slot s p hp
    · rw [hs, (hk a).keeps_slot _ p hp]
      exact hf.keeps_slot s p hp
  · intro s hp
    rcases hcases s with ⟨x, -, hs⟩ | ⟨a, -, hs⟩
    · rw [hs]
      exact hf.keeps_heap s hp
    · rw [hs, (hk a).keeps_heap _ hp]
      exact hf.keeps_heap s hp
  · intro s t hst
    rcases hpair hst with ⟨x, hs, ht⟩ | ⟨a, hs, ht⟩
    · rw [hs, ht, outcome_error, outcome_error]
    · rw [hs, ht]
      exact (hk a).outcome_eq (hf.agreeOn_after hst)
  · intro s t hst p hp
    rcases hpair hst with ⟨x, hs, ht⟩ | ⟨a, hs, ht⟩
    · rw [hs, ht]
      exact hf.slot_eq hst p hp
    · rw [hs, ht]
      exact (hk a).slot_eq (hf.agreeOn_after hst) p hp
  · intro s t hst hp
    rcases hpair hst with ⟨x, hs, ht⟩ | ⟨a, hs, ht⟩
    · rw [hs, ht]
      exact hf.heap_eq hst hp
    · rw [hs, ht]
      exact (hk a).heap_eq (hf.agreeOn_after hst) hp
  · intro s x hx
    rcases hcases s with ⟨y, hy, -⟩ | ⟨a, -, hs⟩
    · exact hf.throws_of_error (s := s) (x := y) (by rw [hy, outcome_error])
    · rw [hs] at hx
      exact (hk a).throws_of_error hx

end Respects

end Inliner
