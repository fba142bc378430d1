import Inliner.Proofs.JoinedEffects
import Inliner.Proofs.TargetEffects
import Inliner.Proofs.WellFormed

/-!
# Effects in a table that has grown

Effects are computed for the frame of a table, and locals are declared while effects are at hand.
Computing them again in the larger frame gives the same, as far as the old slots, the heap and
exceptions are concerned. The slots of the new locals are another matter. A local of a pointer type
may point anywhere in the frame, whatever the frame is, so an access through what it holds touches
the new slots as well. Nothing else does.

`Recomputed` says this of pointer targets and of effects, with a proposition that decides about the
new slots. It is kept by joins, where the propositions are joined too, and so it is carried from
single steps to the terms (`Expr.recomputed_steps`, `Stmt.recomputed_steps`). Nothing is assumed
about the variables of a term. One that is not declared may be named where only its address is
taken, and there its later declaration has no effect.
-/

namespace Inliner

/-! ## Tables -/

namespace VarTable

/-- The second table is made from the first by declaring locals, under given names or fresh ones. -/
inductive GrownTo (t : VarTable) : VarTable → Prop
  | refl : GrownTo t t
  | declareLocal {t' : VarTable} (name : String) (type : TypeRef) (flags : Flags) :
      t.GrownTo t' → t.GrownTo (t'.declareLocal name type flags)
  | declareFresh {t' : VarTable} (type : TypeRef) (flags : Flags) :
      t.GrownTo t' → t.GrownTo (t'.declareFresh type flags)

variable {t t' : VarTable}

/-- A table grows by declaring variables. -/
lemma GrownTo.extendedTo (h : t.GrownTo t') : t.ExtendedTo t' := by
  induction h with
  | refl => exact .refl t
  | declareLocal name type flags _ ih => exact ih.trans (.declareLocal _ name type flags)
  | declareFresh type flags _ ih => exact ih.trans (.declareLocal _ _ type flags)

/-- No slot is lost by declaring locals. -/
lemma ExtendedTo.covers (h : t.ExtendedTo t') : t'.frame.Covers t.frame := by
  obtain ⟨added, hvars, -⟩ := h
  constructor
  · simp [frame, countOf, hvars, List.countP_append]
  · simp [frame, countOf, hvars, List.countP_append]

end VarTable

/-- A larger frame has the slots of the smaller one. -/
lemma Frame.Covers.has {f f' : Frame} (h : f'.Covers f) {q : Slot} (hq : f.Has q) : f'.Has q := by
  cases q with
  | argument i => exact Nat.lt_of_lt_of_le hq h.1
  | localVar i => exact Nat.lt_of_lt_of_le hq h.2

/-- Whether an expression with declared variables counts as a value does not change. -/
lemma Expr.isValue_eq_of_extendedTo {t t' : VarTable} (h : t.ExtendedTo t') {e : Expr}
    (he : e.allNodes (inScope t.size) = true) : e.isValue t' = e.isValue t := by
  have hself := (Expr.allNodes_iff.1 he).1
  unfold Expr.isValue
  split
  · rfl
  · rfl
  · rw [h.get?_eq (by simpa [inScope] using hself)]
  · rfl

/-! ## Pointers that locals hold -/

/-- The pointer through which the cell is accessed, if there is one. -/
def Cell.pointers : Cell → List Expr
  | .deref pointer => [pointer]
  | _ => []

namespace Expr

/-- The value of the expression may be a pointer that was read from a local of a pointer type. It is
read there, or it is handed on: by a conditional, by marshalling, or as the address of its target. -/
inductive MayComeFromLocal (t : VarTable) : Expr → Prop
  | readVar {id : VarId} {v : Variable} : t.get? id = some v → v.storage = .localVar →
      v.type.isPointer = true → MayComeFromLocal t (.readVar id)
  | addressOf {pointer : Expr} : MayComeFromLocal t pointer →
      MayComeFromLocal t (.addressOf (.deref pointer))
  | onTrue {cond onTrue onFalse : Expr} : MayComeFromLocal t onTrue →
      MayComeFromLocal t (.conditional cond onTrue onFalse)
  | onFalse {cond onTrue onFalse : Expr} : MayComeFromLocal t onFalse →
      MayComeFromLocal t (.conditional cond onTrue onFalse)
  | marshalOut {value : Expr} : MayComeFromLocal t value → MayComeFromLocal t (.marshalOut value)

/-- The pointers that the operation of a node may go through: the one that it dereferences, or all
operands of an operation that is not looked into. -/
def pointersUsed : Expr → List Expr
  | .read cell => cell.pointers
  | .call _ args => args
  | .callOn _ receiver args => receiver :: args
  | .construct _ args => args
  | .marshalOut value => [value]
  | .marshalIn value => [value]
  | _ => []

/-- Some node of the expression dereferences a pointer that may come from a local, or passes one to
an operation that is not looked into. -/
def UsesPointerOfLocal (t : VarTable) (e : Expr) : Prop :=
  ∃ n p : Expr, n.IsNodeOf e ∧ p ∈ n.pointersUsed ∧ p.MayComeFromLocal t

end Expr

namespace Stmt

mutual

/-- The expressions that a statement evaluates, at any depth. The cell that an assignment stores
into counts as if it was read. -/
def exprs : Stmt → List Expr
  | .eval value => [value]
  | .assign target value => [value, .read target]
  | .ret none => []
  | .ret (some value) => [value]
  | .raise exception => [exception]
  | .branch cond onTrue onFalse => cond :: (blockExprs onTrue ++ blockExprs onFalse)

/-- The expressions that the statements of a block evaluate. -/
def blockExprs : List Stmt → List Expr
  | [] => []
  | s :: rest => s.exprs ++ blockExprs rest

end

/-- Some expression of the statement, or its target, uses a pointer that may come from a local. -/
def UsesPointerOfLocal (t : VarTable) (s : Stmt) : Prop :=
  ∃ e ∈ s.exprs, e.UsesPointerOfLocal t

end Stmt

namespace Expr

variable {t : VarTable}

/-- What a conditional yields comes from one of its arms. -/
lemma mayComeFromLocal_conditional_iff {cond onTrue onFalse : Expr} :
    (conditional cond onTrue onFalse).MayComeFromLocal t ↔
      onTrue.MayComeFromLocal t ∨ onFalse.MayComeFromLocal t := by
  constructor
  · intro h
    cases h with
    | onTrue h => exact .inl h
    | onFalse h => exact .inr h
  · rintro (h | h)
    · exact .onTrue h
    · exact .onFalse h

/-- Exporting a pointer does not change where it comes from. -/
lemma mayComeFromLocal_marshalOut_iff {value : Expr} :
    (marshalOut value).MayComeFromLocal t ↔ value.MayComeFromLocal t := by
  constructor
  · intro h
    cases h with
    | marshalOut h => exact h
  · exact .marshalOut

/-- A pointer to a cell may come from a local if the cell is reached through such a pointer. -/
lemma mayComeFromLocal_addressOf_iff {c : Cell} :
    (addressOf c).MayComeFromLocal t ↔ ∃ p ∈ c.pointers, p.MayComeFromLocal t := by
  constructor
  · intro h
    cases h with
    | addressOf h => exact ⟨_, List.mem_singleton_self _, h⟩
  · rintro ⟨p, hp, h⟩
    cases c with
    | deref pointer =>
      obtain rfl := List.mem_singleton.1 hp
      exact .addressOf h
    | _ => cases hp

/-- A variable may hold a pointer from a local if it is a local that holds pointers. -/
lemma mayComeFromLocal_readVar_iff {id : VarId} {v : Variable} (hv : t.get? id = some v) :
    (readVar id).MayComeFromLocal t ↔ v.storage = .localVar ∧ v.type.isPointer = true := by
  constructor
  · intro h
    cases h with
    | readVar hw hstorage hpointer =>
      rw [hv] at hw
      cases hw
      exact ⟨hstorage, hpointer⟩
  · rintro ⟨hstorage, hpointer⟩
    exact .readVar hv hstorage hpointer

/-- Pointers of locals are used by the parts of a node or by its own operation. -/
lemma usesPointerOfLocal_iff {e : Expr} :
    e.UsesPointerOfLocal t ↔ (∃ a ∈ e.parts, a.UsesPointerOfLocal t) ∨
      ∃ p ∈ e.pointersUsed, p.MayComeFromLocal t := by
  constructor
  · rintro ⟨n, p, hn, hp, hlocal⟩
    cases hn with
    | self => exact .inr ⟨p, hp, hlocal⟩
    | part ha hn => exact .inl ⟨_, ha, n, p, hn, hp, hlocal⟩
  · rintro (⟨a, ha, n, p, hn, hp, hlocal⟩ | ⟨p, hp, hlocal⟩)
    · exact ⟨n, p, .part ha hn, hp, hlocal⟩
    · exact ⟨e, p, .self, hp, hlocal⟩

end Expr

/-! ## Pointer targets in a larger frame -/

namespace PointsTo

/-- No target is no slot. -/
lemma contains_bottom (f : Frame) (x : Slot) : (bottom f).contains x = false := by
  cases x <;> exact SlotSet.contains_empty _ _

/-- The heap is a target if it is one of a part. -/
lemma heap_joined {p q r : PointsTo} (h : p.joined q = .ok r) : r.heap = (p.heap || q.heap) := by
  unfold joined at h
  split at h
  · rename_i hjoin
    cases h
    exact heap_join hjoin
  · cases h

/-- Pointer targets of a frame, computed again in another one. The old slots and the heap are
targets as before, and the new slots are targets exactly if `held`. -/
structure Recomputed (f f' : Frame) (p p' : PointsTo) (held : Prop) : Prop where
  frame_old : p.frame = f
  frame_new : p'.frame = f'
  heap_eq : p'.heap = p.heap
  old_slot : ∀ q, f.Has q → p'.contains q = p.contains q
  new_slot : ∀ q, f'.Has q → ¬ f.Has q → (p'.contains q = true ↔ held)

namespace Recomputed

variable {f f' : Frame} {p p' q q' : PointsTo} {held held₂ : Prop}

/-- The condition may be put in other words. -/
lemma congr (h : Recomputed f f' p p' held) (hiff : held ↔ held₂) :
    Recomputed f f' p p' held₂ :=
  propext hiff ▸ h

/-- Without a target in the frame it does not matter which frame it is. -/
lemma of_contains_eq_false (hold : p.frame = f) (hnew : p'.frame = f') (hheap : p'.heap = p.heap)
    (hp : ∀ x, p.contains x = false) (hp' : ∀ x, p'.contains x = false) (hheld : ¬ held) :
    Recomputed f f' p p' held where
  frame_old := hold
  frame_new := hnew
  heap_eq := hheap
  old_slot x _ := by rw [hp, hp']
  new_slot x _ _ := by simp [hp', hheld]

/-- No targets are found again. -/
lemma bottom (hheld : ¬ held) : Recomputed f f' (.bottom f) (.bottom f') held :=
  of_contains_eq_false rfl rfl rfl (contains_bottom f) (contains_bottom f') hheld

/-- The heap is found again. -/
lemma toHeap (hheld : ¬ held) : Recomputed f f' (.toHeap f) (.toHeap f') held :=
  of_contains_eq_false rfl rfl rfl (contains_bottom f) (contains_bottom f') hheld

/-- What may point anywhere may point at the new slots too. -/
lemma top (hcovers : f'.Covers f) (hheld : held) : Recomputed f f' (.top f) (.top f') held where
  frame_old := rfl
  frame_new := rfl
  heap_eq := rfl
  old_slot x hx := by rw [contains_top hx, contains_top (hcovers.has hx)]
  new_slot x hx _ := iff_of_true (contains_top hx) hheld

/-- A pointer to an old slot points at no new one. -/
lemma exists_toSlot {x : Slot} (hx : f.Has x) (hx' : f'.Has x) (hp : toSlot f x = .ok p)
    (hheld : ¬ held) : ∃ p', toSlot f' x = .ok p' ∧ Recomputed f f' p p' held := by
  obtain ⟨r, hr, hframe⟩ := PointsTo.exists_toSlot hx
  obtain rfl : r = p := Except.ok.inj (hr.symm.trans hp)
  obtain ⟨p', hp', hframe'⟩ := PointsTo.exists_toSlot hx'
  refine ⟨p', hp', hframe, hframe', ?_, fun y _ => ?_, fun y _ hy => ?_⟩
  · rw [heap_toSlot hp, heap_toSlot hp']
  · by_cases hyx : y = x
    · rw [hyx, contains_toSlot hp, contains_toSlot hp']
    · rw [contains_toSlot_of_ne hp hyx, contains_toSlot_of_ne hp' hyx]
  · have hyx : y ≠ x := fun h => hy (h ▸ hx)
    simp [contains_toSlot_of_ne hp' hyx, hheld]

/-- Joining old targets and joining new ones gives targets that belong together. -/
lemma joined (h : Recomputed f f' p p' held) (h₂ : Recomputed f f' q q' held₂) {r : PointsTo}
    (hr : p.joined q = .ok r) :
    ∃ r', p'.joined q' = .ok r' ∧ Recomputed f f' r r' (held ∨ held₂) := by
  obtain ⟨s, hs, hframe⟩ := exists_joined h.frame_old h₂.frame_old
  obtain rfl : s = r := Except.ok.inj (hs.symm.trans hr)
  obtain ⟨r', hr', hframe'⟩ := exists_joined h.frame_new h₂.frame_new
  refine ⟨r', hr', hframe, hframe', ?_, fun x hx => ?_, fun x hx hx' => ?_⟩
  · rw [heap_joined hr, heap_joined hr', h.heap_eq, h₂.heap_eq]
  · rw [contains_joined hr, contains_joined hr', h.old_slot x hx, h₂.old_slot x hx]
  · rw [contains_joined hr', Bool.or_eq_true, h.new_slot x hx hx', h₂.new_slot x hx hx']

/-- What a declared variable holds may be a pointer to a new slot if it is a local of a pointer
type. -/
lemma ofVariable (hcovers : f'.Covers f) {v : Variable}
    (hheld : held ↔ v.storage = .localVar ∧ v.type.isPointer = true) :
    Recomputed f f' (v.pointsTo f) (v.pointsTo f') held := by
  unfold Variable.pointsTo
  by_cases hpointer : v.type.isPointer = true
  · rw [if_pos hpointer, if_pos hpointer]
    cases hstorage : v.storage with
    | argument => exact .toHeap (by simp [hheld, hstorage])
    | localVar => exact .top hcovers (hheld.2 ⟨hstorage, hpointer⟩)
  · rw [if_neg hpointer, if_neg hpointer]
    exact .bottom (by simp [hheld, hpointer])

end Recomputed

end PointsTo

namespace Expr

/-- If the expression has pointer targets in the first table, it has targets in the second, which
are the former ones computed again. New slots are among them exactly if the pointer may come from a
local. -/
def TargetsRecomputed (t t' : VarTable) (e : Expr) : Prop :=
  ∀ p, e.pointsTo t = .ok p → ∃ p', e.pointsTo t' = .ok p' ∧
    PointsTo.Recomputed t.frame t'.frame p p' (e.MayComeFromLocal t)

variable {t t' : VarTable}

/-- What a variable may point at is recomputed. -/
lemma targetsRecomputed_readVar (h : t.ExtendedTo t') (id : VarId) :
    (readVar id).TargetsRecomputed t t' := by
  intro p hp
  cases hv : t.get? id with
  | none => simp [pointsTo, VarTable.get, hv, Except.map] at hp
  | some v =>
    have hpointsTo : ∀ {u : VarTable}, u.get? id = some v →
        (readVar id).pointsTo u = .ok (v.pointsTo u.frame) := by
      intro u hu
      simp [pointsTo, VarTable.get, hu, Except.map]
    obtain rfl := Except.ok.inj ((hpointsTo hv).symm.trans hp)
    exact ⟨_, hpointsTo (h.get?_of_some hv),
      .ofVariable h.covers (mayComeFromLocal_readVar_iff hv)⟩

/-- The address of a variable is that of its slot, which does not move. -/
lemma targetsRecomputed_addressOf_var (h : t.ExtendedTo t') (id : VarId) :
    (addressOf (.var id)).TargetsRecomputed t t' := by
  intro p hp
  cases hv : t.get? id with
  | none =>
    rw [pointsTo, Cell.addressPointsTo, VarTable.slot, VarTable.get, hv] at hp
    cases hp
  | some v =>
    have hslot : t'.slot id = .ok (t.slotOf id v) := by
      rw [h.slot_eq hv, VarTable.slot_eq_ok hv]
    have hhas := VarTable.has_slotOf hv
    rw [pointsTo, Cell.addressPointsTo, VarTable.slot_eq_ok hv] at hp
    rw [pointsTo, Cell.addressPointsTo, hslot]
    exact PointsTo.Recomputed.exists_toSlot hhas (h.covers.has hhas) hp (by rintro ⟨⟩)

/-- What a conditional may point at is recomputed from its arms. -/
lemma targetsRecomputed_conditional (cond : Expr) {onTrue onFalse : Expr}
    (hTrue : onTrue.TargetsRecomputed t t') (hFalse : onFalse.TargetsRecomputed t t') :
    (conditional cond onTrue onFalse).TargetsRecomputed t t' := by
  intro r hr
  rw [pointsTo] at hr
  cases hp : onTrue.pointsTo t with
  | error fault =>
    rw [hp] at hr
    cases hr
  | ok p =>
    cases hq : onFalse.pointsTo t with
    | error fault =>
      rw [hp, hq] at hr
      cases hr
    | ok q =>
      rw [hp, hq] at hr
      obtain ⟨p', hp', hprecomputed⟩ := hTrue p hp
      obtain ⟨q', hq', hqrecomputed⟩ := hFalse q hq
      obtain ⟨r', hr', hrecomputed⟩ := hprecomputed.joined hqrecomputed hr
      refine ⟨r', ?_, hrecomputed.congr mayComeFromLocal_conditional_iff.symm⟩
      rw [pointsTo, hp', hq']
      exact hr'

/-- Pointer targets survive the declaration of locals. -/
lemma targetsRecomputed (h : t.ExtendedTo t') (e : Expr) : e.TargetsRecomputed t t' := by
  induction e using Expr.induct_parts with
  | step e ih =>
    intro p hp
    cases e with
    | read c =>
      cases c with
      | var id => exact targetsRecomputed_readVar h id p hp
      | _ =>
        cases hp
        exact ⟨_, rfl, .bottom (by rintro ⟨⟩)⟩
    | addressOf c =>
      cases c with
      | var id => exact targetsRecomputed_addressOf_var h id p hp
      | deref pointer =>
        -- the address of what a pointer points at is the pointer itself
        obtain ⟨p', hp', hrecomputed⟩ := ih pointer (by simp [parts, Cell.parts]) p hp
        refine ⟨p', hp', hrecomputed.congr ?_⟩
        simp [mayComeFromLocal_addressOf_iff, Cell.pointers]
      | _ =>
        cases hp
        exact ⟨_, rfl, .toHeap (by rintro ⟨⟩)⟩
    | conditional cond onTrue onFalse =>
      exact targetsRecomputed_conditional cond (ih onTrue (by simp [parts]))
        (ih onFalse (by simp [parts])) p hp
    | marshalOut value =>
      obtain ⟨p', hp', hrecomputed⟩ := ih value (by simp [parts]) p hp
      exact ⟨p', hp', hrecomputed.congr mayComeFromLocal_marshalOut_iff.symm⟩
    | call method args =>
      cases hp
      exact ⟨_, rfl, .toHeap (by rintro ⟨⟩)⟩
    | callOn method receiver args =>
      cases hp
      exact ⟨_, rfl, .toHeap (by rintro ⟨⟩)⟩
    | marshalIn value =>
      cases hp
      exact ⟨_, rfl, .toHeap (by rintro ⟨⟩)⟩
    | _ =>
      cases hp
      exact ⟨_, rfl, .bottom (by rintro ⟨⟩)⟩

end Expr

/-! ## Effects in a larger frame -/

/-- A place is touched by the stronger of two kinds of access if it is by one of them. -/
lemma Access.sup_ne_untouched_iff {a b : Access} :
    a.sup b ≠ .untouched ↔ a ≠ .untouched ∨ b ≠ .untouched := by
  cases a <;> cases b <;> decide

namespace Effects

/-- Slots outside the frame are not touched. -/
lemma slotAccess_of_not_has {E : Effects} {q : Slot} (h : ¬ E.frame.Has q) :
    E.slotAccess q = .untouched := by
  cases q with
  | argument i => exact AccessVector.get_of_length_le (Nat.le_of_not_lt h)
  | localVar i => exact AccessVector.get_of_length_le (Nat.le_of_not_lt h)

/-- Effects of a frame, computed again in another one. The old slots and the heap are touched as
before, the same may be raised, and the new slots are touched exactly if `touched`. -/
structure Recomputed (f f' : Frame) (E E' : Effects) (touched : Prop) : Prop where
  frame_old : E.frame = f
  frame_new : E'.frame = f'
  heap_eq : E'.heap = E.heap
  throws_eq : E'.throws = E.throws
  old_slot : ∀ q, f.Has q → E'.slotAccess q = E.slotAccess q
  new_slot : ∀ q, f'.Has q → ¬ f.Has q → (E'.slotAccess q ≠ .untouched ↔ touched)

namespace Recomputed

variable {f f' : Frame} {D D' E E' : Effects} {touched touched₂ : Prop}

/-- The condition may be put in other words. -/
lemma congr (h : Recomputed f f' E E' touched) (hiff : touched ↔ touched₂) :
    Recomputed f f' E E' touched₂ :=
  propext hiff ▸ h

/-- Effects on the heap and exceptions do not depend on the frame. -/
lemma onHeap (f f' : Frame) (a : Access) (throws : Bool) :
    Recomputed f f' (.onHeap f a throws) (.onHeap f' a throws) False where
  frame_old := frame_bottom f
  frame_new := frame_bottom f'
  heap_eq := rfl
  throws_eq := rfl
  old_slot q _ := (slotAccess_bottom f' q).trans (slotAccess_bottom f q).symm
  new_slot q _ _ := iff_of_false (fun hq => hq (slotAccess_bottom f' q)) id

/-- Joined effects touch a new slot if one of the two does. -/
lemma absorb (hD : Recomputed f f' D D' touched) (hE : Recomputed f f' E E' touched₂) :
    Recomputed f f' (D.absorb E) (D'.absorb E') (touched ∨ touched₂) where
  frame_old := by rw [frame_absorb, hD.frame_old, hE.frame_old, Frame.sup_self]
  frame_new := by rw [frame_absorb, hD.frame_new, hE.frame_new, Frame.sup_self]
  heap_eq := by rw [heap_absorb, heap_absorb, hD.heap_eq, hE.heap_eq]
  throws_eq := by rw [throws_absorb, throws_absorb, hD.throws_eq, hE.throws_eq]
  old_slot q hq := by
    rw [slotAccess_absorb, slotAccess_absorb, hD.old_slot q hq, hE.old_slot q hq]
  new_slot q hq hnew := by
    rw [slotAccess_absorb, Access.sup_ne_untouched_iff, hD.new_slot q hq hnew,
      hE.new_slot q hq hnew]

/-- Where no new slot is touched, the effects computed again are the old ones, padded. -/
lemma eq_extend (h : Recomputed f f' E E' touched) (hcovers : f'.Covers f) (hnot : ¬ touched) :
    E' = E.extend f' := by
  apply eq_of_slotAccess
  · rw [h.frame_new, frame_extend, h.frame_old, Frame.sup_comm, hcovers.sup_eq]
  · intro q
    rw [slotAccess_extend]
    by_cases hold : f.Has q
    · exact h.old_slot q hold
    · have houtside : E.slotAccess q = .untouched := slotAccess_of_not_has (by rwa [h.frame_old])
      rw [houtside]
      by_cases hnew : f'.Has q
      · by_contra htouched
        exact hnot ((h.new_slot q hnew hold).1 htouched)
      · exact slotAccess_of_not_has (by rwa [h.frame_new])
  · exact h.heap_eq
  · exact h.throws_eq

end Recomputed

end Effects

/-- Accesses through a pointer touch a new slot exactly if it is a target. -/
lemma PointsTo.Recomputed.accessed {f f' : Frame} {p p' : PointsTo} {held : Prop}
    (h : PointsTo.Recomputed f f' p p' held) {a : Access} (ha : a ≠ .untouched) (throws : Bool) :
    Effects.Recomputed f f' { p.accessed a with throws } { p'.accessed a with throws } held where
  frame_old := (frame_accessed p a).trans h.frame_old
  frame_new := (frame_accessed p' a).trans h.frame_new
  heap_eq := congrArg (fun b : Bool => if b then a else .untouched) h.heap_eq
  throws_eq := rfl
  old_slot q hq := by
    change (p'.accessed a).slotAccess q = (p.accessed a).slotAccess q
    rw [slotAccess_accessed, slotAccess_accessed, h.old_slot q hq]
  new_slot q hq hnew := by
    change (p'.accessed a).slotAccess q ≠ .untouched ↔ held
    rw [slotAccess_accessed, ← h.new_slot q hq hnew]
    by_cases hcontains : p'.contains q = true
    · simp [hcontains, ha]
    · simp [hcontains]

/-! ## Steps in a larger frame -/

/-- Steps in a frame and steps in another one. If those in the first frame have effects, those in
the second have effects as well, which are the former ones computed again. -/
def StepsRecomputed (f f' : Frame) (steps steps' : List Step) (touched : Prop) : Prop :=
  ∀ E, Effects.ofSteps f steps = .ok E →
    ∃ E', Effects.ofSteps f' steps' = .ok E' ∧ Effects.Recomputed f f' E E' touched

namespace StepsRecomputed

variable {f f' : Frame} {steps steps' rest rest' : List Step} {touched touched₂ : Prop}

/-- The condition may be put in other words. -/
lemma congr (h : StepsRecomputed f f' steps steps' touched) (hiff : touched ↔ touched₂) :
    StepsRecomputed f f' steps steps' touched₂ :=
  propext hiff ▸ h

/-- There are no steps. -/
lemma nil : StepsRecomputed f f' [] [] False := by
  rintro E ⟨⟩
  exact ⟨_, rfl, .onHeap f f' .untouched false⟩

/-- Steps after steps. -/
lemma append (h : StepsRecomputed f f' steps steps' touched)
    (h₂ : StepsRecomputed f f' rest rest' touched₂) :
    StepsRecomputed f f' (steps ++ rest) (steps' ++ rest') (touched ∨ touched₂) := by
  intro E hE
  obtain ⟨A, B, hA, hB, rfl⟩ := Effects.ofSteps_append_eq_ok.1 hE
  obtain ⟨A', hA', hArecomputed⟩ := h A hA
  obtain ⟨B', hB', hBrecomputed⟩ := h₂ B hB
  exact ⟨_, Effects.ofSteps_append_eq_ok.2 ⟨A', B', hA', hB', rfl⟩,
    hArecomputed.absorb hBrecomputed⟩

/-- A single step. -/
lemma singleton {step step' : Step}
    (h : ∀ E, step = .ok E → ∃ E', step' = .ok E' ∧ Effects.Recomputed f f' E E' touched) :
    StepsRecomputed f f' [step] [step'] touched := by
  intro E hE
  cases step with
  | error fault => cases hE
  | ok D =>
    obtain rfl := Except.ok.inj hE
    obtain ⟨D', rfl, hD⟩ := h D rfl
    have hstart := Effects.Recomputed.onHeap f f' .untouched false
    exact ⟨_, rfl, (hstart.absorb hD).congr (by simp)⟩

/-- A step that touches the heap at most, and may raise. -/
lemma onHeap (a : Access) (throws : Bool) :
    StepsRecomputed f f' [.ok (.onHeap f a throws)] [.ok (.onHeap f' a throws)] False := by
  refine singleton ?_
  rintro E ⟨⟩
  exact ⟨_, rfl, .onHeap f f' a throws⟩

/-- What holds of the steps of each item holds of the steps of a list. -/
lemma flatMap {A : Type} {l : List A} {g g' : A → List Step} {touched : A → Prop}
    (h : ∀ a ∈ l, StepsRecomputed f f' (g a) (g' a) (touched a)) :
    StepsRecomputed f f' (l.flatMap g) (l.flatMap g') (∃ a ∈ l, touched a) := by
  induction l with
  | nil => exact nil.congr (by simp)
  | cons a l ih =>
    obtain ⟨ha, hl⟩ := List.forall_mem_cons.1 h
    rw [List.flatMap_cons, List.flatMap_cons]
    exact (ha.append (ih hl)).congr (by simp)

end StepsRecomputed

section Terms

variable {t t' : VarTable}

/-- The access through a pointer. -/
lemma Expr.recomputed_access (h : t.ExtendedTo t') (e : Expr) {a : Access} (ha : a ≠ .untouched)
    (throws : Bool) :
    StepsRecomputed t.frame t'.frame
      [(e.pointsTo t).map fun p => { p.accessed a with throws }]
      [(e.pointsTo t').map fun p => { p.accessed a with throws }] (e.MayComeFromLocal t) := by
  refine .singleton fun E hE => ?_
  cases hp : e.pointsTo t with
  | error fault =>
    rw [hp] at hE
    cases hE
  | ok p =>
    obtain ⟨p', hp', hrecomputed⟩ := e.targetsRecomputed h p hp
    rw [hp] at hE
    cases hE
    exact ⟨_, by rw [hp']; rfl, hrecomputed.accessed ha throws⟩

/-- The access to a cell goes through the pointer to the cell. -/
lemma Cell.recomputed_accessSteps (h : t.ExtendedTo t') (c : Cell) {a : Access}
    (ha : a ≠ .untouched) :
    StepsRecomputed t.frame t'.frame (c.accessSteps t a) (c.accessSteps t' a)
      (∃ p ∈ c.pointers, p.MayComeFromLocal t) := by
  rw [accessSteps_eq c ha, accessSteps_eq c ha]
  exact (Expr.recomputed_access h (.addressOf c) ha c.mayRaise).congr
    Expr.mayComeFromLocal_addressOf_iff

namespace Expr

/-- An unknown operation may touch what its operands point at. -/
lemma recomputed_unknownSteps (h : t.ExtendedTo t') (operands : List Expr) :
    StepsRecomputed t.frame t'.frame (unknownSteps t operands) (unknownSteps t' operands)
      (∃ p ∈ operands, p.MayComeFromLocal t) := by
  have hwrites := StepsRecomputed.flatMap fun (e : Expr) (_ : e ∈ operands) =>
    recomputed_access h e (a := .write) (by decide) false
  rw [unknownSteps, unknownSteps, List.map_eq_flatMap, List.map_eq_flatMap]
  exact (hwrites.append (.onHeap .write true)).congr (by rw [or_false])

/-- The operation of a node. -/
lemma recomputed_ownSteps (h : t.ExtendedTo t') (e : Expr) :
    StepsRecomputed t.frame t'.frame (e.ownSteps t) (e.ownSteps t')
      (∃ p ∈ e.pointersUsed, p.MayComeFromLocal t) := by
  cases e with
  | read c => exact c.recomputed_accessSteps h (by decide)
  | binary op left right =>
    have hnone : False ↔ ∃ p ∈ (binary op left right).pointersUsed, p.MayComeFromLocal t := by
      simp [pointersUsed]
    rw [ownSteps, ownSteps]
    split
    · exact .congr (.onHeap .untouched true) hnone
    · exact StepsRecomputed.nil.congr hnone
  | call method args => exact recomputed_unknownSteps h args
  | callOn method receiver args => exact recomputed_unknownSteps h (receiver :: args)
  | construct method args => exact recomputed_unknownSteps h args
  | marshalOut value => exact recomputed_unknownSteps h [value]
  | marshalIn value => exact recomputed_unknownSteps h [value]
  | _ => exact StepsRecomputed.nil.congr (by simp [pointersUsed])

/-- The steps of several expressions are those of each one. -/
lemma allSteps_eq_flatMap (t : VarTable) (es : List Expr) :
    allSteps t es = es.flatMap fun e => e.steps t := by
  induction es with
  | nil => rfl
  | cons e es ih => rw [allSteps, List.flatMap_cons, ih]

/-- The evaluation of an expression. -/
lemma recomputed_steps (h : t.ExtendedTo t') (e : Expr) :
    StepsRecomputed t.frame t'.frame (e.steps t) (e.steps t') (e.UsesPointerOfLocal t) := by
  induction e using Expr.induct_parts with
  | step e ih =>
    rw [steps_eq, steps_eq, allSteps_eq_flatMap, allSteps_eq_flatMap]
    exact ((StepsRecomputed.flatMap ih).append (recomputed_ownSteps h e)).congr
      usesPointerOfLocal_iff.symm

end Expr

/-- The access to a cell, its operands included. -/
lemma Cell.recomputed_steps (h : t.ExtendedTo t') (c : Cell) {a : Access} (ha : a ≠ .untouched) :
    StepsRecomputed t.frame t'.frame (c.steps t a) (c.steps t' a)
      ((Expr.read c).UsesPointerOfLocal t) := by
  have hoperands := StepsRecomputed.flatMap fun (e : Expr) (_ : e ∈ c.parts) =>
    e.recomputed_steps h
  rw [steps, steps, Expr.operandSteps_eq, Expr.operandSteps_eq, Expr.allSteps_eq_flatMap,
    Expr.allSteps_eq_flatMap]
  exact (hoperands.append (c.recomputed_accessSteps h ha)).congr
    (Expr.usesPointerOfLocal_iff (e := .read c)).symm

namespace Stmt

mutual

/-- The execution of a statement. -/
lemma recomputed_steps (h : t.ExtendedTo t') (s : Stmt) :
    StepsRecomputed t.frame t'.frame (s.steps t) (s.steps t') (s.UsesPointerOfLocal t) := by
  unfold UsesPointerOfLocal
  cases s with
  | eval value =>
    rw [steps, steps]
    exact (value.recomputed_steps h).congr (by simp [exprs])
  | assign target value =>
    rw [steps, steps]
    exact ((value.recomputed_steps h).append (target.recomputed_steps h (by decide))).congr
      (by simp [exprs])
  | ret value =>
    cases value with
    | none => exact StepsRecomputed.nil.congr (by simp [exprs])
    | some value =>
      rw [steps, steps]
      exact (value.recomputed_steps h).congr (by simp [exprs])
  | raise exception =>
    rw [steps, steps]
    exact ((exception.recomputed_steps h).append (.onHeap .untouched true)).congr (by simp [exprs])
  | branch cond onTrue onFalse =>
    rw [steps, steps]
    have hcond := cond.recomputed_steps h
    exact ((hcond.append (recomputed_blockSteps h onTrue)).append
      (recomputed_blockSteps h onFalse)).congr (by simp [exprs, or_and_right, exists_or, or_assoc])

/-- The execution of a block. -/
lemma recomputed_blockSteps (h : t.ExtendedTo t') (block : List Stmt) :
    StepsRecomputed t.frame t'.frame (blockSteps t block) (blockSteps t' block)
      (∃ e ∈ blockExprs block, e.UsesPointerOfLocal t) := by
  cases block with
  | nil => exact StepsRecomputed.nil.congr (by simp [blockExprs])
  | cons s rest =>
    rw [blockSteps, blockSteps]
    exact ((recomputed_steps h s).append (recomputed_blockSteps h rest)).congr
      (by simp [UsesPointerOfLocal, blockExprs, or_and_right, exists_or])

end

end Stmt

end Terms

/-- Effects survive the declaration of locals. If an expression or a statement has effects in a
table, it has effects in every table that is made from it by declaring locals. The heap, exceptions
and the old slots are as before. A new slot is touched exactly if the term dereferences a pointer
that may come from a local of a pointer type, or passes one to an operation that is not looked into;
otherwise the new effects are the old ones, padded. What counts as a value among the expressions
with old variables stays the same. -/
theorem effects_recomputed_of_grownTo {t t' : VarTable} (h : t.GrownTo t') :
    (∀ (e : Expr) (E : Effects), e.effects t = .ok E → ∃ E', e.effects t' = .ok E' ∧
      Effects.Recomputed t.frame t'.frame E E' (e.UsesPointerOfLocal t) ∧
      (¬ e.UsesPointerOfLocal t → E' = E.extend t'.frame)) ∧
    (∀ (s : Stmt) (E : Effects), s.effects t = .ok E → ∃ E', s.effects t' = .ok E' ∧
      Effects.Recomputed t.frame t'.frame E E' (s.UsesPointerOfLocal t) ∧
      (¬ s.UsesPointerOfLocal t → E' = E.extend t'.frame)) ∧
    ∀ e : Expr, e.allNodes (inScope t.size) = true → e.isValue t' = e.isValue t := by
  have hextended := h.extendedTo
  refine ⟨fun e E hE => ?_, fun s E hE => ?_, fun e => Expr.isValue_eq_of_extendedTo hextended⟩
  · obtain ⟨E', hE', hrecomputed⟩ := e.recomputed_steps hextended E hE
    exact ⟨E', hE', hrecomputed, hrecomputed.eq_extend hextended.covers⟩
  · obtain ⟨E', hE', hrecomputed⟩ := s.recomputed_steps hextended E hE
    exact ⟨E', hE', hrecomputed, hrecomputed.eq_extend hextended.covers⟩

/-! ## A store through a local -/

/-- The table of a method with a parameter, a local, and a local of a pointer type. -/
def holderVars : VarTable :=
  ((VarTable.empty.declareArgument "a" (sampleType false)).declareLocal "x" (sampleType false)
    {}).declareLocal "p" (sampleType true) {}

/-- The table with one more local. -/
def grownHolderVars : VarTable :=
  holderVars.declareFresh (sampleType false) { init := true }

/-- Reads `x` through its address. -/
def loadThroughAddress : Expr :=
  .read (.deref (.addressOf (.var ⟨1⟩)))

/-- Stores `a` where `p` points, or into `x`. -/
def storeThroughHolder : Stmt :=
  .assign (.deref (.conditional (.readVar ⟨0⟩) (.readVar ⟨2⟩) (.addressOf (.var ⟨1⟩))))
    (.readVar ⟨0⟩)

/-- The load has the old effects, padded. The store may write the new local too, because it uses the
pointer that `p` holds. -/
theorem effects_recomputed_holderVars :
    holderVars.GrownTo grownHolderVars ∧
    (loadThroughAddress.effects holderVars =
        .ok ⟨⟨[.untouched]⟩, ⟨[.read, .untouched]⟩, .untouched, false⟩ ∧
      loadThroughAddress.effects grownHolderVars =
        .ok ⟨⟨[.untouched]⟩, ⟨[.read, .untouched, .untouched]⟩, .untouched, false⟩ ∧
      ¬ loadThroughAddress.UsesPointerOfLocal holderVars) ∧
    (storeThroughHolder.effects holderVars =
        .ok ⟨⟨[.write]⟩, ⟨[.write, .write]⟩, .write, false⟩ ∧
      storeThroughHolder.effects grownHolderVars =
        .ok ⟨⟨[.write]⟩, ⟨[.write, .write, .write]⟩, .write, false⟩ ∧
      storeThroughHolder.UsesPointerOfLocal holderVars) ∧
    (Expr.readVar ⟨1⟩).allNodes (inScope holderVars.size) = true ∧
    (Expr.readVar ⟨1⟩).isValue grownHolderVars = (Expr.readVar ⟨1⟩).isValue holderVars := by
  have hgrown : holderVars.GrownTo grownHolderVars := .declareFresh _ _ .refl
  obtain ⟨hexpr, hstmt, hvalue⟩ := effects_recomputed_of_grownTo hgrown
  have hhas : grownHolderVars.frame.Has (.localVar 2) := by
    change 2 < 3
    decide
  have hnew : ¬ holderVars.frame.Has (.localVar 2) := by
    change ¬ 2 < 2
    decide
  refine ⟨hgrown, ⟨rfl, rfl, ?_⟩, ⟨rfl, rfl, ?_⟩, rfl, hvalue _ rfl⟩
  · obtain ⟨E', hE', hrecomputed, -⟩ := hexpr loadThroughAddress _ rfl
    cases hE'
    rw [← hrecomputed.new_slot _ hhas hnew]
    decide
  · obtain ⟨E', hE', hrecomputed, -⟩ := hstmt storeThroughHolder _ rfl
    cases hE'
    rw [← hrecomputed.new_slot _ hhas hnew]
    decide

end Inliner
