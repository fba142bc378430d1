import Inliner.Pass.Terms
import Inliner.Proofs.Accumulation
import Inliner.Proofs.PointerSoundness

/-!
# Access through the address of a cell

The target of a pointer to a cell is the cell, and the walk over terms writes it so. For the analysis
`*&c` and `c` are two terms. An access to `c` is read off the form of the cell, and an access to `*&c`
off the targets of the pointer. Both touch the same places (`Cell.accessSteps_eq`). They differ in one
point only. An access to a field of an object or to an element of an array may raise, while no access
through a pointer does, and neither does taking an address.
-/

namespace Inliner

/-- An access to the cell may raise an exception, because there may be no object, or no such
element. -/
def Cell.mayRaise : Cell → Bool
  | .field _ _ => true
  | .element _ _ => true
  | _ => false

/-! ## Single accesses -/

namespace PointsTo

variable {f : Frame}

lemma frame_accessed (p : PointsTo) (a : Access) : (p.accessed a).frame = p.frame := by
  unfold accessed Effects.frame frame
  rw [AccessVector.length_touching, AccessVector.length_touching]

/-- A pointer to a slot has no other target. -/
lemma contains_toSlot_of_ne {q r : Slot} {p : PointsTo} (h : toSlot f q = .ok p) (hne : r ≠ q) :
    p.contains r = false := by
  have hsingleton : ∀ {n i j : Nat} {s : SlotSet}, SlotSet.singleton? n i = some s → j ≠ i →
      s.contains j = false := by
    intro n i j s hs hj
    unfold SlotSet.singleton? SlotSet.insert? at hs
    split at hs
    · cases hs
      rw [SlotSet.contains_insert, SlotSet.contains_empty, decide_eq_false hj]
      rfl
    · cases hs
  unfold toSlot at h
  split at h
  · rename_i p' hp
    cases h
    cases q with
    | argument i =>
      obtain ⟨s, hs, rfl⟩ := Option.map_eq_some_iff.1 hp
      cases r with
      | argument j => exact hsingleton hs fun hj => hne (by rw [hj])
      | localVar j => exact SlotSet.contains_empty _ _
    | localVar i =>
      obtain ⟨s, hs, rfl⟩ := Option.map_eq_some_iff.1 hp
      cases r with
      | argument j => exact SlotSet.contains_empty _ _
      | localVar j => exact hsingleton hs fun hj => hne (by rw [hj])
  · cases h

lemma heap_toSlot {q : Slot} {p : PointsTo} (h : toSlot f q = .ok p) : p.heap = false := by
  unfold toSlot at h
  split at h
  · rename_i p' hp
    cases h
    cases q <;> obtain ⟨s, -, rfl⟩ := Option.map_eq_some_iff.1 hp <;> rfl
  · cases h

/-- An access through a pointer to a slot of the frame is an access to the slot. -/
lemma accessed_toSlot {q : Slot} {p : PointsTo} (hq : f.Has q) (h : toSlot f q = .ok p)
    (hframe : p.frame = f) (a : Access) : p.accessed a = .onSlot f q a := by
  apply Effects.eq_of_slotAccess
  · rw [frame_accessed, hframe]
    cases q <;> simp [Effects.onSlot, Effects.frame, Effects.bottom]
  · intro r
    rw [slotAccess_accessed]
    by_cases hr : r = q
    · rw [hr, contains_toSlot h, if_pos rfl, Effects.slotAccess_onSlot_self hq]
    · rw [contains_toSlot_of_ne h hr, Effects.slotAccess_onSlot_of_ne f a hr]
      rfl
  · rw [Effects.heap_onSlot, accessed, heap_toSlot h]
    rfl
  · rw [Effects.throws_onSlot]
    rfl

/-- An access through a pointer into the heap is an access to the heap. -/
lemma accessed_toHeap (f : Frame) (a : Access) :
    (toHeap f).accessed a = .onHeap f a false := by
  apply Effects.eq_of_slotAccess
  · rw [frame_accessed]
    simp [toHeap, frame, bottom, SlotSet.empty, Effects.onHeap, Effects.frame, Effects.bottom]
  · intro q
    have hnone : (toHeap f).contains q = false := by
      cases q <;> exact SlotSet.contains_empty _ _
    rw [slotAccess_accessed, hnone]
    exact (Effects.slotAccess_bottom f q).symm
  · rfl
  · rfl

end PointsTo

namespace Cell

variable {vars : VarTable} {a : Access}

/-- An access to a cell touches what a pointer to the cell points at, and may raise if the cell is a
field of an object or an element. -/
lemma accessSteps_eq (c : Cell) (ha : a ≠ .untouched) :
    c.accessSteps vars a =
      [(c.addressPointsTo vars).map fun p => { p.accessed a with throws := c.mayRaise }] := by
  have hheap : ∀ throws : Bool,
      { (PointsTo.toHeap vars.frame).accessed a with throws } =
        Effects.onHeap vars.frame a throws := by
    intro throws
    rw [PointsTo.accessed_toHeap]
    rfl
  cases c with
  | var id =>
    cases hv : vars.get? id with
    | none => simp [accessSteps, addressPointsTo, VarTable.slot, VarTable.get, hv, Except.map, bind,
        Except.bind]
    | some v =>
      have hhas := VarTable.has_slotOf hv
      obtain ⟨p, hp, hframe⟩ := PointsTo.exists_toSlot hhas
      have haccessed := PointsTo.accessed_toSlot hhas hp hframe a
      have haddress : (var id).addressPointsTo vars = .ok p := by
        rw [addressPointsTo, VarTable.slot_eq_ok hv]
        exact hp
      rw [accessSteps, VarTable.slot_eq_ok hv, haddress]
      exact congrArg (fun E => [Except.ok E]) haccessed.symm
  | field object member => exact congrArg (fun E => [Except.ok E]) (hheap true).symm
  | static member => exact congrArg (fun E => [Except.ok E]) (hheap false).symm
  | element array index => exact congrArg (fun E => [Except.ok E]) (hheap true).symm
  | deref pointer =>
    cases a with
    | untouched => exact absurd rfl ha
    | read => rfl
    | write => rfl

/-- An access through the address of a cell evaluates the operands of the cell, and touches what the
address points at. -/
lemma steps_deref_addressOf (c : Cell) (ha : a ≠ .untouched) :
    (deref (.addressOf c)).steps vars a =
      c.operandSteps vars ++ [(c.addressPointsTo vars).map fun p => p.accessed a] := by
  rw [steps, accessSteps_eq _ ha]
  rfl

end Cell

/-! ## Accesses in sequence -/

/-- Effects that may raise besides are absorbed like the effects themselves. -/
lemma Effects.absorb_throws (d e : Effects) (throws : Bool) :
    d.absorb { e with throws } = { d.absorb e with throws := d.throws || throws } :=
  rfl

/-- Dereferencing the address of a cell and accessing the cell, which is what the walk over terms
makes of it, are at fault in the same way. Where they are not, they have the same effects, except that
the access to a field of an object or to an element may raise besides. The access through the address
may raise only if what came before it may, the operands of the cell included. -/
theorem accumulate_deref_addressOf (vars : VarTable) (c : Cell) {a : Access} (ha : a ≠ .untouched)
    (acc : Effects) :
    Pass.target (.addressOf c) = c ∧
    (acc.accumulate ((Cell.deref (.addressOf c)).steps vars a)).2 =
      (acc.accumulate (c.steps vars a)).2 ∧
    ∀ through direct, acc.accumulate ((Cell.deref (.addressOf c)).steps vars a) = (through, none) →
      acc.accumulate (c.steps vars a) = (direct, none) →
      direct = { through with throws := through.throws || c.mayRaise } ∧
        through.throws = (acc.accumulate (c.operandSteps vars)).1.throws := by
  have hdirect : c.steps vars a = c.operandSteps vars ++
      [(c.addressPointsTo vars).map fun p => { p.accessed a with throws := c.mayRaise }] := by
    rw [Cell.steps, Cell.accessSteps_eq c ha]
  rw [Cell.steps_deref_addressOf c ha, hdirect, Effects.accumulate_append,
    Effects.accumulate_append]
  refine ⟨rfl, ?_⟩
  cases hfault : (acc.accumulate (c.operandSteps vars)).2 with
  | some fault =>
    refine ⟨rfl, fun through direct hthrough _ => ?_⟩
    rw [show acc.accumulate (c.operandSteps vars) = (through, none) from hthrough] at hfault
    cases hfault
  | none =>
    cases c.addressPointsTo vars with
    | error fault =>
      refine ⟨rfl, fun through direct hthrough _ => ?_⟩
      cases hthrough
    | ok p =>
      refine ⟨rfl, fun through direct hthrough hdirect => ?_⟩
      cases hthrough
      cases hdirect
      have hthrows : ((acc.accumulate (c.operandSteps vars)).1.absorb (p.accessed a)).throws =
          (acc.accumulate (c.operandSteps vars)).1.throws := by
        rw [Effects.throws_absorb, show (p.accessed a).throws = false from rfl, Bool.or_false]
      exact ⟨by rw [Effects.absorb_throws, hthrows], hthrows⟩

/-! ## A field of an argument -/

/-- The table of a method that is given a node. -/
def nodeVars : VarTable :=
  VarTable.empty.declareArgument "node" ⟨"app", "Node", false⟩

/-- The field `next` of that node. -/
def nextCell : Cell :=
  .field (.readVar ⟨0⟩) ⟨⟨"app", "Node", false⟩, "next"⟩

/-- Reading the field reads the argument and the heap, and it may raise. Reading it through its address
does the same, but it does not raise. -/
theorem accumulate_deref_addressOf_nextCell :
    Access.read ≠ .untouched ∧
    (Effects.bottom nodeVars.frame).accumulate
      ((Cell.deref (.addressOf nextCell)).steps nodeVars .read) =
        (⟨⟨[.read]⟩, ⟨[]⟩, .read, false⟩, none) ∧
    (Effects.bottom nodeVars.frame).accumulate (nextCell.steps nodeVars .read) =
      (⟨⟨[.read]⟩, ⟨[]⟩, .read, true⟩, none) ∧
    (⟨⟨[.read]⟩, ⟨[]⟩, .read, true⟩ : Effects) =
      { (⟨⟨[.read]⟩, ⟨[]⟩, .read, false⟩ : Effects) with throws := false || nextCell.mayRaise } ∧
    false = ((Effects.bottom nodeVars.frame).accumulate (nextCell.operandSteps nodeVars)).1.throws := by
  have ha : Access.read ≠ .untouched := by decide
  have hthrough : (Effects.bottom nodeVars.frame).accumulate
      ((Cell.deref (.addressOf nextCell)).steps nodeVars .read) =
        (⟨⟨[.read]⟩, ⟨[]⟩, .read, false⟩, none) := rfl
  have hdirect : (Effects.bottom nodeVars.frame).accumulate (nextCell.steps nodeVars .read) =
      (⟨⟨[.read]⟩, ⟨[]⟩, .read, true⟩, none) := rfl
  exact ⟨ha, hthrough, hdirect,
    (accumulate_deref_addressOf nodeVars nextCell ha _).2.2 _ _ hthrough hdirect⟩

/-- So the effects of an access are not always those of the access through the address. -/
theorem not_forall_accumulate_deref_eq :
    ¬ ∀ (vars : VarTable) (c : Cell) (a : Access) (through direct : Effects), a ≠ .untouched →
      (Effects.bottom vars.frame).accumulate ((Cell.deref (.addressOf c)).steps vars a) =
        (through, none) →
      (Effects.bottom vars.frame).accumulate (c.steps vars a) = (direct, none) →
      through = direct := by
  intro h
  have heq := h nodeVars nextCell .read ⟨⟨[.read]⟩, ⟨[]⟩, .read, false⟩
    ⟨⟨[.read]⟩, ⟨[]⟩, .read, true⟩ (by decide) rfl rfl
  exact absurd (congrArg Effects.throws heq) (by decide)

end Inliner
