import Inliner.Proofs.EffectOrder
import Mathlib.Data.List.Nodup

/-!
# The slots of declared variables

The slot of a variable is counted from the declarations before it. So every declared variable has a
slot inside the frame of its table, distinct variables have distinct slots, and declaring more
variables moves none. Together with this, an access to the slot of a declared variable is one that
the effects of the access show.
-/

namespace Inliner

/-- The slot belongs to the frame. -/
def Frame.Has (f : Frame) : Slot → Prop
  | .argument i => i < f.args
  | .localVar i => i < f.locals

/-- An access to a slot of the frame shows in its effects. -/
lemma Effects.slotAccess_onSlot_self {f : Frame} {p : Slot} (h : f.Has p) (a : Access) :
    (Effects.onSlot f p a).slotAccess p = a := by
  cases p with
  | argument i =>
    change (AccessVector.touching f.args [i] a).get i = a
    rw [AccessVector.get_touching, if_pos ⟨h, by simp⟩]
  | localVar i =>
    change (AccessVector.touching f.locals [i] a).get i = a
    rw [AccessVector.get_touching, if_pos ⟨h, by simp⟩]

namespace VarTable

/-- Counting one declaration further. -/
lemma countOf_take_succ {vars : List Variable} {i : Nat} {v : Variable} (hv : vars[i]? = some v)
    (s : Storage) :
    countOf s (vars.take (i + 1)) = countOf s (vars.take i) + if v.storage == s then 1 else 0 := by
  rw [List.take_add_one, hv]
  simp [countOf, List.countP_append, List.countP_cons]

/-- Counting further does not make less. -/
lemma countOf_take_mono (vars : List Variable) (s : Storage) {i j : Nat} (h : i ≤ j) :
    countOf s (vars.take i) ≤ countOf s (vars.take j) :=
  (List.take_sublist_take_left h).countP_le

/-- Fewer variables of its class stand before a variable than there are. -/
lemma countOf_take_lt {vars : List Variable} {i j : Nat} {v : Variable} (hv : vars[i]? = some v)
    (h : i < j) : countOf v.storage (vars.take i) < countOf v.storage (vars.take j) := by
  have hsucc := countOf_take_succ hv v.storage
  have hmono := countOf_take_mono vars v.storage (show i + 1 ≤ j from h)
  rw [beq_self_eq_true, if_pos rfl] at hsucc
  omega

variable {t : VarTable} {id id' : VarId} {v w : Variable}

/-- The slot of a declared variable belongs to the frame. -/
lemma has_slotOf (hv : t.get? id = some v) : t.frame.Has (t.slotOf id v) := by
  have hi : id.index < t.vars.length := (List.getElem?_eq_some_iff.1 hv).1
  have hlt := countOf_take_lt hv hi
  rw [List.take_length] at hlt
  unfold slotOf
  cases hs : v.storage with
  | argument =>
    rw [hs] at hlt
    exact hlt
  | localVar =>
    rw [hs] at hlt
    exact hlt

/-- Distinct variables have distinct slots. -/
lemma slotOf_inj (hv : t.get? id = some v) (hw : t.get? id' = some w)
    (h : t.slotOf id v = t.slotOf id' w) : id = id' := by
  have hstorage : v.storage = w.storage ∧
      countOf v.storage (t.vars.take id.index) = countOf v.storage (t.vars.take id'.index) := by
    unfold slotOf at h
    cases hs : v.storage <;> cases hs' : w.storage <;> simp only [hs, hs'] at h <;> simp_all
  obtain ⟨hs, hcount⟩ := hstorage
  rcases Nat.lt_trichotomy id.index id'.index with hlt | heq | hlt
  · exact absurd hcount (Nat.ne_of_lt (countOf_take_lt hv hlt))
  · cases id
    cases id'
    exact congrArg VarId.mk heq
  · have := countOf_take_lt hw hlt
    rw [← hs] at this
    exact absurd hcount.symm (Nat.ne_of_lt this)

/-- The listed variables of a storage class are the declared ones. -/
lemma mem_idsOf {s : Storage} : id ∈ t.idsOf s ↔ ∃ v, t.get? id = some v ∧ v.storage = s := by
  unfold idsOf get?
  simp only [List.mem_map, List.mem_filter, Prod.exists, List.mem_zipIdx_iff_getElem?, beq_iff_eq]
  constructor
  · rintro ⟨v, i, ⟨hv, hs⟩, rfl⟩
    exact ⟨v, hv, hs⟩
  · rintro ⟨v, hv, hs⟩
    exact ⟨v, id.index, ⟨hv, hs⟩, rfl⟩

/-- The variables of a table are its parameters and its locals. -/
lemma mem_arguments_append_locals (hid : id.index < t.size) : id ∈ t.arguments ++ t.locals := by
  have hv : t.get? id = some t.vars[id.index] := List.getElem?_eq_getElem hid
  rw [List.mem_append]
  cases hs : t.vars[id.index].storage with
  | argument => exact .inl (mem_idsOf.2 ⟨_, hv, hs⟩)
  | localVar => exact .inr (mem_idsOf.2 ⟨_, hv, hs⟩)

/-- No variable is a parameter and a local. -/
lemma not_mem_locals (hid : id ∈ t.arguments) : id ∉ t.locals := by
  intro hlocal
  obtain ⟨v, hv, hs⟩ := mem_idsOf.1 hid
  obtain ⟨w, hw, hs'⟩ := mem_idsOf.1 hlocal
  rw [hv] at hw
  cases hw
  rw [hs] at hs'
  cases hs'

/-- No variable is listed twice. -/
lemma nodup_idsOf (t : VarTable) (s : Storage) : (t.idsOf s).Nodup := by
  have hall : (t.vars.zipIdx.map fun q => VarId.mk q.2).Nodup := by
    have hcomp : (t.vars.zipIdx.map fun q => VarId.mk q.2) =
        (t.vars.zipIdx.map Prod.snd).map VarId.mk := by
      rw [List.map_map]
      rfl
    rw [hcomp, List.zipIdx_map_snd]
    exact List.Nodup.map (fun i j h => VarId.mk.inj h) List.nodup_range'
  exact hall.sublist (List.filter_sublist.map _)

/-- A declared variable has a slot. -/
lemma slot_eq_ok (hv : t.get? id = some v) : t.slot id = .ok (t.slotOf id v) := by
  simp [slot, get, hv, Except.map]

/-! ### Reading variables -/

variable {V H X : Type}

/-- Reads the slot of a variable. One that is not declared reads as `default`. -/
def readSlot (t : VarTable) (default : V) (id : VarId) : Computation V H X V := fun s =>
  .ok ((t.get? id).elim default fun v => s.slot (t.slotOf id v)) s

/-- Reading a variable respects the effects of the node that reads it. -/
lemma respects_readSlot {E : Effects}
    (hE : Effects.ofSteps t.frame ((Expr.readVar id).ownSteps t) = .ok E) (default : V) :
    Respects E (t.readSlot default id : Computation V H X V) := by
  refine .of_final_eq (fun _ => rfl) (fun {s s'} hst => ?_) fun hx => by cases hx
  -- The slot of a declared variable is marked as read.
  cases hv : t.get? id with
  | none => simp [readSlot, hv]
  | some v =>
    have hstep : .ok (.onSlot t.frame (t.slotOf id v) .read) ∈ (Expr.readVar id).ownSteps t := by
      simp [Expr.ownSteps, Cell.accessSteps, slot_eq_ok hv, Except.map]
    obtain ⟨d, hd, hwithin⟩ := Effects.within_ofSteps hE hstep
    cases hd
    have hrank := hwithin.slot (t.slotOf id v)
    rw [Effects.slotAccess_onSlot_self (has_slotOf hv)] at hrank
    have hslot := hst.slot (t.slotOf id v) (Access.ne_untouched_of_rank_le hrank (by decide))
    simp [readSlot, hv, hslot]

end VarTable

end Inliner
