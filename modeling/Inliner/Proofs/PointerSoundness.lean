import Inliner.Proofs.PointerRuns
import Inliner.Proofs.Scoping
import Inliner.Proofs.SlotSets

/-!
# The analyses are sound for pointers into the frame

In a run that keeps to the rules for pointers, a statement changes no slot that its effects do not
show as written, and a node that evaluates to a pointer has the slot among its pointer targets
(`sound_of_rules`).

The invariant of such a run is that only locals of pointer types hold pointers into the frame, and
that these point at declared variables of other types (`Tidy`). A step of a run is described by a
list of analysed steps (`Keeps`): it keeps the invariant, it adds sound events to the trace, and it
changes only slots that one of the analysed steps writes.
-/

namespace Inliner

/-! ## Pointer targets -/

namespace PointsTo

/-- The slot is among the targets. -/
def contains (p : PointsTo) : Slot → Bool
  | .argument i => p.args.contains i
  | .localVar i => p.locals.contains i

/-- A pointer that may point anywhere may point at every slot of the frame. -/
lemma contains_top {f : Frame} {q : Slot} (h : f.Has q) : (top f).contains q = true := by
  cases q with
  | argument i => exact (SlotSet.contains_full f.args i).trans (decide_eq_true h)
  | localVar i => exact (SlotSet.contains_full f.locals i).trans (decide_eq_true h)

/-- A pointer to a slot has it as a target. -/
lemma contains_toSlot {f : Frame} {q : Slot} {p : PointsTo} (h : toSlot f q = .ok p) :
    p.contains q = true := by
  unfold toSlot at h
  split at h
  · rename_i r hr
    cases h
    cases q with
    | argument i =>
      obtain ⟨s, hs, rfl⟩ := Option.map_eq_some_iff.1 hr
      exact SlotSet.contains_singleton hs
    | localVar i =>
      obtain ⟨s, hs, rfl⟩ := Option.map_eq_some_iff.1 hr
      exact SlotSet.contains_singleton hs
  · cases h

/-- A join has the targets of both. -/
lemma contains_join {p q r : PointsTo} (h : Domain.join p q = some r) (x : Slot) :
    r.contains x = (p.contains x || q.contains x) := by
  obtain ⟨hargs, hlocals, -⟩ := join_eq_some.1 h
  cases x with
  | argument i => exact SlotSet.contains_join hargs i
  | localVar i => exact SlotSet.contains_join hlocals i

lemma contains_joined {p q r : PointsTo} (h : p.joined q = .ok r) (x : Slot) :
    r.contains x = (p.contains x || q.contains x) := by
  unfold joined at h
  split at h
  · cases h
    exact contains_join ‹_› x
  · cases h

/-- An access through a pointer touches its targets. -/
lemma slotAccess_accessed (p : PointsTo) (a : Access) (q : Slot) :
    (p.accessed a).slotAccess q = if p.contains q then a else .untouched := by
  have hget : ∀ (s : SlotSet) (i : Nat), (AccessVector.touching s.capacity s.toList a).get i =
      if s.contains i then a else .untouched := by
    intro s i
    rw [AccessVector.get_touching]
    by_cases hi : s.contains i = true
    · rw [if_pos ⟨SlotSet.lt_capacity_of_contains hi, SlotSet.mem_toList.2 hi⟩, if_pos hi]
    · rw [if_neg fun h => hi (SlotSet.mem_toList.1 h.2), if_neg hi]
  cases q with
  | argument i => exact hget p.args i
  | localVar i => exact hget p.locals i

/-- Writing through a pointer writes its targets. -/
lemma slotAccess_writeEffects {p : PointsTo} {q : Slot} (h : p.contains q = true) :
    p.writeEffects.slotAccess q = .write := by
  rw [writeEffects, slotAccess_accessed, if_pos h]

end PointsTo

namespace VarTable

variable {vars : VarTable}

/-- The slot of a declared variable is one of a pointer type exactly if the variable is of one. -/
lemma isByRef_slotOf {id : VarId} {v : Variable} (hv : vars.get? id = some v) :
    vars.isByRef (vars.slotOf id v) = v.type.isPointer := by
  unfold isByRef
  rw [Bool.eq_iff_iff, List.any_eq_true]
  constructor
  · rintro ⟨⟨w, i⟩, hmem, hw⟩
    rw [Bool.and_eq_true, beq_iff_eq] at hw
    have hget : vars.get? ⟨i⟩ = some w := List.mem_zipIdx_iff_getElem?.1 hmem
    obtain rfl := slotOf_inj hget hv hw.2
    rw [hget] at hv
    cases hv
    exact hw.1
  · intro hpointer
    refine ⟨⟨v, id.index⟩, List.mem_zipIdx_iff_getElem?.2 hv, ?_⟩
    rw [Bool.and_eq_true, beq_iff_eq]
    exact ⟨hpointer, rfl⟩

/-- The slot of a declared variable that is of no pointer type. -/
structure IsTarget (vars : VarTable) (q : Slot) : Prop where
  has : vars.frame.Has q
  notByRef : vars.isByRef q = false

/-- The slot is one of a local of a pointer type. -/
def isByRefLocal (vars : VarTable) : Slot → Bool
  | .argument _ => false
  | .localVar i => vars.isByRef (.localVar i)

end VarTable

/-! ## Sound events -/

variable {F H X A B : Type}

/-- The analyses are right about what happened, wherever they succeed, and they succeed if it has to
do with declared variables only. The slot that a node evaluates to is among its pointer targets; the
slots that a statement changes are written according to its effects. -/
def RunEvent.Sound (vars : VarTable) : RunEvent F → Prop
  | .evaluated e _ v =>
    (e.allNodes (inScope vars.size) = true → ∃ p, e.pointsTo vars = .ok p) ∧
      ∀ p, e.pointsTo vars = .ok p → ∀ q, v = .pointer q → p.contains q = true
  | .executed s before after =>
    (s.allNodes (inScope vars.size) = true → ∃ E, s.effects vars = .ok E) ∧
      ∀ E, s.effects vars = .ok E → ∀ q, after q ≠ before q → E.slotAccess q = .write
  | _ => True

/-- The event follows all rules. -/
structure RunEvent.Permitted (vars : VarTable) (ev : RunEvent F) : Prop where
  stored : ev.keepsToByRef vars = true
  parameters : ev.sparesParameters = true
  indirection : ev.avoidsIndirection vars = true
  returned : ev.returnsForeign = true

/-- Only locals of pointer types hold pointers into the frame, and these point at variables of other
types. -/
def Tidy (vars : VarTable) (frame : Contents F) : Prop :=
  ∀ q r, frame q = .pointer r → vars.isByRefLocal q = true ∧ vars.IsTarget r

/-- What is known of a value of an expression: if it is a pointer, it points at a variable of no
pointer type, which is among the pointer targets. -/
def PointsAt (vars : VarTable) (e : Expr) (v : Content F) : Prop :=
  ∀ q, v = .pointer q → vars.IsTarget q ∧ ∀ p, e.pointsTo vars = .ok p → p.contains q = true

/-- One of the analysed steps writes the slot, or is at fault. -/
def Marks (steps : List Step) (q : Slot) : Prop :=
  ∃ step ∈ steps, ∀ E, step = .ok E → E.slotAccess q = .write

lemma Marks.mono {steps steps' : List Step} (h : steps ⊆ steps') {q : Slot} (hq : Marks steps q) :
    Marks steps' q := by
  obtain ⟨step, hmem, hstep⟩ := hq
  exact ⟨step, h hmem, hstep⟩

/-- A slot that one of the steps writes is written according to the effects of all steps. -/
lemma Marks.slotAccess_eq {f : Frame} {steps : List Step} {q : Slot} (hq : Marks steps q)
    {E : Effects} (hE : Effects.ofSteps f steps = .ok E) : E.slotAccess q = .write := by
  obtain ⟨step, hmem, hstep⟩ := hq
  obtain ⟨d, hd, hwithin⟩ := Effects.within_ofSteps hE hmem
  by_contra hne
  exact Access.ne_write_of_rank_le (hwithin.slot q) hne (hstep d hd)

/-! ## Steps that keep the invariant -/

/-- What a step did that started in a tidy frame and followed the rules. -/
structure Kept (vars : VarTable) (steps : List Step) (before : Contents F) (Q : A → Prop)
    (p : List (RunEvent F) × EStateM.Result X (Store (Content F) H) A) : Prop where
  tidy : Tidy vars (final p.2).slot
  sound : ∀ ev ∈ p.1, ev.Sound vars
  changes : ∀ q, (final p.2).slot q ≠ before q → Marks steps q
  returns : ∀ a s, p.2 = .ok a s → Q a

/-- Wherever it starts in a tidy frame and follows the rules, the step keeps the frame tidy, is
analysed correctly, changes only slots that `steps` write, and returns values with the property `Q`.
-/
def Keeps (vars : VarTable) (steps : List Step) (f : RunM F H X A) (Q : A → Prop) : Prop :=
  ∀ s, Tidy vars s.slot → (∀ ev ∈ (f s).1, ev.Permitted vars) → Kept vars steps s.slot Q (f s)

namespace Keeps

variable {vars : VarTable} {steps steps' : List Step} {f : RunM F H X A} {Q : A → Prop}
  {R : B → Prop}

lemma mono (h : Keeps vars steps f Q) (hsteps : steps ⊆ steps') : Keeps vars steps' f Q := by
  intro s htidy hpermitted
  have hkept := h s htidy hpermitted
  exact { hkept with changes := fun q hq => (hkept.changes q hq).mono hsteps }

/-- A step that only computes. -/
lemma of_silent (hevents : ∀ s, (f s).1 = []) (hfinal : ∀ s, (final (f s).2).slot = s.slot)
    (hQ : ∀ s a s', Tidy vars s.slot → (f s).2 = .ok a s' → Q a) : Keeps vars steps f Q := by
  intro s htidy _
  refine ⟨by rw [hfinal]; exact htidy, by simp [hevents], fun q hq => ?_,
    fun a s' ha => hQ s a s' htidy ha⟩
  rw [hfinal] at hq
  exact absurd rfl hq

lemma pure {a : A} (ha : Q a) : Keeps vars steps (Pure.pure a : RunM F H X A) Q :=
  of_silent (fun _ => rfl) (fun _ => rfl) fun _ _ _ _ h => by cases h; exact ha

lemma raise (x : X) : Keeps vars steps (RunM.raise x : RunM F H X A) Q :=
  of_silent (fun _ => rfl) (fun _ => rfl) fun _ _ _ _ h => by cases h

/-- Steps are done one after the other. -/
lemma bind {k : A → RunM F H X B} (hf : Keeps vars steps f Q)
    (hk : ∀ a, Q a → Keeps vars steps (k a) R) : Keeps vars steps (f >>= k) R := by
  intro s htidy hpermitted
  rw [RunM.bind_apply] at hpermitted ⊢
  have hfirst := hf s htidy
  generalize f s = p at hfirst hpermitted ⊢
  obtain ⟨events, ⟨a, s₁⟩ | ⟨x, s₁⟩⟩ := p
  · have hf := hfirst fun ev hev => hpermitted ev (List.mem_append_left _ hev)
    have hk := hk a (hf.returns a s₁ rfl) s₁ hf.tidy
      fun ev hev => hpermitted ev (List.mem_append_right _ hev)
    refine ⟨hk.tidy, fun ev hev => ?_, fun q hq => ?_, hk.returns⟩
    · rcases List.mem_append.1 hev with hev | hev
      · exact hf.sound ev hev
      · exact hk.sound ev hev
    · -- what is changed at the end was changed by one of the two
      by_cases hq₁ : s₁.slot q = s.slot q
      · exact hk.changes q (by rwa [hq₁])
      · exact hf.changes q hq₁
  · have hf := hfirst hpermitted
    exact ⟨hf.tidy, hf.sound, hf.changes, fun b s' hb => by cases hb⟩

/-- Looking at the heap changes nothing. -/
lemma outside (g : H → Except X A) (hQ : ∀ a, Q a) :
    Keeps vars steps (RunM.outside g : RunM F H X A) Q := by
  refine of_silent (fun s => ?_) (fun s => ?_) fun _ a _ _ _ => hQ a
  · unfold RunM.outside
    split <;> rfl
  · unfold RunM.outside
    split <;> rfl

/-- Changing the heap does not change the frame. -/
lemma setHeap (g : H → Except X H) :
    Keeps vars steps (RunM.setHeap g : RunM F H X Unit) fun _ => True := by
  refine of_silent (fun s => ?_) (fun s => ?_) fun _ _ _ _ _ => trivial
  · unfold RunM.setHeap
    split <;> rfl
  · unfold RunM.setHeap
    split <;> rfl

/-- A store into a slot keeps the frame tidy if a pointer is stored only where it may be. -/
lemma setSlot {q : Slot} {v : Content F} (hq : Marks steps q)
    (hv : ∀ r, v = .pointer r → vars.isByRef q = true → vars.IsTarget r) :
    Keeps vars steps (RunM.setSlot q v : RunM F H X Unit) fun _ => True := by
  intro s htidy hpermitted
  have hev := hpermitted (.stored q v) (List.mem_singleton_self _)
  refine ⟨fun q' r hr => ?_, fun ev hev => ?_, fun q' hq' => ?_, fun _ _ _ => trivial⟩
  · change Function.update s.slot q v q' = .pointer r at hr
    by_cases heq : q' = q
    · subst heq
      rw [Function.update_self] at hr
      subst hr
      have hbyRef : vars.isByRef q' = true := hev.stored
      refine ⟨?_, hv r rfl hbyRef⟩
      cases q' with
      | argument i => exact absurd hev.parameters (by simp [RunEvent.sparesParameters])
      | localVar i => exact hbyRef
    · rw [Function.update_of_ne heq] at hr
      exact htidy q' r hr
  · obtain rfl := List.mem_singleton.1 hev
    trivial
  · change Function.update s.slot q v q' ≠ s.slot q' at hq'
    by_cases heq : q' = q
    · exact heq ▸ hq
    · exact absurd (Function.update_of_ne heq v s.slot) hq'

/-- The value of a node is noted. -/
lemma noted {e : Expr} {operands : List (Content F)} {act : RunM F H X (Content F)}
    {P : Content F → Prop} (h : Keeps vars steps act P)
    (hP : ∀ v, P v → (RunEvent.evaluated e operands v).Permitted vars → PointsAt vars e v) :
    Keeps vars steps (RunM.noted e operands act) (PointsAt vars e) := by
  refine h.bind fun v hv s htidy hpermitted => ?_
  have hpoints := hP v hv (hpermitted _ (List.mem_cons_self ..))
  refine ⟨htidy, fun ev hev => ?_, fun q hq => absurd rfl hq, fun a s' ha => ?_⟩
  · obtain rfl : ev = .evaluated e operands v := List.mem_singleton.1 hev
    refine ⟨fun hscope => ?_, fun p hp q hq => (hpoints q hq).2 p hp⟩
    obtain ⟨p, hp, -⟩ := Expr.exists_pointsTo hscope
    exact ⟨p, hp⟩
  · cases ha
    exact hpoints

/-- The execution of a statement is noted. -/
lemma notedStmt {stmt : Stmt} {act : RunM F H X A} (h : Keeps vars (stmt.steps vars) act Q) :
    Keeps vars (stmt.steps vars) (RunM.notedStmt stmt act) Q := by
  intro s htidy hpermitted
  have hact := h s htidy fun ev hev => hpermitted ev (List.mem_append_left _ hev)
  refine ⟨hact.tidy, fun ev hev => ?_, hact.changes, hact.returns⟩
  rcases List.mem_append.1 hev with hev | hev
  · exact hact.sound ev hev
  · obtain rfl := List.mem_singleton.1 hev
    exact ⟨Stmt.exists_effects, fun E hE q hq => (hact.changes q hq).slotAccess_eq hE⟩

end Keeps

/-! ## Nodes -/

section Nodes

variable (w : Surroundings F H X) {vars : VarTable} {steps : List Step}

/-- A foreign value does not point into the frame. -/
lemma pointsAt_foreign (e : Expr) (f : F) : PointsAt vars e (.foreign f) := by
  intro q hq
  cases hq

/-- A variable of no pointer type is no local of a pointer type. -/
lemma VarTable.IsTarget.not_isByRefLocal {q : Slot} (h : vars.IsTarget q) :
    vars.isByRefLocal q = false := by
  cases q with
  | argument i => rfl
  | localVar i => exact h.notByRef

/-- A write through a pointer writes the slot that it points at. -/
lemma PointsAt.marks {e : Expr} {q : Slot} (h : PointsAt vars e (.pointer q : Content F))
    (hmem : (e.pointsTo vars).map PointsTo.writeEffects ∈ steps) : Marks steps q := by
  refine ⟨_, hmem, fun E hE => ?_⟩
  cases hp : e.pointsTo vars with
  | error fault =>
    rw [hp] at hE
    cases hE
  | ok p =>
    rw [hp] at hE
    cases hE
    exact PointsTo.slotAccess_writeEffects ((h q rfl).2 p hp)

lemma keeps_place (id : VarId) :
    Keeps vars steps (w.place vars id) fun q =>
      ∃ v, vars.get? id = some v ∧ q = vars.slotOf id v := by
  unfold Surroundings.place
  split
  · rename_i v hv
    exact .pure ⟨v, hv, rfl⟩
  · exact .raise _

/-- The pointees of the operands are written. -/
lemma keeps_writePointees (after : Contents F) {es : List Expr} {vs : List (Content F)}
    (hvs : List.Forall₂ (PointsAt vars) es vs) :
    Keeps vars (Expr.unknownSteps vars es)
      (Surroundings.writePointees after vs : RunM F H X Unit) fun _ => True := by
  induction hvs with
  | nil => exact .pure trivial
  | @cons e v es vs hv _ ih =>
    have hsubset : Expr.unknownSteps vars es ⊆ Expr.unknownSteps vars (e :: es) :=
      List.subset_cons_self _ _
    have hrest := ih.mono hsubset
    cases v with
    | foreign f => exact hrest
    | pointer q =>
      refine Keeps.bind (.setSlot (hv.marks (List.mem_cons_self ..)) fun r _ hbyRef => ?_)
        fun _ _ => hrest
      -- a pointee is of no pointer type, so no pointer may be stored in it
      rw [(hv q rfl).1.notByRef] at hbyRef
      cases hbyRef

/-- An operation leaves a heap and pointees behind and then returns or raises. -/
lemma keeps_outcome {es : List Expr} {vs : List (Content F)}
    (hvs : List.Forall₂ (PointsAt vars) es vs) (result : Except X (Content F))
    (after : Store (Content F) H) :
    Keeps vars (Expr.unknownSteps vars es) (do
      RunM.setHeap fun _ => .ok after.heap
      Surroundings.writePointees after.slot vs
      match result with
      | .ok v => return v
      | .error x => RunM.raise x : RunM F H X (Content F)) fun _ => True := by
  refine (Keeps.setHeap _).bind fun _ _ => (keeps_writePointees after.slot hvs).bind fun _ _ => ?_
  cases result with
  | ok v => exact .pure trivial
  | error x => exact .raise x

/-- An operation that is not looked into writes the pointees of its operands. -/
lemma keeps_unknownOperation (e : Expr) {es : List Expr} {vs : List (Content F)}
    (hvs : List.Forall₂ (PointsAt vars) es vs) :
    Keeps vars (Expr.unknownSteps vars es) (w.unknownOperation e vs) fun _ => True := by
  intro s
  exact keeps_outcome hvs (w.unknown e vs s).1 (w.unknown e vs s).2 s

/-- What is read through a pointer, or outside the frame, is no pointer into the frame. -/
lemma keeps_loadCell {c : Cell} {vs : List (Content F)}
    (hvs : List.Forall₂ (PointsAt vars) c.parts vs) :
    Keeps vars steps (w.loadCell c vs) fun v => ∀ q, v ≠ .pointer q := by
  unfold Surroundings.loadCell
  split
  · rename_i pointer q
    obtain ⟨hpointer, -⟩ := List.forall₂_cons.1 hvs
    obtain ⟨htarget, -⟩ := hpointer q rfl
    refine .of_silent (fun _ => rfl) (fun _ => rfl) fun s v s' htidy hv r hr => ?_
    cases hv
    have hlocal := (htidy q r hr).1
    rw [htarget.not_isByRefLocal] at hlocal
    cases hlocal
  · exact (Keeps.outside _ fun _ => trivial).bind fun f _ => .pure fun q hq => by cases hq

/-- An address points at the variable that it was taken of, or is the pointer it was made from. -/
lemma keeps_addressCell {c : Cell} {vs : List (Content F)}
    (hvs : List.Forall₂ (PointsAt vars) c.parts vs) :
    Keeps vars steps (w.addressCell vars c vs) fun v =>
      (∃ id x, c = .var id ∧ vars.get? id = some x ∧ v = .pointer (vars.slotOf id x)) ∨
      (∃ pointer, c = .deref pointer ∧ PointsAt vars pointer v) ∨ ∃ f, v = .foreign f := by
  unfold Surroundings.addressCell
  split
  · rename_i id
    exact (keeps_place w id).bind fun q ⟨x, hx, hq⟩ => .pure (.inl ⟨id, x, rfl, hx, by rw [hq]⟩)
  · rename_i pointer v
    exact .pure (.inr (.inl ⟨pointer, rfl, (List.forall₂_cons.1 hvs).1⟩))
  · exact (Keeps.outside _ fun _ => trivial).bind fun f _ => .pure (.inr (.inr ⟨f, rfl⟩))

/-- What a variable of a tidy frame holds is described by what the variable may point at. -/
lemma pointsAt_readVar {id : VarId} {x : Variable} (hx : vars.get? id = some x) {v : Content F}
    (hv : ∀ r, v = .pointer r → vars.isByRefLocal (vars.slotOf id x) = true ∧ vars.IsTarget r) :
    PointsAt vars (.readVar id) v := by
  intro r hr
  obtain ⟨hlocal, htarget⟩ := hv r hr
  refine ⟨htarget, fun p hp => ?_⟩
  have hbyRef := VarTable.isByRef_slotOf hx
  rw [Expr.pointsTo, VarTable.get, hx] at hp
  cases hp
  unfold VarTable.slotOf at hlocal hbyRef
  cases hs : x.storage with
  | argument =>
    rw [hs] at hlocal
    cases hlocal
  | localVar =>
    rw [hs] at hlocal hbyRef
    have hpointer : x.type.isPointer = true := hbyRef.symm.trans hlocal
    rw [Variable.pointsTo, if_pos hpointer, hs]
    exact PointsTo.contains_top htarget.has

/-- An address is described by the cell that it was taken of. -/
lemma pointsAt_addressOf {c : Cell} {vs : List (Content F)} {v : Content F}
    (hv : (∃ id x, c = .var id ∧ vars.get? id = some x ∧ v = .pointer (vars.slotOf id x)) ∨
      (∃ pointer, c = .deref pointer ∧ PointsAt vars pointer v) ∨ ∃ f, v = .foreign f)
    (hpermitted : (RunEvent.evaluated (.addressOf c) vs v).Permitted vars) :
    PointsAt vars (.addressOf c) v := by
  rcases hv with ⟨id, x, rfl, hx, rfl⟩ | ⟨pointer, rfl, hpointer⟩ | ⟨f, rfl⟩
  · intro q hq
    cases hq
    have hnot : x.type.isPointer = false := by
      simpa [RunEvent.avoidsIndirection, hx] using hpermitted.indirection
    refine ⟨⟨VarTable.has_slotOf hx, by rw [VarTable.isByRef_slotOf hx, hnot]⟩, fun p hp => ?_⟩
    rw [Expr.pointsTo, Cell.addressPointsTo, VarTable.slot_eq_ok hx] at hp
    exact PointsTo.contains_toSlot hp
  · intro q hq
    obtain ⟨htarget, hcontains⟩ := hpointer q hq
    refine ⟨htarget, fun p hp => hcontains p ?_⟩
    rwa [Expr.pointsTo, Cell.addressPointsTo] at hp
  · exact pointsAt_foreign _ f

/-- The arm that a conditional chose describes its value. -/
lemma pointsAt_conditional {cond onTrue onFalse : Expr} {v : Content F}
    (hv : PointsAt vars onTrue v ∨ PointsAt vars onFalse v) :
    PointsAt vars (.conditional cond onTrue onFalse) v := by
  have hjoin : ∀ r, (Expr.conditional cond onTrue onFalse).pointsTo vars = .ok r →
      ∃ p q, onTrue.pointsTo vars = .ok p ∧ onFalse.pointsTo vars = .ok q ∧ p.joined q = .ok r := by
    intro r hr
    rw [Expr.pointsTo] at hr
    cases hp : onTrue.pointsTo vars with
    | error fault =>
      rw [hp] at hr
      cases hr
    | ok p =>
      cases hq : onFalse.pointsTo vars with
      | error fault =>
        rw [hp, hq] at hr
        cases hr
      | ok q =>
        rw [hp, hq] at hr
        exact ⟨p, q, rfl, rfl, hr⟩
  intro x hx
  rcases hv with hv | hv
  · obtain ⟨htarget, hcontains⟩ := hv x hx
    refine ⟨htarget, fun r hr => ?_⟩
    obtain ⟨p, q, hp, -, hpq⟩ := hjoin r hr
    rw [PointsTo.contains_joined hpq, hcontains p hp, Bool.true_or]
  · obtain ⟨htarget, hcontains⟩ := hv x hx
    refine ⟨htarget, fun r hr => ?_⟩
    obtain ⟨p, q, -, hq, hpq⟩ := hjoin r hr
    rw [PointsTo.contains_joined hpq, hcontains q hq, Bool.or_true]

/-- Reading a variable keeps the invariant. -/
lemma keeps_var (id : VarId) :
    Keeps vars steps ((w.evaluator vars).var id) (PointsAt vars (.readVar id)) := by
  refine Keeps.noted (Keeps.bind (keeps_place w id) fun q ⟨x, hx, hq⟩ => ?_) fun v hv _ => hv
  refine .of_silent (fun _ => rfl) (fun _ => rfl) fun s v s' htidy hv => ?_
  cases hv
  exact pointsAt_readVar hx (hq ▸ htidy q)

/-- An operation that only computes gives a foreign value. -/
lemma keeps_compute (e : Expr) (vs : List (Content F)) :
    Keeps vars steps (RunM.noted e vs do
      return .foreign (← RunM.outside (w.compute e vs)) : RunM F H X (Content F))
      (PointsAt vars e) := by
  have hcompute : Keeps vars steps (do
      return .foreign (← RunM.outside (w.compute e vs)) : RunM F H X (Content F))
      fun v => ∃ f, v = .foreign f :=
    (Keeps.outside _ fun _ => trivial).bind fun f _ => .pure ⟨f, rfl⟩
  exact hcompute.noted fun v ⟨f, hf⟩ _ => hf ▸ pointsAt_foreign e f

/-- An operation that is not looked into keeps the invariant, if the pointers that it may return are
described. -/
lemma keeps_unknown {e : Expr} {vs : List (Content F)}
    (hvs : List.Forall₂ (PointsAt vars) e.parts vs)
    (hreturned : ∀ q, (RunEvent.evaluated e vs (.pointer q)).returnsForeign = true →
      PointsAt vars e (.pointer q : Content F)) :
    Keeps vars (Expr.unknownSteps vars e.parts) (RunM.noted e vs (w.unknownOperation e vs))
      (PointsAt vars e) := by
  refine (keeps_unknownOperation w e hvs).noted fun v _ hpermitted => ?_
  cases v with
  | foreign f => exact pointsAt_foreign e f
  | pointer q => exact hreturned q hpermitted.returned

/-- Every strict node keeps the invariant. -/
lemma keeps_node {e : Expr} (he : e.isStrict = true) {vs : List (Content F)}
    (hvs : List.Forall₂ (PointsAt vars) e.parts vs) :
    Keeps vars (e.ownSteps vars) ((w.evaluator vars).node e vs) (PointsAt vars e) := by
  cases e with
  | const c => exact keeps_compute w _ vs
  | read c =>
    cases c with
    | var id => exact keeps_var w id
    | _ => exact Keeps.noted (keeps_loadCell w hvs) fun v hv _ q hq => absurd hq (hv q)
  | addressOf c => exact Keeps.noted (keeps_addressCell w hvs) fun v hv => pointsAt_addressOf hv
  | unary op a => exact keeps_compute w _ vs
  | binary op a b => exact keeps_compute w _ vs
  | logical op a b => cases he
  | conditional c a b => cases he
  | call method args => exact keeps_unknown w hvs fun q hq => by cases hq
  | callOn method receiver args => exact keeps_unknown w hvs fun q hq => by cases hq
  | construct method args => exact keeps_unknown w hvs fun q hq => by cases hq
  | marshalIn a => exact keeps_unknown w hvs fun q hq => by cases hq
  | marshalOut a =>
    refine keeps_unknown w hvs fun q hq => ?_
    obtain ⟨v, _, ha, hnil, rfl⟩ := List.forall₂_cons_left_iff.1 hvs
    obtain rfl := List.forall₂_nil_left_iff.1 hnil
    cases v with
    | foreign f => cases hq
    | pointer r =>
      obtain rfl : r = q := by simpa [RunEvent.returnsForeign] using hq
      intro x hx
      obtain ⟨htarget, hcontains⟩ := ha x hx
      exact ⟨htarget, fun p hp => hcontains p (by rwa [Expr.pointsTo] at hp)⟩

/-- Evaluating several expressions keeps the invariant if evaluating each of them does. -/
lemma keeps_evalAll_of {es : List Expr}
    (hes : ∀ e ∈ es, Keeps vars (e.steps vars) ((w.evaluator vars).eval e) (PointsAt vars e)) :
    Keeps vars (Expr.allSteps vars es) ((w.evaluator vars).evalAll es)
      (List.Forall₂ (PointsAt vars) es) := by
  induction es with
  | nil =>
    rw [Evaluator.evalAll_nil]
    exact .pure .nil
  | cons e es ih =>
    have hfirst := (hes e (List.mem_cons_self ..)).mono
      (List.subset_append_left (e.steps vars) (Expr.allSteps vars es))
    have hrest := (ih fun a ha => hes a (List.mem_cons_of_mem _ ha)).mono
      (List.subset_append_right (e.steps vars) (Expr.allSteps vars es))
    rw [Evaluator.evalAll_cons, Expr.allSteps]
    exact hfirst.bind fun v hv => hrest.bind fun vs hvs => .pure (.cons hv hvs)

/-- Evaluating an expression keeps the invariant. -/
lemma keeps_eval (e : Expr) :
    Keeps vars (e.steps vars) ((w.evaluator vars).eval e) (PointsAt vars e) := by
  induction e using Expr.induct with
  | strict e he ih =>
    rw [Evaluator.eval_strict _ he, Expr.steps_eq]
    refine ((keeps_evalAll_of w ih).mono (List.subset_append_left ..)).bind
      fun vs hvs => ?_
    exact (keeps_node w he hvs).mono (List.subset_append_right ..)
  | logical op left right ihl ihr =>
    rw [Evaluator.eval_logical, Expr.steps]
    refine (ihl.mono (List.subset_append_left ..)).bind fun a _ => ?_
    split
    · exact keeps_compute w _ [a]
    · refine (ihr.mono (List.subset_append_right ..)).bind fun b _ => ?_
      exact keeps_compute w _ [a, b]
  | conditional cond onTrue onFalse ihc iht ihf =>
    have hchoice : ∀ a b, PointsAt vars onTrue b ∨ PointsAt vars onFalse b →
        Keeps vars ((Expr.conditional cond onTrue onFalse).steps vars)
          ((w.evaluator vars).node (.conditional cond onTrue onFalse) [a, b])
          (PointsAt vars (.conditional cond onTrue onFalse)) := fun a b hb =>
      Keeps.noted (.pure hb) fun v hv _ => pointsAt_conditional hv
    rw [Evaluator.eval_conditional]
    refine (ihc.mono ?_).bind fun a _ => ?_
    · intro step hstep
      simp [Expr.steps, hstep]
    · split
      · refine (iht.mono ?_).bind fun b hb => hchoice a b (.inl hb)
        intro step hstep
        simp [Expr.steps, hstep]
      · refine (ihf.mono ?_).bind fun b hb => hchoice a b (.inr hb)
        intro step hstep
        simp [Expr.steps, hstep]

/-- Evaluating several expressions keeps the invariant. -/
lemma keeps_evalAll (es : List Expr) :
    Keeps vars (Expr.allSteps vars es) ((w.evaluator vars).evalAll es)
      (List.Forall₂ (PointsAt vars) es) :=
  keeps_evalAll_of w fun e _ => keeps_eval w e

end Nodes

/-! ## Statements -/

section Statements

variable (w : Surroundings F H X) {vars : VarTable}

/-- Storing into a variable changes its slot. -/
lemma keeps_storeVar (id : VarId) {e : Expr} {v : Content F} (hv : PointsAt vars e v) :
    Keeps vars (Cell.accessSteps vars .write (.var id)) (do
      RunM.setSlot (← w.place vars id) v
      return false : RunM F H X Bool) fun _ => True := by
  refine (keeps_place w id).bind fun q ⟨x, hx, hq⟩ => ?_
  have hmarks : Marks (Cell.accessSteps vars .write (.var id)) q := by
    refine ⟨_, List.mem_singleton_self _, fun E hE => ?_⟩
    rw [VarTable.slot_eq_ok hx] at hE
    cases hE
    rw [hq, Effects.slotAccess_onSlot_self (VarTable.has_slotOf hx)]
  exact Keeps.bind (.setSlot hmarks fun r hr _ => (hv r hr).1) fun _ _ => .pure trivial

/-- Storing into another cell changes what a pointer points at, or nothing in the frame. -/
lemma keeps_storeCell {c : Cell} {e : Expr} {vs : List (Content F)} {v : Content F}
    (hvs : List.Forall₂ (PointsAt vars) c.parts vs) (hv : PointsAt vars e v) :
    Keeps vars (c.accessSteps vars .write) (w.storeCell c vs v) fun _ => True := by
  unfold Surroundings.storeCell
  split
  · rename_i pointer q v
    obtain ⟨hpointer, -⟩ := List.forall₂_cons.1 hvs
    exact .setSlot (hpointer.marks (List.mem_singleton_self _)) fun r hr _ => (hv r hr).1
  · refine Keeps.bind (Q := fun _ => True) ?_ fun _ _ => .setHeap _
    intro s htidy _
    refine ⟨htidy, fun ev hev => ?_, fun q hq => absurd rfl hq, fun _ _ _ => trivial⟩
    obtain rfl := List.mem_singleton.1 hev
    trivial

/-- An assignment changes what its target stands for. -/
lemma keeps_assign (c : Cell) (e : Expr) :
    Keeps vars ((Stmt.assign c e).steps vars) (w.exec vars (.assign c e)) fun _ => True := by
  have hvalue := (keeps_eval w e).mono
    (List.subset_append_left (e.steps vars) (c.steps vars .write))
  have haccess : c.accessSteps vars .write ⊆ (Stmt.assign c e).steps vars := by
    intro step hstep
    simp [Stmt.steps, Cell.steps, hstep]
  have hstore : Keeps vars ((Stmt.assign c e).steps vars) (do
      let operands ← (w.evaluator vars).evalAll c.parts
      let v ← (w.evaluator vars).eval e
      w.storeCell c operands v
      return false : RunM F H X Bool) fun _ => True := by
    refine ((keeps_evalAll w c.parts).mono ?_).bind fun vs hvs => hvalue.bind fun v hv =>
      ((keeps_storeCell w hvs hv).mono haccess).bind fun _ _ => .pure trivial
    intro step hstep
    simp [Stmt.steps, Cell.steps, Expr.operandSteps_eq, hstep]
  cases c with
  | var id =>
    rw [Surroundings.exec]
    exact Keeps.notedStmt (hvalue.bind fun v hv => (keeps_storeVar w id hv).mono haccess)
  | _ =>
    simp only [Surroundings.exec]
    exact Keeps.notedStmt hstore

mutual

/-- Executing a statement keeps the invariant. -/
lemma keeps_exec (s : Stmt) : Keeps vars (s.steps vars) (w.exec vars s) fun _ => True := by
  cases s with
  | eval e =>
    rw [Surroundings.exec]
    exact Keeps.notedStmt ((keeps_eval w e).bind fun _ _ => .pure trivial)
  | assign c e => exact keeps_assign w c e
  | ret value =>
    cases value with
    | none =>
      rw [Surroundings.exec]
      exact Keeps.notedStmt (.pure trivial)
    | some e =>
      rw [Surroundings.exec]
      exact Keeps.notedStmt ((keeps_eval w e).bind fun _ _ => .pure trivial)
  | raise e =>
    rw [Surroundings.exec]
    refine Keeps.notedStmt (((keeps_eval w e).mono (List.subset_append_left ..)).bind fun _ _ => ?_)
    exact .raise _
  | branch cond onTrue onFalse =>
    rw [Surroundings.exec]
    refine Keeps.notedStmt (((keeps_eval w cond).mono ?_).bind fun v _ => ?_)
    · intro step hstep
      simp [Stmt.steps, hstep]
    · split
      · refine (keeps_execBlock onTrue).mono fun step hstep => ?_
        simp [Stmt.steps, hstep]
      · refine (keeps_execBlock onFalse).mono fun step hstep => ?_
        simp [Stmt.steps, hstep]

/-- Executing a block keeps the invariant. -/
lemma keeps_execBlock (stmts : List Stmt) :
    Keeps vars (Stmt.blockSteps vars stmts) (w.execBlock vars stmts) fun _ => True := by
  cases stmts with
  | nil =>
    rw [Surroundings.execBlock]
    exact .pure trivial
  | cons s rest =>
    rw [Surroundings.execBlock, Stmt.blockSteps]
    refine ((keeps_exec s).mono (List.subset_append_left ..)).bind fun left _ => ?_
    cases left with
    | true => exact .pure trivial
    | false => exact (keeps_execBlock rest).mono (List.subset_append_right ..)

end

end Statements

/-! ## Runs that follow the rules -/

/-- In every run that follows the rules for pointers into the frame, the analyses are right about
everything that happens: what nodes evaluate to, and which slots statements change. -/
theorem sound_of_rules (w : Surroundings F H X) (vars : VarTable) (stmts : List Stmt)
    (init : Slot → F) (heap : H)
    (hstored : ∀ ev ∈ w.trace vars stmts init heap, ev.keepsToByRef vars = true)
    (hparameters : ∀ ev ∈ w.trace vars stmts init heap, ev.sparesParameters = true)
    (haddresses : ∀ ev ∈ w.trace vars stmts init heap, ev.avoidsIndirection vars = true)
    (hreturned : ∀ ev ∈ w.trace vars stmts init heap, ev.returnsForeign = true) :
    ∀ ev ∈ w.trace vars stmts init heap, ev.Sound vars := by
  have hstart : Tidy vars fun q => Content.foreign (init q) := by
    intro q r hr
    cases hr
  have hkept := keeps_execBlock w stmts ⟨_, heap⟩ hstart fun ev hev =>
    ⟨hstored ev hev, hparameters ev hev, haddresses ev hev, hreturned ev hev⟩
  exact hkept.sound

/-! ### Samples -/

/-- The type of integers, or of pointers to them. -/
def sampleType (byRef : Bool) : TypeRef :=
  ⟨"lib", "Int", byRef⟩

/-- A method to call. -/
def sampleMethod (arity : Nat) : MethodRef :=
  ⟨sampleType false, "f", arity, true⟩

/-- Surroundings in which a call leaves `7` in the slots that its operands point at. A call without
arguments returns a pointer to the first local, all others return `0`. -/
def sampleSurroundings : Surroundings Int Unit Unit where
  compute e _ _ := match e with
    | .const (.int i) => .ok i
    | _ => .ok 0
  truth _ := true
  address _ _ _ := .ok 0
  load _ _ _ := .ok 0
  store _ _ _ _ := .ok ()
  unknown _ operands _ :=
    (.ok (if operands.isEmpty then .pointer (.localVar 0) else .foreign 0),
      ⟨fun _ => .foreign 7, ()⟩)
  exception _ := ()
  undeclared _ := ()

/-- What happens in a run of a sample, all variables being `0` in the beginning. -/
def sampleTrace (sample : VarTable × List Stmt) : List (RunEvent Int) :=
  sampleSurroundings.trace sample.1 sample.2 (fun _ => 0) ()

/-- `p := &x; *p := 5; f(p); *r := 1; p := true ? &a : p; *p := 2`, where `a` is a parameter, `r` a
parameter of a pointer type, `x` a local and `p` a local of a pointer type. -/
def movedPointer : VarTable × List Stmt :=
  ((((VarTable.empty.declareArgument "a" (sampleType false)).declareArgument "r"
      (sampleType true)).declareLocal "x" (sampleType false) {}).declareLocal "p"
      (sampleType true) {},
    [.assign (.var ⟨3⟩) (.addressOf (.var ⟨2⟩)),
      .assign (.deref (.readVar ⟨3⟩)) (.const (.int 5)),
      .eval (.call (sampleMethod 1) [.readVar ⟨3⟩]),
      .assign (.deref (.readVar ⟨1⟩)) (.const (.int 1)),
      .assign (.var ⟨3⟩)
        (.conditional (.const (.bool true)) (.addressOf (.var ⟨0⟩)) (.readVar ⟨3⟩)),
      .assign (.deref (.readVar ⟨3⟩)) (.const (.int 2))])

/-- A local is changed through a pointer and by a call that is given the pointer, and a parameter is
changed after the pointer was moved. -/
theorem sound_movedPointer :
    (∀ ev ∈ sampleTrace movedPointer, ev.keepsToByRef movedPointer.1 = true) ∧
      (∀ ev ∈ sampleTrace movedPointer, ev.sparesParameters = true) ∧
      (∀ ev ∈ sampleTrace movedPointer, ev.avoidsIndirection movedPointer.1 = true) ∧
      (∀ ev ∈ sampleTrace movedPointer, ev.returnsForeign = true) ∧
      (∃ s before after, .executed s before after ∈ sampleTrace movedPointer ∧
        after (.argument 0) ≠ before (.argument 0)) ∧
      ∀ ev ∈ sampleTrace movedPointer, ev.Sound movedPointer.1 := by
  have hstored : ∀ ev ∈ sampleTrace movedPointer, ev.keepsToByRef movedPointer.1 = true := by decide
  have hparameters : ∀ ev ∈ sampleTrace movedPointer, ev.sparesParameters = true := by decide
  have haddresses : ∀ ev ∈ sampleTrace movedPointer,
      ev.avoidsIndirection movedPointer.1 = true := by decide
  have hreturned : ∀ ev ∈ sampleTrace movedPointer, ev.returnsForeign = true := by decide
  refine ⟨hstored, hparameters, haddresses, hreturned,
    ⟨_, _, _, List.mem_of_getLast? rfl, by decide⟩, ?_⟩
  exact sound_of_rules sampleSurroundings movedPointer.1 movedPointer.2 (fun _ => 0) () hstored
    hparameters haddresses hreturned

/-- `a := &x; *a := 5`, where `a` is a parameter of a pointer type and `x` a local. -/
def reseatedParameter : VarTable × List Stmt :=
  ((VarTable.empty.declareArgument "a" (sampleType true)).declareLocal "x" (sampleType false) {},
    [.assign (.var ⟨0⟩) (.addressOf (.var ⟨1⟩)),
      .assign (.deref (.readVar ⟨0⟩)) (.const (.int 5))])

/-- `q := &x; p := &q; **p := 5`, where `x` is a local, and `q` and `p` are locals of a pointer
type. -/
def pointerToPointer : VarTable × List Stmt :=
  (((VarTable.empty.declareLocal "x" (sampleType false) {}).declareLocal "q"
      (sampleType true) {}).declareLocal "p" (sampleType true) {},
    [.assign (.var ⟨1⟩) (.addressOf (.var ⟨0⟩)),
      .assign (.var ⟨2⟩) (.addressOf (.var ⟨1⟩)),
      .assign (.deref (.read (.deref (.readVar ⟨2⟩)))) (.const (.int 5))])

/-- `f(&x); *f() := 5`, where `x` is a local. -/
def returnedPointer : VarTable × List Stmt :=
  (VarTable.empty.declareLocal "x" (sampleType false) {},
    [.eval (.call (sampleMethod 1) [.addressOf (.var ⟨0⟩)]),
      .assign (.deref (.call (sampleMethod 0) [])) (.const (.int 5))])

/-- A change that the effects do not show as a write is not sound. -/
lemma RunEvent.not_sound_of_unmarked {vars : VarTable} {s : Stmt} {before after : Contents F}
    {q : Slot} (hscope : s.allNodes (inScope vars.size) = true) (hchanged : after q ≠ before q)
    (hslot : (s.effects vars).toOption.map (·.slotAccess q) ≠ some .write) :
    ¬ (RunEvent.executed s before after).Sound vars := by
  intro hsound
  obtain ⟨E, hE⟩ := hsound.1 hscope
  rw [hE] at hslot
  exact hslot (congrArg some (hsound.2 E hE q hchanged))

/-- It is not enough that pointers into the frame are stored in variables of pointer types only. If
one of the other rules is broken and all others are followed, the last statement of the sample
changes the local `x` although its effects do not show that. -/
theorem exists_unsound_of_broken_rule :
    ((∀ ev ∈ sampleTrace reseatedParameter, ev.keepsToByRef reseatedParameter.1 = true ∧
        ev.avoidsIndirection reseatedParameter.1 = true ∧ ev.returnsForeign = true) ∧
      ∃ ev ∈ sampleTrace reseatedParameter, ¬ ev.Sound reseatedParameter.1) ∧
    ((∀ ev ∈ sampleTrace pointerToPointer, ev.keepsToByRef pointerToPointer.1 = true ∧
        ev.sparesParameters = true ∧ ev.returnsForeign = true) ∧
      ∃ ev ∈ sampleTrace pointerToPointer, ¬ ev.Sound pointerToPointer.1) ∧
    ((∀ ev ∈ sampleTrace returnedPointer, ev.keepsToByRef returnedPointer.1 = true ∧
        ev.sparesParameters = true ∧ ev.avoidsIndirection returnedPointer.1 = true) ∧
      ∃ ev ∈ sampleTrace returnedPointer, ¬ ev.Sound returnedPointer.1) := by
  refine ⟨⟨by decide, _, List.mem_of_getLast? rfl, ?_⟩,
    ⟨by decide, _, List.mem_of_getLast? rfl, ?_⟩, by decide, _, List.mem_of_getLast? rfl, ?_⟩
  · exact RunEvent.not_sound_of_unmarked (q := .localVar 0) rfl (by decide) (by decide)
  · exact RunEvent.not_sound_of_unmarked (q := .localVar 0) rfl (by decide) (by decide)
  · exact RunEvent.not_sound_of_unmarked (q := .localVar 0) rfl (by decide) (by decide)

end Inliner
