import Inliner.Proofs.ExpressionInlining
import Mathlib.Data.List.Induction
import Mathlib.Data.List.Sort

/-!
# Legal occurrences of parameters

The tracker is told about the occurrences of parameters one after the other, and says in the end
whether the arguments can be moved to them. It keeps a state for each argument and gives up at the
first violation. Here a whole sequence of occurrences is called `Legal` without such a state, by what
stands before each occurrence and by what occurs nowhere, and the tracker is shown to accept exactly
the legal sequences.

The states that the tracker has reached are determined by the occurrences so far: an argument that is
no value has been placed if it has occurred and is pending otherwise (`states_visitAll`). So each
occurrence is admitted exactly if it is legal after those before it (`failed_visitAll_iff`).

Where some argument writes, order and completeness leave no choice: the arguments that are no values
occur once each, from left to right (`Legal.filter_eq`).
-/

namespace Inliner

namespace ArgumentTracker

/-- An occurrence of a parameter: its position, the effects of the callee's own work before it, and
whether it is evaluated on every path. -/
structure Occurrence where
  index : Nat
  done : Effects
  unconditional : Bool

/-- The tracker after some occurrences. -/
def visitAll (t : ArgumentTracker) (os : List Occurrence) : ArgumentTracker :=
  os.foldl (fun t o => t.visit o.index o.done o.unconditional) t

/-- The parameter at position `i` occurs. -/
def Occurs (os : List Occurrence) (i : Nat) : Prop :=
  ∃ o ∈ os, o.index = i

instance (os : List Occurrence) (i : Nat) : Decidable (Occurs os i) :=
  inferInstanceAs (Decidable (∃ o ∈ os, o.index = i))

/-! ## Legal sequences -/

section Legal

variable (vars : VarTable) (args : List Expr)

/-- There is an argument at position `i`, and it is no value. -/
def isTracked (i : Nat) : Bool :=
  args[i]?.any fun arg => !arg.isValue vars

/-- There is an argument at position `i`, and evaluating it has the effects `E`. -/
def HasEffects (i : Nat) (E : Effects) : Prop :=
  ∃ arg, args[i]? = some arg ∧ arg.effects vars = .ok E

/-- An occurrence of an argument that is no value may follow the occurrences in `before`. -/
structure LegalAfter (before : List Occurrence) (o : Occurrence) : Prop where
  first : ¬ Occurs before o.index
  unconditional : o.unconditional = true
  /-- The work done before commutes with the argument, both being padded to a common frame. -/
  commutes : ∀ E, HasEffects vars args o.index E →
    Domain.commutes (o.done.extend (o.done.frame.sup E.frame))
      (E.extend (o.done.frame.sup E.frame)) = true
  /-- Either all arguments are pure, or the earlier ones that are no values have occurred. -/
  inOrder : (∀ i E, HasEffects vars args i E → E.isReadOnly = true ∧ E.throws = false) ∨
    ∀ j < o.index, isTracked vars args j = true → Occurs before j

/-- The occurrences are such that the arguments can be moved there. -/
structure Legal (parameters : List VarId) (os : List Occurrence) : Prop where
  inRange : ∀ o ∈ os, o.index < parameters.length
  after : ∀ before o later, os = before ++ o :: later → isTracked vars args o.index = true →
    LegalAfter vars args before o
  /-- Where an argument that is no value is left out, nothing is written by any argument or raised by
  one that is left out. -/
  leftOut : (∃ i, isTracked vars args i = true ∧ ¬ Occurs os i) →
    (∀ i E, HasEffects vars args i E → E.isReadOnly = true) ∧
      ∀ i E, HasEffects vars args i E → ¬ Occurs os i → E.throws = false

end Legal

/-! ## One occurrence -/

section Visit

variable {t : ArgumentTracker} {i j : Nat} {done : Effects} {u : Bool}

/-- An occurrence does not change what is known of the arguments. -/
lemma effects_visit (t : ArgumentTracker) (i : Nat) (done : Effects) (u : Bool) :
    (t.visit i done u).effects = t.effects := by
  obtain ⟨states, failed, hvisit⟩ := visit_eq t i done u
  rw [hvisit]

/-- An occurrence is no violation exactly if the argument is free, or pending and all conditions on
its only occurrence are met. -/
lemma failed_visit_iff : (t.visit i done u).failed = false ↔
    t.failed = false ∧ (t.states[i]? = some .free ∨
      t.states[i]? = some .pending ∧ u = true ∧ t.inOrder i = true ∧
        ∃ E, t.effects[i]? = some E ∧ movable done E = true) := by
  constructor
  · intro h
    rcases visit_cases h with ⟨hok, hfree, -⟩ | ⟨hok, hpending, hu, horder, ⟨E, hE, hcomm⟩, -⟩
    · exact ⟨hok, .inl hfree⟩
    · exact ⟨hok, .inr ⟨hpending, hu, horder, E, hE, (movable_iff done E).2 hcomm⟩⟩
  · rintro ⟨hok, hfree | ⟨hpending, rfl, horder, E, hE, hmovable⟩⟩
    · simp [visit, hok, hfree]
    · simp [visit, hok, hpending, hE, horder, hmovable]

/-- What an occurrence without violation does to the states. -/
lemma states_visit (h : (t.visit i done u).failed = false) (j : Nat) :
    (t.visit i done u).states[j]? =
      if t.states[j]? = some .pending ∧ i = j then some .placed else t.states[j]? := by
  rcases visit_cases h with ⟨-, hfree, hvisit⟩ | ⟨-, hpending, -, -, -, hvisit⟩
  · rw [hvisit, if_neg]
    rintro ⟨hpending, rfl⟩
    rw [hfree] at hpending
    cases hpending
  · rw [hvisit]
    by_cases hij : i = j
    · subst hij
      have hlt : i < t.states.length := (List.getElem?_eq_some_iff.1 hpending).1
      rw [if_pos ⟨hpending, rfl⟩]
      simp [hlt]
    · simp [hij]

/-- The order allows an occurrence if all arguments are pure or no earlier one is pending. -/
lemma inOrder_iff : t.inOrder i = true ↔
    (∀ E ∈ t.effects, E.isReadOnly = true ∧ E.throws = false) ∨
      ∀ j < i, t.states[j]? ≠ some .pending := by
  have hpure : Effects.allPure t.effects = true ↔
      ∀ E ∈ t.effects, E.isReadOnly = true ∧ E.throws = false := by
    simp [Effects.allPure, Effects.isPure]
  have hstates : (t.states.take i).all (· != .pending) = true ↔
      ∀ j < i, t.states[j]? ≠ some .pending := by
    rw [List.all_eq_true]
    constructor
    · intro hall j hj hpending
      have hmem : ArgState.pending ∈ t.states.take i :=
        List.mem_of_getElem? (i := j) (by rw [List.getElem?_take_of_lt hj, hpending])
      simpa using hall _ hmem
    · intro hall s hs
      obtain ⟨j, hj⟩ := List.mem_iff_getElem?.1 hs
      have hlt : j < i := by
        have := (List.getElem?_eq_some_iff.1 hj).1
        simp only [List.length_take] at this
        omega
      rw [List.getElem?_take_of_lt hlt] at hj
      have hne := hall j hlt
      rw [hj] at hne
      simpa using hne
  rw [inOrder, Bool.or_eq_true, hpure, hstates]

/-- At the end the tracker accepts unless it has failed or some pending argument must not be left
out. -/
lemma isOk_finish_iff : t.finish.isOk = true ↔
    t.failed = false ∧ ∀ (i : Nat) E, t.states[i]? = some .pending → t.effects[i]? = some E →
      (∀ D ∈ t.effects, D.isReadOnly = true) ∧ E.throws = false := by
  have hdrops : t.dropsEffects = false ↔ ∀ (i : Nat) E, t.states[i]? = some .pending →
      t.effects[i]? = some E → (∀ D ∈ t.effects, D.isReadOnly = true) ∧ E.throws = false := by
    unfold dropsEffects
    rw [List.any_eq_false]
    constructor
    · intro hany i E hpending hE
      have hmem : (ArgState.pending, E) ∈ t.states.zip t.effects :=
        List.mem_of_getElem? (i := i) (by rw [List.getElem?_zip_eq_some]; exact ⟨hpending, hE⟩)
      simpa [allReadOnly] using hany _ hmem
    · rintro hall ⟨s, E⟩ hmem hbad
      obtain ⟨i, hi⟩ := List.mem_iff_getElem?.1 hmem
      obtain ⟨hs, hE⟩ := List.getElem?_zip_eq_some.1 hi
      rw [Bool.and_eq_true, Bool.or_eq_true, Bool.not_eq_true', beq_iff_eq] at hbad
      obtain ⟨hpending, hbad⟩ := hbad
      obtain ⟨hreadOnly, hthrows⟩ := hall i E (hpending ▸ hs) hE
      rw [allReadOnly, List.all_eq_true.2 hreadOnly, hthrows] at hbad
      simp at hbad
  unfold finish
  rw [← hdrops]
  cases t.dropsEffects <;> simp [isOk, fail]

end Visit

/-! ## A sequence of occurrences -/

section Sequence

variable {t : ArgumentTracker} {os : List Occurrence} {o : Occurrence}

lemma visitAll_concat (t : ArgumentTracker) (os : List Occurrence) (o : Occurrence) :
    t.visitAll (os ++ [o]) = (t.visitAll os).visit o.index o.done o.unconditional := by
  simp [visitAll]

lemma occurs_concat {i : Nat} : Occurs (os ++ [o]) i ↔ Occurs os i ∨ o.index = i := by
  simp [Occurs, or_and_right, exists_or]

lemma effects_visitAll (t : ArgumentTracker) (os : List Occurrence) :
    (t.visitAll os).effects = t.effects := by
  induction os using List.reverseRecOn with
  | nil => rfl
  | append_singleton os o ih => rw [visitAll_concat, effects_visit, ih]

/-- The states after a sequence without violation: what was pending and has occurred is placed. -/
lemma states_visitAll (h : (t.visitAll os).failed = false) (i : Nat) :
    (t.visitAll os).states[i]? =
      if t.states[i]? = some .pending ∧ Occurs os i then some .placed else t.states[i]? := by
  induction os using List.reverseRecOn with
  | nil => simp [visitAll, Occurs]
  | append_singleton os o ih =>
    rw [visitAll_concat] at h ⊢
    have hstates := ih (failed_visit_iff.1 h).1
    rw [states_visit h, hstates]
    simp only [occurs_concat]
    split_ifs <;> simp_all

/-- A condition on all elements of a list and what stands before them, one element at a time. -/
lemma forall_split_concat {P : List Occurrence → Occurrence → Prop} :
    (∀ before o' later, os ++ [o] = before ++ o' :: later → P before o') ↔
      (∀ before o' later, os = before ++ o' :: later → P before o') ∧ P os o := by
  constructor
  · intro h
    refine ⟨fun before o' later hos => h before o' (later ++ [o]) (by simp [hos]), h os o [] rfl⟩
  · rintro ⟨hos, ho⟩ before o' later heq
    rcases List.eq_nil_or_concat later with rfl | ⟨later, last, rfl⟩
    · obtain ⟨rfl, rfl⟩ := List.append_singleton_inj.1 heq
      exact ho
    · have hinit : os ++ [o] = (before ++ o' :: later) ++ [last] := by simpa using heq
      exact hos before o' later (List.append_singleton_inj.1 hinit).1

end Sequence

/-! ## The tracker of a call -/

section Started

variable {vars : VarTable} {parameters : List VarId} {args : List Expr} {t : ArgumentTracker}

/-- The tracker knows the effects of the arguments. -/
lemma getElem?_effects_iff (h : start vars parameters args = .ok t) {i : Nat} {E : Effects} :
    t.effects[i]? = some E ↔ HasEffects vars args i E := by
  obtain ⟨-, -, heffects, -, -⟩ := start_eq_ok h
  constructor
  · intro hE
    have hi : i < args.length := by
      rw [(forall₂_of_mapM_eq_ok heffects).length_eq]
      exact (List.getElem?_eq_some_iff.1 hE).1
    obtain ⟨E', hE', hok⟩ := getElem?_of_mapM_eq_ok heffects (List.getElem?_eq_getElem hi)
    rw [hE] at hE'
    cases hE'
    exact ⟨args[i], List.getElem?_eq_getElem hi, hok⟩
  · rintro ⟨arg, harg, hok⟩
    obtain ⟨E', hE', hok'⟩ := getElem?_of_mapM_eq_ok heffects harg
    rw [hok] at hok'
    cases hok'
    exact hE'

/-- A statement about the effects of all arguments. -/
lemma forall_mem_effects_iff (h : start vars parameters args = .ok t) {P : Effects → Prop} :
    (∀ E ∈ t.effects, P E) ↔ ∀ i E, HasEffects vars args i E → P E := by
  simp only [List.mem_iff_getElem?, ← getElem?_effects_iff h]
  constructor
  · exact fun hP i E hE => hP E ⟨i, hE⟩
  · rintro hP E ⟨i, hE⟩
    exact hP i E hE

/-- Before any occurrence, the arguments that are no values are pending. -/
lemma states_start (h : start vars parameters args = .ok t) (i : Nat) :
    t.states[i]? = if isTracked vars args i then some .pending
      else if i < parameters.length then some .free else none := by
  obtain ⟨-, hlength, -, hstates, -⟩ := start_eq_ok h
  rw [hstates, hlength, List.getElem?_map, isTracked]
  by_cases hi : i < args.length
  · rw [List.getElem?_eq_getElem hi]
    cases hvalue : args[i].isValue vars <;> simp [hvalue, hi]
  · simp [hi]

/-- After some occurrences without violation, argument `i` is free if it is a value, and otherwise
placed or pending. -/
lemma states_visitAll_start (h : start vars parameters args = .ok t) {os : List Occurrence}
    (hok : (t.visitAll os).failed = false) (i : Nat) :
    (t.visitAll os).states[i]? =
      if isTracked vars args i then some (if Occurs os i then .placed else .pending)
      else if i < parameters.length then some .free else none := by
  rw [states_visitAll hok, states_start h]
  split_ifs <;> simp_all

/-- Whether the order allows an occurrence after some others. -/
lemma inOrder_visitAll_iff (h : start vars parameters args = .ok t) {os : List Occurrence}
    (hok : (t.visitAll os).failed = false) {i : Nat} :
    (t.visitAll os).inOrder i = true ↔
      (∀ j E, HasEffects vars args j E → E.isReadOnly = true ∧ E.throws = false) ∨
        ∀ j < i, isTracked vars args j = true → Occurs os j := by
  rw [inOrder_iff, effects_visitAll, forall_mem_effects_iff h]
  refine or_congr_right (forall₂_congr fun j _ => ?_)
  rw [states_visitAll_start h hok]
  split_ifs <;> simp_all

/-- The argument that is tracked at a position, and its effects. -/
lemma exists_hasEffects (h : start vars parameters args = .ok t) {i : Nat}
    (hi : isTracked vars args i = true) : i < parameters.length ∧ ∃ E, HasEffects vars args i E := by
  obtain ⟨-, hlength, heffects, -, -⟩ := start_eq_ok h
  obtain ⟨arg, harg, -⟩ := (Option.any_eq_true _ _).1 hi
  obtain ⟨E, -, hE⟩ := getElem?_of_mapM_eq_ok heffects harg
  refine ⟨?_, E, arg, harg, hE⟩
  rw [hlength]
  exact (List.getElem?_eq_some_iff.1 harg).1

/-- One more occurrence is admitted exactly if it is legal after those before it. -/
lemma failed_visitAll_concat_iff (h : start vars parameters args = .ok t) {os : List Occurrence}
    {o : Occurrence} : (t.visitAll (os ++ [o])).failed = false ↔
      (t.visitAll os).failed = false ∧ o.index < parameters.length ∧
        (isTracked vars args o.index = true → LegalAfter vars args os o) := by
  rw [visitAll_concat, failed_visit_iff]
  refine and_congr_right fun hok => ?_
  rw [states_visitAll_start h hok, inOrder_visitAll_iff h hok, effects_visitAll]
  by_cases htracked : isTracked vars args o.index = true
  · obtain ⟨hlt, E, hE⟩ := exists_hasEffects h htracked
    have hget : t.effects[o.index]? = some E := (getElem?_effects_iff h).2 hE
    rw [if_pos htracked]
    constructor
    · rintro (hfree | ⟨hpending, hu, horder, E', hE', hmovable⟩)
      · split at hfree <;> cases hfree
      · refine ⟨hlt, fun _ => ⟨fun hoccurs => ?_, hu, fun D hD => ?_, horder⟩⟩
        · rw [if_pos hoccurs] at hpending
          cases hpending
        · rw [(getElem?_effects_iff h).2 hD] at hE'
          cases hE'
          exact hmovable
    · rintro ⟨-, hlegal⟩
      obtain ⟨hfirst, hu, hcommutes, horder⟩ := hlegal htracked
      exact .inr ⟨by rw [if_neg hfirst], hu, horder, E, hget, hcommutes E hE⟩
  · rw [if_neg htracked]
    by_cases hlt : o.index < parameters.length <;> simp [hlt, htracked]

/-- The tracker has not failed exactly if every occurrence was legal after those before it. -/
lemma failed_visitAll_iff (h : start vars parameters args = .ok t) {os : List Occurrence} :
    (t.visitAll os).failed = false ↔ (∀ o ∈ os, o.index < parameters.length) ∧
      ∀ before o later, os = before ++ o :: later → isTracked vars args o.index = true →
        LegalAfter vars args before o := by
  induction os using List.reverseRecOn with
  | nil =>
    obtain ⟨-, -, -, -, hok⟩ := start_eq_ok h
    simp [visitAll, hok]
  | append_singleton os o ih =>
    rw [failed_visitAll_concat_iff h, ih, forall_split_concat, List.forall_mem_append]
    simp only [List.mem_singleton, forall_eq]
    tauto

/-- Evaluating a value raises nothing. -/
lemma throws_of_isValue {arg : Expr} {E : Effects} (hvalue : arg.isValue vars = true)
    (hE : arg.effects vars = .ok E) : E.throws = false := by
  have hparts : arg.parts = [] := by
    unfold Expr.isValue at hvalue
    split at hvalue <;> first | rfl | cases hvalue
  obtain ⟨D, hD, -, hthrows, -⟩ := Evaluator.own_of_isValue hvalue
  rw [Expr.effects, Expr.steps_eq, hparts, Expr.allSteps, List.nil_append, hD] at hE
  cases hE
  exact hthrows

/-- The tracker accepts exactly the legal sequences of occurrences. -/
lemma isOk_finish_visitAll_iff (h : start vars parameters args = .ok t) (os : List Occurrence) :
    (t.visitAll os).finish.isOk = true ↔ Legal vars args parameters os := by
  rw [isOk_finish_iff, effects_visitAll, forall_mem_effects_iff h]
  constructor
  · rintro ⟨hok, hpending⟩
    have hstate := states_visitAll_start h hok
    obtain ⟨hrange, hafter⟩ := (failed_visitAll_iff h).1 hok
    have hdropped : ∀ i, isTracked vars args i = true → ¬ Occurs os i →
        (t.visitAll os).states[i]? = some .pending := fun i hi hnot => by
      rw [hstate, if_pos hi, if_neg hnot]
    refine ⟨hrange, hafter, ?_⟩
    rintro ⟨i, hi, hnot⟩
    obtain ⟨-, E, hE⟩ := exists_hasEffects h hi
    refine ⟨(hpending i E (hdropped i hi hnot) ((getElem?_effects_iff h).2 hE)).1, fun j D hD hj => ?_⟩
    by_cases htracked : isTracked vars args j = true
    · exact (hpending j D (hdropped j htracked hj) ((getElem?_effects_iff h).2 hD)).2
    · obtain ⟨arg, harg, hD⟩ := hD
      refine throws_of_isValue ?_ hD
      simpa [isTracked, harg] using htracked
  · rintro ⟨hrange, hafter, hleft⟩
    have hok := (failed_visitAll_iff h).2 ⟨hrange, hafter⟩
    refine ⟨hok, fun i E hpending hE => ?_⟩
    have hE := (getElem?_effects_iff h).1 hE
    have htracked : isTracked vars args i = true ∧ ¬ Occurs os i := by
      rw [states_visitAll_start h hok] at hpending
      split_ifs at hpending <;> simp_all
    obtain ⟨hreadOnly, hthrows⟩ := hleft ⟨i, htracked⟩
    exact ⟨hreadOnly, hthrows i E hE htracked.2⟩

end Started

/-! ## Where some argument writes -/

section Writes

variable {vars : VarTable} {parameters : List VarId} {args : List Expr} {os : List Occurrence}

/-- Where the order of the arguments matters, those that are no values occur from left to right. -/
lemma pairwise_index_lt (hafter : ∀ before o later, os = before ++ o :: later →
      isTracked vars args o.index = true → LegalAfter vars args before o)
    (hwrites : ∃ i E, HasEffects vars args i E ∧ E.isReadOnly = false) :
    os.Pairwise fun o o' => isTracked vars args o.index = true →
      isTracked vars args o'.index = true → o.index < o'.index := by
  obtain ⟨i, E, hE, hwrite⟩ := hwrites
  have hnotPure : ¬ ∀ i E, HasEffects vars args i E → E.isReadOnly = true ∧ E.throws = false := by
    intro hpure
    rw [(hpure i E hE).1] at hwrite
    cases hwrite
  induction os using List.reverseRecOn with
  | nil => exact .nil
  | append_singleton os o ih =>
    obtain ⟨hinit, hlast⟩ := forall_split_concat.1 hafter
    rw [List.pairwise_append]
    refine ⟨ih hinit, List.pairwise_singleton _ _, fun a ha o' ho' hatracked hotracked => ?_⟩
    obtain rfl := List.mem_singleton.1 ho'
    have hne : a.index ≠ o'.index := fun heq => (hlast hotracked).first ⟨a, ha, heq⟩
    by_contra hnot
    -- then `o'` would have occurred before `a`, and this is not its first occurrence
    obtain ⟨before, later, rfl⟩ := List.append_of_mem ha
    have horder := (hinit before a later rfl hatracked).inOrder.resolve_left hnotPure
    obtain ⟨b, hb, hindex⟩ := horder o'.index (by omega) hotracked
    exact (hlast hotracked).first ⟨b, by simp [hb], hindex⟩

/-- Where some argument writes, the arguments that are no values occur once each, in their order. -/
lemma Legal.filter_eq (h : Legal vars args parameters os)
    (hwrites : ∃ i E, HasEffects vars args i E ∧ E.isReadOnly = false) :
    (os.map Occurrence.index).filter (isTracked vars args) =
      (List.range args.length).filter (isTracked vars args) := by
  have hsorted : ((os.map Occurrence.index).filter (isTracked vars args)).Pairwise (· < ·) := by
    rw [List.pairwise_filter, List.pairwise_map]
    exact pairwise_index_lt h.after hwrites
  have hrange : ((List.range args.length).filter (isTracked vars args)).Pairwise (· < ·) :=
    List.pairwise_lt_range.filter _
  refine hsorted.eq_of_mem_iff hrange fun i => ?_
  simp only [List.mem_filter, List.mem_map, List.mem_range]
  refine and_congr_left fun hi => ⟨fun _ => ?_, fun _ => ?_⟩
  · obtain ⟨arg, harg, -⟩ := (Option.any_eq_true _ _).1 hi
    exact (List.getElem?_eq_some_iff.1 harg).1
  · by_contra hnot
    obtain ⟨j, E, hE, hwrite⟩ := hwrites
    have hreadOnly := (h.leftOut ⟨i, hi, hnot⟩).1 j E hE
    rw [hwrite] at hreadOnly
    cases hreadOnly

end Writes

/-- The tracker of a call accepts exactly the legal sequences of occurrences. If some argument
writes, what it accepts has every argument that is no value once, in the order of the arguments. -/
theorem accepts_iff_legal {vars : VarTable} {parameters : List VarId} {args : List Expr}
    {t : ArgumentTracker} (hstart : start vars parameters args = .ok t) (os : List Occurrence) :
    ((t.visitAll os).finish.isOk = true ↔ Legal vars args parameters os) ∧
      ((∃ i E, HasEffects vars args i E ∧ E.isReadOnly = false) →
        (t.visitAll os).finish.isOk = true →
          (os.map Occurrence.index).filter (isTracked vars args) =
            (List.range args.length).filter (isTracked vars args)) := by
  have hiff := isOk_finish_visitAll_iff hstart os
  exact ⟨hiff, fun hwrites hok => (hiff.1 hok).filter_eq hwrites⟩

/-- Two arguments: a call, which may write the heap, and the field of a local. -/
def callAndField : List Expr :=
  [.call ⟨⟨"lib", "Sample", false⟩, "next", 0, true⟩ [], fieldOfLocal 0]

/-- An occurrence of a parameter before which the callee did nothing. -/
def atStart (i : Nat) : Occurrence :=
  ⟨i, .bottom twoLocalsScope.vars.frame, true⟩

/-- A call may be followed by the field, but the field may neither come first nor be left out. -/
theorem accepts_callAndField :
    ∃ t, start twoLocalsScope.vars productCallee.parameters callAndField = .ok t ∧
      (t.visitAll [atStart 0, atStart 1]).finish.isOk = true ∧
      Legal twoLocalsScope.vars callAndField productCallee.parameters [atStart 0, atStart 1] ∧
      ¬ Legal twoLocalsScope.vars callAndField productCallee.parameters [atStart 1, atStart 0] ∧
      ¬ Legal twoLocalsScope.vars callAndField productCallee.parameters [atStart 0] := by
  refine ⟨_, rfl, by decide, ?_, ?_, ?_⟩
  · exact (accepts_iff_legal rfl _).1.1 (by decide)
  · exact fun hlegal => absurd ((accepts_iff_legal rfl _).1.2 hlegal) (by decide)
  · exact fun hlegal => absurd ((accepts_iff_legal rfl _).1.2 hlegal) (by decide)

end ArgumentTracker

end Inliner
