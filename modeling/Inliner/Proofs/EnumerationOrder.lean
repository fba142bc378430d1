import Inliner.Proofs.ProcessingOrder

/-!
# The order of enumeration

The methods of a library come in no particular order, and are sorted by their printed form before they
are processed. The sort is stable, so the enumeration matters exactly for methods that look the same
(`processingOrder_eq_iff`), as a static method and an instance method of one name do. Where there are
none, the log and the returned fault are determined. Otherwise two enumerations still lead to the same
bodies and usages and to the same events in some order (`Alike`), but not to the same log, nor to the
same fault (`not_forall_enumerations_agree`).
-/

namespace Inliner

namespace Library

open Std

variable {policy : Policy} {lib : Library} {order order' : List MethodRef} {m n : MethodRef}

/-! ## Methods that look the same -/

/-- The first method does not have to be processed after the second. -/
def precedes (m n : MethodRef) : Bool :=
  compare m.render n.render != .gt

/-- Methods are compared by their printed forms. -/
lemma precedes_iff : precedes m n = true ↔ (compare m.render n.render).isLE = true := by
  unfold precedes
  cases compare m.render n.render <;> decide

/-- The order is transitive. -/
lemma precedes_trans (m n k : MethodRef) (hmn : precedes m n = true) (hnk : precedes n k = true) :
    precedes m k = true :=
  precedes_iff.2 (TransCmp.isLE_trans (precedes_iff.1 hmn) (precedes_iff.1 hnk))

/-- Any two methods can be compared. -/
lemma precedes_total (m n : MethodRef) : (precedes m n || precedes n m) = true := by
  have hswap : compare m.render n.render = (compare n.render m.render).swap := OrientedCmp.eq_swap
  rw [Bool.or_eq_true, precedes_iff, precedes_iff, hswap]
  cases compare n.render m.render <;> decide

/-- Only methods that look the same may be processed in either order. -/
lemma precedes_antisymm (hmn : precedes m n = true) (hnm : precedes n m = true) :
    m.render = n.render := by
  have heq : compare m.render n.render = .eq :=
    OrientedCmp.isLE_antisymm (precedes_iff.1 hmn) (precedes_iff.1 hnm)
  exact LawfulEqCmp.compare_eq_iff_eq.1 heq

/-- Methods that are printed alike precede each other. -/
lemma precedes_of_render_eq (h : m.render = n.render) : precedes m n = true := by
  rw [precedes_iff, h, ReflOrd.compare_self]
  rfl

/-- Every method is processed once. -/
lemma processingOrder_perm (order : List MethodRef) : (processingOrder order).Perm order :=
  List.mergeSort_perm order precedes

/-- Methods are processed in their order. -/
lemma pairwise_processingOrder (order : List MethodRef) :
    (processingOrder order).Pairwise fun m n => precedes m n = true :=
  List.pairwise_mergeSort precedes_trans precedes_total order

/-- Methods that look the same come in the same order in both lists. -/
def AgreeOnTies (order order' : List MethodRef) : Prop :=
  ∀ text : String, order.filter (·.render = text) = order'.filter (·.render = text)

/-- Sorting is stable. -/
lemma agreeOnTies_processingOrder (order : List MethodRef) :
    AgreeOnTies order (processingOrder order) := by
  intro text
  have hpairwise : (order.filter (·.render = text)).Pairwise fun m n => precedes m n = true := by
    refine List.pairwise_iff_forall_sublist.2 fun {m n} hsub => precedes_of_render_eq ?_
    have hmem : ∀ k ∈ [m, n], k.render = text := fun k hk => by
      simpa using (List.mem_filter.1 (hsub.subset hk)).2
    rw [hmem m (by simp), hmem n (by simp)]
  have hsublist : (order.filter (·.render = text)).Sublist (processingOrder order) :=
    List.sublist_mergeSort precedes_trans precedes_total hpairwise List.filter_sublist
  have hfilter := hsublist.filter (·.render = text)
  simp only [List.filter_filter, Bool.and_self] at hfilter
  exact hfilter.eq_of_length ((processingOrder_perm order).filter _).length_eq.symm

/-- The same methods are enumerated. -/
lemma AgreeOnTies.mem_iff (h : AgreeOnTies order order') (m : MethodRef) :
    m ∈ order ↔ m ∈ order' := by
  have hiff : m ∈ order.filter (·.render = m.render) ↔ m ∈ order'.filter (·.render = m.render) := by
    rw [h m.render]
  simpa using hiff

/-- Sorted lists that agree on the methods that look the same are equal. -/
lemma AgreeOnTies.eq_of_pairwise (h : AgreeOnTies order order')
    (horder : order.Pairwise fun m n => precedes m n = true)
    (horder' : order'.Pairwise fun m n => precedes m n = true) : order = order' := by
  induction order generalizing order' with
  | nil =>
    have hnot : ∀ m, m ∉ order' := fun m hm => List.not_mem_nil ((h.mem_iff m).2 hm)
    exact (List.eq_nil_iff_forall_not_mem.2 hnot).symm
  | cons m rest ih =>
    cases order' with
    | nil => exact absurd ((h.mem_iff m).1 List.mem_cons_self) List.not_mem_nil
    | cons n rest' =>
      obtain ⟨hm, hrest⟩ := List.pairwise_cons.1 horder
      obtain ⟨hn, hrest'⟩ := List.pairwise_cons.1 horder'
      have hmn : precedes m n = true := by
        rcases List.mem_cons.1 ((h.mem_iff n).2 List.mem_cons_self) with rfl | hmem
        · exact precedes_of_render_eq rfl
        · exact hm n hmem
      have hnm : precedes n m = true := by
        rcases List.mem_cons.1 ((h.mem_iff m).1 List.mem_cons_self) with rfl | hmem
        · exact precedes_of_render_eq rfl
        · exact hn m hmem
      -- So both look the same, and come first among the methods that do.
      have hfirst := h m.render
      rw [List.filter_cons_of_pos (by simp),
        List.filter_cons_of_pos (by simp [precedes_antisymm hnm hmn])] at hfirst
      obtain rfl := (List.cons.inj hfirst).1
      have hties : AgreeOnTies rest rest' := by
        intro text
        have htext := h text
        by_cases hm : m.render = text <;> simpa [hm] using htext
      rw [ih hties hrest hrest']

/-- The enumeration matters for methods that look the same, and for no others. -/
lemma processingOrder_eq_iff :
    processingOrder order = processingOrder order' ↔ AgreeOnTies order order' := by
  have hties := agreeOnTies_processingOrder order
  have hties' := agreeOnTies_processingOrder order'
  constructor
  · intro heq text
    rw [hties text, hties' text, heq]
  · intro h
    have hsorted : AgreeOnTies (processingOrder order) (processingOrder order') := fun text => by
      rw [← hties text, ← hties' text, h text]
    exact hsorted.eq_of_pairwise (pairwise_processingOrder order) (pairwise_processingOrder order')

/-- Lists of the same methods agree if no two methods look the same. -/
lemma agreeOnTies_of_nodup (hperm : order.Perm order') (hnodup : (order.map MethodRef.render).Nodup) :
    AgreeOnTies order order' := by
  have hsorted : (processingOrder order).Perm (processingOrder order') :=
    (processingOrder_perm order).trans (hperm.trans (processingOrder_perm order').symm)
  refine processingOrder_eq_iff.1 (hsorted.eq_of_pairwise (fun m n hm hn hmn hnm => ?_)
    (pairwise_processingOrder order) (pairwise_processingOrder order'))
  have hm : m ∈ order := (processingOrder_perm order).mem_iff.1 hm
  have hn : n ∈ order := hperm.mem_iff.2 ((processingOrder_perm order').mem_iff.1 hn)
  exact List.inj_on_of_nodup_map hnodup hm hn (precedes_antisymm hmn hnm)

/-! ## Two enumerations -/

/-- Simplifies all methods, which are enumerated in the given order. -/
def simplifyListed (policy : Policy) (order : List MethodRef) (lib : Library) :
    Library × Option Fault :=
  simplifyInOrder policy (processingOrder order) lib

/-- What two runs on a library have in common even if they do not agree on the methods that look the
same. -/
structure Alike (policy : Policy) (lib : Library) (result result' : Library × Option Fault) :
    Prop where
  bodies_eq : result.1.bodies = result'.1.bodies
  usages_eq : result.1.usages = result'.1.usages
  /-- The same events are recorded, in some order. -/
  added_perm : ∃ added added', result.1.log = lib.log ++ added ∧ result'.1.log = lib.log ++ added' ∧
    added.Perm added'
  /-- If one returns a fault, so does the other, and these are faults of methods that look the
  same. -/
  fault : ∀ fault, result.2 = some fault → ∃ m m' fault', result'.2 = some fault' ∧
    Fails policy lib m fault ∧ Fails policy lib m' fault' ∧ m.render = m'.render

/-- The failures are listed in the order of the texts of their methods. -/
lemma pairwise_failures (setting : Setting) (order : List MethodRef) :
    (failures setting (processingOrder order)).Pairwise
      fun failure failure' => precedes failure.1 failure'.1 = true := by
  refine List.pairwise_filterMap.2 ((pairwise_processingOrder order).imp ?_)
  intro m n hmn failure hfailure failure' hfailure'
  obtain ⟨fault, -, rfl⟩ := Option.map_eq_some_iff.1 hfailure
  obtain ⟨fault', -, rfl⟩ := Option.map_eq_some_iff.1 hfailure'
  exact hmn

/-- The methods at the same place of the two lists of failures look the same. -/
lemma render_failures_eq (setting : Setting) (hperm : order.Perm order') :
    (failures setting (processingOrder order)).map (·.1.render) =
      (failures setting (processingOrder order')).map (·.1.render) := by
  have hsorted : ∀ order, ((failures setting (processingOrder order)).map (·.1.render)).Pairwise
      fun s t => (compare s t).isLE = true := by
    intro order
    refine List.pairwise_map.2 ((pairwise_failures setting order).imp ?_)
    exact precedes_iff.1
  have hfailures : (failures setting (processingOrder order)).Perm
      (failures setting (processingOrder order')) :=
    ((processingOrder_perm order).trans (hperm.trans (processingOrder_perm order').symm)).filterMap _
  refine (hfailures.map _).eq_of_pairwise (fun s t _ _ hst hts => ?_) (hsorted order) (hsorted order')
  exact LawfulEqCmp.compare_eq_iff_eq.1 (OrientedCmp.isLE_antisymm hst hts)

/-- The bodies do not depend on the order. -/
lemma get?_simplifyInOrder (horder : order.Perm lib.bodies.keys) (m : MethodRef) :
    (simplifyInOrder policy order lib).1.get? m =
      (task (settingOf policy lib) m).foldl bodyAfter (lib.get? m) := by
  rw [simplifyInOrder_eq]
  exact get?_of_interleaves (interleaves_of_perm horder) m

/-- The usages do not depend on the order. -/
lemma usage?_simplifyInOrder (horder : order.Perm lib.bodies.keys) (m : MethodRef) :
    (simplifyInOrder policy order lib).1.usage? m =
      (task (settingOf policy lib) m).foldl usageAfter (lib.usage? m) := by
  rw [simplifyInOrder_eq]
  exact usage?_of_interleaves (interleaves_of_perm horder) m

/-- The events added to the log if the methods are processed in the given order. -/
def added (setting : Setting) (order : List MethodRef) : EventLog :=
  recorded (oneByOne setting order) ++ (failures setting order).map failureEvent

/-- What is recorded is appended to the log. -/
lemma log_simplifyInOrder (policy : Policy) (order : List MethodRef) (lib : Library) :
    (simplifyInOrder policy order lib).1.log = lib.log ++ added (settingOf policy lib) order := by
  rw [simplifyInOrder_eq, added, ← List.append_assoc, ← log_perform]
  rfl

/-- Another order records the same events, in another order. -/
lemma added_perm (setting : Setting) (hperm : order.Perm order') :
    (added setting order).Perm (added setting order') := by
  have hrecorded : (recorded (oneByOne setting order)).Perm (recorded (oneByOne setting order')) :=
    (hperm.flatMap_right _).filterMap _
  exact hrecorded.append ((hperm.filterMap _).map _)

/-- The first failures are those of methods that look the same. -/
lemma exists_fault_of_perm (horder : order.Perm lib.bodies.keys)
    (horder' : order'.Perm lib.bodies.keys) {fault : Fault}
    (hfault : (simplifyListed policy order lib).2 = some fault) :
    ∃ m m' fault', (simplifyListed policy order' lib).2 = some fault' ∧
      Fails policy lib m fault ∧ Fails policy lib m' fault' ∧ m.render = m'.render := by
  unfold simplifyListed at hfault ⊢
  rw [simplifyInOrder_eq] at hfault ⊢
  obtain ⟨failure, hhead, rfl⟩ := Option.map_eq_some_iff.1 hfault
  have htexts := congrArg List.head?
    (render_failures_eq (settingOf policy lib) (horder.trans horder'.symm))
  rw [List.head?_map, List.head?_map, hhead] at htexts
  obtain ⟨failure', hhead', htext⟩ := Option.map_eq_some_iff.1 htexts.symm
  have hfails : Fails policy lib failure.1 failure.2 :=
    (mem_failures_iff ((processingOrder_perm order).trans horder)).1 (List.mem_of_mem_head? hhead)
  have hfails' : Fails policy lib failure'.1 failure'.2 :=
    (mem_failures_iff ((processingOrder_perm order').trans horder')).1
      (List.mem_of_mem_head? hhead')
  exact ⟨failure.1, failure'.1, failure'.2, congrArg (Option.map Prod.snd) hhead', hfails, hfails',
    htext.symm⟩

/-- Whatever the order, the results are alike. -/
lemma alike_of_perm (horder : order.Perm lib.bodies.keys) (horder' : order'.Perm lib.bodies.keys) :
    Alike policy lib (simplifyListed policy order lib) (simplifyListed policy order' lib) := by
  have hkeys : (processingOrder order).Perm lib.bodies.keys :=
    (processingOrder_perm order).trans horder
  have hkeys' : (processingOrder order').Perm lib.bodies.keys :=
    (processingOrder_perm order').trans horder'
  constructor
  · refine KeyMap.eq_of_get? fun m => ?_
    exact (get?_simplifyInOrder hkeys m).trans (get?_simplifyInOrder hkeys' m).symm
  · refine KeyMap.eq_of_get? fun m => ?_
    exact (usage?_simplifyInOrder hkeys m).trans (usage?_simplifyInOrder hkeys' m).symm
  · exact ⟨_, _, log_simplifyInOrder policy _ lib, log_simplifyInOrder policy _ lib,
      added_perm _ (hkeys.trans hkeys'.symm)⟩
  · exact fun fault => exists_fault_of_perm horder horder'

/-- If two enumerations of the methods of a library agree on methods that look the same, as they do
if there are no such methods, then the methods are processed in the same order, and the library, with
its log, and the fault are the same afterwards. In any case the bodies and usages are the same, the
same events are recorded in some order, and the faults are those of methods that look the same. -/
theorem simplifyListed_determined (policy : Policy) (lib : Library) (order order' : List MethodRef)
    (horder : order.Perm lib.bodies.keys) (horder' : order'.Perm lib.bodies.keys) :
    (processingOrder order = processingOrder order' ↔ AgreeOnTies order order') ∧
      (AgreeOnTies order order' →
        simplifyListed policy order lib = simplifyListed policy order' lib) ∧
      ((lib.bodies.keys.map MethodRef.render).Nodup →
        simplifyListed policy order lib = simplifyAll policy lib) ∧
      Alike policy lib (simplifyListed policy order lib) (simplifyListed policy order' lib) := by
  have hsame : ∀ {order order' : List MethodRef}, AgreeOnTies order order' →
      simplifyListed policy order lib = simplifyListed policy order' lib := by
    intro order order' h
    rw [simplifyListed, processingOrder_eq_iff.2 h, simplifyListed]
  refine ⟨processingOrder_eq_iff, hsame, fun hnodup => ?_, alike_of_perm horder horder'⟩
  have hnodup' : (order.map MethodRef.render).Nodup := (horder.map _).nodup_iff.2 hnodup
  exact hsame (agreeOnTies_of_nodup horder hnodup')

/-- A static method or an instance method. -/
def resetMethod (isStatic : Bool) : MethodRef :=
  ⟨⟨"app", "Node", false⟩, "Reset", 0, isStatic⟩

/-- The method returns a variable that it has not declared. -/
def resetBody (isStatic : Bool) (id : VarId) : MethodBody :=
  ⟨resetMethod isStatic, false, .empty, [.ret (some (.readVar id))]⟩

/-- Two methods that look the same and fail for different reasons. -/
def resetLibrary : Library where
  config := { parallel := false }
  bodies := .ofList [(resetMethod true, resetBody true ⟨1⟩), (resetMethod false, resetBody false ⟨2⟩)]

/-- Without ties the methods can be enumerated the other way round. With ties, only what is common to
all runs is known. -/
theorem simplifyListed_determined_counterLibrary :
    counterLibrary.bodies.keys.reverse ≠ counterLibrary.bodies.keys ∧
      simplifyListed counterPolicy counterLibrary.bodies.keys.reverse counterLibrary =
        simplifyAll counterPolicy counterLibrary ∧
      ¬ AgreeOnTies resetLibrary.bodies.keys.reverse resetLibrary.bodies.keys ∧
      Alike counterPolicy resetLibrary
        (simplifyListed counterPolicy resetLibrary.bodies.keys.reverse resetLibrary)
        (simplifyListed counterPolicy resetLibrary.bodies.keys resetLibrary) := by
  have hreverse := fun lib : Library => List.reverse_perm lib.bodies.keys
  obtain ⟨-, -, hcounter, -⟩ := simplifyListed_determined counterPolicy counterLibrary _ _
    (hreverse counterLibrary) (List.Perm.refl _)
  obtain ⟨-, -, -, hreset⟩ := simplifyListed_determined counterPolicy resetLibrary _ _
    (hreverse resetLibrary) (List.Perm.refl _)
  refine ⟨by decide +kernel, hcounter (by decide +kernel), fun hties => ?_, hreset⟩
  exact absurd (hties (resetMethod true).render) (by decide +kernel)

/-- Methods that all look the same are processed in the order in which they are listed. -/
lemma simplifyListed_eq_of_tied (htied : order.Pairwise fun m n => m.render = n.render) :
    simplifyListed policy order lib = simplifyInOrder policy order lib := by
  have horder : processingOrder order = order :=
    List.mergeSort_of_pairwise (htied.imp precedes_of_render_eq)
  rw [simplifyListed, horder]

/-- Neither the fault nor the log is the same for all enumerations, even if methods are processed one
by one. -/
theorem not_forall_enumerations_agree :
    (¬ ∀ (policy : Policy) (lib : Library) (order order' : List MethodRef),
      lib.config.parallel = false → order.Perm lib.bodies.keys → order'.Perm lib.bodies.keys →
        (simplifyListed policy order lib).2 = (simplifyListed policy order' lib).2) ∧
    ¬ ∀ (policy : Policy) (lib : Library) (order order' : List MethodRef),
      lib.config.parallel = false → order.Perm lib.bodies.keys → order'.Perm lib.bodies.keys →
        (simplifyListed policy order lib).1.log = (simplifyListed policy order' lib).1.log := by
  have hperm : [resetMethod true, resetMethod false].Perm resetLibrary.bodies.keys := by
    decide +kernel
  have hperm' : [resetMethod false, resetMethod true].Perm resetLibrary.bodies.keys := by
    decide +kernel
  have hstatic : simplifyListed counterPolicy [resetMethod true, resetMethod false] resetLibrary =
      simplifyInOrder counterPolicy [resetMethod true, resetMethod false] resetLibrary :=
    simplifyListed_eq_of_tied (List.pairwise_pair.2 rfl)
  have hinstance : simplifyListed counterPolicy [resetMethod false, resetMethod true] resetLibrary =
      simplifyInOrder counterPolicy [resetMethod false, resetMethod true] resetLibrary :=
    simplifyListed_eq_of_tied (List.pairwise_pair.2 rfl)
  constructor
  · intro h
    have hfault := h counterPolicy resetLibrary _ _ rfl hperm hperm'
    rw [hstatic, hinstance] at hfault
    exact absurd (congrArg (Option.map Fault.message) hfault) (by decide +kernel)
  · intro h
    have hlog := h counterPolicy resetLibrary _ _ rfl hperm hperm'
    rw [hstatic, hinstance] at hlog
    exact absurd hlog (by decide +kernel)

end Library

end Inliner
