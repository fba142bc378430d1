import Inliner.Effects
import Mathlib.Tactic.Common

/-!
# Computations with commuting effects can be swapped

Effects describe what a computation on the storage of a frame may do. A computation *respects* some
effects when it changes only what they mark as written, when what it returns, raises and writes
depends only on what they mark as read or written, and when it raises only if they say so.

This file proves that the test `Domain.commutes` on effects is sound: two computations that respect
commuting effects can be run in either order, with the same final storage and the same outcome, also
if one of them raises an exception. The form used elsewhere is `Respects.bind_comm`, which swaps two
computations in front of whatever is done with their results.
-/

namespace Inliner

/-! ## Access to single slots -/

namespace AccessVector

/-- Two vectors commute exactly when they commute at every slot; past the end of a row nothing is
touched. -/
lemma commutes_iff (v w : AccessVector) :
    Domain.commutes v w = true ↔ ∀ i, Domain.commutes (v.get i) (w.get i) = true := by
  obtain ⟨v⟩ := v
  obtain ⟨w⟩ := w
  change (List.zipWith Domain.commutes v w).all id = true ↔
    ∀ i, Domain.commutes (v.getD i .untouched) (w.getD i .untouched) = true
  induction v generalizing w with
  | nil => simp [Domain.commutes]
  | cons a v ih =>
    cases w with
    | nil =>
      have hright : ∀ x : Access, Domain.commutes x .untouched = true := by
        intro x
        cases x <;> rfl
      simp [hright]
    | cons b w =>
      rw [List.zipWith_cons_cons, List.all_cons, Bool.and_eq_true, ih]
      constructor
      · rintro ⟨hhead, htail⟩ i
        cases i with
        | zero => exact hhead
        | succ i => exact htail i
      · intro h
        exact ⟨h 0, fun i => h (i + 1)⟩

/-- A vector is read-only exactly when none of its slots is written. -/
lemma isReadOnly_iff (v : AccessVector) :
    v.isReadOnly = true ↔ ∀ i, v.get i ≠ .write := by
  unfold isReadOnly get
  rw [List.all_eq_true]
  constructor
  · intro h i
    rw [List.getD_eq_getElem?_getD]
    cases hi : v.slots[i]? with
    | none => simp
    | some a => simpa [Access.isReadOnly] using h a (List.mem_of_getElem? hi)
  · intro h a ha
    obtain ⟨i, hi⟩ := List.getElem?_of_mem ha
    have := h i
    rw [List.getD_eq_getElem?_getD, hi] at this
    simpa [Access.isReadOnly] using this

end AccessVector

namespace Access

/-- A place that one of two commuting kinds of access touches is not written by the other. -/
lemma ne_write_of_commutes {a b : Access} (h : Domain.commutes a b = true) (ha : a ≠ .untouched) :
    b ≠ .write := by
  cases a <;> cases b <;> simp_all [Domain.commutes]

/-- Commuting does not depend on the order of the two kinds of access. -/
lemma commutes_comm (a b : Access) : Domain.commutes a b = Domain.commutes b a := by
  cases a <;> cases b <;> rfl

end Access

namespace Effects

/-- How a slot is touched. -/
def slotAccess (e : Effects) : Slot → Access
  | .argument i => e.args.get i
  | .localVar i => e.locals.get i

/-- Effects are read-only exactly when they write no slot and not the heap. -/
lemma isReadOnly_iff (e : Effects) :
    e.isReadOnly = true ↔ (∀ p, e.slotAccess p ≠ .write) ∧ e.heap ≠ .write := by
  have hheap : e.heap.isReadOnly = true ↔ e.heap ≠ .write := by simp [Access.isReadOnly]
  unfold isReadOnly
  rw [Bool.and_eq_true, Bool.and_eq_true, AccessVector.isReadOnly_iff,
    AccessVector.isReadOnly_iff, hheap]
  constructor
  · rintro ⟨⟨hargs, hlocals⟩, hheap⟩
    refine ⟨fun p => ?_, hheap⟩
    cases p with
    | argument i => exact hargs i
    | localVar i => exact hlocals i
  · rintro ⟨hslots, hheap⟩
    exact ⟨⟨fun i => hslots (.argument i), fun i => hslots (.localVar i)⟩, hheap⟩

/-- The swap test, place by place: no place conflicts, and what may raise meets only effects that
neither raise nor write. -/
lemma commutes_iff (d e : Effects) :
    Domain.commutes d e = true ↔
      (d.throws = true → e.throws = false ∧ e.isReadOnly = true) ∧
      (e.throws = true → d.throws = false ∧ d.isReadOnly = true) ∧
      (∀ p, Domain.commutes (d.slotAccess p) (e.slotAccess p) = true) ∧
      Domain.commutes d.heap e.heap = true := by
  have hslots : (Domain.commutes d.args e.args = true ∧ Domain.commutes d.locals e.locals = true) ↔
      ∀ p, Domain.commutes (d.slotAccess p) (e.slotAccess p) = true := by
    rw [AccessVector.commutes_iff, AccessVector.commutes_iff]
    constructor
    · rintro ⟨hargs, hlocals⟩ p
      cases p with
      | argument i => exact hargs i
      | localVar i => exact hlocals i
    · intro h
      exact ⟨fun i => h (.argument i), fun i => h (.localVar i)⟩
  have hdef : Domain.commutes d e =
      if d.throws && (e.throws || !e.isReadOnly) then false
      else if e.throws && !d.isReadOnly then false
      else Domain.commutes d.args e.args && Domain.commutes d.locals e.locals &&
        Domain.commutes d.heap e.heap := rfl
  rw [hdef, ← hslots]
  cases d.throws <;> cases e.throws <;> cases d.isReadOnly <;> cases e.isReadOnly <;>
    simp [and_assoc]

/-- The swap test does not depend on the order of the two effects. -/
lemma commutes_comm (d e : Effects) : Domain.commutes d e = Domain.commutes e d := by
  rw [Bool.eq_iff_iff, commutes_iff, commutes_iff]
  simp only [Access.commutes_comm (d.slotAccess _), Access.commutes_comm d.heap]
  tauto

end Effects

/-! ## Computations on the storage of a frame -/

/-- The storage of an activation: a value in every slot, and the heap. The slots outside a frame are
never touched by effects of that frame. -/
@[ext]
structure Store (V H : Type) where
  slot : Slot → V
  heap : H

/-- A computation on storage that returns a value or raises an exception. What it did to the storage
before raising stays. -/
abbrev Computation (V H X : Type) : Type → Type :=
  EStateM X (Store V H)

section Results

variable {X S A : Type}

/-- The value returned or the exception raised. -/
def outcome : EStateM.Result X S A → Except X A
  | .ok a _ => .ok a
  | .error x _ => .error x

/-- The state at the end, whether or not an exception was raised. -/
def final : EStateM.Result X S A → S
  | .ok _ s => s
  | .error _ s => s

@[simp] lemma outcome_ok (a : A) (s : S) : outcome (.ok a s : EStateM.Result X S A) = .ok a := rfl

@[simp] lemma outcome_error (x : X) (s : S) :
    outcome (.error x s : EStateM.Result X S A) = .error x := rfl

@[simp] lemma final_ok (a : A) (s : S) : final (.ok a s : EStateM.Result X S A) = s := rfl

@[simp] lemma final_error (x : X) (s : S) : final (.error x s : EStateM.Result X S A) = s := rfl

/-- A result is determined by its outcome and its final state. -/
lemma result_ext {r r' : EStateM.Result X S A} (ho : outcome r = outcome r')
    (hf : final r = final r') : r = r' := by
  cases r <;> cases r' <;> simp_all

/-- A result that returns a value is that value in the final state. -/
lemma eq_ok_of_outcome {r : EStateM.Result X S A} {a : A} (h : outcome r = .ok a) :
    r = .ok a (final r) := by
  cases r <;> simp_all

end Results

section Binds

variable {X S A B : Type} {f : EStateM X S A} {k : A → EStateM X S B} {s : S}

/-- After a computation that returned, the next one runs in the state it left. -/
lemma bind_of_ok {a : A} {s' : S} (h : f s = .ok a s') : (f >>= k) s = k a s' := by
  change EStateM.bind f k s = _
  simp [EStateM.bind, h]

/-- After a computation that raised, nothing more is run. -/
lemma bind_of_error {x : X} {s' : S} (h : f s = .error x s') : (f >>= k) s = .error x s' := by
  change EStateM.bind f k s = _
  simp [EStateM.bind, h]

/-- A composition that returned is one computation that returned after another. -/
lemma exists_of_bind_eq_ok {b : B} {s' : S} (h : (f >>= k) s = .ok b s') :
    ∃ a s₁, f s = .ok a s₁ ∧ k a s₁ = .ok b s' := by
  cases hf : f s with
  | ok a s₁ =>
    rw [bind_of_ok hf] at h
    exact ⟨a, s₁, rfl, h⟩
  | error x s₁ =>
    rw [bind_of_error hf] at h
    cases h

/-- Continuations need only agree on what was returned. -/
lemma bind_congr_of_ok {l : A → EStateM X S B} (h : ∀ a s', f s = .ok a s' → k a s' = l a s') :
    (f >>= k) s = (f >>= l) s := by
  cases hf : f s with
  | ok a s' => rw [bind_of_ok hf, bind_of_ok hf, h a s' hf]
  | error x s' => rw [bind_of_error hf, bind_of_error hf]

end Binds

/-! ## Respecting effects -/

section Respect

variable {V H X A B C : Type}

/-- The stores hold the same wherever the effects read or write. -/
structure AgreeOn (E : Effects) (s t : Store V H) : Prop where
  slot : ∀ p, E.slotAccess p ≠ .untouched → s.slot p = t.slot p
  heap : E.heap ≠ .untouched → s.heap = t.heap

/-- The computation does no more than the effects describe. -/
structure Respects (E : Effects) (f : Computation V H X A) : Prop where
  /-- A slot that is not marked as written is not changed. -/
  keeps_slot : ∀ s p, E.slotAccess p ≠ .write → (final (f s)).slot p = s.slot p
  /-- A heap that is not marked as written is not changed. -/
  keeps_heap : ∀ s, E.heap ≠ .write → (final (f s)).heap = s.heap
  /-- What is returned or raised depends only on what is marked. -/
  outcome_eq : ∀ {s t}, AgreeOn E s t → outcome (f s) = outcome (f t)
  /-- What is written to a slot depends only on what is marked. -/
  slot_eq : ∀ {s t}, AgreeOn E s t → ∀ p, E.slotAccess p = .write →
    (final (f s)).slot p = (final (f t)).slot p
  /-- What is written to the heap depends only on what is marked. -/
  heap_eq : ∀ {s t}, AgreeOn E s t → E.heap = .write →
    (final (f s)).heap = (final (f t)).heap
  /-- Only effects that may raise allow an exception. -/
  throws_of_error : ∀ {s x}, outcome (f s) = .error x → E.throws = true

variable {E E₁ E₂ : Effects} {f : Computation V H X A} {g : Computation V H X B}

namespace Respects

/-- A computation with read-only effects leaves the store as it was. -/
lemma final_of_isReadOnly (hf : Respects E f) (h : E.isReadOnly = true) (s : Store V H) :
    final (f s) = s := by
  obtain ⟨hslots, hheap⟩ := E.isReadOnly_iff.1 h
  ext p
  · exact hf.keeps_slot s p (hslots p)
  · exact hf.keeps_heap s hheap

/-- A computation that cannot raise returns a value. -/
lemma exists_ok (hf : Respects E f) (h : E.throws = false) (s : Store V H) :
    ∃ a, f s = .ok a (final (f s)) := by
  cases hr : f s with
  | ok a s' => exact ⟨a, by simp⟩
  | error x s' =>
    have := hf.throws_of_error (s := s) (x := x) (by rw [hr, outcome_error])
    rw [h] at this
    contradiction

/-- A computation does not change what the effects of one that commutes with it touch. -/
lemma agreeOn_final (hg : Respects E₂ g) (h : Domain.commutes E₁ E₂ = true) (s : Store V H) :
    AgreeOn E₁ s (final (g s)) := by
  obtain ⟨-, -, hslots, hheap⟩ := (E₁.commutes_iff E₂).1 h
  constructor
  · intro p hp
    exact (hg.keeps_slot s p (Access.ne_write_of_commutes (hslots p) hp)).symm
  · intro hp
    exact (hg.keeps_heap s (Access.ne_write_of_commutes hheap hp)).symm

/-- Two commuting computations leave the same in every slot, in either order. -/
lemma final_slot_comm (hf : Respects E₁ f) (hg : Respects E₂ g)
    (h : Domain.commutes E₁ E₂ = true) (s : Store V H) (p : Slot) :
    (final (g (final (f s)))).slot p = (final (f (final (g s)))).slot p := by
  have h' : Domain.commutes E₂ E₁ = true := by rw [Effects.commutes_comm, h]
  have hp := ((E₁.commutes_iff E₂).1 h).2.2.1 p
  by_cases hw : E₁.slotAccess p = .write
  · -- `f` writes the slot, so `g` does not touch it.
    have hg' : E₂.slotAccess p ≠ .write :=
      Access.ne_write_of_commutes hp (by rw [hw]; decide)
    calc (final (g (final (f s)))).slot p
        = (final (f s)).slot p := hg.keeps_slot _ p hg'
      _ = (final (f (final (g s)))).slot p := hf.slot_eq (hg.agreeOn_final h s) p hw
  · by_cases hw' : E₂.slotAccess p = .write
    · calc (final (g (final (f s)))).slot p
          = (final (g s)).slot p := (hg.slot_eq (hf.agreeOn_final h' s) p hw').symm
        _ = (final (f (final (g s)))).slot p := (hf.keeps_slot _ p hw).symm
    · rw [hg.keeps_slot _ p hw', hf.keeps_slot _ p hw, hf.keeps_slot _ p hw,
        hg.keeps_slot _ p hw']

/-- Two commuting computations leave the same heap, in either order. -/
lemma final_heap_comm (hf : Respects E₁ f) (hg : Respects E₂ g)
    (h : Domain.commutes E₁ E₂ = true) (s : Store V H) :
    (final (g (final (f s)))).heap = (final (f (final (g s)))).heap := by
  have h' : Domain.commutes E₂ E₁ = true := by rw [Effects.commutes_comm, h]
  have hp := ((E₁.commutes_iff E₂).1 h).2.2.2
  by_cases hw : E₁.heap = .write
  · have hg' : E₂.heap ≠ .write := Access.ne_write_of_commutes hp (by rw [hw]; decide)
    calc (final (g (final (f s)))).heap
        = (final (f s)).heap := hg.keeps_heap _ hg'
      _ = (final (f (final (g s)))).heap := hf.heap_eq (hg.agreeOn_final h s) hw
  · by_cases hw' : E₂.heap = .write
    · calc (final (g (final (f s)))).heap
          = (final (g s)).heap := (hg.heap_eq (hf.agreeOn_final h' s) hw').symm
        _ = (final (f (final (g s)))).heap := (hf.keeps_heap _ hw).symm
    · rw [hg.keeps_heap _ hw', hf.keeps_heap _ hw, hf.keeps_heap _ hw, hg.keeps_heap _ hw']

/-- If the first of two commuting computations raises, the other one changes nothing and returns, so
that it does not matter whether it was run before. -/
lemma bind_comm_of_error (hf : Respects E₁ f) (hg : Respects E₂ g)
    (h : Domain.commutes E₁ E₂ = true) {s s' : Store V H} {x : X} (hx : f s = .error x s')
    (k : B → A → Computation V H X C) :
    (g >>= fun b => f >>= fun a => k b a) s = .error x s' := by
  have hthrows : E₁.throws = true := hf.throws_of_error (s := s) (x := x) (by rw [hx, outcome_error])
  obtain ⟨hnothrow, hreadonly⟩ := ((E₁.commutes_iff E₂).1 h).1 hthrows
  obtain ⟨b, hb⟩ := hg.exists_ok hnothrow s
  rw [hg.final_of_isReadOnly hreadonly s] at hb
  rw [bind_of_ok hb]
  exact bind_of_error hx

/-- Two commuting computations can be swapped in front of whatever uses their results. -/
lemma bind_comm (hf : Respects E₁ f) (hg : Respects E₂ g) (h : Domain.commutes E₁ E₂ = true)
    (k : A → B → Computation V H X C) :
    (f >>= fun a => g >>= fun b => k a b) = g >>= fun b => f >>= fun a => k a b := by
  have h' : Domain.commutes E₂ E₁ = true := by rw [Effects.commutes_comm, h]
  funext s
  cases hfs : f s with
  | error x s' =>
    rw [bind_of_error hfs, hf.bind_comm_of_error hg h hfs (fun b a => k a b)]
  | ok a s₁ =>
    cases hgs : g s with
    | error x s' =>
      rw [hg.bind_comm_of_error hf h' hgs k, bind_of_error hgs]
    | ok b s₂ =>
      -- Neither raises: each returns what it returned alone, and the final stores agree.
      have hs₁ : final (f s) = s₁ := by rw [hfs, final_ok]
      have hs₂ : final (g s) = s₂ := by rw [hgs, final_ok]
      have hg₁ : outcome (g s₁) = .ok b := by
        rw [← hs₁, ← hg.outcome_eq (hf.agreeOn_final h' s), hgs, outcome_ok]
      have hf₂ : outcome (f s₂) = .ok a := by
        rw [← hs₂, ← hf.outcome_eq (hg.agreeOn_final h s), hfs, outcome_ok]
      have hfinal : final (g s₁) = final (f s₂) := by
        rw [← hs₁, ← hs₂]
        ext p
        · exact hf.final_slot_comm hg h s p
        · exact hf.final_heap_comm hg h s
      rw [bind_of_ok hfs, bind_of_ok hgs, bind_of_ok (eq_ok_of_outcome hg₁),
        bind_of_ok (eq_ok_of_outcome hf₂), hfinal]

end Respects

/-- The swap test is sound. If the effects of two computations commute, then running one after the
other gives the same result in either order: the same final store, the same two values if neither
raises, and the same exception otherwise. -/
theorem run_comm_of_commutes (h : Domain.commutes E₁ E₂ = true) (hf : Respects E₁ f)
    (hg : Respects E₂ g) (s : Store V H) :
    (do let a ← f; let b ← g; return (a, b)) s = (do let b ← g; let a ← f; return (a, b)) s := by
  rw [hf.bind_comm hg h]

end Respect

/-- Copies local `0` into argument `0`, and returns it. -/
def copyToArgument : Computation Nat Nat String Nat := fun s =>
  .ok (s.slot (.localVar 0))
    { s with slot := fun p => if p = .argument 0 then s.slot (.localVar 0) else s.slot p }

/-- Adds local `0` to a number on the heap, and returns the number before. -/
def addToHeap : Computation Nat Nat String Nat := fun s =>
  .ok s.heap { s with heap := s.heap + s.slot (.localVar 0) }

/-- Copying reads the local and writes the argument. -/
lemma respects_copyToArgument :
    Respects ⟨⟨[.write]⟩, ⟨[.read]⟩, .untouched, false⟩ copyToArgument := by
  have hlocal : ∀ {s t : Store Nat Nat},
      AgreeOn ⟨⟨[.write]⟩, ⟨[.read]⟩, .untouched, false⟩ s t →
        s.slot (.localVar 0) = t.slot (.localVar 0) :=
    fun hst => hst.slot (.localVar 0) (by decide)
  constructor
  · intro s p hp
    have hne : p ≠ .argument 0 := by
      rintro rfl
      exact hp rfl
    simp [copyToArgument, hne]
  · intro s _
    rfl
  · intro s t hst
    simp [copyToArgument, hlocal hst]
  · intro s t hst p hp
    have hagree := hst.slot p (by rw [hp]; decide)
    simp [copyToArgument, hlocal hst, hagree]
  · intro s t hst hp
    cases hp
  · intro s x hx
    cases hx

/-- Adding reads the local and writes the heap. -/
lemma respects_addToHeap :
    Respects ⟨⟨[.untouched]⟩, ⟨[.read]⟩, .write, false⟩ addToHeap := by
  constructor
  · intro s p _
    rfl
  · intro s hp
    exact absurd rfl hp
  · intro s t hst
    simp [addToHeap, hst.heap (by decide)]
  · intro s t hst p hp
    exact hst.slot p (by rw [hp]; decide)
  · intro s t hst _
    have hlocal : s.slot (.localVar 0) = t.slot (.localVar 0) :=
      hst.slot (.localVar 0) (by decide)
    simp [addToHeap, hlocal, hst.heap (by decide)]
  · intro s x hx
    cases hx

/-- A copy between slots and a change of the heap that depends on the same local can be swapped. -/
theorem run_comm_copy_add :
    Domain.commutes (α := Effects) ⟨⟨[.write]⟩, ⟨[.read]⟩, .untouched, false⟩
        ⟨⟨[.untouched]⟩, ⟨[.read]⟩, .write, false⟩ = true ∧
      (do let a ← copyToArgument; let b ← addToHeap; return (a, b)) ⟨fun _ => 7, 3⟩ =
        (do let b ← addToHeap; let a ← copyToArgument; return (a, b)) ⟨fun _ => 7, 3⟩ :=
  ⟨by decide, run_comm_of_commutes (by decide) respects_copyToArgument respects_addToHeap _⟩

end Inliner
