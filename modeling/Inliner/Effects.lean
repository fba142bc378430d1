import Inliner.Access
import Inliner.PointsTo

/-!
# Effects

What evaluating a term may do: how it touches each argument and local slot of the frame and the heap,
and whether it may raise an exception. Two evaluations may be swapped when their effects commute.
-/

namespace Inliner

/-- What an evaluation may do. -/
@[ext]
structure Effects where
  args : AccessVector
  locals : AccessVector
  heap : Access
  throws : Bool
  deriving DecidableEq

namespace Effects

/-- The frame whose slots are described. -/
def frame (e : Effects) : Frame :=
  ⟨e.args.length, e.locals.length⟩

/-- No effect at all. -/
def bottom (f : Frame) : Effects :=
  ⟨.bottom f.args, .bottom f.locals, .untouched, false⟩

/-- May write everything and may raise. -/
def top (f : Frame) : Effects :=
  ⟨.top f.args, .top f.locals, .write, true⟩

/-- May raise, and touches nothing. -/
def raising (f : Frame) : Effects :=
  { bottom f with throws := true }

/-- Touches the heap. -/
def onHeap (f : Frame) (a : Access) (throws : Bool) : Effects :=
  { bottom f with heap := a, throws }

/-- Touches the listed arguments and locals. -/
def onSlots (f : Frame) (args locals : List Nat) (a : Access) (throws : Bool) : Effects :=
  ⟨.touching f.args args a, .touching f.locals locals a, .untouched, throws⟩

/-- Touches the listed arguments and locals and the heap. -/
def onSlotsAndHeap (f : Frame) (args locals : List Nat) (a : Access) (throws : Bool) : Effects :=
  { onSlots f args locals a throws with heap := a }

/-- Touches one slot. -/
def onSlot (f : Frame) (slot : Slot) (a : Access) : Effects :=
  match slot with
  | .argument i => { bottom f with args := .touching f.args [i] a }
  | .localVar i => { bottom f with locals := .touching f.locals [i] a }

/-- Nothing is written. Exceptions are not considered. -/
def isReadOnly (e : Effects) : Bool :=
  e.args.isReadOnly && e.locals.isReadOnly && e.heap.isReadOnly

/-- Nothing is written and nothing is raised. -/
def isPure (e : Effects) : Bool :=
  e.isReadOnly && !e.throws

/-- Evaluations with these effects may be done in any order: each of them is read-only and cannot
raise. Disjoint writes are not recognised. -/
def allPure (es : List Effects) : Bool :=
  es.all isPure

/-- The same effects in a frame that covers `f` too; the new slots are untouched. -/
def extend (e : Effects) (f : Frame) : Effects :=
  ⟨e.args.extend f.args, e.locals.extend f.locals, e.heap, e.throws⟩

end Effects

/-- Ordered and joined part by part. Accesses must not conflict, and an exception may not be moved
across a write or across another exception. -/
instance : Domain Effects where
  le d e :=
    Domain.le d.args e.args && Domain.le d.locals e.locals && Domain.le d.heap e.heap &&
      Domain.le d.throws e.throws
  join d e := do
    let args ← Domain.join d.args e.args
    let locals ← Domain.join d.locals e.locals
    return ⟨args, locals, d.heap.sup e.heap, d.throws || e.throws⟩
  isBottom e :=
    Domain.isBottom e.args && Domain.isBottom e.locals && Domain.isBottom e.heap &&
      Domain.isBottom e.throws
  isTop e :=
    Domain.isTop e.args && Domain.isTop e.locals && Domain.isTop e.heap && Domain.isTop e.throws
  commutes d e :=
    if d.throws && (e.throws || !e.isReadOnly) then false
    else if e.throws && !d.isReadOnly then false
    else
      Domain.commutes d.args e.args && Domain.commutes d.locals e.locals &&
        Domain.commutes d.heap e.heap

namespace Effects

/-- Joins the effects `e` into `d`, after padding both to their common frame. The padded rows have
equal lengths, so the join is always there. -/
def absorb (d e : Effects) : Effects :=
  let f := d.frame.sup e.frame
  let d := d.extend f
  let e := e.extend f
  { args := (Domain.join d.args e.args).getD d.args
    locals := (Domain.join d.locals e.locals).getD d.locals
    heap := d.heap.sup e.heap
    throws := d.throws || e.throws }

theorem join_eq_some {d e r : Effects} :
    Domain.join d e = some r ↔
      Domain.join d.args e.args = some r.args ∧ Domain.join d.locals e.locals = some r.locals ∧
        Domain.join d.heap e.heap = some r.heap ∧ Domain.join d.throws e.throws = some r.throws := by
  obtain ⟨da, dl, dh, dt⟩ := d
  obtain ⟨ea, el, eh, et⟩ := e
  obtain ⟨ra, rl, rh, rt⟩ := r
  have hjoin : Domain.join (α := Effects) ⟨da, dl, dh, dt⟩ ⟨ea, el, eh, et⟩ =
      (Domain.join da ea).bind fun a => (Domain.join dl el).bind fun l =>
        some ⟨a, l, dh.sup eh, dt || et⟩ := rfl
  have hheap : Domain.join dh eh = some (dh.sup eh) := rfl
  have hthrows : Domain.join dt et = some (dt || et) := rfl
  rw [hjoin, hheap, hthrows]
  cases Domain.join da ea <;> cases Domain.join dl el <;> simp

end Effects

instance : FiniteHeight Effects where
  room e :=
    FiniteHeight.room e.args + FiniteHeight.room e.locals + FiniteHeight.room e.heap +
      FiniteHeight.room e.throws
  room_le {x y z} hz := by
    obtain ⟨ha, hl, hh, ht⟩ := Effects.join_eq_some.1 hz
    have := FiniteHeight.room_le ha
    have := FiniteHeight.room_le hl
    have := FiniteHeight.room_le hh
    have := FiniteHeight.room_le ht
    omega
  room_lt {x y z} hz hy := by
    obtain ⟨ha, hl, hh, ht⟩ := Effects.join_eq_some.1 hz
    have := FiniteHeight.room_le ha
    have := FiniteHeight.room_le hl
    have := FiniteHeight.room_le hh
    have := FiniteHeight.room_le ht
    have hy' : (Domain.le y.args x.args && Domain.le y.locals x.locals &&
        Domain.le y.heap x.heap && Domain.le y.throws x.throws) = false := hy
    rcases Bool.and_eq_false_iff.1 hy' with hy' | hy'
    · rcases Bool.and_eq_false_iff.1 hy' with hy' | hy'
      · rcases Bool.and_eq_false_iff.1 hy' with hy' | hy'
        · have := FiniteHeight.room_lt ha hy'
          omega
        · have := FiniteHeight.room_lt hl hy'
          omega
      · have := FiniteHeight.room_lt hh hy'
        omega
    · have := FiniteHeight.room_lt ht hy'
      omega

namespace PointsTo

/-- The effects of an access of kind `a` through a pointer with these targets. -/
def accessed (p : PointsTo) (a : Access) : Effects :=
  ⟨.touching p.args.capacity p.args.toList a, .touching p.locals.capacity p.locals.toList a,
    if p.heap then a else .untouched, false⟩

/-- The effects of reading through the pointer. -/
def readEffects (p : PointsTo) : Effects :=
  p.accessed .read

/-- The effects of writing through the pointer. -/
def writeEffects (p : PointsTo) : Effects :=
  p.accessed .write

end PointsTo

end Inliner
