import Inliner.Frame
import Inliner.SlotSet

/-!
# Pointer targets

What a pointer may point at: some argument slots, some local slots of the frame, and perhaps the
heap. A value that is no pointer points nowhere.
-/

namespace Inliner

/-- The places that a pointer may point at. -/
@[ext]
structure PointsTo where
  args : SlotSet
  locals : SlotSet
  heap : Bool
  deriving DecidableEq

namespace PointsTo

/-- The frame whose slots are described. -/
def frame (p : PointsTo) : Frame :=
  ⟨p.args.capacity, p.locals.capacity⟩

/-- Points nowhere. -/
def bottom (f : Frame) : PointsTo :=
  ⟨.empty f.args, .empty f.locals, false⟩

/-- May point anywhere. -/
def top (f : Frame) : PointsTo :=
  ⟨.full f.args, .full f.locals, true⟩

/-- Points somewhere into the heap. -/
def toHeap (f : Frame) : PointsTo :=
  { bottom f with heap := true }

/-- Points exactly at the given slot, which has to belong to the frame. -/
def toSlot? (f : Frame) : Slot → Option PointsTo
  | .argument i => (SlotSet.singleton? f.args i).map fun s => { bottom f with args := s }
  | .localVar i => (SlotSet.singleton? f.locals i).map fun s => { bottom f with locals := s }

/-- The same targets in a frame that covers `f` too. -/
def extend (p : PointsTo) (f : Frame) : PointsTo :=
  ⟨p.args.extend f.args, p.locals.extend f.locals, p.heap⟩

end PointsTo

/-- Ordered and joined part by part. Two pointers commute when they cannot alias. -/
instance : Domain PointsTo where
  le p q := Domain.le p.args q.args && Domain.le p.locals q.locals && Domain.le p.heap q.heap
  join p q := do
    let args ← Domain.join p.args q.args
    let locals ← Domain.join p.locals q.locals
    return ⟨args, locals, p.heap || q.heap⟩
  isBottom p := Domain.isBottom p.args && Domain.isBottom p.locals && Domain.isBottom p.heap
  isTop p := Domain.isTop p.args && Domain.isTop p.locals && Domain.isTop p.heap
  commutes p q :=
    Domain.commutes p.args q.args && Domain.commutes p.locals q.locals &&
      Domain.commutes p.heap q.heap

namespace PointsTo

theorem join_eq_some {p q r : PointsTo} :
    Domain.join p q = some r ↔
      Domain.join p.args q.args = some r.args ∧ Domain.join p.locals q.locals = some r.locals ∧
        Domain.join p.heap q.heap = some r.heap := by
  obtain ⟨pa, pl, ph⟩ := p
  obtain ⟨qa, ql, qh⟩ := q
  obtain ⟨ra, rl, rh⟩ := r
  simp only [Domain.join, bind, Option.bind, pure]
  cases hu : (pa.union? qa).map Prod.fst <;> cases hv : (pl.union? ql).map Prod.fst <;>
    simp [eq_comm]

end PointsTo

instance : FiniteHeight PointsTo where
  room p := FiniteHeight.room p.args + FiniteHeight.room p.locals + FiniteHeight.room p.heap
  room_le {x y z} hz := by
    obtain ⟨ha, hl, hh⟩ := PointsTo.join_eq_some.1 hz
    have := FiniteHeight.room_le ha
    have := FiniteHeight.room_le hl
    have := FiniteHeight.room_le hh
    omega
  room_lt {x y z} hz hy := by
    obtain ⟨ha, hl, hh⟩ := PointsTo.join_eq_some.1 hz
    have := FiniteHeight.room_le ha
    have := FiniteHeight.room_le hl
    have := FiniteHeight.room_le hh
    have hy' : (Domain.le y.args x.args && Domain.le y.locals x.locals &&
        Domain.le y.heap x.heap) = false := hy
    rcases Bool.and_eq_false_iff.1 hy' with hy' | hy'
    · rcases Bool.and_eq_false_iff.1 hy' with hy' | hy'
      · have := FiniteHeight.room_lt ha hy'
        omega
      · have := FiniteHeight.room_lt hl hy'
        omega
    · have := FiniteHeight.room_lt hh hy'
      omega

end Inliner
