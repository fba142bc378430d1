import Inliner.Domain

/-!
# Kinds of access

How a slot or the heap is touched: not at all, read, or written. `AccessVector` records this for
every slot of a row of slots.
-/

namespace Inliner

/-- How a piece of storage is touched. A write counts as more than a read. -/
inductive Access where
  | untouched
  | read
  | write
  deriving DecidableEq

namespace Access

/-- The position in the chain `untouched`, `read`, `write`. -/
def rank : Access → Nat
  | untouched => 0
  | read => 1
  | write => 2

/-- The stronger of two kinds of access. -/
def sup (a b : Access) : Access :=
  if a.rank ≤ b.rank then b else a

/-- Nothing is written. -/
def isReadOnly (a : Access) : Bool :=
  a != write

/-- The sign of a kind of access in printed vectors. -/
def sign : Access → String
  | untouched => "-"
  | read => "r"
  | write => "w"

end Access

/-- Reads commute with reads; a write commutes with an untouched place only. -/
instance : Domain Access where
  le a b := decide (a.rank ≤ b.rank)
  join a b := some (a.sup b)
  isBottom a := a == .untouched
  isTop a := a == .write
  commutes
    | .untouched, _ => true
    | _, .untouched => true
    | .read, .read => true
    | _, _ => false

instance : FiniteHeight Access where
  room a := 2 - a.rank
  room_le {x y z} hz := by
    cases x <;> cases y <;> simp_all [Domain.join, Access.rank, Access.sup] <;> simp [← hz]
  room_lt {x y z} hz hy := by
    cases x <;> cases y <;> simp_all [Domain.join, Domain.le, Access.rank, Access.sup] <;>
      simp [← hz]

/-- How each slot of a row is touched. -/
@[ext]
structure AccessVector where
  slots : List Access
  deriving DecidableEq

namespace AccessVector

/-- The number of slots. -/
def length (v : AccessVector) : Nat :=
  v.slots.length

/-- No slot is touched. -/
def bottom (n : Nat) : AccessVector :=
  ⟨List.replicate n .untouched⟩

/-- Every slot may be written. -/
def top (n : Nat) : AccessVector :=
  ⟨List.replicate n .write⟩

/-- The slots listed are touched by `a` and no others; positions past the end of the row are left
out. -/
def touching (n : Nat) (positions : List Nat) (a : Access) : AccessVector :=
  ⟨(List.range n).map fun i => if positions.contains i then a else .untouched⟩

/-- How slot `i` is touched. There is nothing to touch past the end of the row. -/
def get (v : AccessVector) (i : Nat) : Access :=
  v.slots.getD i .untouched

/-- No slot is written. -/
def isReadOnly (v : AccessVector) : Bool :=
  v.slots.all Access.isReadOnly

/-- The row lengthened to `n` slots, the new ones untouched; a row that is long enough already stays
as it is. -/
def extend (v : AccessVector) (n : Nat) : AccessVector :=
  ⟨v.slots ++ List.replicate (n - v.length) .untouched⟩

/-- The signs of the slots in brackets, as in `[- r w]`. -/
def render (v : AccessVector) : String :=
  "[" ++ " ".intercalate (v.slots.map Access.sign) ++ "]"

/-- How far the slots of a row are from `write`, added up. -/
def roomOf (slots : List Access) : Nat :=
  slots.foldr (fun a n => FiniteHeight.room a + n) 0

/-- How far a vector is from the top. -/
def room (v : AccessVector) : Nat :=
  roomOf v.slots

@[simp] theorem length_bottom (n : Nat) : (bottom n).length = n := by
  simp [bottom, length]

@[simp] theorem length_top (n : Nat) : (top n).length = n := by
  simp [top, length]

@[simp] theorem length_touching (n : Nat) (positions : List Nat) (a : Access) :
    (touching n positions a).length = n := by
  simp [touching, length]

@[simp] theorem length_extend (v : AccessVector) (n : Nat) :
    (v.extend n).length = max v.length n := by
  simp only [extend, length, List.length_append, List.length_replicate]
  omega

end AccessVector

/-- Vectors are compared and joined slot by slot, which needs rows of one length. Independence looks
at the slots that both rows have. -/
instance : Domain AccessVector where
  le v w := v.length == w.length && (List.zipWith Domain.le v.slots w.slots).all id
  join v w :=
    if v.length = w.length then some ⟨List.zipWith Access.sup v.slots w.slots⟩ else none
  isBottom v := v.slots.all Domain.isBottom
  isTop v := v.slots.all Domain.isTop
  commutes v w := (List.zipWith Domain.commutes v.slots w.slots).all id

namespace AccessVector

/-- No row gains room by a join. -/
theorem roomOf_sup_le : ∀ {v w : List Access}, v.length = w.length →
    roomOf (List.zipWith Access.sup v w) ≤ roomOf v
  | [], [], _ => by simp
  | a :: v, b :: w, h => by
    have ih := roomOf_sup_le (v := v) (w := w) (by simpa using h)
    have := FiniteHeight.room_le (x := a) (y := b) rfl
    simp only [roomOf, List.zipWith_cons_cons, List.foldr_cons] at ih ⊢
    omega

/-- A row loses room when something new is joined in. -/
theorem roomOf_sup_lt : ∀ {v w : List Access}, v.length = w.length →
    (List.zipWith Domain.le w v).all id = false →
    roomOf (List.zipWith Access.sup v w) < roomOf v
  | [], [], _, h => by simp at h
  | a :: v, b :: w, h, hlt => by
    have hvw : v.length = w.length := by simpa using h
    have htail := roomOf_sup_le hvw
    have hhead := FiniteHeight.room_le (x := a) (y := b) rfl
    simp only [roomOf, List.zipWith_cons_cons, List.foldr_cons] at htail ⊢
    simp only [List.zipWith_cons_cons, List.all_cons, id, Bool.and_eq_false_iff] at hlt
    rcases hlt with hlt | hlt
    · have := FiniteHeight.room_lt (x := a) (y := b) rfl hlt
      omega
    · have ih := roomOf_sup_lt hvw hlt
      simp only [roomOf] at ih
      omega

end AccessVector

instance : FiniteHeight AccessVector where
  room := AccessVector.room
  room_le {x y z} hz := by
    by_cases h : x.length = y.length
    · simp only [Domain.join, h, if_true, Option.some.injEq] at hz
      subst hz
      exact AccessVector.roomOf_sup_le h
    · simp [Domain.join, h] at hz
  room_lt {x y z} hz hy := by
    by_cases h : x.length = y.length
    · simp only [Domain.join, h, if_true, Option.some.injEq] at hz
      subst hz
      refine AccessVector.roomOf_sup_lt h ?_
      simpa [Domain.le, h] using hy
    · simp [Domain.join, h] at hz

end Inliner
