/-!
# Frames and slots

A frame is the shape of the storage of one method activation: so many argument slots and so many
local slots. Arguments and locals are numbered separately.
-/

namespace Inliner

/-- The numbers of argument and local slots of a method. -/
@[ext]
structure Frame where
  args : Nat
  locals : Nat
  deriving DecidableEq

namespace Frame

/-- The smallest frame that covers both. -/
def sup (f g : Frame) : Frame :=
  ⟨max f.args g.args, max f.locals g.locals⟩

end Frame

/-- One piece of storage of a frame. -/
inductive Slot where
  /-- Formal parameter `i`; the receiver of an instance method is number `0`. -/
  | argument (i : Nat)
  /-- Local `i`. -/
  | localVar (i : Nat)
  deriving DecidableEq

end Inliner
