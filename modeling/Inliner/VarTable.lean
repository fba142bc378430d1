import Inliner.Fault
import Inliner.Frame

/-!
# Variable tables

The arguments and locals that a method declares, in order of declaration. A variable's position in
the table is its name in terms; its *slot* is its position among the variables of the same storage
class. Slots are not stored but counted, so distinct variables have distinct slots and every slot
lies in the frame of the table.

This is right for tables that are built by declarations alone: a declaration gives a variable the next
slot of its class, and nothing moves it to another one later. Tables are also taken to stay below
`2 ^ 32` entries, so that every position is a name of its own.
-/

namespace Inliner

/-- Where a variable lives. -/
inductive Storage where
  | argument
  | localVar
  deriving DecidableEq

/-- What is known about the uses of a variable. -/
structure Flags where
  /-- It is read somewhere. -/
  read : Bool := false
  /-- It is assigned before it is first read. -/
  init : Bool := false
  /-- It is not assigned after its initialisation. -/
  readOnly : Bool := false
  /-- A pointer to it is taken somewhere. -/
  addressTaken : Bool := false
  deriving DecidableEq

namespace Flags

/-- The flags raised in either. -/
def union (f g : Flags) : Flags :=
  ⟨f.read || g.read, f.init || g.init, f.readOnly || g.readOnly, f.addressTaken || g.addressTaken⟩

end Flags

/-- A declared argument or local. -/
structure Variable where
  name : String
  type : TypeRef
  storage : Storage
  flags : Flags
  deriving DecidableEq

/-- The declarations of a method, in order. There are fewer than `2 ^ 32` of them. -/
@[ext]
structure VarTable where
  vars : List Variable
  deriving DecidableEq

namespace VarTable

/-- The table without declarations. -/
def empty : VarTable :=
  ⟨[]⟩

/-- The number of declarations. -/
def size (t : VarTable) : Nat :=
  t.vars.length

/-- The number of declarations of one storage class among some variables. -/
def countOf (s : Storage) (vars : List Variable) : Nat :=
  vars.countP fun v => v.storage == s

/-- The shape of the storage that the declarations need. -/
def frame (t : VarTable) : Frame :=
  ⟨countOf .argument t.vars, countOf .localVar t.vars⟩

/-- The declaration of a variable. -/
def get? (t : VarTable) (id : VarId) : Option Variable :=
  t.vars[id.index]?

/-- The declaration of a variable, which has to be there. -/
def get (t : VarTable) (id : VarId) : Except Fault Variable :=
  match t.get? id with
  | some v => .ok v
  | none => .error (.unknownVariable id)

/-- The slot of a declared variable: as many variables of its class stand before it. -/
def slotOf (t : VarTable) (id : VarId) (v : Variable) : Slot :=
  match v.storage with
  | .argument => .argument (countOf .argument (t.vars.take id.index))
  | .localVar => .localVar (countOf .localVar (t.vars.take id.index))

/-- The slot of a variable, which has to be declared. -/
def slot (t : VarTable) (id : VarId) : Except Fault Slot :=
  (t.get id).map (t.slotOf id)

/-- The table with one more variable. -/
def push (t : VarTable) (v : Variable) : VarTable :=
  ⟨t.vars ++ [v]⟩

/-- The name of the next variable to be declared. -/
def nextId (t : VarTable) : VarId :=
  ⟨t.size⟩

/-- Declares a parameter, with no flag raised. -/
def declareArgument (t : VarTable) (name : String) (type : TypeRef) : VarTable :=
  t.push ⟨name, type, .argument, {}⟩

/-- Declares a local. -/
def declareLocal (t : VarTable) (name : String) (type : TypeRef) (flags : Flags) : VarTable :=
  t.push ⟨name, type, .localVar, flags⟩

/-- Declares a local whose name is made from the number of locals before it. -/
def declareFresh (t : VarTable) (type : TypeRef) (flags : Flags) : VarTable :=
  t.declareLocal ("t" ++ toString t.frame.locals) type flags

/-- Replaces the declaration of a variable, which has to be there. Its storage class stays, and with it
its slot. -/
def update (t : VarTable) (id : VarId) (change : Variable → Variable) : Except Fault VarTable :=
  (t.get id).map fun v => ⟨t.vars.set id.index { change v with storage := v.storage }⟩

/-- Raises flags of a variable, which has to be declared. -/
def mark (t : VarTable) (id : VarId) (flags : Flags) : Except Fault VarTable :=
  t.update id fun v => { v with flags := v.flags.union flags }

/-- The variables of one storage class, in order of declaration. -/
def idsOf (t : VarTable) (s : Storage) : List VarId :=
  (t.vars.zipIdx.filter fun (v, _) => v.storage == s).map fun (_, i) => ⟨i⟩

/-- The parameters, in order. -/
def arguments (t : VarTable) : List VarId :=
  t.idsOf .argument

/-- The locals, in order. -/
def locals (t : VarTable) : List VarId :=
  t.idsOf .localVar

end VarTable

end Inliner
