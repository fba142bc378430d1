import Inliner.Count
import Inliner.Term.Basic

/-!
# Usage records

How often a piece of code refers to each assembly, type, method, field and variable. A positive count
is definite: every path refers to the entity at least that often. The count `possible` stands for an
entity that some path may not refer to at all.

A reference to a method or field also counts for its declaring type, and a reference to a type counts
for its assembly.
-/

namespace Inliner

open Inliner.Count Std

/-- The counts of one kind of entity, in the numbers `ν`. -/
abbrev Tally (κ ν : Type) [Ord κ] : Type :=
  KeyMap κ ν

namespace Tally

variable {κ ν : Type} [Ord κ] [TransOrd κ] [Count ν]

/-- The count of an entity that is referred to on some paths only. -/
def possible : ν :=
  -1

/-- Adds `delta` references to `k`, definite ones if `always` holds. A definite contribution replaces
a possible count and adds to a definite one; a possible contribution matters only if there was no
count at all. -/
def add (m : Tally κ ν) (k : κ) (delta : ν) (always : Bool) : Tally κ ν :=
  match m.get? k with
  | none => m.insert k (if always then delta else possible)
  | some count =>
    if always then m.insert k (if 0 < toInt count then count + delta else delta) else m

/-- Adds all counts of `sub`; they are definite if they were and `always` holds. -/
def merge (m sub : Tally κ ν) (always : Bool) : Tally κ ν :=
  sub.entries.foldl (fun m (k, count) => m.add k count (always && decide (0 < toInt count))) m

/-- The count of `k` if exactly one of the alternatives is run: the least count if `k` is definite in
each of them, and a possible one otherwise. -/
def eitherCount (alternatives : List (Tally κ ν)) (k : κ) : ν :=
  let definite := alternatives.mapM fun m => (m.get? k).filter (0 < toInt ·)
  (definite.bind List.min?).getD possible

/-- The counts if exactly one of the alternatives is run. -/
def either (alternatives : List (Tally κ ν)) : Tally κ ν :=
  KeyMap.ofList ((alternatives.flatMap KeyMap.keys).map fun k => (k, eitherCount alternatives k))

end Tally

/-- The counts of all kinds of entities. -/
structure Usage (ν : Type) where
  assemblies : Tally String ν := ∅
  types : Tally TypeRef ν := ∅
  methods : Tally MethodRef ν := ∅
  fields : Tally FieldRef ν := ∅
  /-- Variables that are read. -/
  reads : Tally VarId ν := ∅
  /-- Variables to which a pointer is taken. -/
  pointers : Tally VarId ν := ∅

namespace Usage

variable {ν : Type}

/-- The record without references. -/
def empty : Usage ν :=
  {}

/-- There are no references. -/
def isEmpty (u : Usage ν) : Bool :=
  u.assemblies.isEmpty && u.types.isEmpty && u.methods.isEmpty && u.fields.isEmpty &&
    u.reads.isEmpty && u.pointers.isEmpty

variable [Count ν]

/-- Counts references to an assembly. -/
def addAssembly (u : Usage ν) (assembly : String) (delta : ν) (always : Bool) : Usage ν :=
  { u with assemblies := u.assemblies.add assembly delta always }

/-- Counts references to a type and its assembly. -/
def addType (u : Usage ν) (t : TypeRef) (delta : ν) (always : Bool) : Usage ν :=
  { u.addAssembly t.assembly delta always with types := u.types.add t delta always }

/-- Counts references to a method and its declaring type. -/
def addMethod (u : Usage ν) (m : MethodRef) (delta : ν) (always : Bool) : Usage ν :=
  { u.addType m.declaring delta always with methods := u.methods.add m delta always }

/-- Counts references to a field and its declaring type. -/
def addField (u : Usage ν) (f : FieldRef) (delta : ν) (always : Bool) : Usage ν :=
  { u.addType f.declaring delta always with fields := u.fields.add f delta always }

/-- Counts reads of a variable. -/
def addVariable (u : Usage ν) (id : VarId) (delta : ν) (always : Bool) : Usage ν :=
  { u with reads := u.reads.add id delta always }

/-- Counts pointers taken to a variable. -/
def addPointer (u : Usage ν) (id : VarId) (delta : ν) (always : Bool) : Usage ν :=
  { u with pointers := u.pointers.add id delta always }

/-- The references of `u` followed by those of `sub`; the latter are possible ones unless `always`
holds. -/
def merge (u sub : Usage ν) (always : Bool) : Usage ν where
  assemblies := u.assemblies.merge sub.assemblies always
  types := u.types.merge sub.types always
  methods := u.methods.merge sub.methods always
  fields := u.fields.merge sub.fields always
  reads := u.reads.merge sub.reads always
  pointers := u.pointers.merge sub.pointers always

/-- The references if exactly one of the alternatives is run. -/
def either (alternatives : List (Usage ν)) : Usage ν where
  assemblies := Tally.either (alternatives.map assemblies)
  types := Tally.either (alternatives.map types)
  methods := Tally.either (alternatives.map methods)
  fields := Tally.either (alternatives.map fields)
  reads := Tally.either (alternatives.map reads)
  pointers := Tally.either (alternatives.map pointers)

/-- The references of several pieces of code, one after the other. -/
def total (us : List (Usage ν)) : Usage ν :=
  us.foldl (fun sum u => sum.merge u true) .empty

end Usage

end Inliner
