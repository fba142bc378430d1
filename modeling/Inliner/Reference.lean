import Inliner.KeyMap

/-!
# References to types, methods and fields

Members of the program are referred to by name: a type by its assembly and its own name, a method or
field by its declaring type and its own name. References are ordered lexicographically, part by part
in the order of their fields, with strings compared by code points.
-/

namespace Inliner

open Std

/-- A reference to a type; `byRef` marks the type of pointers to it. -/
structure TypeRef where
  assembly : String
  name : String
  byRef : Bool
  deriving DecidableEq

/-- A reference to a method of `declaring` with `arity` parameters. -/
structure MethodRef where
  declaring : TypeRef
  name : String
  arity : Nat
  isStatic : Bool
  deriving DecidableEq

/-- A reference to a field of `declaring`. -/
structure FieldRef where
  declaring : TypeRef
  name : String
  deriving DecidableEq

namespace TypeRef

/-- The type is one of pointers. -/
def isPointer (t : TypeRef) : Bool :=
  t.byRef

/-- The assembly in brackets, the name, and `&` for a type of pointers. -/
def render (t : TypeRef) : String :=
  "[" ++ t.assembly ++ "]" ++ t.name ++ (if t.byRef then "&" else "")

instance : Ord TypeRef where
  compare s t :=
    (compare s.assembly t.assembly).then
      ((compare s.name t.name).then (compare s.byRef t.byRef))

theorem compare_def (s t : TypeRef) :
    compare s t =
      (compare s.assembly t.assembly).then
        ((compare s.name t.name).then (compare s.byRef t.byRef)) :=
  rfl

instance : TransOrd TypeRef :=
  haveI := Lexicographic.transCmp_on TypeRef.assembly
  haveI := Lexicographic.transCmp_on TypeRef.name
  haveI := Lexicographic.transCmp_on TypeRef.byRef
  haveI := Lexicographic.transCmp_then (f := fun s t : TypeRef => compare s.name t.name)
    (g := fun s t : TypeRef => compare s.byRef t.byRef)
  Lexicographic.transCmp_then (f := fun s t : TypeRef => compare s.assembly t.assembly)

instance : LawfulEqOrd TypeRef where
  compare_self := ReflCmp.compare_self
  eq_of_compare {s t} h := by
    obtain ⟨_, _, _⟩ := s
    obtain ⟨_, _, _⟩ := t
    simpa only [compare_def, Ordering.then_eq_eq, LawfulEqCmp.compare_eq_iff_eq, mk.injEq] using h

end TypeRef

namespace MethodRef

/-- The name reserved for constructors. -/
def constructorName : String :=
  ".ctor"

/-- The method is a constructor. -/
def isConstructor (m : MethodRef) : Bool :=
  m.name == constructorName

/-- The declaring type, the name and the arity. Whether the method is static is not shown, so two
methods may look the same. -/
def render (m : MethodRef) : String :=
  m.declaring.render ++ "::" ++ m.name ++ "/" ++ toString m.arity

instance : Ord MethodRef where
  compare m n :=
    (compare m.declaring n.declaring).then
      ((compare m.name n.name).then
        ((compare m.arity n.arity).then (compare m.isStatic n.isStatic)))

theorem compare_def (m n : MethodRef) :
    compare m n =
      (compare m.declaring n.declaring).then
        ((compare m.name n.name).then
          ((compare m.arity n.arity).then (compare m.isStatic n.isStatic))) :=
  rfl

instance : TransOrd MethodRef :=
  haveI := Lexicographic.transCmp_on MethodRef.declaring
  haveI := Lexicographic.transCmp_on MethodRef.name
  haveI := Lexicographic.transCmp_on MethodRef.arity
  haveI := Lexicographic.transCmp_on MethodRef.isStatic
  haveI := Lexicographic.transCmp_then (f := fun m n : MethodRef => compare m.arity n.arity)
    (g := fun m n : MethodRef => compare m.isStatic n.isStatic)
  haveI := Lexicographic.transCmp_then (f := fun m n : MethodRef => compare m.name n.name)
    (g := fun m n : MethodRef =>
      (compare m.arity n.arity).then (compare m.isStatic n.isStatic))
  Lexicographic.transCmp_then (f := fun m n : MethodRef => compare m.declaring n.declaring)

instance : LawfulEqOrd MethodRef where
  compare_self := ReflCmp.compare_self
  eq_of_compare {m n} h := by
    obtain ⟨_, _, _, _⟩ := m
    obtain ⟨_, _, _, _⟩ := n
    simpa only [compare_def, Ordering.then_eq_eq, LawfulEqCmp.compare_eq_iff_eq, mk.injEq] using h

end MethodRef

namespace FieldRef

/-- The declaring type and the name. -/
def render (f : FieldRef) : String :=
  f.declaring.render ++ "::" ++ f.name

instance : Ord FieldRef where
  compare f g := (compare f.declaring g.declaring).then (compare f.name g.name)

theorem compare_def (f g : FieldRef) :
    compare f g = (compare f.declaring g.declaring).then (compare f.name g.name) :=
  rfl

instance : TransOrd FieldRef :=
  haveI := Lexicographic.transCmp_on FieldRef.declaring
  haveI := Lexicographic.transCmp_on FieldRef.name
  Lexicographic.transCmp_then (f := fun f g : FieldRef => compare f.declaring g.declaring)

instance : LawfulEqOrd FieldRef where
  compare_self := ReflCmp.compare_self
  eq_of_compare {f g} h := by
    obtain ⟨_, _⟩ := f
    obtain ⟨_, _⟩ := g
    simpa only [compare_def, Ordering.then_eq_eq, LawfulEqCmp.compare_eq_iff_eq, mk.injEq] using h

end FieldRef

end Inliner
