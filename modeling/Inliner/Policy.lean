import Inliner.MethodBody

/-!
# Policies and limits

Which calls are worth inlining is decided outside the pass, by a policy. The pass itself only makes
sure that an inlining that the policy wants keeps the meaning of the program.
-/

namespace Inliner

/-- The decisions that are left to the user of the pass. -/
structure Policy where
  /-- The callee, whose body is given, may be inlined. -/
  isInlinable : MethodRef → MethodBody → Bool
  /-- The imported callee, whose body is given, may be inlined. -/
  isInlinableImport : MethodRef → MethodBody → Bool
  /-- The constructor is a plain function: it has no receiver and returns the new object. -/
  isFactory : MethodRef → Bool
  /-- The argument at this position is passed to the method without marshalling. -/
  passesRaw : MethodRef → Nat → Bool
  /-- The result of the method is taken without marshalling. -/
  returnsRaw : MethodRef → Bool

namespace Policy

/-- Allows every callee but the blocked ones; imported callees only if `imports` holds. Factories and
methods without marshalling are listed. -/
def permissive (imports : Bool) (factories unmarshalled blocked : List MethodRef) : Policy where
  isInlinable m _ := !blocked.contains m
  isInlinableImport m _ := imports && !blocked.contains m
  isFactory m := factories.contains m
  passesRaw m _ := unmarshalled.contains m
  returnsRaw m := unmarshalled.contains m

/-- Allows exactly what is listed. -/
def listed (inlinable imports factories : List MethodRef) (params : List (MethodRef × Nat))
    (returns : List MethodRef) : Policy where
  isInlinable m _ := inlinable.contains m
  isInlinableImport m _ := imports.contains m
  isFactory m := factories.contains m
  passesRaw m i := params.contains (m, i)
  returnsRaw m := returns.contains m

end Policy

/-- The limits within which calls are inlined. -/
structure Config where
  /-- Calls are inlined at all. -/
  inlining : Bool := true
  /-- How many inlined callees may be nested. -/
  depth : Nat := 4
  /-- How many statements a callee may have. -/
  statements : Nat := 16
  /-- The statements are recorded before and after. -/
  trace : Bool := false
  /-- Methods may be processed in any order. -/
  parallel : Bool := true
  deriving DecidableEq

namespace Config

/-- The usual limits, without any inlining. -/
def noInlining : Config :=
  { inlining := false }

end Config

end Inliner
