import Inliner.Listing
import Inliner.Term.Basic

/-!
# Listings of terms

The constructor names and labels under which terms are shown in messages and traces.
-/

namespace Inliner

open Listing

namespace TypeRef

/-- The listing of a type. -/
def listing (t : TypeRef) : Listing :=
  labelledNode "TypeRef"
    [("assembly", node "AssemblyName" [quoted t.assembly]), ("name", quoted t.name),
      ("by_ref", shown t.byRef)]

end TypeRef

namespace MethodRef

/-- The listing of a method. -/
def listing (m : MethodRef) : Listing :=
  labelledNode "MethodRef"
    [("declaring", m.declaring.listing), ("name", quoted m.name), ("arity", shown m.arity),
      ("is_static", shown m.isStatic)]

end MethodRef

namespace FieldRef

/-- The listing of a field. -/
def listing (f : FieldRef) : Listing :=
  labelledNode "FieldRef" [("declaring", f.declaring.listing), ("name", quoted f.name)]

end FieldRef

namespace Constant

/-- The listing of a literal. -/
def listing : Constant → Listing
  | .null => .atom "Null"
  | .bool b => node "Bool" [shown b]
  | .int i => node "Int" [shown i]
  | .str s => node "Str" [quoted s]

end Constant

namespace UnaryOp

/-- The name of the operator. -/
def name : UnaryOp → String
  | .neg => "Neg"
  | .not => "Not"
  | .bitNot => "BitNot"

end UnaryOp

namespace BinaryOp

/-- The name of the operator. -/
def name : BinaryOp → String
  | .add => "Add"
  | .sub => "Sub"
  | .mul => "Mul"
  | .div => "Div"
  | .rem => "Rem"
  | .bitAnd => "BitAnd"
  | .bitOr => "BitOr"
  | .bitXor => "BitXor"
  | .shl => "Shl"
  | .shr => "Shr"
  | .eq => "Eq"
  | .ne => "Ne"
  | .lt => "Lt"
  | .le => "Le"
  | .gt => "Gt"
  | .ge => "Ge"

end BinaryOp

namespace LogicalOp

/-- The name of the operator. -/
def name : LogicalOp → String
  | .and => "And"
  | .or => "Or"

end LogicalOp

mutual

/-- The listing of a cell. -/
def Cell.listing : Cell → Listing
  | .var id => node "Variable" [.atom id.render]
  | .field object member =>
    labelledNode "Field" [("object", object.listing), ("field", member.listing)]
  | .static member => node "StaticField" [member.listing]
  | .element array index =>
    labelledNode "Element" [("array", array.listing), ("index", index.listing)]
  | .deref pointer => node "Deref" [pointer.listing]

/-- The listing of an expression. -/
def Expr.listing : Expr → Listing
  | .const value => node "Const" [value.listing]
  | .read cell => node "Read" [cell.listing]
  | .addressOf cell => node "AddressOf" [cell.listing]
  | .unary op operand => node "Unary" [.atom op.name, operand.listing]
  | .binary op left right => node "Binary" [.atom op.name, left.listing, right.listing]
  | .logical op left right => node "Logical" [.atom op.name, left.listing, right.listing]
  | .conditional cond onTrue onFalse =>
    labelledNode "Conditional"
      [("cond", cond.listing), ("then", onTrue.listing), ("otherwise", onFalse.listing)]
  | .call method args =>
    labelledNode "Call"
      [("method", method.listing), ("receiver", optional none),
        ("args", items (Expr.listings args))]
  | .callOn method receiver args =>
    labelledNode "Call"
      [("method", method.listing), ("receiver", optional (some receiver.listing)),
        ("args", items (Expr.listings args))]
  | .construct method args =>
    labelledNode "New" [("ctor", method.listing), ("args", items (Expr.listings args))]
  | .marshalOut value => node "Export" [value.listing]
  | .marshalIn value => node "Import" [value.listing]

/-- The listings of several expressions. -/
def Expr.listings : List Expr → List Listing
  | [] => []
  | e :: rest => e.listing :: Expr.listings rest

end

mutual

/-- The listing of a statement. -/
def Stmt.listing : Stmt → Listing
  | .eval value => node "Expr" [value.listing]
  | .assign target value => node "Assign" [target.listing, value.listing]
  | .ret value => node "Return" [optional (value.map Expr.listing)]
  | .raise exception => node "Throw" [exception.listing]
  | .branch cond onTrue onFalse =>
    labelledNode "If"
      [("cond", cond.listing), ("then", items (Stmt.listings onTrue)),
        ("otherwise", items (Stmt.listings onFalse))]

/-- The listings of the statements of a block. -/
def Stmt.listings : List Stmt → List Listing
  | [] => []
  | s :: rest => s.listing :: Stmt.listings rest

end

end Inliner
