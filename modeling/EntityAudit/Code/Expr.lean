import EntityAudit.Text.Fold

/-! # Expressions in code

The expressions that the checks look into. Whatever else code may contain counts as a call of a
function about which nothing is known.
-/

namespace EntityAudit

inductive Expr where
  | null
  | bool (value : Bool)
  | int (value : Int64)
  | text (value : String)
  /-- An array; an item without a key gets the next free index. -/
  | array (items : List (Option Expr × Expr))
  | var (name : String)
  | this
  /-- The name of a class, as a text. -/
  | classConst (name : String)
  | new (className : String) (args : List Expr)
  | property (object : Expr) (name : String)
  | call (receiver : Expr) (method : String) (args : List Expr)
  /-- A call of a method whose name is computed. -/
  | dynamicCall (receiver method : Expr) (args : List Expr)
  | concat (left right : Expr)
  | function (name : String) (args : List Expr)
  deriving Inhabited

structure MethodCall where
  receiver : Expr
  /-- Name of the method; none when it is computed. -/
  method : Option String
  args : List Expr
  deriving Inhabited

def MethodCall.renamed (c : MethodCall) (method : String) : MethodCall :=
  { receiver := c.receiver, method := some method, args := [] }

namespace Expr

def methodCall? : Expr → Option MethodCall
  | .call receiver method args => some ⟨receiver, some method, args⟩
  | .dynamicCall receiver _ args => some ⟨receiver, none, args⟩
  | _ => none

mutual
/-- The method calls in an expression; receivers and arguments come before the call that uses
    them. -/
def methodCalls : Expr → List MethodCall
  | .call receiver method args =>
    methodCalls receiver ++ methodCallsOfAll args ++ [⟨receiver, some method, args⟩]
  | .dynamicCall receiver method args =>
    methodCalls receiver ++ methodCalls method ++ methodCallsOfAll args ++
      [⟨receiver, none, args⟩]
  | .array items => methodCallsOfItems items
  | .new _ args | .function _ args => methodCallsOfAll args
  | .property object _ => methodCalls object
  | .concat left right => methodCalls left ++ methodCalls right
  | .null | .bool _ | .int _ | .text _ | .var _ | .this | .classConst _ => []

def methodCallsOfAll : List Expr → List MethodCall
  | [] => []
  | e :: es => methodCalls e ++ methodCallsOfAll es

def methodCallsOfItems : List (Option Expr × Expr) → List MethodCall
  | [] => []
  | (none, value) :: items => methodCalls value ++ methodCallsOfItems items
  | (some key, value) :: items => methodCalls key ++ methodCalls value ++ methodCallsOfItems items
end

end Expr

end EntityAudit
