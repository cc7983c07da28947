import Monkey.Expr.Outline
import Monkey.State

/-!
# Outlines of values and scopes

The text of a value in which its kind and its parts are named. Functions are
outlined by their parameters and their body, and scopes by the names that they
bind, as a scope may bind a function created in it.
-/

namespace Monkey

/-- The outline of a hash key. -/
def HashKey.outline (key : HashKey) : String :=
  "HashKey \x7b object_type: " ++ Text.quoted key.kind.name ++ ", value: " ++
    key.digest.toNat.repr ++ " \x7d"

/-- The outline of a function. -/
def Closure.outline (c : Closure) : String :=
  "Function \x7b parameters: " ++ outlineNames c.params ++ ", body: " ++ c.body.outline ++ " \x7d"

namespace Value

mutual

/-- The outline of a value. -/
def outline : Value → String
  | null => "Null"
  | int n => "Integer(" ++ n.toInt.repr ++ ")"
  | bool true => "Boolean(true)"
  | bool false => "Boolean(false)"
  | str text => "String(" ++ Text.quoted text ++ ")"
  | array _ elements => "Array(" ++ outlineList (outlines elements) ++ ")"
  | hash _ entries => "Hash(\x7b" ++ ", ".intercalate (entryOutlines entries) ++ "\x7d)"
  | function _ c => "Function(" ++ c.outline ++ ")"
  | builtin b => "Builtin(Builtin(" ++ b.name ++ "))"
  | ret v => "Return(" ++ v.outline ++ ")"
  | error message => "Error(" ++ Text.quoted message ++ ")"
termination_by structural v => v

/-- The outlines of values. -/
def outlines : List Value → List String
  | [] => []
  | v :: vs => v.outline :: outlines vs
termination_by structural vs => vs

/-- The outlines of the entries of a hash. -/
def entryOutlines : List (HashKey × Value × Value) → List String
  | [] => []
  | (key, k, v) :: entries =>
    (key.outline ++ ": HashPair \x7b key: " ++ k.outline ++ ", value: " ++ v.outline ++ " \x7d") ::
      entryOutlines entries
termination_by structural entries => entries

end

end Value

/-- The outline of a scope: the names that it binds, in alphabetical order, and how
    many the scope around it binds, if there is one. -/
def State.outline (s : State) (scope : ScopeId) : String :=
  match s.scopes[scope]? with
  | none => ""
  | some sc =>
    let names := (Assoc.keys sc.bindings).mergeSort fun x y => x ≤ y
    let outer := match sc.outer.bind (s.scopes[·]?) with
      | none => "None"
      | some around => "Some(" ++ around.bindings.length.repr ++ ")"
    "Environment \x7b names: " ++ outlineNames names ++ ", outer: " ++ outer ++ " \x7d"

end Monkey
