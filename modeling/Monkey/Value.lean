import Monkey.Expr
import Monkey.Text.SipHash

/-!
# Values

What expressions evaluate to. Arrays, hashes and functions are created one by one
and carry an identity, as equality of them is identity; the others are what they
look like.

A `Value.ret` is a value on its way out of a function. Evaluation never makes
one, but a host may bind one to a name, and naming it then returns from where it
is named. A `Value.error` is likewise only for hosts, which are handed errors as
values.

Numbers, truth values and texts can be keys of a hash (`Value.hashKey?`). A text
is looked up by a digest of 64 bits and nothing else, so that two texts of one
digest are one key.
-/

namespace Monkey

/-! ## Kinds -/

/-- The kinds of values. -/
inductive Kind where
  | null
  | integer
  | boolean
  | string
  | array
  | hash
  | function
  | builtin
  | returnValue
  | error
  deriving DecidableEq, Repr

/-- The name of a kind, as messages show it. -/
def Kind.name : Kind → String
  | null => "NULL"
  | integer => "INTEGER"
  | boolean => "BOOLEAN"
  | string => "STRING"
  | array => "ARRAY"
  | hash => "HASH"
  | function => "FUNCTION"
  | builtin => "BUILTIN"
  | returnValue => "RETURN_VALUE"
  | error => "ERROR"

/-! ## Values -/

/-- The built-in functions. -/
inductive Builtin where
  | len
  | puts
  | print
  | first
  | last
  | tail
  | push
  deriving DecidableEq, Repr

namespace Builtin

/-- The name that a built-in function goes by. -/
def name : Builtin → String
  | len => "len"
  | puts => "puts"
  | print => "print"
  | first => "first"
  | last => "last"
  | tail => "tail"
  | push => "push"

/-- All the built-in functions. -/
def all : List Builtin :=
  [len, puts, print, first, last, tail, push]

/-- The built-in function of a name. -/
def ofName? (name : String) : Option Builtin :=
  all.find? fun b => b.name == name

end Builtin

/-- The number of a scope, in the order of creation. -/
abbrev ScopeId := Nat

/-- The number of an array, hash or function, in the order of creation. -/
abbrev ObjectId := Nat

/-- A function with the scope that it was created in. -/
structure Closure where
  params : List String
  body : Block
  scope : ScopeId

/-- What an entry of a hash is looked up by: the kind of its key and 64 bits. -/
structure HashKey where
  kind : Kind
  digest : UInt64
  deriving DecidableEq

/-- A value. -/
inductive Value where
  | null
  | int (n : Int64)
  | bool (b : Bool)
  | str (text : String)
  | array (id : ObjectId) (elements : List Value)
  /-- The entries are a key and what it stands for, under the hash key of the key. -/
  | hash (id : ObjectId) (entries : List (HashKey × Value × Value))
  | function (id : ObjectId) (closure : Closure)
  | builtin (b : Builtin)
  | ret (v : Value)
  | error (message : String)

namespace Value

instance : Inhabited Value := ⟨null⟩

/-- The kind of a value. -/
def kind : Value → Kind
  | null => .null
  | int _ => .integer
  | bool _ => .boolean
  | str _ => .string
  | array _ _ => .array
  | hash _ _ => .hash
  | function _ _ => .function
  | builtin _ => .builtin
  | ret _ => .returnValue
  | error _ => .error

/-- Whether a condition with this value holds: only `null` and `false` do not. -/
def truthy : Value → Bool
  | null => false
  | bool b => b
  | _ => true

/-- Equality: of arrays, hashes and functions it is identity, of built-in functions
    being of one name. -/
def same : Value → Value → Bool
  | null, null => true
  | int m, int n => m == n
  | bool a, bool b => a == b
  | str s, str t => s == t
  | array i _, array j _ => i == j
  | hash i _, hash j _ => i == j
  | function i _, function j _ => i == j
  | builtin a, builtin b => a == b
  | ret v, ret w => v.same w
  | error s, error t => s == t
  | _, _ => false

/-! ## Hash keys -/

/-- The digest that a text is looked up by: SipHash-1-3, under the key zero, of its
    bytes and a byte that occurs in no text. -/
def textDigest (text : String) : UInt64 :=
  Text.SipHash.digest 1 3 0 0 (text.toUTF8.toList ++ [0xff])

/-- The hash key of a value, if it can be a key: of a number its 64 bits, of a
    truth value 0 or 1, of a text its digest. -/
def hashKey? : Value → Option HashKey
  | int n => some ⟨.integer, n.toUInt64⟩
  | bool b => some ⟨.boolean, b.toUInt64⟩
  | str text => some ⟨.string, textDigest text⟩
  | _ => none

/-! ## Texts -/

mutual

/-- The text of a value, as it is printed. -/
def inspect : Value → String
  | null => "null"
  | int n => n.toInt.repr
  | bool true => "true"
  | bool false => "false"
  | str text => text
  | array _ elements => "[" ++ ", ".intercalate (inspectList elements) ++ "]"
  | hash _ entries => "\x7b" ++ ", ".intercalate (inspectEntries entries) ++ "\x7d"
  | function _ c => "fn(" ++ ", ".intercalate c.params ++ ") \x7b...\x7d"
  | builtin _ => "builtin function"
  | ret v => v.inspect
  | error message => "ERROR: " ++ message
termination_by structural v => v

/-- The texts of values. -/
def inspectList : List Value → List String
  | [] => []
  | v :: vs => v.inspect :: inspectList vs
termination_by structural vs => vs

/-- The texts of the entries of a hash. -/
def inspectEntries : List (HashKey × Value × Value) → List String
  | [] => []
  | (_, k, v) :: entries => (k.inspect ++ ": " ++ v.inspect) :: inspectEntries entries
termination_by structural entries => entries

end

end Value

end Monkey
