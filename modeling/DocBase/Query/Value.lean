import DocBase.Node.Set
import DocBase.Query.Syntax
/-!
# Values

A value is a sequence of items; an item is a node or an atomic value. A node's content is not held
in memory, so the atomic value of a node is its label, as untyped text.
-/

namespace DocBase.Query

inductive Atomic where
  | string (value : String)
  /-- Text that compares as a number against numbers. -/
  | untyped (value : String)
  | integer (value : Int64)
  | double (value : Double)
  | boolean (value : Bool)
deriving DecidableEq, Repr

namespace Atomic

def typeName : Atomic → String
  | string _ => "xs:string"
  | untyped _ => "xs:untypedAtomic"
  | integer _ => "xs:integer"
  | double _ => "xs:double"
  | boolean _ => "xs:boolean"

def text : Atomic → String
  | string s | untyped s => s
  | integer i => toString i.toInt
  | double d => d.text
  | boolean true => "true"
  | boolean false => "false"

/-- Numbers as doubles. -/
def number? : Atomic → Option Double
  | integer i => some (.ofInt i.toInt)
  | double d => some d
  | _ => none

/-- Same type and same value; doubles are compared as numbers. -/
def equals : Atomic → Atomic → Bool
  | double x, double y => x.numEq y
  | a, b => a == b

end Atomic

inductive Item where
  | node (n : Node)
  | atomic (v : Atomic)
deriving Repr

abbrev Sequence : Type := List Item

namespace Item

def atomize : Item → Atomic
  | node n => .untyped n.label
  | atomic v => v

def text : Item → String
  | node n => n.label
  | atomic v => v.text

def isNode : Item → Bool
  | node _ => true
  | atomic _ => false

def boolean (b : Bool) : Item := atomic (.boolean b)

/-- Counts and positions are far below the largest integer. -/
def ofNat (n : Nat) : Item := atomic (.integer (Int64.ofNat (min n 0x7fffffffffffffff)))

end Item
end DocBase.Query
