import DocBase.Query.Value
/-!
# Contexts of a query

What a query is compiled with: the external variables it may use, the collection that `collection()`
without arguments means, and whether sequences of one item are replaced by the item. What it is run
with: values of the variables, and how resources that cannot be read are treated.
-/

namespace DocBase.Query

structure StaticContext where
  /-- The external variables a query may use. -/
  externals : List String := []
  defaultCollection : Option CollectionUri := some CollectionUri.root
  rewriting : Bool := true
deriving DecidableEq, Repr

namespace StaticContext

def declares (c : StaticContext) (name : String) : Bool := c.externals.contains name

end StaticContext

structure DynamicContext where
  /-- Of two values for a variable the first counts. -/
  values : List (String × Sequence) := []
  /-- Leave out what the subject may not read. -/
  checkPermissions : Bool := true
  /-- Fail on a resource that cannot be retrieved instead of leaving it out. -/
  raiseOnFailure : Bool := false
deriving Repr

namespace DynamicContext

def value? (c : DynamicContext) (name : String) : Option Sequence :=
  c.values.lookup name

end DynamicContext
end DocBase.Query
