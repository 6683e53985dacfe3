import DocBase.Access.Permission
import DocBase.Collection.Uri
/-!
# Collections

A collection has a uri and a permission. Collections are told apart and ordered by the text of
their uris alone.
-/

namespace DocBase

structure Collection where
  uri : CollectionUri
  permission : Permission
deriving DecidableEq, Repr

namespace Collection

/-- Collections are ordered by the text of their uris. -/
def key (c : Collection) : String := c.uri.text

end Collection
end DocBase
