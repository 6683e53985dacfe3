import DocBase.CommandLine.Arguments
import DocBase.Document.Set
import DocBase.Query.Value
import DocBase.Text.Json
/-!
# Reports

What the commands tell: the first items a query gives and how many there are in all, or the
documents of collections. A report is written as lines of text, the blanks at whose end are cut off,
or as JSON.
-/

namespace DocBase.CommandLine

inductive ReportItem where
  | document (id : DocId) (path : String) (collection : Option String)
  | value (text : String)
deriving DecidableEq, Repr

structure QueryReport where
  /-- All items, also those that are not told. -/
  hits : Nat
  items : List ReportItem
deriving DecidableEq, Repr

structure DocumentsReport where
  count : Nat
  minId : Option DocId
  maxId : Option DocId
  documents : List String
  collections : List String
deriving DecidableEq, Repr

/-- Lines without the blanks at the end of the last ones. -/
def linesText (lines : List String) : String :=
  String.ofList (Text.trimEnd (String.intercalate "\n" lines).toList)

namespace ReportItem

def ofItem : Query.Item → ReportItem
  | .node n =>
    .document n.document.id n.document.uri (n.document.collection.map fun c => c.uri.text)
  | .atomic v => .value v.text

def line : ReportItem → String
  | document id path _ => path ++ " [" ++ toString id.toNat ++ "]"
  | value s => s

def json : ReportItem → Text.Json
  | document id path collection =>
    .record [("type", .text "Document"), ("id", .number id.toNat), ("path", .text path),
      ("collection", (collection.map Text.Json.text).getD .null)]
  | value s => .record [("type", .text "Value"), ("value", .text s)]

end ReportItem

namespace QueryReport

/-- Tells at most `max` items. -/
def ofItems (items : Query.Sequence) (max : Nat) : QueryReport :=
  ⟨items.length, (items.take max).map ReportItem.ofItem⟩

/-- The last line: how many items there are, how many are told, and the milliseconds it took. -/
def summary (r : QueryReport) (elapsed : Nat) : String :=
  let told :=
    if r.items.length < r.hits then ", showing " ++ toString r.items.length ++ "," else ""
  toString r.hits ++ " hit(s)" ++ told ++ " in " ++ toString elapsed ++ " ms"

def text (r : QueryReport) (elapsed : Nat) : String :=
  linesText (r.items.map ReportItem.line ++ [r.summary elapsed])

def json (r : QueryReport) (elapsed : Nat) : Text.Json :=
  .record [("hits", .number r.hits), ("elapsed_ms", .number elapsed),
    ("items", .list (r.items.map ReportItem.json))]

end QueryReport

namespace DocumentsReport

def ofSet (s : DocumentSet) : DocumentsReport where
  count := s.size
  minId := s.minId?
  maxId := s.maxId?
  documents := s.documents.map Document.uri
  collections := (s.collections.map Collection.key).mergeSort

def ids : Option DocId → Text.Json
  | some id => .number id.toNat
  | none => .null

def text (r : DocumentsReport) : String :=
  let range := match r.minId, r.maxId with
    | some least, some greatest =>
      ["Ids: " ++ toString least.toNat ++ "..=" ++ toString greatest.toNat]
    | _, _ => []
  linesText (r.documents ++ ["Documents: " ++ toString r.count] ++ range ++
    ["Collections: " ++ String.intercalate ", " r.collections])

def json (r : DocumentsReport) : Text.Json :=
  .record [("count", .number r.count), ("min_id", ids r.minId), ("max_id", ids r.maxId),
    ("documents", .list (r.documents.map .text)),
    ("collections", .list (r.collections.map .text))]

end DocumentsReport

/-- What a command tells. -/
inductive Report where
  | query (report : QueryReport)
  | documents (report : DocumentsReport)
deriving DecidableEq, Repr

namespace Report

/-- The report as it is written when running took some milliseconds. -/
def render (r : Report) (format : Format) (elapsed : Nat) : String :=
  match r, format with
  | query q, .text => q.text elapsed
  | query q, .json => (q.json elapsed).pretty 0
  | documents d, .text => d.text
  | documents d, .json => d.json.pretty 0

end Report
end DocBase.CommandLine
