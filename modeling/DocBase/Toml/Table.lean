import DocBase.Toml.Value
/-!
# Tables under construction

The statements of a settings file add to nested tables. A table comes to be by its own header, by
the header of a table inside it, or by a dotted key; this decides who may add to it later. Under one
key there is one value, one table or one list of tables. Main statement: a key that has a value gets
no other (`Entries.set_of_given`).
-/

namespace DocBase.Toml

/-- How a table came to be. -/
inductive Origin where
  /-- By its own header; also a table of a list, and the outermost table. -/
  | header
  /-- By the header of a table inside it. -/
  | implied
  /-- By a dotted key. -/
  | dotted
deriving DecidableEq, Repr

inductive Entry where
  | value (v : Value)
  | table (origin : Origin) (entries : List (String × Entry))
  /-- A list of tables, the last one first. -/
  | tables (elements : List (List (String × Entry)))
deriving Repr

abbrev Entries := List (String × Entry)

namespace Entries

/-- Changes what stands under a key, or adds the key. -/
def alter (key : String) (f : Option Entry → Option Entry) : Entries → Option Entries
  | [] => (f none).map fun e => [(key, e)]
  | (k, e) :: rest =>
    if k = key then (f (some e)).map fun e => (k, e) :: rest
    else (alter key f rest).map ((k, e) :: ·)

/-- Changes the table at the end of a path, which begins at a table of the given origin. Tables that
are missing are made; a list of tables stands for its last one. A dotted path does not enter a table
that has its own header. -/
def descend (dotted : Bool) (f : Origin → Entries → Option Entries) :
    Origin → List String → Entries → Option Entries
  | origin, [], entries => f origin entries
  | _, key :: path, entries =>
    entries.alter key fun
      | none =>
        let origin := if dotted then Origin.dotted else .implied
        (descend dotted f origin path []).map (.table origin)
      | some (.value _) => none
      | some (.table origin inner) =>
        -- what a header has opened is closed to dotted keys from outside
        if dotted && origin == .header then none
        else (descend dotted f origin path inner).map (.table origin)
      | some (.tables []) => none
      | some (.tables (last :: others)) =>
        (descend dotted f .header path last).map fun last => .tables (last :: others)

/-- A header: opens the table at the end of a path, unless it was opened before. -/
def openTable (entries : Entries) (path : List String) (key : String) : Option Entries :=
  descend false (fun _ inner => inner.alter key fun
    | none => some (.table .header [])
    -- tables inside it came first; its own header may still come, once
    | some (.table .implied found) => some (.table .header found)
    | some _ => none) .header path entries

/-- A header of a list: begins a further table of the list at the end of a path. -/
def openElement (entries : Entries) (path : List String) (key : String) : Option Entries :=
  descend false (fun _ inner => inner.alter key fun
    | none => some (.tables [[]])
    | some (.tables found) => some (.tables ([] :: found))
    | some _ => none) .header path entries

/-- Gives a key its value. -/
def set (key : String) (v : Value) (entries : Entries) : Option Entries :=
  entries.alter key fun
    | none => some (.value v)
    | some _ => none

/-- Gives the key at the end of a dotted path its value, from the outermost table on. A table that
is reached by a dotted path has to stem from one. -/
def assign (entries : Entries) (path : List String) (key : String) (v : Value) : Option Entries :=
  descend true (fun origin inner =>
    if (origin == .dotted) == path.isEmpty then none else inner.set key v) .header path entries

/-- Gives a key its value inside the table that was opened last, which stands at the end of a
path. -/
def assignIn (entries : Entries) (table path : List String) (key : String) (v : Value) :
    Option Entries :=
  descend false (fun _ inner => inner.assign path key v) .header table entries

end Entries

mutual

/-- The value of an entry that nothing is added to any more. -/
def Entry.close : Entry → Value
  | .value v => v
  | .table _ entries => .table (closeAll entries)
  | .tables elements => .array (closeTables elements).reverse

def closeAll : Entries → List (String × Value)
  | [] => []
  | (key, e) :: rest => (key, e.close) :: closeAll rest

def closeTables : List Entries → List Value
  | [] => []
  | entries :: rest => .table (closeAll entries) :: closeTables rest

end

/-- A key that has a value gets no other. -/
theorem Entries.set_of_given {key : String} {v : Value} {entries found : Entries}
    (h : entries.set key v = some found) (w : Value) : found.set key w = none := by
  unfold set at *
  induction entries generalizing found with
  | nil =>
    simp only [alter, Option.map_some, Option.some.injEq] at h
    simp [← h, alter]
  | cons p rest ih =>
    obtain ⟨k, e⟩ := p
    by_cases hk : k = key
    · simp [alter, hk] at h
    · simp only [alter, hk, if_false, Option.map_eq_some_iff] at h
      obtain ⟨more, hm, rfl⟩ := h
      simp [alter, hk, ih hm]

end DocBase.Toml
