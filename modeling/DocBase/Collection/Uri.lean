import DocBase.Text.Blank
/-!
# Collection uris

A collection is addressed by its path below the root `/db`. A path is a list of segments; a segment
is not empty, holds no slash, and is neither `.` nor `..`. Blanks at the ends of a segment belong to
it, but blanks around a whole uri are not read. Main statements: `toList_text` spells a uri out, and
`mem_lineage` says that a uri's lineage is its parent chain.
-/

namespace DocBase

/-- What a segment of a collection uri may be. -/
def IsSegment (s : String) : Prop :=
  s ≠ "" ∧ '/' ∉ s.toList ∧ s ≠ "." ∧ s ≠ ".."

instance (s : String) : Decidable (IsSegment s) := by
  unfold IsSegment
  infer_instance

/-- A collection's path below the root. -/
structure CollectionUri where
  segments : List String
  valid : ∀ s ∈ segments, IsSegment s
deriving DecidableEq, Repr

/-- Why a text is no collection uri. -/
inductive UriFault where
  | notAbsolute
  | outsideRoot
  | emptySegment
  | relativeSegment
deriving DecidableEq, Repr

def UriFault.reason : UriFault → String
  | .notAbsolute => "must be absolute"
  | .outsideRoot => "must start with /db"
  | .emptySegment => "contains an empty path segment"
  | .relativeSegment => "relative segments are not allowed"

/-- A text that was refused, as it was given. -/
structure InvalidUri where
  uri : String
  fault : UriFault
deriving DecidableEq, Repr

def InvalidUri.message (e : InvalidUri) : String :=
  "invalid collection uri '" ++ e.uri ++ "': " ++ e.fault.reason

namespace CollectionUri

def root : CollectionUri := ⟨[], by simp⟩

/-- The root's name and the segments, a slash before each. -/
def text (u : CollectionUri) : String :=
  "/db" ++ String.join (u.segments.map ("/" ++ ·))

/-- The uri with some segments below the root, if each may be one. -/
def ofSegments? (l : List String) : Except UriFault CollectionUri :=
  if h : ∀ s ∈ l, IsSegment s then .ok ⟨l, h⟩
  else if "" ∈ l then .error .emptySegment
  else .error .relativeSegment

/-- The slash-separated parts of a text without blanks around it and slashes at its end. -/
def parts (s : List Char) : List String :=
  ((Text.dropEndWhile (· == '/') s).splitOn '/').map String.ofList

/-- Reads a uri; blanks around it and slashes at its end do not count. -/
def parse (input : String) : Except InvalidUri CollectionUri :=
  let s := Text.trim input.toList
  let result : Except UriFault CollectionUri :=
    if s.head? ≠ some '/' then .error .notAbsolute
    else
      -- the part before the first slash is empty, as the text begins with it
      match (parts s).drop 1 with
      | "db" :: segments => ofSegments? segments
      | _ => .error .outsideRoot
  result.mapError fun fault => ⟨input, fault⟩

/-- The last segment, or the root's own name. -/
def name (u : CollectionUri) : String :=
  u.segments.getLast?.getD "db"

def isRoot (u : CollectionUri) : Bool := u.segments.isEmpty

/-- The collection that holds this one; the root has none. -/
def parent? (u : CollectionUri) : Option CollectionUri :=
  if u.segments = [] then none
  else some ⟨u.segments.dropLast, fun s hs => u.valid s (List.dropLast_subset _ hs)⟩

theorem segments_length_parent {u p : CollectionUri} (h : u.parent? = some p) :
    p.segments.length < u.segments.length := by
  unfold parent? at h
  split at h
  · simp at h
  · next hne =>
    simp only [Option.some.injEq] at h
    subst h
    have := List.length_pos_iff.2 hne
    simp only [List.length_dropLast]
    omega

/-- The parent, its parent and so on up to the root. -/
def ancestors (u : CollectionUri) : List CollectionUri :=
  match _h : u.parent? with
  | none => []
  | some p => p :: ancestors p
termination_by u.segments.length
decreasing_by exact segments_length_parent (by assumption)

/-- The uri itself and its ancestors. -/
def lineage (u : CollectionUri) : List CollectionUri := u :: u.ancestors

/-- Whether a uri is another one or lies below it: the texts are equal, or the other's text and a
slash begin this one's. -/
def within (u v : CollectionUri) : Bool :=
  u == v || (v.text.toList ++ ['/']).isPrefixOf u.text.toList

/-- The uri that a path below this one names; it is read like any other uri. -/
def join (u : CollectionUri) (path : String) : Except InvalidUri CollectionUri :=
  parse (u.text ++ "/" ++ path)

/-! ## Spelling -/

theorem toList_text (u : CollectionUri) :
    u.text.toList = "/db".toList ++ u.segments.flatMap fun s => '/' :: s.toList := by
  -- a slash before each segment, which is how texts are joined
  have spell : ∀ l : List String,
      (String.join (l.map ("/" ++ ·))).toList = l.flatMap fun s => '/' :: s.toList := by
    intro l
    induction l with
    | nil => simp
    | cons s r ih => simp [ih]
  simp [text, spell]

@[simp] theorem text_root : root.text = "/db" := by simp [text, root]

@[simp] theorem parent?_root : root.parent? = none := by simp [parent?, root]

theorem ext_segments {u v : CollectionUri} (h : u.segments = v.segments) : u = v := by
  cases u
  cases v
  simpa using h

/-- A uri's lineage is itself and the lineage of its parent. -/
theorem mem_lineage {u v : CollectionUri} :
    v ∈ u.lineage ↔ v = u ∨ ∃ p, u.parent? = some p ∧ v ∈ p.lineage := by
  unfold lineage
  rw [List.mem_cons, ancestors]
  split
  · next h => simp [h]
  · next p h => simp [h]

end CollectionUri
end DocBase
