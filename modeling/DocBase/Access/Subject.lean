/-!
# Subjects

Whom an operation runs as: a name, groups in the order they were given, and whether the subject is
an administrator, who passes every permission check.
-/

namespace DocBase

def adminUser : String := "admin"
def adminGroup : String := "dba"
def guestUser : String := "guest"
def guestGroup : String := "guest"

structure Subject where
  name : String
  groups : List String := []
  administrator : Bool := false
deriving DecidableEq, Repr

namespace Subject

/-- An administrator belongs to the administrators' group. -/
def admin (name : String) : Subject :=
  { name, groups := [adminGroup], administrator := true }

/-- Adds a group unless the subject is in it already. -/
def addGroup (s : Subject) (group : String) : Subject :=
  if group ∈ s.groups then s else { s with groups := s.groups ++ [group] }

def addGroups (s : Subject) (groups : List String) : Subject :=
  groups.foldl addGroup s

def guest : Subject := { name := guestUser, groups := [guestGroup] }

def inGroup (s : Subject) (group : String) : Bool := group ∈ s.groups

end Subject
end DocBase
