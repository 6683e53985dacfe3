import DocBase.Access.Subject
/-!
# Permissions

A resource has an owner, a group and nine permission bits: three each for its owner, for members of
its group and for everyone else. Exactly one class of bits applies to a subject, and it has to grant
every kind of access that is asked for: the owner's class applies to the owner even when the group's
or everyone's bits would grant more.
-/

namespace DocBase

/-- Kinds of access as three bits: read, write, execute from the highest down. -/
abbrev Access := BitVec 3

namespace Access

def read : Access := 4#3

/-- The kinds of access a number names; higher bits have no meaning. -/
def ofBits (n : Nat) : Access := BitVec.ofNat 3 n

/-- Whether every kind of access in `asked` is among those `given`. -/
def covers (given asked : Access) : Bool := given &&& asked == asked

end Access

structure Permission where
  owner : String
  group : String
  mode : BitVec 9
deriving DecidableEq, Repr

namespace Permission

/-- Bits of a mode above the lowest nine are dropped. -/
def ofMode (owner group : String) (mode : Nat) : Permission :=
  ⟨owner, group, BitVec.ofNat 9 mode⟩

/-- `rw-r--r--`, for documents. -/
def documentMode : Nat := 0o644

/-- `rwxr-xr-x`, for collections. -/
def collectionMode : Nat := 0o755

def ownerBits (p : Permission) : Access := p.mode.extractLsb' 6 3
def groupBits (p : Permission) : Access := p.mode.extractLsb' 3 3
def otherBits (p : Permission) : Access := p.mode.extractLsb' 0 3

/-- What a document created by a subject starts with: its first group, or the guests' group. -/
def ownedBy (s : Subject) : Permission :=
  ofMode s.name (s.groups.head?.getD guestGroup) documentMode

/-- The class of bits that applies to a subject. -/
def bitsFor (p : Permission) (s : Subject) : Access :=
  if s.name = p.owner then p.ownerBits
  else if s.inGroup p.group then p.groupBits
  else p.otherBits

/-- Whether a subject is granted every kind of access asked for. -/
def grants (p : Permission) (s : Subject) (asked : Access) : Bool :=
  s.administrator || (p.bitsFor s).covers asked

def readableBy (p : Permission) (s : Subject) : Bool := p.grants s Access.read

/-- `owner:group` and the three classes as octal digits. -/
def text (p : Permission) : String :=
  let digit (a : Access) : String := String.ofList (Nat.toDigits 8 a.toNat)
  p.owner ++ ":" ++ p.group ++ " " ++ digit p.ownerBits ++ digit p.groupBits ++ digit p.otherBits

end Permission
end DocBase
