import DocBase.Query.Error
/-!
# Comparing values

Atomic values are compared as texts, as booleans or as numbers; untyped text is read as a number
when it meets one. Two sequences compare when some pair of their items does. A sequence also has a
boolean value. Main statement: `compare_comm` — exchanging two values that can be compared reverses
the order found.
-/

namespace DocBase.Query

/-- The number an untyped text stands for; blanks around it do not count. -/
def untypedNumber (s : String) : Except QueryError Double :=
  match Double.read? (Text.trim s.toList) with
  | some d => .ok d
  | none => .error (.notANumber s)

namespace Atomic

/-- The order of two values, none if one of them is no number among numbers. -/
def compare : Atomic → Atomic → Except QueryError (Option Ordering)
  | string a, string b | string a, untyped b | untyped a, string b | untyped a, untyped b =>
    .ok (some (Ord.compare a b))
  | boolean a, boolean b => .ok (some (Ord.compare a b))
  | integer a, integer b => .ok (some (Ord.compare a.toInt b.toInt))
  | a, b =>
    match a, a.number?, b, b.number? with
    | _, some x, _, some y => .ok (x.compare? y)
    | untyped s, none, _, some y => (untypedNumber s).map (·.compare? y)
    | _, some x, untyped s, none => (untypedNumber s).map (x.compare? ·)
    | _, _, _, _ => .error (.incomparable a b)

/-- Exchanging two values that can be compared reverses the order found. -/
theorem compare_comm {a b : Atomic} {o : Option Ordering} (h : a.compare b = .ok o) :
    b.compare a = .ok (o.map Ordering.swap) := by
  have swapped {α : Type} [Ord α] [Std.OrientedOrd α] (x y : α) :
      Ord.compare y x = (Ord.compare x y).swap := Std.OrientedCmp.eq_swap
  cases a <;> cases b <;> simp only [compare, number?, Except.ok.injEq, reduceCtorEq] at h ⊢
  case string.string | string.untyped | untyped.string | untyped.untyped | integer.integer |
      boolean.boolean =>
    subst h
    exact congrArg some (swapped _ _)
  case integer.double | double.integer | double.double =>
    subst h
    exact Double.compare_swap _ _
  case untyped.integer s _ | untyped.double s _ | integer.untyped _ s | double.untyped _ s =>
    -- an untyped text is read the same way on either side
    cases hs : untypedNumber s with
    | error e => simp [hs, Except.map] at h
    | ok x =>
      simp only [hs, Except.map, Except.ok.injEq] at h ⊢
      subst h
      exact Double.compare_swap _ _

end Atomic

/-- Whether a comparison holds for an order; without an order only inequality does. -/
def Comparison.holds : Comparison → Option Ordering → Bool
  | op, none => op == ne
  | eq, some o => o == .eq
  | ne, some o => o != .eq
  | lt, some o => o == .lt
  | le, some o => o != .gt
  | gt, some o => o == .gt
  | ge, some o => o != .lt

/-- Whether the comparison holds between a value and some item; the items are tried in order. -/
def holdsForSome (op : Comparison) (left : Atomic) : Sequence → Except QueryError Bool
  | [] => .ok false
  | r :: rs =>
    match left.compare r.atomize with
    | .error e => .error e
    | .ok o => if op.holds o then .ok true else holdsForSome op left rs

/-- Whether the comparison holds between some item of the left and some item of the right. -/
def generalCompare (op : Comparison) : Sequence → Sequence → Except QueryError Bool
  | [], _ => .ok false
  | l :: ls, right =>
    match holdsForSome op l.atomize right with
    | .error e => .error e
    | .ok true => .ok true
    | .ok false => generalCompare op ls right

/-- The boolean value of a sequence: nothing is false, a sequence that begins with a node is true,
and a single atomic value is true unless it is false, empty, zero or no number. -/
def booleanValue : Sequence → Except QueryError Bool
  | [] => .ok false
  | .node _ :: _ => .ok true
  | [.atomic (.boolean b)] => .ok b
  | [.atomic (.string s)] | [.atomic (.untyped s)] => .ok (s != "")
  | [.atomic (.integer i)] => .ok (i.toInt != 0)
  | [.atomic (.double d)] => .ok (!d.isZero && !d.isNaN)
  | _ => .error .noBooleanValue

end DocBase.Query
