import CaptureTree.Value.Basic
import CaptureTree.Value.ReadError

/-!
# Views

A view pairs a slot of the shape with its value and the input, and answers
questions about it.  What may be asked depends on the kind of the shape; the
value is believed as far as possible and checked where it has to be.

`View.read` goes through a whole slot by these questions, and returns everything
that there is to know about it.
-/

namespace CaptureTree

/-- One slot: its shape, its value and the input of the match. -/
structure View where
  shape : Shape
  value : Value
  input : Bytes

/-- The slot of an alternation. -/
structure Choice where
  branches : List Shape
  value : Value
  input : Bytes

namespace Choice

/-- The number of branches. -/
def size (c : Choice) : Nat := c.branches.length

/-- The branch that was taken and its slot.  The value has to hold exactly one
branch, and one that the alternation has. -/
def taken (c : Choice) : Except ReadError (Nat × View) :=
  match c.value.kind, c.value.children, c.branches[c.value.selected]? with
  | .sum, [v], some s => .ok (c.value.selected, { shape := s, value := v, input := c.input })
  | _, _, _ => .error (.inconsistent .noBranchSelected)

/-- The number of the branch that was taken. -/
def index (c : Choice) : Except ReadError Nat := do
  return (← c.taken).1

/-- The slot of the branch that was taken. -/
def inner (c : Choice) : Except ReadError View := do
  return (← c.taken).2

/-- One entry per branch, filled for the branch that was taken. -/
def options (c : Choice) : Except ReadError (List (Option View)) := do
  let (i, view) ← c.taken
  return (List.range c.size).map fun j => if j = i then some view else none

/-- Applies the handler of the branch that was taken; there has to be one for
each branch. -/
def visit {α : Type} (c : Choice) (handlers : List (View → α)) : Except ReadError α := do
  if handlers.length ≠ c.size then
    throw (.lookup (.handlerCount handlers.length c.size))
  let (i, view) ← c.taken
  match handlers[i]? with
  | some handler => return handler view
  | none => throw .outOfRange

end Choice

namespace View

/-- The complaint of an accessor about a slot of the wrong kind. -/
def wrongSlot {α : Type} (w : View) (accessor : Accessor) (needed : SlotKind) :
    Except ReadError α :=
  .error (.lookup (.wrongSlot accessor needed w.shape.kind))

/-- The span of a leaf, none if it did not take part in the match. -/
def span (w : View) : Except ReadError (Option Span) :=
  match w.shape with
  | .leaf _ => .ok w.value.span
  | _ => w.wrongSlot .span .leaf

/-- The bytes of a leaf, none if it did not take part in the match. -/
def bytes (w : View) : Except ReadError (Option Bytes) := do
  match ← w.span with
  | none => return none
  | some s =>
    match s.bytes? w.input with
    | some b => return some b
    | none => throw .outOfRange

/-- Did the leaf take part in the match? -/
def matched (w : View) : Except ReadError Bool := do
  return (← w.span).isSome

/-- The number of members, branches or items. -/
def size (w : View) : Except ReadError Nat :=
  match w.shape with
  | .product _ ss => .ok ss.length
  | .sum _ ss => .ok ss.length
  | .repeated _ _ => .ok w.value.children.length
  | _ => w.wrongSlot .size .repeated

/-- Member `i` of a product, or item `i` of a list. -/
def item (w : View) (i : Nat) : Except ReadError View :=
  match w.shape with
  | .product _ ss =>
    match ss[i]?, w.value.children[i]? with
    | none, _ => .error (.lookup (.noMember i))
    | some _, none => .error .outOfRange
    | some s, some v => .ok { w with shape := s, value := v }
  | .repeated _ s =>
    match w.value.children[i]? with
    | none => .error (.lookup (.noOccurrence i))
    | some v => .ok { w with shape := s, value := v }
  | _ => w.wrongSlot .item .repeated

/-- The member of a product with a label.  A slot that is no product answers to
its own label. -/
def member (w : View) (label : String) : Except ReadError View :=
  match w.shape with
  | .product _ ss =>
    match ss.findIdx? (fun s => s.label == some label) with
    | some i => w.item i
    | none => .error (.lookup (.unknownName label))
  | s => if s.label = some label then .ok w else .error (.lookup (.unknownName label))

/-- Does a slot that may be left out say that it holds something? -/
def present (w : View) : Except ReadError Bool :=
  match w.shape with
  | .opt _ _ => .ok w.value.present
  | _ => w.wrongSlot .present .opt

/-- The inside of a slot that may be left out. -/
def inner (w : View) : Except ReadError View :=
  match w.shape with
  | .opt _ s =>
    if w.value.present then do
      return { w with shape := s, value := ← firstUnchecked w.value.children }
    else .error (.lookup .absentOption)
  | _ => w.wrongSlot .present .opt

/-- The slot of an alternation. -/
def choice (w : View) : Except ReadError Choice :=
  match w.shape with
  | .sum _ ss => .ok { branches := ss, value := w.value, input := w.input }
  | _ => w.wrongSlot .choice .sum

end View

/-! ## Reading a whole slot -/

/-- Everything that can be read from a slot. -/
inductive Reading where
  | empty
  | leaf (label : Option String) (span : Option Span) (bytes : Option Bytes)
  | product (members : List Reading)
  | sum (index : Nat) (value : Reading)
  | repeated (items : List Reading)
  | opt (inner : Option Reading)

namespace Reading

mutual
/-- Reads a slot from its shape, its value and the input. -/
def ofSlot (input : Bytes) : Shape → Value → Except ReadError Reading
  | .empty, _ => .ok empty
  | .leaf o, v => do
    let view : View := { shape := .leaf o, value := v, input }
    return leaf view.shape.label (← view.span) (← view.bytes)
  | .product _ ss, v => do return product (← ofMembers input ss v.children)
  | .sum _ ss, v => do
    let (i, view) ← Choice.taken { branches := ss, value := v, input }
    return sum i (← ofBranch input ss i view.value)
  | .repeated _ s, v => do return repeated (← v.children.mapM fun e => ofSlot input s e)
  | .opt _ s, v =>
    if v.present then do return opt (some (← ofSlot input s (← firstUnchecked v.children)))
    else .ok (opt none)

/-- Reads the members of a product. -/
def ofMembers (input : Bytes) : List Shape → List Value → Except ReadError (List Reading)
  | [], _ => .ok []
  | _ :: _, [] => .error .outOfRange
  | s :: ss, v :: vs => do return (← ofSlot input s v) :: (← ofMembers input ss vs)

/-- Reads branch `i` of a sum. -/
def ofBranch (input : Bytes) : List Shape → Nat → Value → Except ReadError Reading
  | [], _, _ => .error .outOfRange
  | s :: _, 0, v => ofSlot input s v
  | _ :: ss, i + 1, v => ofBranch input ss i v
end

end Reading

/-- Reads everything from a slot. -/
def View.read (w : View) : Except ReadError Reading :=
  Reading.ofSlot w.input w.shape w.value

end CaptureTree
