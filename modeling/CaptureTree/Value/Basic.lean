import CaptureTree.Shape.Basic
import CaptureTree.Span

/-!
# Values

A value is what one match leaves in a shape.  It is a tree whose nodes carry the
kind of their slot, a span for a leaf, a branch number for a sum, and for a slot
that may be left out whether it holds something.  Values may be put together by
hand, so every node has all four fields and any number of children; the
constructors below give the conforming ones.
-/

namespace CaptureTree

/-- The fields of a value node. -/
structure Datum where
  kind : SlotKind
  /-- The span of a leaf that took part in the match. -/
  span : Option Span := none
  /-- The branch that a sum took. -/
  selected : Nat := 0
  /-- Whether a slot that may be left out says that it holds a value. -/
  present : Bool := kind == .opt
  deriving DecidableEq, Repr

/-- What a match leaves in a slot. -/
abbrev Value := Tree Datum

namespace Value

/-- Nothing is captured. -/
def empty : Value := .node { kind := .empty } []

/-- The span of a capture, none if it did not take part in the match. -/
def leaf (span : Option Span) : Value := .node { kind := .leaf, span } []

/-- Values side by side. -/
def product (members : List Value) : Value := .node { kind := .product } members

/-- The value of the branch taken. -/
def sum (selected : Nat) (value : Value) : Value := .node { kind := .sum, selected } [value]

/-- One value per iteration. -/
def repeated (items : List Value) : Value := .node { kind := .repeated } items

/-- The value of a slot that may be left out. -/
def opt (inner : Option Value) : Value :=
  .node { kind := .opt, present := inner.isSome } inner.toList

def kind (v : Value) : SlotKind := v.label.kind

def span (v : Value) : Option Span := v.label.span

def selected (v : Value) : Nat := v.label.selected

def present (v : Value) : Bool := v.label.present

/-! ## Comparing -/

/-- Do two nodes agree in kind, and in the field that this kind uses? -/
def sameDatum (a b : Datum) : Bool :=
  a.kind == b.kind && (a.kind != .leaf || a.span == b.span) &&
    (a.kind != .sum || a.selected == b.selected) &&
    (a.kind != .opt || a.present == b.present)

/-- Are two values equal? -/
def same : Value → Value → Bool :=
  Tree.agree sameDatum

/-! ## Printing -/

/-- Stands for the inside of a slot that says it has one and has none.  Nothing guards against
that, so what would be printed is not defined. -/
def undefinedText : String := "undefined"

/-- Printed form of a node, given those of its children. -/
def nodeText (v : Value) (parts : List String) : String :=
  match v.kind with
  | .empty => "()"
  | .leaf => v.span.elim "nil" Span.text
  | .product => "(" ++ ", ".intercalate parts ++ ")"
  | .sum => "#" ++ toString v.selected ++ ":" ++ parts.headD undefinedText
  | .repeated => "[" ++ ", ".intercalate parts ++ "]"
  | .opt => if v.present then "some(" ++ parts.headD undefinedText ++ ")" else "none"

/-- Printed form, such as `(0..4, [5..9, 10..14], #1:nil, some(3..4))`. -/
def text (v : Value) : String :=
  v.fold nodeText

theorem text_eq (v : Value) : v.text = nodeText v (v.children.map text) :=
  Tree.fold_eq _ v

end Value

end CaptureTree
