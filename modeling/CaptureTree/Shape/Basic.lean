import CaptureTree.Pattern.Located

/-!
# Shapes

The shape of a pattern is the structural type of what a successful match
produces: one slot per capture, in lists for what is repeated, side by side for
what is matched in sequence, and one of several for an alternation.  Every
non-empty shape remembers the pattern node that it stems from, its *origin*.

* `Shape.infer` computes the shape from the leaves of the pattern up.  A capture
  is a leaf whatever lies inside it, capture-free parts vanish, and a sequence
  with a single capturing part is that part.
* `Shape.same` compares kinds, names and origins.
* `Shape.text` prints kinds and names.
-/

namespace CaptureTree

/-- The kinds of slots, shared by shapes and values. -/
inductive SlotKind where
  | empty
  | leaf
  | product
  | sum
  | repeated
  | opt
  deriving DecidableEq, Repr

/-- The name of a kind in messages and printed shapes. -/
def SlotKind.name : SlotKind → String
  | .empty => "Empty"
  | .leaf => "Leaf"
  | .product => "Product"
  | .sum => "Sum"
  | .repeated => "Repeated"
  | .opt => "Opt"

/-- The structural type of a match. -/
inductive Shape where
  /-- Nothing is captured. -/
  | empty
  /-- The span of a capture.  The whole match is a leaf without an origin. -/
  | leaf (origin : Option Located)
  /-- Several slots side by side. -/
  | product (origin : Located) (members : List Shape)
  /-- Exactly one of several slots. -/
  | sum (origin : Located) (branches : List Shape)
  /-- One slot per iteration. -/
  | repeated (origin : Located) (item : Shape)
  /-- A slot that may be left out. -/
  | opt (origin : Located) (inner : Shape)

/-- The kind of a slot and the name on the node that it stems from. -/
structure SlotTitle where
  kind : SlotKind
  name : Option String
  deriving DecidableEq, Repr

/-- Printed form: the kind, with the name in quotes if there is one. -/
def SlotTitle.text (s : SlotTitle) : String :=
  match s.name with
  | some name => s.kind.name ++ " '" ++ name ++ "'"
  | none => s.kind.name

namespace Shape

def kind : Shape → SlotKind
  | empty => .empty
  | leaf _ => .leaf
  | product .. => .product
  | sum .. => .sum
  | repeated .. => .repeated
  | opt .. => .opt

/-- The pattern node that the shape stems from. -/
def origin : Shape → Option Located
  | empty => none
  | leaf o => o
  | product o _ => some o
  | sum o _ => some o
  | repeated o _ => some o
  | opt o _ => some o

/-- The slots directly inside. -/
def children : Shape → List Shape
  | empty => []
  | leaf _ => []
  | product _ ss => ss
  | sum _ ss => ss
  | repeated _ s => [s]
  | opt _ s => [s]

/-- The label under which the slot is found: leaves carry the name of their
capture, other slots have none. -/
def label : Shape → Option String
  | leaf o => o.bind Located.name
  | _ => none

/-- How messages refer to the slot. -/
def title (s : Shape) : SlotTitle :=
  { kind := s.kind, name := s.origin.bind Located.name }

def isEmpty : Shape → Bool
  | empty => true
  | _ => false

/-- What passes from the slots inside a shape to the shape holds of every
shape. -/
@[elab_as_elim, induction_eliminator]
theorem induction {motive : Shape → Prop} (empty : motive empty)
    (leaf : ∀ o, motive (leaf o))
    (product : ∀ o ss, (∀ s ∈ ss, motive s) → motive (product o ss))
    (sum : ∀ o ss, (∀ s ∈ ss, motive s) → motive (sum o ss))
    (repeated : ∀ o s, motive s → motive (repeated o s))
    (opt : ∀ o s, motive s → motive (opt o s)) (s : Shape) : motive s :=
  @Shape.rec motive (fun ss => ∀ s ∈ ss, motive s)
    empty leaf product sum repeated opt (fun _ h => absurd h List.not_mem_nil)
    (fun _ _ h hs _ hmem => by
      rcases List.mem_cons.mp hmem with rfl | hmem
      · exact h
      · exact hs _ hmem) s

/-! ## Inference -/

/-- The slot of a quantifier around a slot: it may be left out if the quantifier
says at most once, and is a list otherwise. -/
def loop (q : Located) (s : Shape) : Shape :=
  if q.bounds.isOptional then opt q s else repeated q s

/-- The slots of a sequence side by side, less the empty ones. -/
def sequence (p : Located) (parts : List Shape) : Shape :=
  match parts.filter (!·.isEmpty) with
  | [] => empty
  | [s] => s
  | kept => product p kept

/-- The shape of a node, given those of its children. -/
def ofNode (p : Located) (parts : List Shape) : Shape :=
  match p.kind with
  | .literal => empty
  | .capture => leaf (some p)
  | .group => parts.headD empty
  | .concat => sequence p parts
  | .alternation => if parts.all isEmpty then empty else sum p parts
  | .quantifier =>
    let item := parts.headD empty
    if item.isEmpty then empty else loop p item

/-- The shape of a pattern. -/
def infer (p : Located) : Shape :=
  p.fold ofNode

theorem infer_eq (p : Located) : infer p = ofNode p (p.children.map infer) :=
  Tree.fold_eq _ p

/-! ## Comparing -/

/-- Are two origins the same node, or both missing? -/
def sameOrigin (o o' : Option Located) : Bool :=
  o.map Located.id == o'.map Located.id

mutual
/-- Do two shapes agree in kind, name and origin throughout? -/
def same : Shape → Shape → Bool
  | empty, empty => true
  | leaf o, leaf o' => sameOrigin o o' && o.bind Located.name == o'.bind Located.name
  | product o ss, product o' ss' => sameOrigin (some o) (some o') && sameAll ss ss'
  | sum o ss, sum o' ss' => sameOrigin (some o) (some o') && sameAll ss ss'
  | repeated o s, repeated o' s' => sameOrigin (some o) (some o') && same s s'
  | opt o s, opt o' s' => sameOrigin (some o) (some o') && same s s'
  | _, _ => false

/-- Do two lists of shapes agree one to one? -/
def sameAll : List Shape → List Shape → Bool
  | [], [] => true
  | s :: ss, s' :: ss' => same s s' && sameAll ss ss'
  | _, _ => false
end

/-! ## Printing -/

mutual
/-- Printed form, such as `Product[Leaf(x), Repeated(Leaf)]`. -/
def text : Shape → String
  | empty => SlotKind.empty.name
  | leaf o =>
    match o.bind Located.name with
    | some name => SlotKind.leaf.name ++ "(" ++ name ++ ")"
    | none => SlotKind.leaf.name
  | product _ ss => SlotKind.product.name ++ "[" ++ ", ".intercalate (texts ss) ++ "]"
  | sum _ ss => SlotKind.sum.name ++ "[" ++ ", ".intercalate (texts ss) ++ "]"
  | repeated _ s => SlotKind.repeated.name ++ "(" ++ text s ++ ")"
  | opt _ s => SlotKind.opt.name ++ "(" ++ text s ++ ")"

/-- The printed forms of several shapes. -/
def texts : List Shape → List String
  | [] => []
  | s :: ss => text s :: texts ss
end

end Shape

end CaptureTree
