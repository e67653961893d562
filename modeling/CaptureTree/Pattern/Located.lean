import CaptureTree.Pattern.Basic

/-!
# Located patterns

Whatever is recorded during matching is recorded *for a node* of the pattern, so
nodes need an identity that their contents do not give: two equal subpatterns
are still two nodes.  A node is identified by its pre-order position, and a
located pattern is one whose nodes know it.

The nodes of a subtree have consecutive positions, starting with its root
(`Pattern.ids_locateFrom`).
-/

namespace CaptureTree

/-- The identity of a pattern node: its pre-order position. -/
abbrev NodeId := Nat

/-- A pattern node at its place. -/
structure Site extends Node where
  id : NodeId
  deriving DecidableEq, Repr

/-- A pattern whose nodes know their place. -/
abbrev Located := Tree Site

/-- The pattern with its root at position `k`. -/
def Pattern.locateFrom (k : Nat) (p : Pattern) : Located :=
  p.numbered (fun id node => { node with id }) k

/-- The pattern with its root at position 0. -/
def Pattern.locate (p : Pattern) : Located :=
  p.locateFrom 0

namespace Located

/-- What passes from the children of a node to the node holds of every located
pattern. -/
@[elab_as_elim]
theorem induction {motive : Located → Prop}
    (node : ∀ p : Located, (∀ q ∈ p.children, motive q) → motive p) (p : Located) : motive p :=
  Tree.induction (fun a ts ih => node (.node a ts) ih) p

/-- The position of the root. -/
def id (p : Located) : NodeId := p.label.id

/-- The kind of the root. -/
def kind (p : Located) : NodeKind := p.label.kind

/-- The name on the root. -/
def name (p : Located) : Option String := p.label.name

/-- The bounds of the root. -/
def bounds (p : Located) : Bounds := p.label.bounds

/-- Is the root a capture? -/
def isCapture (p : Located) : Bool := p.kind == .capture

/-- The captures in pre-order. -/
def captures (p : Located) : List Located :=
  p.subtrees.filter isCapture

/-- Is there a capture anywhere in the pattern? -/
def hasCapture (p : Located) : Bool :=
  p.subtrees.any isCapture

/-- What a node with one child repeats or wraps: its first child. -/
def body (p : Located) : Option Located :=
  p.children.head?

/-- The positions of all nodes, in pre-order. -/
def ids (p : Located) : List NodeId :=
  p.subtrees.map id

/-- The subtree whose root is at position `n`. -/
def find (p : Located) (n : NodeId) : Option Located :=
  p.subtrees.find? (·.id == n)

end Located

/-- **The positions of a pattern** count on from that of its root. -/
theorem Pattern.ids_locateFrom (k : Nat) (p : Pattern) :
    (p.locateFrom k).ids = List.range' k p.size := by
  have h := congrArg (List.map Site.id)
    (Tree.map_label_subtrees_numbered (fun id node => ({ node with id } : Site)) k p)
  rw [List.map_map, List.map_map] at h
  refine Eq.trans h ?_
  rw [← Tree.length_subtrees, ← List.zipIdx_map_snd]
  rfl

end CaptureTree
