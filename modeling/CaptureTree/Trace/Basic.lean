import CaptureTree.Pattern.Located
import CaptureTree.Span

/-!
# Traces

A trace is what a search engine hands over for one successful match: the list of
what it recorded, in recording order.  A record belongs to one node of the
pattern and is of one of three kinds: a span for a capture, a branch number for
an alternation, or one iteration of a quantifier.  An iteration has a trace of
its own, its *frame*; what is recorded during the iteration goes there.

Readers never see the order between records of different nodes.  They ask for
the spans of a capture (`Trace.spans`), the choices of an alternation
(`Trace.choices`) and the frames of a quantifier (`Trace.iterations`), each in
recording order, and whether anything is recorded inside a subpattern
(`Trace.touches`).
-/

namespace CaptureTree

/-- The kinds of records. -/
inductive RecordKind where
  | span
  | choice
  | iteration
  deriving DecidableEq, Repr

/-- The name of a kind in messages. -/
def RecordKind.name : RecordKind → String
  | .span => "span"
  | .choice => "choice"
  | .iteration => "iteration"

/-- One entry of a trace. -/
inductive Record where
  /-- The capture matched this span. -/
  | span (capture : NodeId) (span : Span)
  /-- The alternation took this branch. -/
  | choice (alternation : NodeId) (branch : Nat)
  /-- The quantifier went through its body once more, recording this. -/
  | iteration (quantifier : NodeId) (frame : List Record)

namespace Record

/-- The node that the record belongs to. -/
def node : Record → NodeId
  | span n _ => n
  | choice n _ => n
  | iteration n _ => n

def kind : Record → RecordKind
  | span .. => .span
  | choice .. => .choice
  | iteration .. => .iteration

/-- The span, if the record is one for node `n`. -/
def spanOf? (n : NodeId) : Record → Option Span
  | span m s => if m = n then some s else none
  | _ => none

/-- The branch, if the record is a choice for node `n`. -/
def choiceOf? (n : NodeId) : Record → Option Nat
  | choice m i => if m = n then some i else none
  | _ => none

/-- The frame, if the record is an iteration of node `n`. -/
def frameOf? (n : NodeId) : Record → Option (List Record)
  | iteration m f => if m = n then some f else none
  | _ => none

end Record

/-- What was recorded in one frame, in recording order. -/
abbrev Trace := List Record

namespace Trace

/-- The spans recorded for a capture in this frame. -/
def spans (t : Trace) (capture : NodeId) : List Span :=
  t.filterMap (Record.spanOf? capture)

/-- The branches recorded for an alternation in this frame. -/
def choices (t : Trace) (alternation : NodeId) : List Nat :=
  t.filterMap (Record.choiceOf? alternation)

/-- The iteration frames of a quantifier in this frame. -/
def iterations (t : Trace) (quantifier : NodeId) : List Trace :=
  t.filterMap (Record.frameOf? quantifier)

/-- Does this frame hold a record for a node of the subpattern? -/
def touches (t : Trace) (p : Located) : Bool :=
  let ids := p.ids
  t.any fun r => ids.contains r.node

/-! ## Reading a trace piece by piece -/

@[simp] theorem spans_nil (n : NodeId) : spans [] n = [] := rfl

@[simp] theorem choices_nil (n : NodeId) : choices [] n = [] := rfl

@[simp] theorem iterations_nil (n : NodeId) : iterations [] n = [] := rfl

@[simp] theorem touches_nil (p : Located) : touches [] p = false := rfl

@[simp] theorem spans_append (t u : Trace) (n : NodeId) :
    spans (t ++ u) n = t.spans n ++ u.spans n :=
  List.filterMap_append

@[simp] theorem choices_append (t u : Trace) (n : NodeId) :
    choices (t ++ u) n = t.choices n ++ u.choices n :=
  List.filterMap_append

@[simp] theorem iterations_append (t u : Trace) (n : NodeId) :
    iterations (t ++ u) n = t.iterations n ++ u.iterations n :=
  List.filterMap_append

@[simp] theorem touches_append (t u : Trace) (p : Located) :
    touches (t ++ u) p = (t.touches p || u.touches p) :=
  List.any_append

/-- A subpattern is untouched when no record is for one of its nodes. -/
theorem touches_eq_false_iff {t : Trace} {p : Located} :
    t.touches p = false ↔ ∀ r ∈ t, r.node ∉ p.ids := by
  simp only [touches, List.any_eq_false, List.contains_iff_mem]

end Trace

end CaptureTree
