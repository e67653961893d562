import CaptureTree.Proofs.Results
import CaptureTree.Proofs.Trace.Shift
import CaptureTree.Value.Assembly

/-!
# Values with their spans moved

Reading a trace never looks into its spans: how many there are decides whether a frame
can be read, and where they go in the value is decided by the shape.  So changing the
spans of a trace changes those of the value in the same way and nothing else, and a trace
that can not be read stays unreadable for the same reason (`Value.assemble_mapSpans`).
-/

namespace CaptureTree

/-! ## Frames -/

namespace Trace

variable (f : Span → Span) (t : Trace)

/-- A span list with its spans changed. -/
def mapRow (f : Span → Span) (row : NodeId × List Span) : NodeId × List Span :=
  (row.1, row.2.map f)

theorem splitFrame_map (rows : List (NodeId × List Span)) (i : Nat) :
    splitFrame (rows.map (mapRow f)) i = mapSpans f (splitFrame rows i) := by
  rw [splitFrame, splitFrame, mapSpans, List.filterMap_map, List.map_filterMap]
  simp only [Function.comp_def, mapRow, List.getElem?_map, Option.map_map]
  rfl

theorem splitSpans_mapSpans (slot : SlotTitle) (b : Located) :
    splitSpans slot b (t.mapSpans f) = (splitSpans slot b t).map (List.map (mapSpans f)) := by
  have hrows : (b.captures.map fun c => (c.id, (t.mapSpans f).spans c.id)) =
      (b.captures.map fun c => (c.id, t.spans c.id)).map (mapRow f) := by
    rw [List.map_map]
    refine List.map_congr_left fun c _ => ?_
    rw [spans_mapSpans]
    rfl
  rw [splitSpans, splitSpans, hrows]
  cases b.subtrees.find? blocksSplitting with
  | some p => rfl
  | none =>
    generalize (b.captures.map fun c => (c.id, t.spans c.id)) = rows
    -- the lists are as long as before
    have hlength : ((rows.map (mapRow f)).head?.map fun row => row.2.length) =
        rows.head?.map fun row => row.2.length := by
      cases rows with
      | nil => rfl
      | cons row rows => exact congrArg some (List.length_map _)
    simp only [hlength, List.find?_map, Function.comp_def, mapRow, List.length_map]
    cases rows.find? _ with
    | some row =>
      have hrow : (mapRow f row).2.length = row.2.length := List.length_map _
      simp only [Option.map_some, hrow]
      rfl
    | none =>
      simp only [Option.map_none, Except.map, List.map_map]
      refine congrArg Except.ok (List.map_congr_left fun i _ => ?_)
      exact splitFrame_map f rows i

/-- **The frames of a quantifier** have their spans changed. -/
theorem frames_mapSpans (slot : SlotTitle) (q : Located) :
    frames slot q (t.mapSpans f) = (frames slot q t).map (List.map (mapSpans f)) := by
  have htouches : (t.mapSpans f).touches = t.touches := funext fun p => touches_mapSpans f t p
  rw [frames, frames, htouches, iterations_mapSpans]
  cases q.body.filter t.touches with
  | none => rfl
  | some b =>
    simp only [List.isEmpty_map, List.length_map]
    split
    · exact splitSpans_mapSpans f t slot b
    · rfl

/-- The branch that was taken stays the same. -/
theorem branchTaken_mapSpans (slot : SlotTitle) (a : Located) :
    branchTaken slot a (t.mapSpans f) = branchTaken slot a t := by
  have hlive : (t.mapSpans f).liveBranches a = t.liveBranches a := by
    simp only [liveBranches, choices_mapSpans, touches_mapSpans]
  rw [branchTaken, branchTaken, hlive, choices_mapSpans]

end Trace

/-! ## Values -/

namespace Value

variable (f : Span → Span)

/-- The value with all of its spans changed. -/
def mapSpans (f : Span → Span) (v : Value) : Value :=
  v.fold fun u parts => .node { u.label with span := u.label.span.map f } parts

/-- The value with all of its spans moved to the right by `b` positions. -/
def shift (b : Nat) (v : Value) : Value := v.mapSpans (Span.shift b)

theorem mapSpans_node (d : Datum) (vs : List Value) :
    mapSpans f (.node d vs) = .node { d with span := d.span.map f } (vs.map (mapSpans f)) :=
  Tree.fold_eq _ _

theorem mapSpans_empty : empty.mapSpans f = empty :=
  mapSpans_node f _ _

theorem mapSpans_leaf (s : Option Span) : (leaf s).mapSpans f = leaf (s.map f) :=
  mapSpans_node f _ _

theorem mapSpans_product (vs : List Value) :
    (product vs).mapSpans f = product (vs.map (mapSpans f)) :=
  mapSpans_node f _ _

theorem mapSpans_sum (i : Nat) (v : Value) : (sum i v).mapSpans f = sum i (v.mapSpans f) :=
  mapSpans_node f _ _

theorem mapSpans_repeated (vs : List Value) :
    (repeated vs).mapSpans f = repeated (vs.map (mapSpans f)) :=
  mapSpans_node f _ _

theorem mapSpans_opt (v : Option Value) :
    (opt v).mapSpans f = opt (v.map (mapSpans f)) := by
  rw [opt, opt, mapSpans_node, Option.toList_map, Option.isSome_map]
  rfl

theorem assembleLeaf_map (slot : SlotTitle) (spans : List Span) :
    assembleLeaf slot (spans.map f) = (assembleLeaf slot spans).map (mapSpans f) := by
  rcases spans with _ | ⟨s, _ | ⟨s', rest⟩⟩
  · exact congrArg Except.ok (mapSpans_leaf f none).symm
  · exact congrArg Except.ok (mapSpans_leaf f (some s)).symm
  · simp [assembleLeaf, Except.map]

theorem assembleAll_mapSpans {ss : List Shape} {t : Trace}
    (h : ∀ s ∈ ss, assemble s (t.mapSpans f) = (assemble s t).map (mapSpans f)) :
    assembleAll ss (t.mapSpans f) = (assembleAll ss t).map (List.map (mapSpans f)) := by
  induction ss with
  | nil => rfl
  | cons s ss ih =>
    obtain ⟨hs, hss⟩ := List.forall_mem_cons.mp h
    rw [assembleAll, assembleAll, hs, ih hss]
    cases assemble s t with
    | error e => rfl
    | ok v => cases assembleAll ss t <;> rfl

theorem assembleBranch_mapSpans (slot : SlotTitle) {ss : List Shape} {t : Trace} (i : Nat)
    (h : ∀ s ∈ ss, assemble s (t.mapSpans f) = (assemble s t).map (mapSpans f)) :
    assembleBranch slot ss i (t.mapSpans f) = (assembleBranch slot ss i t).map (mapSpans f) := by
  induction ss generalizing i with
  | nil => rfl
  | cons s ss ih =>
    obtain ⟨hs, hss⟩ := List.forall_mem_cons.mp h
    cases i with
    | zero => exact hs
    | succ i => exact ih i hss

/-- **Reading a trace never looks into its spans.** -/
theorem assemble_mapSpans (s : Shape) (t : Trace) :
    assemble s (t.mapSpans f) = (assemble s t).map (mapSpans f) := by
  induction s generalizing t with
  | empty => exact congrArg Except.ok (mapSpans_empty f).symm
  | leaf o =>
    rw [assemble, assemble, ← assembleLeaf_map]
    cases o with
    | none => rfl
    | some c => exact congrArg _ (Trace.spans_mapSpans f t c.id)
  | product o ss ih =>
    rw [assemble, assemble, assembleAll_mapSpans f fun s hs => ih s hs t]
    cases assembleAll ss t with
    | error e => rfl
    | ok vs => exact congrArg Except.ok (mapSpans_product f vs).symm
  | sum o ss ih =>
    simp only [assemble, Trace.branchTaken_mapSpans]
    cases Trace.branchTaken (Shape.sum o ss).title o t with
    | error e => rfl
    | ok i =>
      show (assembleBranch _ ss i (t.mapSpans f) >>= fun v => _) = _
      rw [assembleBranch_mapSpans f _ i fun s hs => ih s hs t]
      simp only [bind, Except.bind]
      cases assembleBranch (Shape.sum o ss).title ss i t with
      | error e => rfl
      | ok v => exact congrArg Except.ok (mapSpans_sum f i v).symm
  | repeated q s ih =>
    simp only [assemble, Trace.frames_mapSpans]
    cases Trace.frames (Shape.repeated q s).title q t with
    | error e => rfl
    | ok fs =>
      have hitems := mapM_map_eq (f := assemble s) (k := assemble s) ih fs
      simp only [Except.map, bind, Except.bind] at hitems ⊢
      rw [hitems]
      cases fs.mapM (assemble s) with
      | error e => rfl
      | ok vs => exact congrArg Except.ok (mapSpans_repeated f vs).symm
  | opt q s ih =>
    simp only [assemble, Trace.frames_mapSpans]
    cases Trace.frames (Shape.opt q s).title q t with
    | error e => rfl
    | ok fs =>
      rcases fs with _ | ⟨frame, _ | ⟨frame', rest⟩⟩
      · exact congrArg Except.ok (mapSpans_opt f none).symm
      · simp only [Except.map, bind, Except.bind, List.map_cons, List.map_nil, ih]
        cases assemble s frame with
        | error e => rfl
        | ok v => exact congrArg Except.ok (mapSpans_opt f (some v)).symm
      · simp [bind, Except.bind, Except.map]

end Value

end CaptureTree
