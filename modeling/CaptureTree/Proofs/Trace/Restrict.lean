import CaptureTree.Proofs.Trace.Shift
import CaptureTree.Proofs.Trace.Spans
import CaptureTree.Trace.Change

/-!
# The part of a frame that belongs to a subpattern

The parts of a pattern share a frame, and each of them records for its own nodes.
`Trace.restrict` keeps what a frame holds for one of them, with all that is inside its
iterations.

The frames of a trace are the trace itself and, at any depth, the frames of its
iterations.  The latter are described by `Trace.Inside`, since they stay what they are
when records are added beside the iterations.
-/

namespace CaptureTree

namespace Trace

variable {t u f : Trace} {p a : Located}

/-! ## Restricting a frame -/

/-- **The records for the nodes of a subpattern**, in order. -/
def restrict (t : Trace) (p : Located) : Trace :=
  t.filter fun r => p.ids.contains r.node

theorem restrict_append : (t ++ u).restrict p = t.restrict p ++ u.restrict p :=
  List.filter_append t u

theorem restrict_eq_nil (h : t.touches p = false) : t.restrict p = [] := by
  rw [touches_eq_false_iff] at h
  refine List.filter_eq_nil_iff.mpr fun r hr => ?_
  rw [List.contains_iff_mem]
  exact h r hr

theorem restrict_eq_self (h : ∀ r ∈ t, r.node ∈ p.ids) : t.restrict p = t :=
  List.filter_eq_self.mpr fun r hr => List.contains_iff_mem.mpr (h r hr)

/-- What belongs to a part of a subpattern is among what belongs to the subpattern. -/
theorem restrict_restrict (ha : a ∈ p.subtrees) : (t.restrict p).restrict a = t.restrict a := by
  rw [restrict, restrict, restrict, List.filter_filter]
  refine List.filter_congr fun r _ => ?_
  rw [Bool.eq_iff_iff, Bool.and_eq_true, List.contains_iff_mem, List.contains_iff_mem]
  exact ⟨And.left, fun hmem => ⟨hmem, Located.ids_subset ha hmem⟩⟩

/-! ## Frames inside frames -/

/-- Is this the frame of an iteration, at any depth? -/
def Inside (t f : Trace) : Prop :=
  ∃ n g, Record.iteration n g ∈ t ∧ ∃ address, frame? g address = some f

/-- A frame of a trace is the trace itself or inside it. -/
theorem eq_or_inside_of_frame? {address : FrameAddress} (h : t.frame? address = some f) :
    f = t ∨ t.Inside f := by
  cases address with
  | nil => exact .inl (Option.some.inj h).symm
  | cons head address =>
    obtain ⟨g, hg, hf⟩ := Option.bind_eq_some_iff.mp h
    exact .inr ⟨head.1, g, mem_iterations.mp (List.mem_of_getElem? hg), address, hf⟩

theorem inside_append : (t ++ u).Inside f ↔ t.Inside f ∨ u.Inside f := by
  simp only [Inside, List.mem_append, or_and_right, exists_or]

/-! ## Spans inside a frame -/

/-- Every span inside a record in its place fits the input. -/
theorem fits_of_mem_spansWithin {size : Nat} {scope : Option Located} {r : Record}
    (h : Record.Placed size scope r) {n : NodeId} {s : Span} (hs : s ∈ r.spansWithin n) :
    s.fits size = true := by
  induction h with
  | span _ _ hfits =>
    rw [Record.spansWithin] at hs
    split at hs
    · rw [List.mem_singleton.mp hs]
      exact hfits
    · exact absurd hs List.not_mem_nil
  | choice => exact absurd hs List.not_mem_nil
  | iteration _ _ _ ih =>
    rw [spansWithin_iteration, allSpans_eq_flatMap] at hs
    obtain ⟨r, hr, hs⟩ := List.mem_flatMap.mp hs
    exact ih r hr hs

theorem spansWithin_mapSpans (g : Span → Span) (n : NodeId) (r : Record) :
    (r.mapSpans g).spansWithin n = (r.spansWithin n).map g := by
  induction r using Record.induction with
  | span m s =>
    rw [Record.mapSpans, Record.spansWithin, Record.spansWithin]
    split
    · rfl
    · rfl
  | choice => rfl
  | iteration m f ih =>
    rw [Record.mapSpans_iteration, spansWithin_iteration, spansWithin_iteration,
      allSpans_eq_flatMap, allSpans_eq_flatMap, List.flatMap_map, List.map_flatMap]
    exact List.flatMap_congr ih

/-- The spans of a frame that was changed are those of the frame, changed. -/
theorem allSpans_mapSpans (g : Span → Span) (n : NodeId) (t : Trace) :
    (t.mapSpans g).allSpans n = (t.allSpans n).map g := by
  rw [allSpans_eq_flatMap, allSpans_eq_flatMap, mapSpans, List.flatMap_map, List.map_flatMap]
  exact List.flatMap_congr fun r _ => spansWithin_mapSpans g n r

end Trace

end CaptureTree
