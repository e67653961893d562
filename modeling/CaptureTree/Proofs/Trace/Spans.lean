import CaptureTree.Proofs.Nesting
import CaptureTree.Proofs.Trace.Executed
import CaptureTree.Proofs.Trace.Placement

/-!
# All spans of a capture

A trace is a tree of frames, and the spans of a capture may be recorded in any of
them.  `Trace.allSpans` reads them in the order in which they were recorded, frames
of iterations included.

In a trace whose records are in their place, an iteration holds spans of a capture
only if its quantifier is one of those around the capture
(`Located.Holds.mem_of_spansWithin`).  This is what keeps spans from hiding in frames
that nobody reads.
-/

namespace CaptureTree

namespace Record

mutual
/-- The spans recorded for a capture, in a record and everything inside it. -/
def spansWithin (n : NodeId) : Record → List Span
  | .span m s => if m = n then [s] else []
  | .choice _ _ => []
  | .iteration _ frame => spansWithinAll n frame

/-- The spans recorded for a capture in several records, in order. -/
def spansWithinAll (n : NodeId) : List Record → List Span
  | [] => []
  | r :: rest => spansWithin n r ++ spansWithinAll n rest
end

end Record

namespace Trace

variable {p q b c : Located} {qs : List Located} {t : Trace} {n : NodeId} {size : Nat}
  {scope : Option Located}

/-- **The spans recorded anywhere in a trace for a capture**, frame by frame in the
order of the iterations and in recording order inside a frame. -/
def allSpans (t : Trace) (n : NodeId) : List Span :=
  Record.spansWithinAll n t

theorem allSpans_eq_flatMap (t : Trace) (n : NodeId) :
    t.allSpans n = t.flatMap (Record.spansWithin n) := by
  induction t with
  | nil => rfl
  | cons r t ih =>
    rw [List.flatMap_cons, ← ih]
    rfl

theorem spansWithin_iteration (n m : NodeId) (f : Trace) :
    Record.spansWithin n (.iteration m f) = f.allSpans n := rfl

/-! ## Where spans can be -/

/-- A record in its place has no spans for nodes outside its scope. -/
theorem spansWithin_eq_nil {r : Record} (h : Record.Placed size scope r)
    (hn : ∀ p ∈ scope, n ∉ p.ids) : r.spansWithin n = [] := by
  induction h with
  | @span scope m s a hnode =>
    obtain ⟨p, hp, hfind⟩ := Option.bind_eq_some_iff.mp hnode
    obtain ⟨hmem, rfl⟩ := Located.mem_subtrees_of_find hfind
    rw [Record.spansWithin, if_neg]
    rintro rfl
    exact hn p hp (Located.id_mem_ids hmem)
  | choice => rfl
  | @iteration scope m f a hnode _ _ ih =>
    obtain ⟨p, hp, hfind⟩ := Option.bind_eq_some_iff.mp hnode
    obtain ⟨hmem, -⟩ := Located.mem_subtrees_of_find hfind
    rw [spansWithin_iteration, allSpans_eq_flatMap, List.flatMap_eq_nil_iff]
    intro r hr
    refine ih r hr fun b hb hbody => hn p hp ?_
    have hchild : b ∈ a.children := List.mem_of_head? hb
    exact Located.ids_subset hmem (Located.ids_subset_of_mem_children hchild hbody)

/-- Where no iteration holds a span of a capture, its spans are those of the frame. -/
theorem allSpans_eq_spans (h : ∀ m f, Record.iteration m f ∈ t → allSpans f n = []) :
    t.allSpans n = t.spans n := by
  rw [allSpans_eq_flatMap, spans, List.filterMap_eq_flatMap_toList]
  refine List.flatMap_congr fun r hr => ?_
  cases r with
  | span m s =>
    rw [Record.spansWithin, Record.spanOf?]
    split
    · rfl
    · rfl
  | choice => rfl
  | iteration m f => exact h m f hr

/-- Where a capture has no spans beside the iterations of one quantifier, nor in
those of others, its spans are those of the iterations. -/
theorem allSpans_eq_iterations {k : NodeId} (hspans : t.spans n = [])
    (h : ∀ m f, Record.iteration m f ∈ t → m ≠ k → allSpans f n = []) :
    t.allSpans n = (t.iterations k).flatMap fun f => f.allSpans n := by
  rw [allSpans_eq_flatMap, iterations, List.filterMap_eq_flatMap_toList, List.flatMap_assoc]
  refine List.flatMap_congr fun r hr => ?_
  cases r with
  | span m s =>
    have hnone : (if m = n then some s else none) = none :=
      List.filterMap_eq_nil_iff.mp hspans _ hr
    show (if m = n then [s] else []) = []
    by_cases hmn : m = n
    · rw [if_pos hmn] at hnone
      cases hnone
    · exact if_neg hmn
  | choice => rfl
  | iteration m f =>
    rw [spansWithin_iteration, Record.frameOf?]
    by_cases hmk : m = k
    · rw [if_pos hmk, Option.toList_some, List.flatMap_singleton]
    · rw [if_neg hmk]
      exact h m f hr hmk

end Trace

/-- **Spans of a capture are recorded in iterations of the quantifiers around it
only.** -/
theorem Located.Holds.mem_of_spansWithin {p c : Located} {qs : List Located}
    (h : p.Holds qs c) (hd : p.Distinct) {size : Nat} {m : NodeId} {f : Trace}
    (hplaced : Record.Placed size (some p) (.iteration m f)) (hspans : f.allSpans c.id ≠ []) :
    ∃ q ∈ qs, q.id = m := by
  cases hplaced with
  | @iteration _ _ _ a hnode hk hinside =>
    obtain ⟨hmem, hid⟩ := Located.mem_subtrees_of_find (p := p) hnode
    refine ⟨a, ?_, hid⟩
    by_contra hout
    refine hspans ?_
    rw [Trace.allSpans_eq_flatMap, List.flatMap_eq_nil_iff]
    intro r hr
    refine Trace.spansWithin_eq_nil (hinside r hr) fun b hb hbody => hout ?_
    exact h.mem_of_quantifier hd hmem hk (List.mem_of_head? hb) hbody

end CaptureTree
