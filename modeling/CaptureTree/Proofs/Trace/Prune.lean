import CaptureTree.Trace.Basic
import Mathlib.Data.List.Basic

/-!
# Traces with some nodes left out

`Trace.prune` drops the records of some nodes of the pattern, in the trace and in all
frames inside it.  An iteration that is dropped goes with everything in its frame.

Rows of nodes that are kept stay what they were, except that the frames of iterations are
pruned as well (`spans_prune`, `iterations_prune`).
-/

namespace CaptureTree

namespace Record

mutual
/-- The record with nodes left out inside it. -/
def prune (keep : NodeId → Bool) : Record → Record
  | .span n s => .span n s
  | .choice n i => .choice n i
  | .iteration n frame => .iteration n (pruneAll keep frame)

/-- Several records with nodes left out, here and inside them. -/
def pruneAll (keep : NodeId → Bool) : List Record → List Record
  | [] => []
  | r :: rest => if keep r.node then prune keep r :: pruneAll keep rest else pruneAll keep rest
end

@[simp] theorem node_prune (keep : NodeId → Bool) (r : Record) : (r.prune keep).node = r.node := by
  cases r <;> rfl

end Record

namespace Trace

variable {keep : NodeId → Bool} {t u : Trace} {n : NodeId}

/-- **The trace with nodes left out**, in all frames. -/
def prune (keep : NodeId → Bool) (t : Trace) : Trace :=
  Record.pruneAll keep t

theorem prune_eq (keep : NodeId → Bool) (t : Trace) :
    t.prune keep = (t.filter fun r => keep r.node).map (Record.prune keep) := by
  induction t with
  | nil => rfl
  | cons r t ih =>
    rw [prune, Record.pruneAll, List.filter_cons]
    split
    · rw [List.map_cons, ← ih]
      rfl
    · exact ih

@[simp] theorem prune_nil : prune keep [] = [] := rfl

@[simp] theorem prune_append : (t ++ u).prune keep = t.prune keep ++ u.prune keep := by
  rw [prune_eq, prune_eq, prune_eq, List.filter_append, List.map_append]

theorem prune_kept {r : Record} (h : keep r.node = true) : prune keep [r] = [r.prune keep] :=
  if_pos h

theorem prune_dropped {r : Record} (h : keep r.node = false) : prune keep [r] = [] :=
  if_neg (Bool.eq_false_iff.mp h)

/-! ## Rows of nodes that are kept -/

theorem spans_prune (h : keep n = true) : (t.prune keep).spans n = t.spans n := by
  rw [prune_eq, spans, spans, List.filterMap_map, List.filterMap_filter]
  refine List.filterMap_congr fun r _ => ?_
  cases r with
  | span m s =>
    by_cases hm : m = n
    · rw [if_pos (hm ▸ h)]
      rfl
    · rw [Function.comp_apply, Record.prune, Record.spanOf?, if_neg hm]
      split
      · rfl
      · rfl
  | choice | iteration =>
    split
    · rfl
    · rfl

theorem iterations_prune (h : keep n = true) :
    (t.prune keep).iterations n = (t.iterations n).map (prune keep) := by
  rw [prune_eq, iterations, iterations, List.filterMap_map, List.map_filterMap,
    List.filterMap_filter]
  refine List.filterMap_congr fun r _ => ?_
  cases r with
  | iteration m f =>
    by_cases hm : m = n
    · rw [if_pos (hm ▸ h), Function.comp_apply, Record.prune, Record.frameOf?, Record.frameOf?,
        if_pos hm, if_pos hm]
      rfl
    · rw [Function.comp_apply, Record.prune, Record.frameOf?, Record.frameOf?, if_neg hm,
        if_neg hm]
      split
      · rfl
      · rfl
  | span | choice =>
    split
    · rfl
    · rfl

/-- What is not touched is not touched with nodes left out. -/
theorem touches_prune {p q : Located} (h : t.touches p = false) (hids : q.ids = p.ids) :
    (t.prune keep).touches q = false := by
  rw [touches_eq_false_iff] at h ⊢
  intro r hr
  rw [prune_eq, List.mem_map] at hr
  obtain ⟨r, hr, rfl⟩ := hr
  rw [Record.node_prune, hids]
  exact h r (List.mem_of_mem_filter hr)

end Trace

end CaptureTree
