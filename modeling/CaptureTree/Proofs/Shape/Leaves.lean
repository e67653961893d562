import CaptureTree.Proofs.Ancestors
import CaptureTree.Proofs.Shape.Paths

/-!
# The leaves of a shape

Inference goes from the leaves of the pattern up, and drops everything that captures nothing.
Numbering goes from the root down, and lists the captures that are inside others as well.  Where
the two meet is said here: **the leaves of the shape of a pattern, from left to right, are those of
its visible captures in pre-order** (`Located.WellFormed.leaves_infer`), the visible captures being
those that are inside no other capture.
-/

namespace CaptureTree

namespace Shape

/-! ## From left to right -/

mutual
/-- The leaves of a shape, from left to right. -/
def leaves : Shape → List Shape
  | empty => []
  | leaf o => [leaf o]
  | product _ ss => leavesAll ss
  | sum _ ss => leavesAll ss
  | repeated _ s => leaves s
  | opt _ s => leaves s

/-- The leaves of neighbouring slots. -/
def leavesAll : List Shape → List Shape
  | [] => []
  | s :: ss => leaves s ++ leavesAll ss
end

theorem leavesAll_eq (ss : List Shape) : leavesAll ss = ss.flatMap leaves := by
  induction ss with
  | nil => rfl
  | cons s ss ih => rw [leavesAll, ih, List.flatMap_cons]

theorem leaves_loop (q : Located) (s : Shape) : (loop q s).leaves = s.leaves := by
  rw [loop]
  split
  · rfl
  · rfl

/-- Slots without leaves do not count. -/
theorem flatMap_leaves_filter (ss : List Shape) :
    (ss.filter (!·.isEmpty)).flatMap leaves = ss.flatMap leaves := by
  induction ss with
  | nil => rfl
  | cons s ss ih =>
    rw [List.filter_cons, List.flatMap_cons, ← ih]
    cases hs : s.isEmpty with
    | false => exact List.flatMap_cons
    | true =>
      rw [isEmpty_iff.mp hs]
      rfl

/-- The leaves of a sequence are those of its parts. -/
theorem leaves_sequence (p : Located) (parts : List Shape) :
    (sequence p parts).leaves = parts.flatMap leaves := by
  rw [← flatMap_leaves_filter]
  rcases sequence_kept p parts with ⟨hkept, hseq⟩ | ⟨s, hkept, hseq⟩ | hseq
  · rw [hkept, hseq]
    rfl
  · rw [hkept, hseq, List.flatMap_singleton]
  · rw [hseq, leaves, leavesAll_eq]

/-- The leaves that have a path are those that have an origin. -/
theorem map_fst_leafPaths_eq (s : Shape) :
    s.leafPaths.map Prod.fst = s.leaves.filterMap fun l => l.origin.map Located.id := by
  have hall : ∀ (step : Nat → Step) (ss : List Shape),
      (∀ s ∈ ss, s.leafPaths.map Prod.fst = s.leaves.filterMap fun l => l.origin.map Located.id) →
      ∀ i, (leafPathsAll step i ss).map Prod.fst =
        (leavesAll ss).filterMap fun l => l.origin.map Located.id := by
    intro step ss hss
    induction ss with
    | nil => exact fun _ => rfl
    | cons s ss ih =>
      obtain ⟨hs, hss⟩ := List.forall_mem_cons.mp hss
      intro i
      rw [leafPathsAll, leavesAll, List.map_append, List.map_map, ih hss, List.filterMap_append,
        ← hs]
      rfl
  induction s with
  | empty => rfl
  | leaf o => cases o <;> rfl
  | product o ss ih => exact hall .member ss ih 0
  | sum o ss ih => exact hall .branch ss ih 0
  | repeated o s ih | opt o s ih =>
    rw [leafPaths, List.map_map]
    exact ih

end Shape

namespace Located

/-! ## Visible captures -/

variable {p c : Located}

/-- The captures that no other capture hides, in pre-order. -/
def visible (p : Located) : List Located :=
  p.captures.filter fun c => !p.isHidden c.id

theorem mem_visible : c ∈ p.visible ↔ c ∈ p.captures ∧ p.isHidden c.id = false := by
  rw [visible, List.mem_filter, Bool.not_eq_true']

/-- What is in a child of a capture is hidden, and otherwise what is hidden in the child. -/
theorem filter_visible (hd : p.Distinct) {q : Located} (hq : q ∈ p.children) :
    q.captures.filter (fun c => !p.isHidden c.id) = if p.isCapture then [] else q.visible := by
  have hinside : ∀ c ∈ q.captures, p.isHidden c.id = (p.isCapture || q.isHidden c.id) := by
    intro c hc
    exact hd.isHidden_of_mem_child hq (id_mem_ids (List.mem_of_mem_filter hc))
  split
  · rename_i hcapture
    refine List.filter_eq_nil_iff.mpr fun c hc => ?_
    rw [hinside c hc, hcapture, Bool.true_or]
    exact Bool.false_ne_true
  · rename_i hcapture
    rw [Bool.not_eq_true] at hcapture
    refine List.filter_congr fun c hc => ?_
    rw [hinside c hc, hcapture, Bool.false_or]

/-- A capture hides everything inside it. -/
theorem visible_capture (hd : p.Distinct) (hk : p.kind = .capture) : p.visible = [p] := by
  have hcapture : p.isCapture = true := beq_iff_eq.mpr hk
  have hinside : ∀ q ∈ p.children, (captures q).filter (fun c => !p.isHidden c.id) = [] := by
    intro q hq
    rw [filter_visible hd hq, if_pos hcapture]
  rw [visible, captures_eq, if_pos hcapture, List.filter_append, List.filter_flatMap,
    List.flatMap_eq_nil_iff.mpr hinside, List.append_nil, List.filter_singleton, hd.isHidden_self]
  rfl

/-- Other nodes hide nothing. -/
theorem visible_inner (hd : p.Distinct) (hk : p.kind ≠ .capture) :
    p.visible = p.children.flatMap visible := by
  have hcapture : p.isCapture = false := beq_false_of_ne hk
  rw [visible, captures_eq, hcapture, if_neg Bool.false_ne_true, List.nil_append,
    List.filter_flatMap]
  refine List.flatMap_congr fun q hq => ?_
  rw [filter_visible hd hq, hcapture, if_neg Bool.false_ne_true]

/-- **The leaves of the shape of a pattern** are those of its visible captures, in order. -/
theorem WellFormed.leaves_infer (h : p.WellFormed) (hd : p.Distinct) :
    (Shape.infer p).leaves = p.visible.map fun c => .leaf (some c) := by
  induction h with
  | literal hk hc =>
    rw [Shape.infer_literal hk, visible_inner hd (by rw [hk]; decide), hc]
    rfl
  | capture hk =>
    rw [Shape.infer_capture hk, visible_capture hd hk]
    rfl
  | @group p q hk hc _ ih =>
    rw [Shape.infer_group hk hc, visible_inner hd (by rw [hk]; decide), hc,
      List.flatMap_singleton, ih (hd.child (mem_children_of_eq hc))]
  | @concat p hk _ ih =>
    rw [Shape.infer_concat hk, Shape.leaves_sequence, visible_inner hd (by rw [hk]; decide),
      List.flatMap_map, List.map_flatMap]
    exact List.flatMap_congr fun q hq => ih q hq (hd.child hq)
  | @alternation p hk _ _ ih =>
    have hbranches : (p.children.map Shape.infer).flatMap Shape.leaves =
        p.visible.map fun c => .leaf (some c) := by
      rw [visible_inner hd (by rw [hk]; decide), List.flatMap_map, List.map_flatMap]
      exact List.flatMap_congr fun q hq => ih q hq (hd.child hq)
    rw [Shape.infer_alternation hk]
    split
    · rename_i hempty
      rw [← hbranches]
      refine (List.flatMap_eq_nil_iff.mpr fun s hs => ?_).symm
      rw [Shape.isEmpty_iff.mp (List.all_eq_true.mp hempty s hs)]
      rfl
    · rw [Shape.leaves, Shape.leavesAll_eq, hbranches]
  | @quantifier p q hk hc _ _ ih =>
    have hbody : (Shape.infer q).leaves = p.visible.map fun c => .leaf (some c) := by
      rw [visible_inner hd (by rw [hk]; decide), hc, List.flatMap_singleton,
        ih (hd.child (mem_children_of_eq hc))]
    rw [Shape.infer_quantifier hk hc]
    split
    · rename_i hempty
      rw [← hbody, Shape.isEmpty_iff.mp hempty]
    · rw [Shape.leaves_loop, hbody]

end Located

end CaptureTree
