import CaptureTree.Proofs.Shape.Paths

/-!
# Slots and the paths to them

A path says two things at each of its steps: which child to go to, and what kind of slot it
expects to be in.  `Shape.follow` goes along a path and minds both, `Shape.slotAt` goes by the
numbers of children alone.

* `Route.follow_eq`: the path of a route fits the shape at every step, and ends at the leaf of the
  capture.
* `Route.loopsAlong_eq`: the slots of quantifiers that it passes are those of the quantifiers on
  the route.
* `Shape.exists_route_of_slotAt`: every leaf of a shape is at the end of a route.

`Shape.layers` and `Shape.core` take a flat shape apart again: what is wrapped around the leaf,
and the leaf.
-/

namespace CaptureTree

/-! ## Steps -/

namespace Step

/-- The kind of slot that the step leaves from. -/
def kind : Step → SlotKind
  | member _ => .product
  | branch _ => .sum
  | each => .repeated
  | inner => .opt

/-- The number of the child that the step goes to. -/
def index : Step → Nat
  | member i => i
  | branch i => i
  | each => 0
  | inner => 0

/-- Does the step go into a quantifier? -/
def isLoop : Step → Bool
  | member _ => false
  | branch _ => false
  | each => true
  | inner => true

end Step

/-- The kind of slot that a quantifier gives. -/
def Located.loopKind (q : Located) : SlotKind :=
  if q.bounds.isOptional then .opt else .repeated

namespace Shape

variable {s u : Shape} {p q c : Located} {qs : List Located} {path : SlotPath} {is : List Nat}

/-! ## Going along a path -/

/-- **The slot at the end of a path**, if every step fits the kind of the slot that it leaves
from. -/
def follow : SlotPath → Shape → Option Shape
  | [], s => some s
  | step :: path, s =>
    if s.kind = step.kind then s.children[step.index]?.bind (follow path) else none

/-- The slot that is reached by going to these children, one after the other. -/
def slotAt : List Nat → Shape → Option Shape
  | [], s => some s
  | i :: is, s => s.children[i]?.bind (slotAt is)

/-- The slots of quantifiers on a path, by kind and origin. -/
def loopsAlong : SlotPath → Shape → List (SlotKind × Option Located)
  | [], _ => []
  | step :: path, s =>
    (if step.isLoop then [(s.kind, s.origin)] else []) ++
      (s.children[step.index]?.map (loopsAlong path)).getD []

/-- A path leads to the slot at its numbers. -/
theorem slotAt_of_follow (h : s.follow path = some u) :
    s.slotAt (path.map Step.index) = some u := by
  induction path generalizing s with
  | nil => exact h
  | cons step path ih =>
    rw [follow] at h
    split at h
    · obtain ⟨child, hchild, hfollow⟩ := Option.bind_eq_some_iff.mp h
      rw [List.map_cons, slotAt, hchild, Option.bind_some, ih hfollow]
    · cases h

theorem follow_cons {step : Step} (hkind : s.kind = step.kind)
    (hchild : s.children[step.index]? = some u) : s.follow (step :: path) = u.follow path := by
  rw [follow, if_pos hkind, hchild, Option.bind_some]

theorem loopsAlong_cons {step : Step} (hchild : s.children[step.index]? = some u) :
    s.loopsAlong (step :: path) =
      (if step.isLoop then [(s.kind, s.origin)] else []) ++ u.loopsAlong path := by
  rw [loopsAlong, hchild, Option.map_some, Option.getD_some]

/-- What is in a slot of a slot is in a slot. -/
theorem slotAt_cons {i : Nat} (h : s.slotAt (i :: is) = some u) :
    ∃ child, s.children[i]? = some child ∧ child.slotAt is = some u :=
  Option.bind_eq_some_iff.mp h

/-- There is nothing inside an empty slot or a leaf. -/
theorem slotAt_of_no_children (hs : s.children = []) (h : s.slotAt is = some u) :
    is = [] ∧ u = s := by
  cases is with
  | nil => exact ⟨rfl, (Option.some.inj h).symm⟩
  | cons i is =>
    obtain ⟨child, hchild, -⟩ := slotAt_cons h
    rw [hs] at hchild
    cases hchild

/-! ## Slots of quantifiers -/

theorem kind_loop (q : Located) (s : Shape) : (loop q s).kind = q.loopKind := by
  rw [loop, Located.loopKind]
  split
  · rfl
  · rfl

theorem origin_loop (q : Located) (s : Shape) : (loop q s).origin = some q := by
  rw [loop]
  split
  · rfl
  · rfl

theorem children_loop (q : Located) (s : Shape) : (loop q s).children = [s] := by
  rw [loop]
  split
  · rfl
  · rfl

theorem kind_stepInto (q : Located) : (stepInto q).kind = q.loopKind := by
  rw [stepInto, Located.loopKind]
  split
  · rfl
  · rfl

theorem index_stepInto (q : Located) : (stepInto q).index = 0 := by
  rw [stepInto]
  split
  · rfl
  · rfl

theorem isLoop_stepInto (q : Located) : (stepInto q).isLoop = true := by
  rw [stepInto]
  split
  · rfl
  · rfl

theorem getElem?_children_loop (q : Located) (s : Shape) :
    (loop q s).children[(stepInto q).index]? = some s := by
  rw [children_loop, index_stepInto]
  rfl

/-! ## Flat shapes -/

/-- What is wrapped around the core of a shape, by kind and origin, the outermost first. -/
def layers : Shape → List (SlotKind × Option Located)
  | repeated q s => (.repeated, some q) :: layers s
  | opt q s => (.opt, some q) :: layers s
  | _ => []

/-- What is left of a shape when lists and slots that may be left out are taken off. -/
def core : Shape → Shape
  | repeated _ s => core s
  | opt _ s => core s
  | s => s

theorem layers_loop (q : Located) (s : Shape) :
    (loop q s).layers = (q.loopKind, some q) :: s.layers := by
  rw [loop, Located.loopKind]
  split
  · rfl
  · rfl

theorem core_loop (q : Located) (s : Shape) : (loop q s).core = s.core := by
  rw [loop]
  split
  · rfl
  · rfl

/-- **A flat shape has one layer per quantifier.** -/
theorem layers_flat (qs : List Located) (c : Located) :
    (flat qs c).layers = qs.map fun q => (q.loopKind, some q) := by
  induction qs with
  | nil => rfl
  | cons q qs ih =>
    rw [List.map_cons, ← ih]
    exact layers_loop q (flat qs c)

theorem core_flat (qs : List Located) (c : Located) : (flat qs c).core = leaf (some c) := by
  induction qs with
  | nil => rfl
  | cons q qs ih => exact (core_loop q (flat qs c)).trans ih

end Shape

/-! ## Routes -/

namespace Located

namespace Route

variable {p c : Located} {qs : List Located} {path : SlotPath}

/-- **The path of a route ends at the leaf of the capture**, and fits the shape on the way. -/
theorem follow_eq (h : Route p qs c path) :
    (Shape.infer p).follow path = some (.leaf (some c)) := by
  induction h with
  | capture hk =>
    rw [Shape.infer_capture hk]
    rfl
  | group hk hc _ ih => rw [Shape.infer_group hk hc, ih]
  | only _ _ hshape _ ih => rw [hshape, ih]
  | member _ _ hshape hslot _ ih =>
    rw [hshape]
    refine Eq.trans (Shape.follow_cons rfl ?_) ih
    exact hslot
  | @branch p q c qs path i _ hq hshape _ ih =>
    rw [hshape]
    refine Eq.trans (Shape.follow_cons rfl ?_) ih
    exact Shape.getElem?_map_infer hq
  | @loop p q c qs path _ _ hshape _ ih =>
    have hkind := (Shape.kind_loop p (.infer q)).trans (Shape.kind_stepInto p).symm
    rw [hshape, Shape.follow_cons hkind (Shape.getElem?_children_loop p _), ih]

/-- **The slots of quantifiers on the path** are those of the quantifiers on the route. -/
theorem loopsAlong_eq (h : Route p qs c path) :
    (Shape.infer p).loopsAlong path = qs.map fun q => (q.loopKind, some q) := by
  induction h with
  | capture => rfl
  | group hk hc _ ih => rw [Shape.infer_group hk hc, ih]
  | only _ _ hshape _ ih => rw [hshape, ih]
  | member _ _ hshape hslot _ ih =>
    rw [hshape]
    refine Eq.trans (Shape.loopsAlong_cons ?_) ih
    exact hslot
  | @branch p q c qs path i _ hq hshape _ ih =>
    rw [hshape]
    refine Eq.trans (Shape.loopsAlong_cons ?_) ih
    exact Shape.getElem?_map_infer hq
  | @loop p q c qs path _ _ hshape _ ih =>
    rw [hshape, Shape.loopsAlong_cons (Shape.getElem?_children_loop p _), ih,
      Shape.isLoop_stepInto, Shape.kind_loop, Shape.origin_loop]
    rfl

/-- The path of a route is listed with the leaves of the shape. -/
theorem mem_leafPaths (h : Route p qs c path) : (c.id, path) ∈ (Shape.infer p).leafPaths := by
  induction h with
  | @capture p hk =>
    rw [Shape.infer_capture hk]
    exact List.mem_singleton_self (p.id, [])
  | group hk hc _ ih =>
    rw [Shape.infer_group hk hc]
    exact ih
  | only _ _ hshape _ ih =>
    rw [hshape]
    exact ih
  | @member p q c qs path ss i _ _ hshape hslot _ ih =>
    rw [hshape, Shape.leafPaths, Shape.mem_leafPathsAll]
    exact ⟨i, _, path, hslot, ih, by rw [Nat.zero_add]⟩
  | @branch p q c qs path i _ hq hshape _ ih =>
    rw [hshape, Shape.leafPaths, Shape.mem_leafPathsAll]
    exact ⟨i, _, path, Shape.getElem?_map_infer hq, ih, by rw [Nat.zero_add]⟩
  | @loop p q c qs path _ _ hshape _ ih =>
    rw [hshape, Shape.leafPaths_loop]
    exact List.mem_map.mpr ⟨(c.id, path), ih, rfl⟩

end Route

end Located

open Located

/-- **Every leaf of a shape is at the end of a route**, whose path has its numbers. -/
theorem Shape.exists_route_of_slotAt {p : Located} (h : p.WellFormed) {is : List Nat}
    {o : Option Located} (hleaf : (infer p).slotAt is = some (leaf o)) :
    ∃ qs c path, o = some c ∧ path.map Step.index = is ∧ Route p qs c path := by
  induction h generalizing is with
  | literal hk =>
    rw [infer_literal hk] at hleaf
    cases (slotAt_of_no_children rfl hleaf).2
  | @capture p q hk =>
    rw [infer_capture hk] at hleaf
    obtain ⟨rfl, heq⟩ := slotAt_of_no_children rfl hleaf
    exact ⟨[], p, [], leaf.inj heq, rfl, .capture hk⟩
  | @group p q hk hc _ ih =>
    rw [infer_group hk hc] at hleaf
    obtain ⟨qs, c, path, ho, his, hroute⟩ := ih hleaf
    exact ⟨qs, c, path, ho, his, .group hk hc hroute⟩
  | @concat p hk _ ih =>
    rcases sequence_cases p (p.children.map infer) with ⟨hseq, -⟩ | ⟨s, hs, hseq⟩ | hseq
    · rw [infer_concat hk, hseq] at hleaf
      cases (slotAt_of_no_children rfl hleaf).2
    · obtain ⟨q, hq, rfl⟩ := List.mem_map.mp hs
      have hshape : infer p = infer q := (infer_concat hk).trans hseq
      rw [hshape] at hleaf
      obtain ⟨qs, c, path, ho, his, hroute⟩ := ih q hq hleaf
      exact ⟨qs, c, path, ho, his, .only hk hq hshape hroute⟩
    · have hshape := (infer_concat hk).trans hseq
      rw [hshape] at hleaf
      cases is with
      | nil => cases hleaf
      | cons i is =>
        obtain ⟨s, hslot, hleaf⟩ := slotAt_cons hleaf
        obtain ⟨q, hq, rfl⟩ :=
          List.mem_map.mp (List.mem_of_mem_filter (List.mem_of_getElem? hslot))
        obtain ⟨qs, c, path, ho, rfl, hroute⟩ := ih q hq hleaf
        exact ⟨qs, c, .member i :: path, ho, rfl, .member hk hq hshape hslot hroute⟩
  | @alternation p hk _ _ ih =>
    have hshape := infer_alternation hk
    split at hshape
    · rw [hshape] at hleaf
      cases (slotAt_of_no_children rfl hleaf).2
    · rw [hshape] at hleaf
      cases is with
      | nil => cases hleaf
      | cons i is =>
        obtain ⟨s, hslot, hleaf⟩ := slotAt_cons hleaf
        obtain ⟨q, hq, rfl⟩ := Option.map_eq_some_iff.mp ((List.getElem?_map).symm.trans hslot)
        obtain ⟨qs, c, path, ho, rfl, hroute⟩ := ih q (List.mem_of_getElem? hq) hleaf
        exact ⟨qs, c, .branch i :: path, ho, rfl, .branch hk hq hshape hroute⟩
  | @quantifier p q hk hc _ _ ih =>
    have hshape := infer_quantifier hk hc
    split at hshape
    · rw [hshape] at hleaf
      cases (slotAt_of_no_children rfl hleaf).2
    · rw [hshape] at hleaf
      cases is with
      | nil =>
        have hkind : (loop p (infer q)).kind = .leaf := congrArg kind (Option.some.inj hleaf)
        rw [kind_loop, loopKind] at hkind
        split at hkind
        · cases hkind
        · cases hkind
      | cons i is =>
        obtain ⟨s, hslot, hleaf⟩ := slotAt_cons hleaf
        rw [children_loop, List.getElem?_singleton] at hslot
        split at hslot
        · rename_i hzero
          obtain rfl := Option.some.inj hslot
          obtain ⟨qs, c, path, ho, rfl, hroute⟩ := ih hleaf
          refine ⟨p :: qs, c, stepInto p :: path, ho, ?_, .loop hk hc hshape hroute⟩
          rw [List.map_cons, index_stepInto, hzero]
        · cases hslot

end CaptureTree
