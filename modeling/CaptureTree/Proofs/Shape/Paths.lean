import CaptureTree.Proofs.Nesting
import CaptureTree.Proofs.WellFormed

/-!
# From a pattern to the leaves of its shape

A capture that no other capture hides has a leaf in the shape of the pattern.  The
way to it goes down the pattern and down the shape at the same time, but not step by
step together: groups leave no trace in the shape, a sequence with a single capturing
part is that part, and every other node is one step.  `Located.Route` is this way,
with the quantifiers that it passes.

`Shape.exists_route` says that every path that `Shape.leafPaths` lists is the path of
such a route, and `Located.Holds.route` names its quantifiers: they are those that
the table of captures lists for the capture.
-/

namespace CaptureTree

namespace Shape

variable {p q : Located}

/-! ## The shape of a node, by its kind -/

theorem infer_literal (hk : p.kind = .literal) : infer p = empty := by
  rw [infer_eq, ofNode, hk]

theorem infer_capture (hk : p.kind = .capture) : infer p = leaf (some p) := by
  rw [infer_eq, ofNode, hk]

theorem infer_group (hk : p.kind = .group) (hc : p.children = [q]) : infer p = infer q := by
  rw [infer_eq, ofNode, hk, hc]
  rfl

theorem infer_concat (hk : p.kind = .concat) : infer p = sequence p (p.children.map infer) := by
  rw [infer_eq, ofNode, hk]

theorem infer_alternation (hk : p.kind = .alternation) :
    infer p =
      if (p.children.map infer).all isEmpty then empty else sum p (p.children.map infer) := by
  rw [infer_eq, ofNode, hk]

theorem infer_quantifier (hk : p.kind = .quantifier) (hc : p.children = [q]) :
    infer p = if (infer q).isEmpty then empty else loop p (infer q) := by
  rw [infer_eq, ofNode, hk, hc]
  rfl

/-- The slot of a child of an alternation stands where the child stands. -/
theorem getElem?_map_infer {i : Nat} (hq : p.children[i]? = some q) :
    (p.children.map infer)[i]? = some (infer q) := by
  rw [List.getElem?_map, hq, Option.map_some]

/-! ## Sequences -/

theorem isEmpty_iff {s : Shape} : s.isEmpty = true ↔ s = empty := by
  cases s <;> simp [isEmpty]

/-- A sequence is made of the slots that are not empty: of none, of one, or of
several. -/
theorem sequence_kept (p : Located) (parts : List Shape) :
    (parts.filter (!·.isEmpty) = [] ∧ sequence p parts = empty) ∨
      (∃ s, parts.filter (!·.isEmpty) = [s] ∧ sequence p parts = s) ∨
      sequence p parts = product p (parts.filter (!·.isEmpty)) := by
  rw [sequence]
  split
  · rename_i hkept
    exact .inl ⟨hkept, rfl⟩
  · rename_i s hkept
    exact .inr (.inl ⟨s, hkept, rfl⟩)
  · exact .inr (.inr rfl)

/-- The three forms of a sequence: nothing is captured, one part is, or several
are. -/
theorem sequence_cases (p : Located) (parts : List Shape) :
    (sequence p parts = empty ∧ ∀ s ∈ parts, s = empty) ∨
      (∃ s ∈ parts, sequence p parts = s) ∨
      sequence p parts = product p (parts.filter (!·.isEmpty)) := by
  rcases sequence_kept p parts with ⟨hkept, hseq⟩ | ⟨s, hkept, hseq⟩ | hseq
  · left
    refine ⟨hseq, fun s hs => ?_⟩
    have hempty := List.filter_eq_nil_iff.mp hkept s hs
    simpa [isEmpty_iff] using hempty
  · right
    left
    have hs : s ∈ parts.filter (!·.isEmpty) := by
      rw [hkept]
      exact List.mem_singleton_self s
    exact ⟨s, List.mem_of_mem_filter hs, hseq⟩
  · exact .inr (.inr hseq)

/-! ## Slots of quantifiers -/

/-- The step from the slot of a quantifier to what is inside it. -/
def stepInto (q : Located) : Step :=
  if q.bounds.isOptional then .inner else .each

/-- The slot of a quantifier is called the same whatever is inside it. -/
theorem title_loop (q : Located) (s s' : Shape) : (loop q s).title = (loop q s').title := by
  rw [loop, loop]
  split
  · rfl
  · rfl

theorem leafPaths_loop (q : Located) (s : Shape) :
    (loop q s).leafPaths = s.leafPaths.map fun e => (e.1, stepInto q :: e.2) := by
  rw [loop, stepInto]
  split
  · rfl
  · rfl

/-! ## Paths into several slots -/

theorem mem_leafPathsAll {step : Nat → Step} {i : Nat} {ss : List Shape} {n : NodeId}
    {path : SlotPath} :
    (n, path) ∈ leafPathsAll step i ss ↔
      ∃ j s rest, ss[j]? = some s ∧ (n, rest) ∈ s.leafPaths ∧ path = step (i + j) :: rest := by
  induction ss generalizing i with
  | nil => simp [leafPathsAll]
  | cons s ss ih =>
    rw [leafPathsAll, List.mem_append, List.mem_map, ih]
    constructor
    · rintro (⟨⟨m, rest⟩, hmem, heq⟩ | ⟨j, s', rest, hj, hmem, rfl⟩)
      · obtain ⟨rfl, rfl⟩ := Prod.mk.inj heq
        exact ⟨0, s, rest, rfl, hmem, rfl⟩
      · exact ⟨j + 1, s', rest, hj, hmem, by rw [Nat.add_right_comm, Nat.add_assoc]⟩
    · rintro ⟨j, s', rest, hj, hmem, rfl⟩
      cases j with
      | zero =>
        left
        rw [List.getElem?_cons_zero, Option.some.injEq] at hj
        exact ⟨(n, rest), hj ▸ hmem, rfl⟩
      | succ j =>
        right
        exact ⟨j, s', rest, hj, hmem, by rw [Nat.add_right_comm, Nat.add_assoc]⟩

end Shape

/-! ## Routes -/

namespace Located

/-- **The way from a pattern to a visible capture**: the quantifiers on the way, the
capture, and the path to its leaf in the shape. -/
inductive Route : Located → List Located → Located → SlotPath → Prop
  | capture {p : Located} (kind : p.kind = .capture) : Route p [] p []
  | group {p q c : Located} {qs : List Located} {path : SlotPath} (kind : p.kind = .group)
      (children : p.children = [q]) (inside : Route q qs c path) : Route p qs c path
  | only {p q c : Located} {qs : List Located} {path : SlotPath} (kind : p.kind = .concat)
      (child : q ∈ p.children) (shape : Shape.infer p = Shape.infer q)
      (inside : Route q qs c path) : Route p qs c path
  | member {p q c : Located} {qs : List Located} {path : SlotPath} {ss : List Shape} {i : Nat}
      (kind : p.kind = .concat) (child : q ∈ p.children) (shape : Shape.infer p = .product p ss)
      (slot : ss[i]? = some (Shape.infer q)) (inside : Route q qs c path) :
      Route p qs c (.member i :: path)
  | branch {p q c : Located} {qs : List Located} {path : SlotPath} {i : Nat}
      (kind : p.kind = .alternation) (child : p.children[i]? = some q)
      (shape : Shape.infer p = .sum p (p.children.map Shape.infer)) (inside : Route q qs c path) :
      Route p qs c (.branch i :: path)
  | loop {p q c : Located} {qs : List Located} {path : SlotPath} (kind : p.kind = .quantifier)
      (children : p.children = [q]) (shape : Shape.infer p = .loop p (Shape.infer q))
      (inside : Route q qs c path) : Route p (p :: qs) c (Shape.stepInto p :: path)

/-- A pattern holds the capture at the end of a route. -/
theorem Route.holds {p c : Located} {qs : List Located} {path : SlotPath}
    (h : Route p qs c path) : p.Holds qs c := by
  induction h with
  | capture hk => exact .here (beq_iff_eq.mpr hk)
  | group hk hc _ ih =>
    exact .through (by rw [hk]; decide) (mem_children_of_eq hc) ih
  | only hk hq _ _ ih | member hk hq _ _ _ ih => exact .through (by rw [hk]; decide) hq ih
  | branch hk hq _ _ ih => exact .through (by rw [hk]; decide) (List.mem_of_getElem? hq) ih
  | loop hk hc _ _ ih =>
    exact .around hk (mem_children_of_eq hc) ih

end Located

open Located

/-- **Every leaf of a shape is the end of a route.** -/
theorem Shape.exists_route {p : Located} (h : p.WellFormed) {n : NodeId} {path : SlotPath}
    (hpath : (n, path) ∈ (infer p).leafPaths) : ∃ qs c, Located.id c = n ∧ Route p qs c path := by
  induction h generalizing path with
  | literal hk =>
    rw [infer_literal hk] at hpath
    exact absurd hpath List.not_mem_nil
  | @capture p q hk =>
    rw [infer_capture hk, leafPaths, List.mem_singleton] at hpath
    obtain ⟨rfl, rfl⟩ := Prod.mk.inj hpath
    exact ⟨[], p, rfl, .capture hk⟩
  | @group p q hk hc _ ih =>
    rw [infer_group hk hc] at hpath
    obtain ⟨qs, c, hid, hroute⟩ := ih hpath
    exact ⟨qs, c, hid, .group hk hc hroute⟩
  | @concat p hk _ ih =>
    rcases sequence_cases p (p.children.map infer) with ⟨hseq, -⟩ | ⟨s, hs, hseq⟩ | hseq
    · rw [infer_concat hk, hseq] at hpath
      exact absurd hpath List.not_mem_nil
    · obtain ⟨q, hq, rfl⟩ := List.mem_map.mp hs
      have hshape : infer p = infer q := (infer_concat hk).trans hseq
      rw [hshape] at hpath
      obtain ⟨qs, c, hid, hroute⟩ := ih q hq hpath
      exact ⟨qs, c, hid, .only hk hq hshape hroute⟩
    · have hshape := (infer_concat hk).trans hseq
      rw [hshape, leafPaths, mem_leafPathsAll] at hpath
      obtain ⟨i, s, rest, hslot, hmem, rfl⟩ := hpath
      obtain ⟨q, hq, rfl⟩ := List.mem_map.mp (List.mem_of_mem_filter (List.mem_of_getElem? hslot))
      obtain ⟨qs, c, hid, hroute⟩ := ih q hq hmem
      refine ⟨qs, c, hid, ?_⟩
      rw [Nat.zero_add]
      exact .member hk hq hshape hslot hroute
  | @alternation p hk _ _ ih =>
    have hshape := infer_alternation hk
    split at hshape
    · rw [hshape] at hpath
      exact absurd hpath List.not_mem_nil
    · rw [hshape, leafPaths, mem_leafPathsAll] at hpath
      obtain ⟨i, s, rest, hslot, hmem, rfl⟩ := hpath
      rw [List.getElem?_map, Option.map_eq_some_iff] at hslot
      obtain ⟨q, hq, rfl⟩ := hslot
      obtain ⟨qs, c, hid, hroute⟩ := ih q (List.mem_of_getElem? hq) hmem
      refine ⟨qs, c, hid, ?_⟩
      rw [Nat.zero_add]
      exact .branch hk hq hshape hroute
  | @quantifier p q hk hc _ _ ih =>
    have hshape := infer_quantifier hk hc
    split at hshape
    · rw [hshape] at hpath
      exact absurd hpath List.not_mem_nil
    · rw [hshape, leafPaths_loop, List.mem_map] at hpath
      obtain ⟨⟨m, rest⟩, hmem, heq⟩ := hpath
      obtain ⟨rfl, rfl⟩ := Prod.mk.inj heq
      obtain ⟨qs, c, hid, hroute⟩ := ih hmem
      exact ⟨p :: qs, c, hid, .loop hk hc hshape hroute⟩

namespace Located

/-- **A capture with a leaf is at the end of a route**, which passes the quantifiers
around it. -/
theorem Holds.route {p c : Located} {qs : List Located} {path : SlotPath} (h : p.Holds qs c)
    (hwell : p.WellFormed) (hd : p.Distinct) (hpath : (c.id, path) ∈ (Shape.infer p).leafPaths) :
    Route p qs c path := by
  obtain ⟨qs', c', hid, hroute⟩ := Shape.exists_route hwell hpath
  have hholds := hroute.holds
  obtain rfl := hd.eq_of_id_eq hholds.capture_mem_subtrees h.capture_mem_subtrees hid
  rwa [h.unique hholds hd]

/-- A shape that is not empty is the shape of a pattern with captures. -/
theorem WellFormed.hasCapture_of_infer {p : Located} (h : p.WellFormed)
    (hshape : Shape.infer p ≠ .empty) : p.hasCapture = true := by
  induction h with
  | literal hk => exact absurd (Shape.infer_literal hk) hshape
  | @capture p q hk =>
    exact List.any_eq_true.mpr ⟨p, Tree.mem_subtrees_self p, beq_iff_eq.mpr hk⟩
  | @group p q hk hc _ ih =>
    rw [Shape.infer_group hk hc] at hshape
    exact hasCapture_of_mem_children (mem_children_of_eq hc) (ih hshape)
  | @concat p hk _ ih =>
    by_contra hnone
    refine hshape ?_
    have hall : ∀ s ∈ p.children.map Shape.infer, s = .empty := by
      intro s hs
      obtain ⟨q, hq, rfl⟩ := List.mem_map.mp hs
      by_contra hs
      exact hnone (hasCapture_of_mem_children hq (ih q hq hs))
    rw [Shape.infer_concat hk, Shape.sequence, List.filter_eq_nil_iff.mpr]
    intro s hs
    rw [hall s hs]
    decide
  | @alternation p hk _ _ ih =>
    by_contra hnone
    refine hshape ?_
    rw [Shape.infer_alternation hk, if_pos]
    refine List.all_eq_true.mpr fun s hs => ?_
    obtain ⟨q, hq, rfl⟩ := List.mem_map.mp hs
    by_contra hs
    refine hnone (hasCapture_of_mem_children hq (ih q hq fun hempty => ?_))
    exact hs (Shape.isEmpty_iff.mpr hempty)
  | @quantifier p q hk hc _ _ ih =>
    refine hasCapture_of_mem_children (mem_children_of_eq hc) (ih fun hempty => hshape ?_)
    rw [Shape.infer_quantifier hk hc, if_pos (Shape.isEmpty_iff.mpr hempty)]

/-- A pattern with captures has a shape that is not empty. -/
theorem WellFormed.infer_ne_empty {p : Located} (h : p.WellFormed) (hcap : p.hasCapture = true) :
    Shape.infer p ≠ .empty := by
  induction h with
  | literal hk hc =>
    rw [hasCapture_literal hk hc] at hcap
    cases hcap
  | capture hk =>
    rw [Shape.infer_capture hk]
    exact Shape.noConfusion
  | @group p q hk hc _ ih =>
    rw [Shape.infer_group hk hc]
    exact ih ((hasCapture_body (by rw [hk]; decide) hc).symm.trans hcap)
  | @concat p hk _ ih =>
    obtain ⟨q, hq, hcapq⟩ := exists_child_hasCapture (by rw [hk]; decide) hcap
    have hkept : Shape.infer q ∈ (p.children.map Shape.infer).filter (!·.isEmpty) := by
      refine List.mem_filter.mpr ⟨List.mem_map_of_mem hq, ?_⟩
      rw [Bool.not_eq_true', Bool.eq_false_iff]
      exact fun hempty => ih q hq hcapq (Shape.isEmpty_iff.mp hempty)
    rw [Shape.infer_concat hk]
    rcases Shape.sequence_kept p (p.children.map Shape.infer) with
      ⟨hnone, -⟩ | ⟨s, hone, hseq⟩ | hseq
    · rw [hnone] at hkept
      exact absurd hkept List.not_mem_nil
    · rw [hone, List.mem_singleton] at hkept
      rw [hseq, ← hkept]
      exact ih q hq hcapq
    · rw [hseq]
      exact Shape.noConfusion
  | @alternation p hk _ _ ih =>
    obtain ⟨q, hq, hcapq⟩ := exists_child_hasCapture (by rw [hk]; decide) hcap
    rw [Shape.infer_alternation hk, if_neg]
    · exact Shape.noConfusion
    · intro hall
      have hempty := List.all_eq_true.mp hall _ (List.mem_map_of_mem hq)
      exact ih q hq hcapq (Shape.isEmpty_iff.mp hempty)
  | @quantifier p q hk hc _ _ ih =>
    have hcapq := (hasCapture_body (by rw [hk]; decide) hc).symm.trans hcap
    rw [Shape.infer_quantifier hk hc, if_neg fun hempty => ih hcapq (Shape.isEmpty_iff.mp hempty),
      Shape.loop]
    split
    · exact Shape.noConfusion
    · exact Shape.noConfusion

/-- **The shape of a pattern is empty exactly if it has no captures.** -/
theorem WellFormed.isEmpty_infer {p : Located} (h : p.WellFormed) :
    (Shape.infer p).isEmpty = !p.hasCapture := by
  cases hcap : p.hasCapture with
  | true =>
    rw [Bool.not_true, Bool.eq_false_iff]
    exact fun hempty => h.infer_ne_empty hcap (Shape.isEmpty_iff.mp hempty)
  | false =>
    rw [Bool.not_false, Shape.isEmpty_iff]
    by_contra hne
    rw [h.hasCapture_of_infer hne] at hcap
    cases hcap

theorem WellFormed.infer_eq_empty {p : Located} (h : p.WellFormed) (hnone : p.hasCapture = false) :
    Shape.infer p = .empty := by
  rw [← Shape.isEmpty_iff, h.isEmpty_infer, hnone, Bool.not_false]

/-- The slots that a sequence keeps are those of the parts with captures. -/
theorem WellFormed.filter_map_infer {p : Located} (h : p.WellFormed) :
    (p.children.map Shape.infer).filter (!·.isEmpty) =
      (p.children.filter hasCapture).map Shape.infer := by
  rw [List.filter_map]
  refine congrArg _ (List.filter_congr fun q hq => ?_)
  rw [Function.comp_apply, (h.child hq).isEmpty_infer, Bool.not_not]

end Located

end CaptureTree
