import CaptureTree.Pattern.Located
import Mathlib.Data.List.Nodup

/-!
# Positions inside a located pattern

A located pattern is read by position: records name the position of a node, and
`Located.find` goes back from the position to the node.  That only works because
no two nodes share a position, and this module says so and draws the
consequences.

* `Located.Distinct`: no two nodes share a position.  It holds of every located
  pattern (`Pattern.distinct_locate`) and of every part of one
  (`Distinct.of_mem_subtrees`).
* `Distinct.eq_of_id_eq` and `Distinct.find_id`: a position determines its node.
* `Distinct.notMem_ids_of_ne`: parts of a pattern that stand side by side have no
  position in common.

In the other direction `Located.erase` takes the positions off again, and
`Pattern.erase_locateFrom` says that nothing else was put on.
-/

namespace CaptureTree

namespace Located

/-! ## Taking the positions off -/

/-- The pattern without the positions of its nodes. -/
def erase (p : Located) : Pattern :=
  p.fold fun q parts => .node q.label.toNode parts

theorem erase_eq (p : Located) : p.erase = .node p.label.toNode (p.children.map erase) :=
  Tree.fold_eq _ p

theorem kind_erase (p : Located) : p.erase.label.kind = p.kind := by
  rw [erase_eq]
  rfl

theorem name_erase (p : Located) : p.erase.label.name = p.name := by
  rw [erase_eq]
  rfl

theorem bounds_erase (p : Located) : p.erase.label.bounds = p.bounds := by
  rw [erase_eq]
  rfl

theorem children_erase (p : Located) : p.erase.children = p.children.map erase := by
  rw [erase_eq, Tree.children_node]

end Located

/-- **Locating a pattern only adds positions.** -/
theorem Pattern.erase_locateFrom (k : Nat) (p : Pattern) : (p.locateFrom k).erase = p := by
  induction p using Tree.induction generalizing k with
  | node a ts ih =>
    have hall : ∀ us : List Pattern, (∀ u ∈ us, u ∈ ts) → ∀ k,
        (Tree.numberedAll (fun id node => ({ node with id } : Site)) k us).map Located.erase =
          us := by
      intro us hus
      induction us with
      | nil => intro k; rfl
      | cons u us ihus =>
        intro k
        have hu := ih u (hus u List.mem_cons_self) k
        have hrest := ihus (fun v hv => hus v (List.mem_cons_of_mem u hv)) (k + u.size)
        rw [Tree.numberedAll, List.map_cons, hrest]
        exact congrArg (· :: us) hu
    rw [Located.erase_eq]
    exact congrArg (Tree.node a) (hall ts (fun _ h => h) (k + 1))

theorem Pattern.erase_locate (p : Pattern) : p.locate.erase = p :=
  p.erase_locateFrom 0

namespace Located

/-! ## The positions of a node and of what is inside it -/

theorem ids_eq (p : Located) : p.ids = p.id :: p.children.flatMap ids := by
  rw [ids, Tree.subtrees_eq, List.map_cons, List.map_flatMap]
  rfl

theorem mem_ids {p : Located} {n : NodeId} : n ∈ p.ids ↔ ∃ a ∈ p.subtrees, Located.id a = n :=
  List.mem_map

theorem id_mem_ids {a p : Located} (ha : a ∈ p.subtrees) : a.id ∈ p.ids :=
  mem_ids.mpr ⟨a, ha, rfl⟩

theorem id_mem_ids_self (p : Located) : p.id ∈ p.ids :=
  id_mem_ids (Tree.mem_subtrees_self p)

/-- The positions of a part are positions of the whole. -/
theorem ids_subset {a p : Located} (ha : a ∈ p.subtrees) : a.ids ⊆ p.ids := by
  intro n hn
  obtain ⟨b, hb, rfl⟩ := mem_ids.mp hn
  exact id_mem_ids (Tree.mem_subtrees_trans hb ha)

/-- The only child of a node is a child of it. -/
theorem mem_children_of_eq {p q : Located} (h : p.children = [q]) : q ∈ p.children := by
  rw [h]
  exact List.mem_singleton_self q

/-- The body of a node with one child is that child. -/
theorem body_eq_some {p q : Located} (h : p.children = [q]) : p.body = some q := by
  rw [body, h, List.head?_cons]

theorem eq_of_mem_body {p q b : Located} (h : p.children = [q]) (hb : b ∈ p.body) : b = q := by
  rw [body_eq_some h] at hb
  exact (Option.some.inj hb).symm

theorem mem_subtrees_of_mem_children {p q : Located} (hq : q ∈ p.children) : q ∈ p.subtrees :=
  Tree.mem_subtrees_of_mem_children hq (Tree.mem_subtrees_self q)

theorem ids_subset_of_mem_children {p q : Located} (hq : q ∈ p.children) : q.ids ⊆ p.ids :=
  ids_subset (mem_subtrees_of_mem_children hq)

/-- A part is the whole, or a part of one of the children. -/
theorem mem_subtrees {a p : Located} :
    a ∈ p.subtrees ↔ a = p ∨ ∃ q ∈ p.children, a ∈ q.subtrees := by
  rw [Tree.subtrees_eq, List.mem_cons, List.mem_flatMap]

/-- A pattern with a capture in a child has a capture. -/
theorem hasCapture_of_mem_children {p q : Located} (hq : q ∈ p.children)
    (h : q.hasCapture = true) : p.hasCapture = true := by
  obtain ⟨c, hc, hcapture⟩ := List.any_eq_true.mp h
  exact List.any_eq_true.mpr ⟨c, Tree.mem_subtrees_of_mem_children hq hc, hcapture⟩

theorem hasCapture_eq_false_of_mem_children {p q : Located} (hq : q ∈ p.children)
    (h : p.hasCapture = false) : q.hasCapture = false := by
  rw [Bool.eq_false_iff] at h ⊢
  exact fun hcapture => h (hasCapture_of_mem_children hq hcapture)

/-- A capture in a node that is no capture itself is in a child. -/
theorem exists_child_hasCapture {p : Located} (hk : p.kind ≠ .capture)
    (h : p.hasCapture = true) : ∃ q ∈ p.children, hasCapture q = true := by
  obtain ⟨c, hc, hcapture⟩ := List.any_eq_true.mp h
  rcases mem_subtrees.mp hc with rfl | ⟨q, hq, hc⟩
  · exact absurd (beq_iff_eq.mp hcapture) hk
  · exact ⟨q, hq, List.any_eq_true.mpr ⟨c, hc, hcapture⟩⟩

/-- There is no capture in a literal. -/
theorem hasCapture_literal {p : Located} (hk : p.kind = .literal) (hc : p.children = []) :
    p.hasCapture = false := by
  rw [hasCapture, Tree.subtrees_eq, hc, List.flatMap_nil, List.any_cons, List.any_nil,
    Bool.or_false, isCapture, hk]
  rfl

/-- Around one child, only a capture adds a capture. -/
theorem hasCapture_body {p q : Located} (hk : p.kind ≠ .capture) (hq : p.children = [q]) :
    p.hasCapture = q.hasCapture := by
  have hroot : p.isCapture = false := beq_false_of_ne hk
  rw [hasCapture, Tree.subtrees_eq, List.any_cons, hroot, Bool.false_or, hq,
    List.flatMap_singleton]
  rfl

/-- What is found at a position is a part with that position. -/
theorem mem_subtrees_of_find {p a : Located} {n : NodeId} (h : p.find n = some a) :
    a ∈ p.subtrees ∧ a.id = n := by
  refine ⟨List.mem_of_find?_eq_some h, ?_⟩
  have hid := List.find?_some h
  exact beq_iff_eq.mp hid

/-! ## No position is used twice -/

/-- No two nodes share a position. -/
def Distinct (p : Located) : Prop := p.ids.Nodup

namespace Distinct

variable {p q q' a b : Located}

theorem nodup_cons (h : p.Distinct) : (p.id :: p.children.flatMap ids).Nodup := by
  rw [← ids_eq]
  exact h

/-- The root's position is used nowhere else. -/
theorem id_notMem_ids (h : p.Distinct) (hq : q ∈ p.children) : p.id ∉ q.ids := by
  intro hmem
  exact (List.nodup_cons.mp h.nodup_cons).1 (List.mem_flatMap.mpr ⟨q, hq, hmem⟩)

/-- The root's position is not used in a part other than the whole. -/
theorem id_notMem_ids_of_ne (h : p.Distinct) (ha : a ∈ p.subtrees) (hne : p ≠ a) :
    p.id ∉ a.ids := by
  rcases mem_subtrees.mp ha with rfl | ⟨q, hq, ha⟩
  · exact absurd rfl hne
  · exact fun hmem => h.id_notMem_ids hq (ids_subset ha hmem)

theorem child (h : p.Distinct) (hq : q ∈ p.children) : q.Distinct :=
  (List.nodup_flatMap.mp (List.nodup_cons.mp h.nodup_cons).2).1 q hq

theorem of_mem_subtrees (h : p.Distinct) (ha : a ∈ p.subtrees) : a.Distinct := by
  induction p using Located.induction with
  | node p ih =>
    rcases mem_subtrees.mp ha with rfl | ⟨q, hq, ha⟩
    · exact h
    · exact ih q hq (h.child hq) ha

/-- The children have their positions for themselves, in whatever order two of
them stand. -/
theorem pairwise_children (h : p.Distinct) :
    p.children.Pairwise fun q q' : Located => List.Disjoint q.ids q'.ids :=
  (List.nodup_flatMap.mp (List.nodup_cons.mp h.nodup_cons).2).2

/-- **Parts that stand side by side have no position in common.** -/
theorem disjoint_of_ne (h : p.Distinct) {i j : Nat} (hi : p.children[i]? = some q)
    (hj : p.children[j]? = some q') (hij : i ≠ j) : List.Disjoint q.ids q'.ids := by
  obtain ⟨hilt, rfl⟩ := List.getElem?_eq_some_iff.mp hi
  obtain ⟨hjlt, rfl⟩ := List.getElem?_eq_some_iff.mp hj
  rcases Nat.lt_or_gt_of_ne hij with hlt | hgt
  · exact List.pairwise_iff_getElem.mp (pairwise_children h) i j hilt hjlt hlt
  · intro n hn hn'
    exact List.pairwise_iff_getElem.mp (pairwise_children h) j i hjlt hilt hgt hn' hn

/-- A child is determined by any of the positions inside it. -/
theorem child_eq (h : p.Distinct) (hq : q ∈ p.children) (hq' : q' ∈ p.children) {n : NodeId}
    (hn : n ∈ q.ids) (hn' : n ∈ q'.ids) : q = q' := by
  obtain ⟨i, hi⟩ := List.mem_iff_getElem?.mp hq
  obtain ⟨j, hj⟩ := List.mem_iff_getElem?.mp hq'
  by_cases hij : i = j
  · subst hij
    exact Option.some.inj (hi.symm.trans hj)
  · exact absurd hn' (h.disjoint_of_ne hi hj hij hn)

/-- **A position determines its node.** -/
theorem eq_of_id_eq (h : p.Distinct) (ha : a ∈ p.subtrees) (hb : b ∈ p.subtrees)
    (hid : a.id = b.id) : a = b :=
  List.inj_on_of_nodup_map h ha hb hid

/-- Looking up the position of a part finds the part. -/
theorem find_id (h : p.Distinct) (ha : a ∈ p.subtrees) : p.find a.id = some a := by
  have hsome : (p.find a.id).isSome := by
    refine List.find?_isSome.mpr ⟨a, ha, ?_⟩
    exact beq_self_eq_true a.id
  obtain ⟨b, hb⟩ := Option.isSome_iff_exists.mp hsome
  obtain ⟨hmem, hid⟩ := mem_subtrees_of_find hb
  rw [hb, h.eq_of_id_eq hmem ha hid]

theorem find_self (h : p.Distinct) : p.find p.id = some p :=
  h.find_id (Tree.mem_subtrees_self p)

/-- A lookup in a part and one in the whole find the same. -/
theorem find_mono (h : p.Distinct) (hq : q ∈ p.subtrees) {n : NodeId} (hn : q.find n = some a) :
    p.find n = some a := by
  obtain ⟨hmem, rfl⟩ := mem_subtrees_of_find hn
  exact h.find_id (Tree.mem_subtrees_trans hmem hq)

end Distinct

end Located

/-- **Every located pattern has distinct positions.** -/
theorem Pattern.distinct_locateFrom (k : Nat) (p : Pattern) : (p.locateFrom k).Distinct := by
  rw [Located.Distinct, Pattern.ids_locateFrom]
  exact List.nodup_range'

theorem Pattern.distinct_locate (p : Pattern) : p.locate.Distinct :=
  p.distinct_locateFrom 0

end CaptureTree
