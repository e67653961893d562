import CaptureTree.Proofs.Nesting

/-!
# The nodes around a node

`Located.Holds` builds the list of quantifiers around a capture on the way down to it.
Here the same is said without a walk: the ancestors of a node are the parts of the pattern
that have it inside one of their children (`Located.ancestors`).  The quantifiers of
`Holds` are the quantifiers among them, in the same order (`Holds.quantifiersAround_eq`), and a
node is hidden if there is a capture among them (`Located.isHidden`).

Ancestors are found by going down the one child that has the node inside it
(`Distinct.ancestors_of_mem_child`), and in two stages for a node in a part
(`Distinct.ancestors_of_mem_subtrees`).
-/

namespace CaptureTree

namespace Located

variable {p q a : Located} {n : NodeId}

/-- The nodes around the node at position `n`, the outermost first. -/
def ancestors (p : Located) (n : NodeId) : List Located :=
  p.subtrees.filter fun a => a.children.any fun q : Located => q.ids.contains n

/-- The quantifiers around the node at position `n`, the outermost first. -/
def quantifiersAround (p : Located) (n : NodeId) : List Located :=
  (p.ancestors n).filter (·.kind == .quantifier)

/-- Is the node at position `n` inside a capture? -/
def isHidden (p : Located) (n : NodeId) : Bool :=
  (p.ancestors n).any isCapture

theorem mem_ancestors :
    a ∈ p.ancestors n ↔ a ∈ p.subtrees ∧ ∃ q ∈ a.children, n ∈ Located.ids q := by
  simp only [ancestors, List.mem_filter, List.any_eq_true, List.contains_iff_mem]

/-- An ancestor has the node inside it. -/
theorem mem_ids_of_mem_ancestors (h : a ∈ p.ancestors n) : n ∈ a.ids := by
  obtain ⟨-, q, hq, hn⟩ := mem_ancestors.mp h
  exact ids_subset_of_mem_children hq hn

/-- Nothing is around a node that is elsewhere. -/
theorem ancestors_eq_nil (h : n ∉ p.ids) : p.ancestors n = [] := by
  refine List.eq_nil_iff_forall_not_mem.mpr fun a ha => h ?_
  exact ids_subset (mem_ancestors.mp ha).1 (mem_ids_of_mem_ancestors ha)

theorem ancestors_eq (p : Located) (n : NodeId) :
    p.ancestors n = (if p.children.any (fun q : Located => q.ids.contains n) then [p] else []) ++
      p.children.flatMap fun q => ancestors q n := by
  rw [ancestors, Tree.subtrees_eq, List.filter_cons, List.filter_flatMap]
  split
  · rfl
  · rfl

/-- Among parts that stand side by side, all ancestors are in the one with the node. -/
theorem flatMap_ancestors {ps : List Located}
    (h : ps.Pairwise fun q q' : Located => List.Disjoint q.ids q'.ids) (hq : q ∈ ps)
    (hn : n ∈ q.ids) : (ps.flatMap fun q => ancestors q n) = q.ancestors n := by
  induction h with
  | nil => exact absurd hq List.not_mem_nil
  | @cons q' ps hdisjoint _ ih =>
    rw [List.flatMap_cons]
    rcases List.mem_cons.mp hq with rfl | hq
    · have hrest : (ps.flatMap fun q => ancestors q n) = [] :=
        List.flatMap_eq_nil_iff.mpr fun r hr => ancestors_eq_nil (hdisjoint r hr hn)
      rw [hrest, List.append_nil]
    · rw [ancestors_eq_nil fun hn' => hdisjoint q hq hn' hn, List.nil_append, ih hq]

namespace Distinct

/-- Nothing is around the root. -/
theorem ancestors_self (h : p.Distinct) : p.ancestors p.id = [] := by
  refine List.eq_nil_iff_forall_not_mem.mpr fun a ha => ?_
  obtain ⟨ha, q, hq, hn⟩ := mem_ancestors.mp ha
  rcases mem_subtrees.mp ha with rfl | ⟨r, hr, ha⟩
  · exact h.id_notMem_ids hq hn
  · exact h.id_notMem_ids hr (ids_subset ha (ids_subset_of_mem_children hq hn))

/-- Around a node below the root there are the root, and the nodes around it in its
child. -/
theorem ancestors_of_mem_child (h : p.Distinct) (hq : q ∈ p.children) (hn : n ∈ q.ids) :
    p.ancestors n = p :: q.ancestors n := by
  have hroot : p.children.any (fun q : Located => q.ids.contains n) = true :=
    List.any_eq_true.mpr ⟨q, hq, List.contains_iff_mem.mpr hn⟩
  rw [ancestors_eq, if_pos hroot, flatMap_ancestors h.pairwise_children hq hn]
  rfl

/-- **Around a node in a part** there are the nodes around the part, and those around the
node in it. -/
theorem ancestors_of_mem_subtrees (h : p.Distinct) (ha : a ∈ p.subtrees) (hn : n ∈ a.ids) :
    p.ancestors n = p.ancestors a.id ++ a.ancestors n := by
  induction p using Located.induction with
  | node p ih =>
    rcases mem_subtrees.mp ha with rfl | ⟨q, hq, ha⟩
    · rw [h.ancestors_self, List.nil_append]
    · rw [h.ancestors_of_mem_child hq (ids_subset ha hn),
        h.ancestors_of_mem_child hq (id_mem_ids ha), ih q hq (h.child hq) ha, List.cons_append]

end Distinct

/-! ## Quantifiers and captures among them -/

/-- Around a node below the root there is the root itself if it is a quantifier. -/
theorem Distinct.quantifiersAround_of_mem_child (h : p.Distinct) (hq : q ∈ p.children)
    (hn : n ∈ q.ids) :
    p.quantifiersAround n =
      if p.kind = .quantifier then p :: q.quantifiersAround n else q.quantifiersAround n := by
  simp only [quantifiersAround, h.ancestors_of_mem_child hq hn, List.filter_cons, beq_iff_eq]

/-- Around a child there are the quantifiers around the node, and the node itself if it is one. -/
theorem Distinct.quantifiersAround_child (h : p.Distinct) (ha : a ∈ p.subtrees)
    (hq : q ∈ a.children) :
    p.quantifiersAround q.id =
      p.quantifiersAround a.id ++ if a.kind = .quantifier then [a] else [] := by
  have hd : a.Distinct := h.of_mem_subtrees ha
  have hinside : a.ancestors q.id = [a] := by
    rw [hd.ancestors_of_mem_child hq (id_mem_ids_self q), (hd.child hq).ancestors_self]
  rw [quantifiersAround, h.ancestors_of_mem_subtrees ha
    (id_mem_ids (mem_subtrees_of_mem_children hq)), List.filter_append, hinside,
    List.filter_cons, List.filter_nil]
  simp only [beq_iff_eq]
  rfl

theorem Distinct.quantifiersAround_self (h : p.Distinct) : p.quantifiersAround p.id = [] := by
  rw [quantifiersAround, h.ancestors_self, List.filter_nil]

/-- **The quantifiers on the way down to a capture** are those around it. -/
theorem Holds.quantifiersAround_eq {c : Located} {qs : List Located} (h : p.Holds qs c)
    (hd : p.Distinct) : p.quantifiersAround c.id = qs := by
  induction h with
  | here => exact hd.quantifiersAround_self
  | through hk hq hinside ih =>
    rw [hd.quantifiersAround_of_mem_child hq hinside.id_mem_ids, if_neg hk, ih (hd.child hq)]
  | around hk hq hinside ih =>
    rw [hd.quantifiersAround_of_mem_child hq hinside.id_mem_ids, if_pos hk, ih (hd.child hq)]

/-- A node is hidden in the root, or below it. -/
theorem Distinct.isHidden_of_mem_child (h : p.Distinct) (hq : q ∈ p.children) (hn : n ∈ q.ids) :
    p.isHidden n = (p.isCapture || q.isHidden n) := by
  rw [isHidden, h.ancestors_of_mem_child hq hn, List.any_cons]
  rfl

theorem Distinct.isHidden_self (h : p.Distinct) : p.isHidden p.id = false := by
  rw [isHidden, h.ancestors_self]
  rfl

/-- What is hidden in a part is hidden in the whole. -/
theorem Distinct.isHidden_of_mem_subtrees (h : p.Distinct) (ha : a ∈ p.subtrees)
    (hn : n ∈ a.ids) : p.isHidden n = (p.isHidden a.id || a.isHidden n) := by
  rw [isHidden, h.ancestors_of_mem_subtrees ha hn, List.any_append]
  rfl

/-- A child of a node that is no capture is hidden if the node is. -/
theorem Distinct.isHidden_child (h : p.Distinct) (ha : a ∈ p.subtrees) (hk : a.kind ≠ .capture)
    (hq : q ∈ a.children) : p.isHidden q.id = p.isHidden a.id := by
  have hd : a.Distinct := h.of_mem_subtrees ha
  have hinside : a.isHidden q.id = false := by
    rw [hd.isHidden_of_mem_child hq (id_mem_ids_self q), isCapture, beq_false_of_ne hk,
      (hd.child hq).isHidden_self]
    rfl
  rw [h.isHidden_of_mem_subtrees ha (id_mem_ids (mem_subtrees_of_mem_children hq)), hinside,
    Bool.or_false]

end Located

end CaptureTree
