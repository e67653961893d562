import CaptureTree.Proofs.Shape.Paths

/-!
# The nodes that slots stem from

Every slot of a shape but the empty one remembers a node of the pattern, its origin.  The shape
of a pattern need not stem from its root: a group is not seen in the shape, and of a sequence
with one capturing part only this part is.  `Shape.Stems` says what a slot is made of that does
stem from a node, and `Located.WellFormed.exists_origin` finds the node.  Whatever passes from
groups and sequences to what they contain is true of the node if it is true of the pattern.
-/

namespace CaptureTree

/-- **Does the slot stem from the node?**  It is of the kind that the node calls for, and the slots
inside it are the shapes of the node's children. -/
inductive Shape.Stems : Located → Shape → Prop
  | leaf {o : Located} (kind : o.kind = .capture) : Stems o (.leaf (some o))
  | product {o : Located} (kind : o.kind = .concat) :
      Stems o (.product o ((o.children.map infer).filter (!·.isEmpty)))
  | sum {o : Located} (kind : o.kind = .alternation) : Stems o (.sum o (o.children.map infer))
  | repeated {o q : Located} (kind : o.kind = .quantifier) (children : o.children = [q])
      (inside : infer q ≠ .empty) : Stems o (.repeated o (infer q))
  | opt {o q : Located} (kind : o.kind = .quantifier) (children : o.children = [q])
      (inside : infer q ≠ .empty) (once : o.bounds.isOptional = true) :
      Stems o (.opt o (infer q))

namespace Located

/-- **The shape of a pattern stems from one of its nodes**, one with captures, and nothing but
groups and sequences lies between the root and this node. -/
theorem WellFormed.exists_origin {p : Located} (h : p.WellFormed) {P : Located → Prop}
    (hpass : ∀ g q : Located, g.kind = .group ∨ g.kind = .concat → q ∈ g.children → P g → P q)
    (hp : P p) (hne : Shape.infer p ≠ .empty) :
    ∃ o : Located, o.WellFormed ∧ o.hasCapture = true ∧ P o ∧ Shape.Stems o (.infer p) := by
  have hcap := h.hasCapture_of_infer hne
  induction h with
  | literal hk => exact absurd (Shape.infer_literal hk) hne
  | @capture p q hk hc hq =>
    rw [Shape.infer_capture hk]
    exact ⟨p, .capture hk hc hq, hcap, hp, .leaf hk⟩
  | @group p q hk hc hq ih =>
    rw [Shape.infer_group hk hc] at hne ⊢
    exact ih (hpass p q (.inl hk) (mem_children_of_eq hc) hp) hne (hq.hasCapture_of_infer hne)
  | @concat p hk hwell ih =>
    rw [Shape.infer_concat hk] at hne ⊢
    rcases Shape.sequence_cases p (p.children.map Shape.infer) with ⟨hseq, -⟩ | ⟨s, hs, hseq⟩ | hseq
    · exact absurd hseq hne
    · obtain ⟨q, hq, rfl⟩ := List.mem_map.mp hs
      rw [hseq] at hne ⊢
      exact ih q hq (hpass p q (.inr hk) hq hp) hne ((hwell q hq).hasCapture_of_infer hne)
    · rw [hseq]
      exact ⟨p, .concat hk hwell, hcap, hp, .product hk⟩
  | @alternation p hk hnonempty hwell =>
    have hshape := Shape.infer_alternation hk
    split at hshape
    · exact absurd hshape hne
    · rw [hshape]
      exact ⟨p, .alternation hk hnonempty hwell, hcap, hp, .sum hk⟩
  | @quantifier p q hk hc hroom hq =>
    have hshape := Shape.infer_quantifier hk hc
    split at hshape
    · exact absurd hshape hne
    · rename_i hinside
      rw [Shape.isEmpty_iff] at hinside
      refine ⟨p, .quantifier hk hc hroom hq, hcap, hp, ?_⟩
      rw [hshape, Shape.loop]
      split
      · rename_i honce
        exact .opt hk hc hinside honce
      · exact .repeated hk hc hinside

end Located

end CaptureTree
