import CaptureTree.Pattern.WellFormed
import CaptureTree.Proofs.Positions

/-!
# The form of a pattern that validation accepts

Most of what holds of patterns is proved by going down the tree, one kind of
node after the other.  A node that validation accepts has the children that its
kind needs: a capture, a group and a quantifier have one, an alternation has at
least one, and a literal has none.  `Located.WellFormed` lists these forms, so
that an induction over it meets every kind of node together with its children.

`Pattern.wellFormed_locate` says that validation accepts nothing else.
-/

namespace CaptureTree

namespace Bounds

/-- Do the bounds allow `k` rounds? -/
def Allow (b : Bounds) (k : Nat) : Prop :=
  b.min ≤ k ∧ ∀ max ∈ b.max, k ≤ max

theorem isFull_iff (b : Bounds) {count : Nat} :
    b.isFull count = true ↔ ∃ max ∈ b.max, max ≤ count := by
  rw [isFull]
  cases b.max with
  | none => simp
  | some max => simp

theorem isOptional_iff (b : Bounds) :
    b.isOptional = true ↔ b = { min := 0, max := some 1 } := by
  cases b
  simp [isOptional]

/-- At most once is at most once. -/
theorem Allow.le_one {b : Bounds} {k : Nat} (h : b.Allow k) (ho : b.isOptional = true) :
    k ≤ 1 := by
  rw [isOptional_iff] at ho
  subst ho
  exact h.2 1 rfl

end Bounds

namespace Located

/-- Does every node have the children that its kind needs, and bounds and classes
that something can satisfy? -/
inductive WellFormed : Located → Prop
  | literal {p : Located} (kind : p.kind = .literal) (children : p.children = [])
      (nonempty : p.label.literal.isClass = true → p.label.literal.negated = false →
        p.label.literal.text ≠ []) : WellFormed p
  | capture {p q : Located} (kind : p.kind = .capture) (children : p.children = [q])
      (body : WellFormed q) : WellFormed p
  | group {p q : Located} (kind : p.kind = .group) (children : p.children = [q])
      (body : WellFormed q) : WellFormed p
  | concat {p : Located} (kind : p.kind = .concat)
      (parts : ∀ q ∈ p.children, WellFormed q) : WellFormed p
  | alternation {p : Located} (kind : p.kind = .alternation) (nonempty : p.children ≠ [])
      (branches : ∀ q ∈ p.children, WellFormed q) : WellFormed p
  | quantifier {p q : Located} (kind : p.kind = .quantifier) (children : p.children = [q])
      (bounds : ∀ max ∈ p.bounds.max, p.bounds.min ≤ max) (body : WellFormed q) : WellFormed p

theorem WellFormed.child {p q : Located} (h : p.WellFormed) (hq : q ∈ p.children) :
    q.WellFormed := by
  cases h with
  | literal hk hc hn =>
    rw [hc] at hq
    exact absurd hq List.not_mem_nil
  | capture hk hc hb | group hk hc hb | quantifier hk hc hm hb =>
    rw [hc, List.mem_singleton] at hq
    rw [hq]
    exact hb
  | concat hk hall | alternation hk hne hall => exact hall q hq

/-- Every part of a well-formed pattern is well formed. -/
theorem WellFormed.of_mem_subtrees {p a : Located} (h : p.WellFormed) (ha : a ∈ p.subtrees) :
    a.WellFormed := by
  induction p using Located.induction with
  | node p ih =>
    rcases mem_subtrees.mp ha with rfl | ⟨q, hq, ha⟩
    · exact h
    · exact ih q hq (h.child hq) ha

/-- A well-formed quantifier repeats one pattern, and its bounds leave room. -/
theorem WellFormed.of_quantifier {q : Located} (h : q.WellFormed) (hk : q.kind = .quantifier) :
    ∃ b : Located, q.children = [b] ∧ b.WellFormed ∧ ∀ max ∈ q.bounds.max, q.bounds.min ≤ max := by
  cases h with
  | quantifier _ hc hm hb => exact ⟨_, hc, hb, hm⟩
  | literal hk' | capture hk' | group hk' | concat hk' | alternation hk' =>
    rw [hk'] at hk
    cases hk

/-- A quantifier has captures if its body has. -/
theorem WellFormed.hasCapture_eq_body {q b : Located} (h : q.WellFormed)
    (hk : q.kind = .quantifier) (hb : q.body = some b) : q.hasCapture = b.hasCapture := by
  obtain ⟨b', hc, -, -⟩ := h.of_quantifier hk
  obtain rfl := eq_of_mem_body hc hb
  exact hasCapture_body (by rw [hk]; decide) hc

/-- The parts of a pattern, less their positions, are parts of it. -/
theorem erase_mem_subtrees {p a : Located} (ha : a ∈ p.subtrees) :
    a.erase ∈ p.erase.subtrees := by
  induction p using Located.induction with
  | node p ih =>
    rcases mem_subtrees.mp ha with rfl | ⟨q, hq, ha⟩
    · exact Tree.mem_subtrees_self _
    · refine Tree.mem_subtrees_of_mem_children ?_ (ih q hq ha)
      rw [erase_eq]
      exact List.mem_map_of_mem hq

end Located

namespace Pattern

/-- Nothing is wrong with any of the nodes of a list in which no first complaint
is found. -/
theorem exists_defect_eq_none {seen : List String} {ps : List Pattern}
    (h : firstDefect seen ps = none) {q : Pattern} (hq : q ∈ ps) :
    ∃ seen', q.defect seen' = none := by
  induction ps generalizing seen with
  | nil => exact absurd hq List.not_mem_nil
  | cons p ps ih =>
    rw [firstDefect, Option.or_eq_none_iff] at h
    rcases List.mem_cons.mp hq with rfl | hq
    · exact ⟨seen, h.1⟩
    · exact ih h.2 hq

theorem childDefect_eq_none {p : Pattern} (h : p.childDefect = none) :
    p.children.length = 1 := by
  rw [childDefect] at h
  split at h
  · assumption
  · cases h

theorem boundsDefect_eq_none {b : Bounds} (h : boundsDefect b = none) :
    ∀ max ∈ b.max, b.min ≤ max := by
  intro max hmax
  rw [Option.mem_def] at hmax
  rw [boundsDefect, hmax] at h
  by_contra hlt
  simp only [if_pos (Nat.lt_of_not_le hlt)] at h
  cases h

end Pattern

namespace Located

/-- The one child of a node with one child. -/
theorem children_of_childDefect {p : Located} (h : p.erase.childDefect = none) :
    ∃ q, p.children = [q] := by
  have hlen := Pattern.childDefect_eq_none h
  rw [erase_eq, Tree.children_node, List.length_map] at hlen
  exact List.length_eq_one_iff.mp hlen

/-- A pattern none of whose nodes gives cause for complaint is well formed. -/
theorem wellFormed_of_defect {p : Located}
    (h : ∀ a ∈ p.subtrees, ∃ seen, (erase a).defect seen = none) : p.WellFormed := by
  induction p using Located.induction with
  | node p ih =>
    have hchild : ∀ q ∈ p.children, WellFormed q := fun q hq =>
      ih q hq fun a ha => h a (Tree.mem_subtrees_of_mem_children hq ha)
    obtain ⟨seen, hroot⟩ := h p (Tree.mem_subtrees_self p)
    have hlabel : p.erase.label = p.label.toNode := by rw [erase_eq, Tree.label_node]
    rw [Pattern.defect, hlabel] at hroot
    cases hk : p.label.kind with
    | literal =>
      simp only [hk] at hroot
      split at hroot
      · cases hroot
      · rename_i hempty
        have hnil : p.children = [] := by simpa [erase_eq] using hempty
        refine .literal hk hnil fun hclass hneg htext => ?_
        simp [hclass, hneg, htext] at hroot
    | capture =>
      simp only [hk, Option.or_eq_none_iff] at hroot
      obtain ⟨q, hq⟩ := children_of_childDefect hroot.2
      exact .capture hk hq (hchild q (mem_children_of_eq hq))
    | group =>
      simp only [hk] at hroot
      obtain ⟨q, hq⟩ := children_of_childDefect hroot
      exact .group hk hq (hchild q (mem_children_of_eq hq))
    | concat => exact .concat hk hchild
    | alternation =>
      simp only [hk] at hroot
      refine .alternation hk (fun hnil => ?_) hchild
      simp [erase_eq, hnil] at hroot
    | quantifier =>
      simp only [hk, Option.or_eq_none_iff] at hroot
      obtain ⟨q, hq⟩ := children_of_childDefect hroot.1
      exact .quantifier hk hq (Pattern.boundsDefect_eq_none hroot.2)
        (hchild q (mem_children_of_eq hq))

end Located

/-- **Validation accepts well-formed patterns only.** -/
theorem Pattern.wellFormed_locate {p : Pattern} (h : p.validate = .ok ()) :
    p.locate.WellFormed := by
  rw [validate] at h
  split at h
  · cases h
  · rename_i hnone
    refine Located.wellFormed_of_defect fun a ha => exists_defect_eq_none hnone ?_
    have hmem := Located.erase_mem_subtrees ha
    rwa [Pattern.erase_locate] at hmem

end CaptureTree
