import CaptureTree.Proofs.Naming
import CaptureTree.Proofs.Shape.Printing
import CaptureTree.Proofs.Shape.Slots

/-!
# Origins are canonical

A slot of a shape points to the node that it stems from, its origin, and between the node whose
shape was asked for and the origin there may be groups, sequences with one capturing part, and
every slot around.  None of this matters: **asked for the shape of the origin, inference gives the
same slot again** (`Shape.exists_origin_of_slotAt`).  It holds of every pattern, accepted or not.

The reason is in `Shape.infer_cases`: a shape is empty, or it is the shape of a child, or it stems
from the node itself and the slots in it are shapes of children.

So shapes of nodes of one pattern are the same exactly if they are empty or have the same origin,
and shapes of nodes of two copies are never the same unless they are empty, although they are
printed alike.
-/

namespace CaptureTree

namespace Shape

variable {p q o : Located} {s u : Shape} {is : List Nat}

/-! ## From a slot to its origin -/

theorem headD_map_infer (p : Located) :
    (p.children.map infer).headD empty = empty ∨
      ∃ q ∈ p.children, (p.children.map infer).headD empty = infer q := by
  cases p.children with
  | nil => exact .inl rfl
  | cons q qs => exact .inr ⟨q, List.mem_cons_self, rfl⟩

/-- **Where the shape of a node comes from**: there is none, it is that of a child, or it is made
for the node itself, of the shapes of children. -/
theorem infer_cases (p : Located) :
    infer p = empty ∨ (∃ q ∈ p.children, infer p = infer q) ∨
      ((infer p).origin = some p ∧
        ∀ s ∈ (infer p).children, ∃ q ∈ p.children, s = infer q) := by
  have hparts : ∀ s ∈ p.children.map infer, ∃ q ∈ p.children, s = infer q := by
    intro s hs
    obtain ⟨q, hq, rfl⟩ := List.mem_map.mp hs
    exact ⟨q, hq, rfl⟩
  cases hk : p.kind with
  | literal => exact .inl (infer_literal hk)
  | capture =>
    rw [infer_capture hk]
    exact .inr (.inr ⟨rfl, fun s hs => absurd hs List.not_mem_nil⟩)
  | group =>
    have hshape : infer p = (p.children.map infer).headD empty := by
      rw [infer_eq, ofNode, hk]
    rw [hshape]
    rcases headD_map_infer p with hnone | hchild
    · exact .inl hnone
    · exact .inr (.inl hchild)
  | concat =>
    rw [infer_concat hk]
    rcases sequence_cases p (p.children.map infer) with ⟨hseq, -⟩ | ⟨s, hs, hseq⟩ | hseq
    · exact .inl hseq
    · rw [hseq]
      exact .inr (.inl (hparts s hs))
    · rw [hseq]
      exact .inr (.inr ⟨rfl, fun s hs => hparts s (List.mem_of_mem_filter hs)⟩)
  | alternation =>
    rw [infer_alternation hk]
    split
    · exact .inl rfl
    · exact .inr (.inr ⟨rfl, hparts⟩)
  | quantifier =>
    have hshape : infer p = if ((p.children.map infer).headD empty).isEmpty then empty
        else loop p ((p.children.map infer).headD empty) := by
      rw [infer_eq, ofNode, hk]
    rw [hshape]
    split
    · exact .inl rfl
    · rename_i hinside
      refine .inr (.inr ⟨origin_loop p _, fun s hs => ?_⟩)
      rw [children_loop, List.mem_singleton] at hs
      rcases headD_map_infer p with hnone | ⟨q, hq, hchild⟩
      · rw [hnone] at hinside
        exact absurd rfl hinside
      · exact ⟨q, hq, hs.trans hchild⟩

/-- **Every slot is the shape of its origin**, unless it is empty. -/
theorem exists_origin_of_slotAt (hs : (infer p).slotAt is = some s) (hne : s ≠ empty) :
    ∃ o ∈ p.subtrees, s.origin = some o ∧ infer o = s := by
  induction p using Located.induction generalizing is with
  | node p ih =>
    rcases infer_cases p with hnone | ⟨q, hq, hchild⟩ | ⟨horigin, hparts⟩
    · rw [hnone] at hs
      exact absurd (slotAt_of_no_children rfl hs).2 hne
    · rw [hchild] at hs
      obtain ⟨o, ho, hcanonical⟩ := ih q hq hs
      exact ⟨o, Tree.mem_subtrees_of_mem_children hq ho, hcanonical⟩
    · cases is with
      | nil =>
        obtain rfl : infer p = s := Option.some.inj hs
        exact ⟨p, Tree.mem_subtrees_self p, horigin, rfl⟩
      | cons i is =>
        obtain ⟨child, hslot, hs⟩ := slotAt_cons hs
        obtain ⟨q, hq, rfl⟩ := hparts child (List.mem_of_getElem? hslot)
        obtain ⟨o, ho, hcanonical⟩ := ih q hq hs
        exact ⟨o, Tree.mem_subtrees_of_mem_children hq ho, hcanonical⟩

/-- The shape of a node is that of its origin. -/
theorem exists_origin (hne : infer p ≠ empty) :
    ∃ o ∈ p.subtrees, (infer p).origin = some o ∧ infer o = infer p :=
  exists_origin_of_slotAt (show (infer p).slotAt [] = some (infer p) from rfl) hne

/-! ## Comparing -/

theorem same_refl (s : Shape) : s.same s = true := by
  have hall : ∀ ss : List Shape, (∀ s ∈ ss, s.same s = true) → sameAll ss ss = true := by
    intro ss hss
    induction ss with
    | nil => rfl
    | cons s ss ih =>
      obtain ⟨hs, hss⟩ := List.forall_mem_cons.mp hss
      simp only [sameAll, hs, ih hss, Bool.and_self]
  induction s with
  | empty => rfl
  | leaf o => simp [same, sameOrigin]
  | product o ss ih | sum o ss ih => simp [same, sameOrigin, hall ss ih]
  | repeated o s ih | opt o s ih => simp [same, sameOrigin, ih]

/-- Shapes that are the same are both empty or both not, and their origins have the same
position. -/
theorem origin_of_same (h : s.same u = true) :
    (s = empty ↔ u = empty) ∧ s.origin.map Located.id = u.origin.map Located.id := by
  cases s <;> cases u <;> simp_all [same, sameOrigin, origin]

/-- Nodes with the same shape have no captures, or their shapes stem from nodes with the same
position. -/
theorem exists_origins_of_same {a b : Located} (h : (infer a).same (infer b) = true) :
    (infer a = empty ∧ infer b = empty) ∨ ∃ o ∈ a.subtrees, ∃ o' ∈ b.subtrees,
      (infer a).origin = some o ∧ (infer b).origin = some o' ∧ Located.id o = Located.id o' := by
  obtain ⟨hempty, hid⟩ := origin_of_same h
  by_cases hnone : infer a = empty
  · exact .inl ⟨hnone, hempty.mp hnone⟩
  · obtain ⟨o, ho, horigin, -⟩ := exists_origin hnone
    obtain ⟨o', ho', horigin', -⟩ := exists_origin fun hnone' => hnone (hempty.mpr hnone')
    rw [horigin, horigin', Option.map_some, Option.map_some] at hid
    exact .inr ⟨o, ho, o', ho', horigin, horigin', Option.some.inj hid⟩

/-- What stems from a node has the shape of the node. -/
theorem infer_eq_of_origin {a : Located} (h : (infer a).origin = some o) : infer a = infer o := by
  have hne : infer a ≠ empty := fun hnone => by
    rw [hnone] at h
    cases h
  obtain ⟨o', -, horigin, hcanonical⟩ := exists_origin hne
  obtain rfl := Option.some.inj (h.symm.trans horigin)
  exact hcanonical.symm

/-- **Within one pattern**, shapes are the same if they are empty, or have the same origin. -/
theorem same_infer_iff {a b : Located} (hd : p.Distinct) (ha : a ∈ p.subtrees)
    (hb : b ∈ p.subtrees) : (infer a).same (infer b) = true ↔
      (infer a = empty ∧ infer b = empty) ∨
        ∃ o, (infer a).origin = some o ∧ (infer b).origin = some o := by
  constructor
  · intro hsame
    rcases exists_origins_of_same hsame with hnone | ⟨o, ho, o', ho', horigin, horigin', hid⟩
    · exact .inl hnone
    · obtain rfl := hd.eq_of_id_eq (Tree.mem_subtrees_trans ho ha)
        (Tree.mem_subtrees_trans ho' hb) hid
      exact .inr ⟨o, horigin, horigin'⟩
  · rintro (⟨hnone, hnone'⟩ | ⟨o, horigin, horigin'⟩)
    · rw [hnone, hnone']
      exact same_refl empty
    · rw [infer_eq_of_origin horigin, infer_eq_of_origin horigin']
      exact same_refl (infer o)

/-- **Between patterns without a common node**, shapes are the same only if they are empty. -/
theorem same_infer_iff_of_disjoint {a b : Located} (hdisjoint : List.Disjoint p.ids q.ids)
    (ha : a ∈ p.subtrees) (hb : b ∈ q.subtrees) :
    (infer a).same (infer b) = true ↔ infer a = empty ∧ infer b = empty := by
  constructor
  · intro hsame
    rcases exists_origins_of_same hsame with hnone | ⟨o, ho, o', ho', -, -, hid⟩
    · exact hnone
    · have hp := Located.id_mem_ids (Tree.mem_subtrees_trans ho ha)
      rw [hid] at hp
      exact absurd (Located.id_mem_ids (Tree.mem_subtrees_trans ho' hb)) (hdisjoint hp)
  · rintro ⟨hnone, hnone'⟩
    rw [hnone, hnone']
    exact same_refl empty

/-- Nodes that stand at the same place in two copies have shapes that are printed alike. -/
theorem text_infer_of_copies {a b : Located} (hcopy : p.erase = q.erase) {i : Nat}
    (ha : p.subtrees[i]? = some a) (hb : q.subtrees[i]? = some b) :
    (infer a).text = (infer b).text := by
  have herase : (p.subtrees.map Located.erase)[i]? = (q.subtrees.map Located.erase)[i]? := by
    rw [← Located.subtrees_erase, ← Located.subtrees_erase, hcopy]
  rw [List.getElem?_map, List.getElem?_map, ha, hb, Option.map_some, Option.map_some] at herase
  exact text_infer_congr (congrArg Pattern.shapeText (Option.some.inj herase))

/-- **Origins are canonical.**  For every pattern, accepted or not:

* every slot of its shape that is not empty stems from a node of the pattern, and the shape of
  this node is the same as the slot;
* the shapes of two nodes are the same if and only if both are empty or both have the same origin;
* the shapes of nodes of two copies that have no node in common are the same if and only if both
  are empty, although those of corresponding nodes are printed alike. -/
theorem origins_canonical (p : Pattern) (k : NodeId) :
    (∀ is s, (infer (p.locateFrom k)).slotAt is = some s → s ≠ empty →
      ∃ o ∈ (p.locateFrom k).subtrees, s.origin = some o ∧ (infer o).same s = true) ∧
      (∀ a ∈ (p.locateFrom k).subtrees, ∀ b ∈ (p.locateFrom k).subtrees,
        ((infer a).same (infer b) = true ↔ (infer a = empty ∧ infer b = empty) ∨
          ∃ o, (infer a).origin = some o ∧ (infer b).origin = some o)) ∧
      ∀ k', List.Disjoint (p.locateFrom k).ids (p.locateFrom k').ids →
        (∀ a ∈ (p.locateFrom k).subtrees, ∀ b ∈ (p.locateFrom k').subtrees,
          ((infer a).same (infer b) = true ↔ infer a = empty ∧ infer b = empty)) ∧
          ∀ (i : Nat) (a b : Located), (p.locateFrom k).subtrees[i]? = some a →
            (p.locateFrom k').subtrees[i]? = some b → (infer a).text = (infer b).text := by
  refine ⟨fun is s hs hne => ?_, fun a ha b hb => same_infer_iff (p.distinct_locateFrom k) ha hb,
    fun k' hdisjoint => ⟨fun a ha b hb => same_infer_iff_of_disjoint hdisjoint ha hb,
      fun i a b ha hb => text_infer_of_copies ?_ ha hb⟩⟩
  · obtain ⟨o, ho, horigin, hcanonical⟩ := exists_origin_of_slotAt hs hne
    exact ⟨o, ho, horigin, hcanonical ▸ same_refl s⟩
  · rw [p.erase_locateFrom, p.erase_locateFrom]

/-- A group around a sequence with one capturing part, a loop around two captures. -/
def groupedLoop : Pattern :=
  (Pattern.concat [.exact [0x61],
    (Pattern.concat [(Pattern.exact [0x62]).capture, (Pattern.exact [0x63]).capture]).star]).group

theorem origins_canonical_groupedLoop :
    ∃ loop copy : Located, (groupedLoop.locateFrom 0).subtrees[3]? = some loop ∧
      (groupedLoop.locateFrom 20).subtrees[3]? = some copy ∧
      (infer (groupedLoop.locateFrom 0)).same (infer loop) = true ∧
      (infer loop).same (infer copy) = false ∧ (infer loop).text = (infer copy).text := by
  obtain ⟨-, hwithin, hcopies⟩ := origins_canonical groupedLoop 0
  have hdisjoint : ∀ n ∈ (groupedLoop.locateFrom 0).ids, n ∉ (groupedLoop.locateFrom 20).ids := by
    decide
  obtain ⟨hbetween, htext⟩ := hcopies 20 fun n hn hn' => hdisjoint n hn hn'
  refine ⟨_, _, rfl, rfl, ?_, Bool.eq_false_iff.mpr fun hsame => ?_, htext 3 _ _ rfl rfl⟩
  · exact (hwithin _ (Tree.mem_subtrees_self _) _ (List.mem_of_getElem? (i := 3) rfl)).mpr
      (.inr ⟨_, rfl, rfl⟩)
  · have hempty := (hbetween _ (List.mem_of_getElem? (i := 3) rfl) _
      (List.mem_of_getElem? (i := 3) rfl)).mp hsame
    cases hempty.1

end Shape

end CaptureTree
