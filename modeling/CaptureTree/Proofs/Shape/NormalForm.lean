import CaptureTree.Proofs.Shape.Leaves
import CaptureTree.Proofs.Shape.Slots

/-!
# Normal form

Three walks decide what is visible of a pattern: inference decides which slots there are, numbering
which captures there are, and the search for captures which nodes are worth recording.  On an
accepted pattern they agree (`Shape.infer_normal`):

* a node has a slot if and only if it has a capture;
* its shape is in normal form (`Shape.Normal`): nothing is left in it that could be dropped without
  losing a capture or a branch;
* the leaves of its shape, from left to right, are its captures that are inside no other one.

The collapse rules are those of `Shape.ofNode`, and `Located.WellFormed.normal_infer` goes through
them, one kind of node after the other.  What it says of the root of a shape holds at every depth,
as a slot in a normal shape is normal, or it is a branch that captures nothing (`Normal.child`).
-/

namespace CaptureTree

namespace Shape

variable {p o : Located} {s u : Shape} {is : List Nat}

/-- **Is the shape in normal form?**  There are two members in a product at least, a sum has the
shape of every branch of its alternation and is not made for branches that capture nothing, and a
slot may be left out if its quantifier says at most once.  Nothing inside is empty but a branch. -/
inductive Normal : Shape → Prop
  | leaf (o : Option Located) : Normal (.leaf o)
  | product {o : Located} {ss : List Shape} (kind : o.kind = .concat) (several : 2 ≤ ss.length)
      (members : ∀ s ∈ ss, Normal s) : Normal (.product o ss)
  | sum {o : Located} {ss : List Shape} (kind : o.kind = .alternation)
      (branches : ss = o.children.map infer) (capturing : ∃ s ∈ ss, s ≠ empty)
      (inside : ∀ s ∈ ss, s ≠ empty → Normal s) : Normal (.sum o ss)
  | repeated {o : Located} {s : Shape} (kind : o.kind = .quantifier)
      (bounds : o.bounds ≠ { min := 0, max := some 1 }) (item : Normal s) : Normal (.repeated o s)
  | opt {o : Located} {s : Shape} (kind : o.kind = .quantifier)
      (bounds : o.bounds = { min := 0, max := some 1 }) (inner : Normal s) : Normal (.opt o s)

namespace Normal

theorem ne_empty (h : s.Normal) : s ≠ empty := by
  rintro rfl
  cases h

/-- **What is inside a normal shape** is normal, or an empty branch. -/
theorem child (h : s.Normal) (hu : u ∈ s.children) :
    u.Normal ∨ u = empty ∧ ∃ o ss, s = .sum o ss := by
  cases h with
  | leaf => exact absurd hu List.not_mem_nil
  | product _ _ hmembers => exact .inl (hmembers u hu)
  | @sum o ss _ _ _ hinside =>
    by_cases hempty : u = empty
    · exact .inr ⟨hempty, o, ss, rfl⟩
    · exact .inl (hinside u hu hempty)
  | repeated _ _ hinside | opt _ _ hinside =>
    rw [List.mem_singleton.mp hu]
    exact .inl hinside

/-- At every depth, a slot is normal, or an empty branch. -/
theorem of_slotAt (h : s.Normal) (hu : s.slotAt is = some u) :
    u.Normal ∨ u = empty ∧ ∃ js i o ss, is = js ++ [i] ∧ s.slotAt js = some (.sum o ss) := by
  induction is generalizing s with
  | nil =>
    rw [← Option.some.inj hu]
    exact .inl h
  | cons i is ih =>
    obtain ⟨child, hchild, hslot⟩ := slotAt_cons hu
    rcases h.child (List.mem_of_getElem? hchild) with hnormal | ⟨rfl, o, ss, rfl⟩
    · rcases ih hnormal hslot with hu | ⟨rfl, js, j, o, ss, rfl, hsum⟩
      · exact .inl hu
      · refine .inr ⟨rfl, i :: js, j, o, ss, rfl, ?_⟩
        rw [slotAt, hchild, Option.bind_some, hsum]
    · obtain ⟨rfl, rfl⟩ := slotAt_of_no_children rfl hslot
      exact .inr ⟨rfl, [], i, o, ss, rfl, rfl⟩

end Normal

/-! ## The collapse rules -/

/-- A sequence of normal slots is normal, or there is none. -/
theorem normal_sequence (hk : p.kind = .concat) {parts : List Shape}
    (h : ∀ s ∈ parts, s ≠ empty → s.Normal) (hne : sequence p parts ≠ empty) :
    (sequence p parts).Normal := by
  have hkept : ∀ s ∈ parts.filter (!·.isEmpty), s.Normal := by
    intro s hs
    obtain ⟨hs, hfull⟩ := List.mem_filter.mp hs
    refine h s hs fun hempty => ?_
    rw [hempty] at hfull
    cases hfull
  revert hne hkept
  rw [sequence]
  cases parts.filter (!·.isEmpty) with
  | nil => exact fun hne _ => absurd rfl hne
  | cons s rest =>
    cases rest with
    | nil => exact fun _ hkept => hkept s List.mem_cons_self
    | cons s' rest => exact fun _ hkept => .product hk (by simp) hkept

/-- The slot of a quantifier around a normal slot is normal. -/
theorem normal_loop (hk : o.kind = .quantifier) (h : s.Normal) : (loop o s).Normal := by
  rw [loop]
  split
  · rename_i honce
    exact .opt hk (o.bounds.isOptional_iff.mp honce) h
  · rename_i honce
    exact .repeated hk (fun hbounds => honce (o.bounds.isOptional_iff.mpr hbounds)) h

end Shape

namespace Located

variable {p c : Located}

/-- **The shape of a well-formed pattern is in normal form**, unless it is empty. -/
theorem WellFormed.normal_infer (h : p.WellFormed) (hne : Shape.infer p ≠ .empty) :
    (Shape.infer p).Normal := by
  induction h with
  | literal hk => exact absurd (Shape.infer_literal hk) hne
  | @capture p q hk =>
    rw [Shape.infer_capture hk]
    exact .leaf (some p)
  | group hk hc _ ih =>
    rw [Shape.infer_group hk hc] at hne ⊢
    exact ih hne
  | @concat p hk _ ih =>
    rw [Shape.infer_concat hk] at hne ⊢
    exact Shape.normal_sequence hk (List.forall_mem_map.mpr ih) hne
  | @alternation p hk _ _ ih =>
    have hshape := Shape.infer_alternation hk
    split at hshape
    · exact absurd hshape hne
    · rename_i hsome
      rw [hshape]
      refine .sum hk rfl ?_ (List.forall_mem_map.mpr ih)
      by_contra hnone
      refine hsome (List.all_eq_true.mpr fun s hs => Shape.isEmpty_iff.mpr ?_)
      by_contra hs'
      exact hnone ⟨s, hs, hs'⟩
  | @quantifier p q hk hc _ _ ih =>
    have hshape := Shape.infer_quantifier hk hc
    split at hshape
    · exact absurd hshape hne
    · rename_i hinside
      rw [hshape]
      exact Shape.normal_loop hk (ih fun hempty => hinside (Shape.isEmpty_iff.mpr hempty))

/-- There is no capture if none is listed. -/
theorem hasCapture_eq_false_iff : p.hasCapture = false ↔ p.captures = [] := by
  rw [hasCapture, captures, List.any_eq_false, List.filter_eq_nil_iff]

theorem WellFormed.infer_eq_empty_iff (h : p.WellFormed) :
    Shape.infer p = .empty ↔ p.hasCapture = false := by
  rw [← Shape.isEmpty_iff, h.isEmpty_infer, Bool.not_eq_true']

/-- The visible captures are those with no capture among their ancestors. -/
theorem visible_eq_filter (p : Located) :
    p.visible = p.captures.filter fun c => (p.ancestors c.id).all fun a => a.kind ≠ .capture := by
  refine List.filter_congr fun c _ => ?_
  rw [isHidden, Bool.eq_iff_iff]
  simp [isCapture]

end Located

/-- **Shapes are in normal form.**  For every node `n` of a pattern that validation accepts:

* the shape of `n` is empty if and only if `n` has no capture, that is, none is numbered;
* otherwise the shape is in normal form, and nothing in it is empty but slots of sums;
* the leaves of the shape, from left to right, have the origins and the names of the captures in
  `n` that have no capture around them inside `n`, in the order of their numbers. -/
theorem Shape.infer_normal {p : Pattern} (h : p.validate = .ok ()) {n : Located}
    (hn : n ∈ p.locate.subtrees) :
    (infer n = empty ↔ n.hasCapture = false) ∧ (n.hasCapture = false ↔ n.captures = []) ∧
      (infer n ≠ empty → (infer n).Normal) ∧
      (∀ is, (infer n).slotAt is = some empty →
        is = [] ∨ ∃ js i o ss, is = js ++ [i] ∧ (infer n).slotAt js = some (sum o ss)) ∧
      (infer n).leaves.map (fun l => (l.kind, l.origin, l.label)) =
        (n.captures.filter fun c => (n.ancestors c.id).all fun a => a.kind ≠ .capture).map
          fun c => (.leaf, some c, c.name) := by
  have hwell := (Pattern.wellFormed_locate h).of_mem_subtrees hn
  have hd := p.distinct_locate.of_mem_subtrees hn
  refine ⟨hwell.infer_eq_empty_iff, Located.hasCapture_eq_false_iff, hwell.normal_infer,
    fun is hslot => ?_, ?_⟩
  · by_cases hempty : infer n = empty
    · rw [hempty] at hslot
      exact .inl (slotAt_of_no_children rfl hslot).1
    · rcases (hwell.normal_infer hempty).of_slotAt hslot with hnormal | ⟨-, hbranch⟩
      · exact absurd rfl hnormal.ne_empty
      · exact .inr hbranch
  · rw [hwell.leaves_infer hd, ← Located.visible_eq_filter, List.map_map]
    rfl

/-- A loop around an alternation one of whose branches captures nothing, and an option. -/
def loopThenOption : Pattern :=
  .concat [.exact [0x61],
    (Pattern.alternation [.exact [0x62], (Pattern.exact [0x63]).capture.capture "first"]).star.group,
    ((Pattern.exact [0x64]).capture "last").optional]

theorem Shape.infer_normal_loopThenOption :
    loopThenOption.validate = .ok () ∧ (infer loopThenOption.locate).Normal ∧
      (infer loopThenOption.locate).leaves.map label = [some "first", some "last"] := by
  obtain ⟨-, -, hnormal, -, hleaves⟩ :=
    infer_normal (p := loopThenOption) rfl (Tree.mem_subtrees_self _)
  refine ⟨rfl, hnormal (fun hempty => by cases hempty), ?_⟩
  have hlabels := congrArg (List.map fun l => l.2.2) hleaves
  rw [List.map_map] at hlabels
  exact hlabels

end CaptureTree
