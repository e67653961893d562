import CaptureTree.Proofs.Joining.Chains
import CaptureTree.Proofs.Shape.Unplaced

/-!
# Parentheses and slots

In `a.followedBy (b.followedBy c)` the parts of `b` and `c` are in a sequence of their own, and in
`(a.followedBy b).followedBy c` only those of `b` are.  Shapes leave out what is empty, and a slot
that is alone in a sequence stands for the sequence, so it need not show where the parentheses are.
`Joining.Seamless` says of three operands when it does not.

Shapes and values are put side by side alike (`Lineup`), and what parentheses do is the same for
both (`Lineup.slot_nested_iff_seamless`).  So the shapes are equal up to origins exactly if the
operands are joined without a seam (`Joining.outline_join_join_iff`), and then the captures have
the same paths as well (`Joining.paths_join_join`).
-/

namespace CaptureTree

/-! ## Slots of patterns -/

/-- Does the pattern leave a slot in a shape? -/
def Pattern.hasSlot (p : Pattern) : Bool :=
  !(Shape.infer p.locate).isEmpty

/-- The number of slots that a pattern leaves in a sequence that extends it. -/
def Pattern.slotCount (p : Pattern) : Nat :=
  (Joining.followedBy.parts p).countP hasSlot

/-- **Does it not show where the parentheses are**, when three operands are joined?  In a sequence,
one of the last two may leave no slot, or the first may leave none and the second only one.  In an
alternation, every operand has a branch, and nothing shows only if there are no slots at all. -/
def Joining.Seamless : Joining → Pattern → Pattern → Pattern → Prop
  | followedBy, a, b, c =>
    c.hasSlot = false ∨ b.hasSlot = false ∨ a.hasSlot = false ∧ b.slotCount ≤ 1
  | orElse, a, b, c => a.hasSlot = false ∧ b.hasSlot = false ∧ c.hasSlot = false

/-- Is an item empty exactly if the pattern leaves no slot? -/
def Lineup.Fits {α : Type} (J : Lineup α) (p : Pattern) (x : α) : Prop :=
  J.isEmpty x = !p.hasSlot

/-! ## Shapes -/

namespace Pattern

open Shape

variable {op : Joining} {p q : Pattern}

theorem fits_outline (p : Pattern) : outlineLineup.Fits p p.outline := by
  rw [Lineup.Fits, ← outline_infer_locate, isEmpty_outline, hasSlot, Bool.not_not]

theorem outline_eq_empty (h : outlineLineup.isEmpty p.outline = true) :
    p.outline = outlineLineup.empty := by
  rw [← outline_infer_locate] at h ⊢
  exact Shape.outline_eq_empty h

theorem fits_outlines (ps : List Pattern) :
    List.Forall₂ outlineLineup.Fits ps (ps.map outline) :=
  List.forall₂_map_right_iff.mpr (List.forall₂_same.mpr fun p _ => p.fits_outline)

/-- A pattern has the outline of its parts in a sequence. -/
theorem outline_eq_slot (p : Pattern) :
    p.outline = outlineLineup.slot ((Joining.followedBy.parts p).map outline) := by
  rw [Joining.parts]
  split
  · rename_i hk
    have hk : p.label.kind = .concat := hk
    rw [outline_eq, nodeOutline, hk]
  · exact (outlineLineup.slot_singleton outline_eq_empty).symm

theorem outline_followedBy (p q : Pattern) : (Joining.followedBy.join p q).outline =
    outlineLineup.slot ((Joining.followedBy.parts p).map outline ++ [q.outline]) := by
  rw [outline_eq_slot, Joining.parts_join, List.map_append]
  rfl

theorem outline_orElse (p q : Pattern) : (Joining.orElse.join p q).outline =
    if ((Joining.orElse.parts p ++ [q]).map outline).all outlineLineup.isEmpty then
      outlineLineup.empty
    else .node { kind := .sum, name := none } ((Joining.orElse.parts p ++ [q]).map outline) := by
  have hk := Joining.kind_join .orElse p q
  rw [outline_eq, nodeOutline, hk, Joining.join_eq]
  rfl

theorem all_isEmpty_outlines {ps : List Pattern} :
    (ps.map outline).all outlineLineup.isEmpty = true ↔ ∀ p ∈ ps, hasSlot p = false := by
  rw [List.all_map, List.all_eq_true]
  refine forall₂_congr fun p _ => ?_
  have hfits : outlineLineup.isEmpty p.outline = !p.hasSlot := p.fits_outline
  rw [Function.comp_apply, hfits, Bool.not_eq_true']

/-- What is extended has a slot if one of its parts has. -/
theorem hasSlot_eq_false_iff_parts (op : Joining) (p : Pattern) :
    p.hasSlot = false ↔ ∀ q ∈ op.parts p, hasSlot q = false := by
  have hfits : outlineLineup.isEmpty p.outline = !p.hasSlot := p.fits_outline
  rw [Joining.parts]
  split
  · rename_i hk
    rw [← all_isEmpty_outlines, ← Bool.not_eq_true', ← hfits, outline_eq, nodeOutline, hk]
    cases op with
    | followedBy =>
      show outlineLineup.isEmpty (outlineLineup.slot _) = true ↔ _
      rw [Lineup.isEmpty_slot, Lineup.kept, List.isEmpty_iff, List.filter_eq_nil_iff,
        List.all_eq_true]
      simp only [Bool.not_eq_true, Bool.not_eq_false']
    | orElse =>
      show outlineLineup.isEmpty (if _ then _ else _) = true ↔ _
      split
      · rename_i hall
        exact iff_of_true rfl hall
      · rename_i hall
        exact iff_of_false Bool.false_ne_true hall
  · rw [List.forall_mem_singleton]

theorem hasSlot_join_eq_false_iff (op : Joining) (p q : Pattern) :
    (op.join p q).hasSlot = false ↔ p.hasSlot = false ∧ q.hasSlot = false := by
  rw [hasSlot_eq_false_iff_parts op, Joining.parts_join, List.forall_mem_append,
    ← hasSlot_eq_false_iff_parts op, List.forall_mem_singleton]

theorem slotCount_eq_zero_iff (p : Pattern) : p.slotCount = 0 ↔ p.hasSlot = false := by
  rw [slotCount, List.countP_eq_zero, hasSlot_eq_false_iff_parts .followedBy]
  simp only [Bool.not_eq_true]

end Pattern

namespace Lineup

variable {α : Type} (J : Lineup α) {z : α} {xs ys : List α} {ps : List Pattern} {a b c : Pattern}

theorem length_kept (h : List.Forall₂ J.Fits ps xs) :
    (J.kept xs).length = ps.countP Pattern.hasSlot := by
  induction h with
  | nil => rfl
  | @cons p x ps xs hx _ ih =>
    have hx : J.isEmpty x = !p.hasSlot := hx
    rw [kept, List.filter_cons, hx, Bool.not_not, List.countP_cons, ← ih]
    cases p.hasSlot <;> rfl

/-- **Sequences of what operands leave are equal** if the operands are joined without a seam. -/
theorem slot_nested_iff_seamless (hxs : List.Forall₂ J.Fits (Joining.followedBy.parts a) xs)
    (hys : List.Forall₂ J.Fits (Joining.followedBy.parts b) ys) (hz : J.Fits c z) :
    J.slot (xs ++ [J.slot (ys ++ [z])]) = J.slot (xs ++ [J.slot ys, z]) ↔
      Joining.followedBy.Seamless a b c := by
  have hz : J.isEmpty z = !c.hasSlot := hz
  have hlengthA : (J.kept xs).length = a.slotCount := J.length_kept hxs
  have hlengthB : (J.kept ys).length = b.slotCount := J.length_kept hys
  rw [eq_comm, J.slot_nested_iff, hlengthA, hlengthB, a.slotCount_eq_zero_iff,
    b.slotCount_eq_zero_iff, hz, Bool.not_eq_true']
  rfl

end Lineup

namespace Joining

open Shape Pattern

/-- **The shapes are equal up to origins exactly if the operands are joined without a seam.** -/
theorem outline_join_join_iff (op : Joining) (a b c : Pattern) :
    (op.join a (op.join b c)).outline = (op.join (op.join a b) c).outline ↔
      op.Seamless a b c := by
  cases op with
  | followedBy =>
    rw [outline_followedBy, outline_followedBy, outline_followedBy, parts_join, List.map_append,
      List.append_assoc, ← outlineLineup.slot_nested_iff_seamless (fits_outlines _)
        (fits_outlines _) c.fits_outline, ← outline_eq_slot b]
    rfl
  | orElse =>
    have hright : (∀ p ∈ orElse.parts a ++ [orElse.join b c], hasSlot p = false) ↔
        orElse.Seamless a b c := by
      rw [List.forall_mem_append, ← hasSlot_eq_false_iff_parts, List.forall_mem_singleton,
        hasSlot_join_eq_false_iff]
      rfl
    have hleft : (∀ p ∈ orElse.parts a ++ [b] ++ [c], hasSlot p = false) ↔
        orElse.Seamless a b c := by
      rw [List.append_assoc, List.forall_mem_append, ← hasSlot_eq_false_iff_parts,
        List.singleton_append, List.forall_mem_cons, List.forall_mem_singleton]
      rfl
    rw [outline_orElse, outline_orElse, parts_join]
    by_cases hseam : orElse.Seamless a b c
    · rw [if_pos (all_isEmpty_outlines.mpr (hright.mpr hseam)),
        if_pos (all_isEmpty_outlines.mpr (hleft.mpr hseam))]
      exact iff_of_true rfl hseam
    · rw [if_neg fun h => hseam (hright.mp (all_isEmpty_outlines.mp h)),
        if_neg fun h => hseam (hleft.mp (all_isEmpty_outlines.mp h))]
      refine iff_of_false (fun heq => ?_) hseam
      -- there is a branch for `b` on one side only
      have hlength := congrArg List.length (Tree.node.inj heq).2
      simp at hlength

end Joining

/-! ## Paths -/

theorem Joining.collects_hidden (op : Joining) : op.Collects Pattern.hidden := by
  intro a ps hk
  have hne : a.kind ≠ .capture := hk ▸ op.kind_ne_capture
  rw [Pattern.hidden_eq, Tree.label_node, if_neg hne, Tree.children_node, List.flatMap_def]

/-- The paths to the captures of a compiled pattern. -/
theorem Regex.map_path_captures {p : Pattern} {r : Regex} (h : compile p = .ok r) :
    r.captures.map CaptureInfo.path = spread p.hidden (Shape.outlinePaths p.outline) := by
  obtain ⟨hcompiled, hpattern⟩ := compiled_of_compile h
  rw [hcompiled.captures, hcompiled.shape, CaptureInfo.map_path_table hcompiled.wellFormed
    hcompiled.distinct, hpattern, Pattern.erase_locate]

/-- **Where operands are joined without a seam, the captures have the same paths.** -/
theorem Joining.paths_join_join {op : Joining} {a b c : Pattern} {r r' : Regex}
    (h : op.Seamless a b c) (hr : Regex.compile (op.join a (op.join b c)) = .ok r)
    (hr' : Regex.compile (op.join (op.join a b) c) = .ok r') :
    r'.captures.map CaptureInfo.path = r.captures.map CaptureInfo.path := by
  have hhidden := op.collects_hidden
  rw [Regex.map_path_captures hr, Regex.map_path_captures hr',
    (outline_join_join_iff op a b c).mpr h, hhidden.join, hhidden.join, hhidden.join, hhidden.join,
    List.append_assoc]

end CaptureTree
