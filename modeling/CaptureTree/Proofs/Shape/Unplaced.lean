import CaptureTree.Proofs.Numbering
import CaptureTree.Proofs.Shape.Outline

/-!
# Outlines and paths, without places

The outline of a shape has no places in it, and neither has the path to a slot.  Both are known
from a pattern whose nodes do not know their place: `Pattern.outline` works the outline out from the
leaves of the pattern up (`Shape.outline_infer`), and the outline has the paths to the leaves
(`Shape.map_snd_leafPaths`).  Together with `Pattern.hidden`, which says of every capture whether
another one is around it, these are the paths in the table of captures
(`CaptureInfo.map_path_table`).

Sequences are the one place where items are left out.  How this is done is a `Lineup`, which will
serve for values as well; `Lineup.slot_nested_iff` says when it does not matter whether the last
items are in a sequence of their own.
-/

namespace CaptureTree

/-! ## Items side by side -/

/-- **How items are put side by side**: an empty one is left out, and a single one stands for
itself. -/
structure Lineup (α : Type) where
  isEmpty : α → Bool
  empty : α
  product : List α → α
  isEmpty_empty : isEmpty empty = true
  isEmpty_product : ∀ xs, isEmpty (product xs) = false
  product_injective : Function.Injective product

namespace Lineup

variable {α : Type} (J : Lineup α) {x z : α} {xs ys : List α}

/-- The items that are not empty. -/
def kept (xs : List α) : List α :=
  xs.filter fun x => !J.isEmpty x

/-- What items that are not empty come to. -/
def whole : List α → α
  | [] => J.empty
  | [x] => x
  | xs => J.product xs

/-- **What items side by side come to.** -/
def slot (xs : List α) : α :=
  J.whole (J.kept xs)

theorem kept_append (xs ys : List α) : J.kept (xs ++ ys) = J.kept xs ++ J.kept ys :=
  List.filter_append ..

theorem kept_of_isEmpty (h : J.isEmpty x = true) : J.kept [x] = [] := by
  rw [kept, List.filter_cons, h]
  rfl

theorem kept_of_not_isEmpty (h : J.isEmpty x = false) : J.kept [x] = [x] := by
  rw [kept, List.filter_cons, h]
  rfl

/-- A sequence is empty if all of its items are. -/
theorem isEmpty_slot (xs : List α) : J.isEmpty (J.slot xs) = (J.kept xs).isEmpty := by
  rw [slot]
  cases hkept : J.kept xs with
  | nil => exact J.isEmpty_empty
  | cons x rest =>
    cases rest with
    | nil =>
      have hx : x ∈ J.kept xs := by
        rw [hkept]
        exact List.mem_cons_self
      simpa [whole] using (List.mem_filter.mp hx).2
    | cons y rest => exact J.isEmpty_product _

theorem slot_singleton (h : J.isEmpty x = true → x = J.empty) : J.slot [x] = x := by
  rw [slot]
  cases hx : J.isEmpty x with
  | true =>
    rw [J.kept_of_isEmpty hx]
    exact (h hx).symm
  | false =>
    rw [J.kept_of_not_isEmpty hx]
    rfl

theorem whole_eq_product (h : 2 ≤ xs.length) : J.whole xs = J.product xs := by
  match xs, h with
  | _ :: _ :: _, _ => rfl

/-! ### A sequence at the end of a sequence -/

theorem kept_outer (xs ys : List α) (z : α) :
    J.kept (xs ++ [J.slot ys, z]) = J.kept xs ++ (J.kept [J.slot ys] ++ J.kept [z]) := by
  rw [J.kept_append, ← J.kept_append [_] [z]]
  rfl

/-- An empty item may be in the sequence inside. -/
theorem slot_nested_of_isEmpty (hz : J.isEmpty z = true) :
    J.slot (xs ++ [J.slot ys, z]) = J.slot (xs ++ [J.slot (ys ++ [z])]) := by
  have hinner : J.kept (ys ++ [z]) = J.kept ys := by
    rw [J.kept_append, J.kept_of_isEmpty hz, List.append_nil]
  have hsame : J.slot (ys ++ [z]) = J.slot ys := congrArg J.whole hinner
  refine congrArg J.whole ?_
  rw [kept_outer, J.kept_of_isEmpty hz, List.append_nil, hsame, J.kept_append]

/-- So may an item that is alone there. -/
theorem slot_nested_of_kept_eq_nil (hz : J.isEmpty z = false) (hys : J.kept ys = []) :
    J.slot (xs ++ [J.slot ys, z]) = J.slot (xs ++ [J.slot (ys ++ [z])]) := by
  have hempty : J.isEmpty (J.slot ys) = true := by
    rw [J.isEmpty_slot, hys]
    rfl
  have hsame : J.slot (ys ++ [z]) = z := by
    rw [slot, J.kept_append, hys, J.kept_of_not_isEmpty hz]
    rfl
  refine congrArg J.whole ?_
  rw [kept_outer, J.kept_of_isEmpty hempty, hsame, J.kept_append]
  rfl

/-- Otherwise it may not, unless the sequence inside has one item and nothing in front. -/
theorem slot_nested_iff_of_kept {y : α} {rest : List α} (hz : J.isEmpty z = false)
    (hys : J.kept ys = y :: rest) :
    J.slot (xs ++ [J.slot ys, z]) = J.slot (xs ++ [J.slot (ys ++ [z])]) ↔
      J.kept xs = [] ∧ rest = [] := by
  have hfull : J.isEmpty (J.slot ys) = false := by
    rw [J.isEmpty_slot, hys]
    rfl
  have hinner : J.slot (ys ++ [z]) = J.product (y :: rest ++ [z]) := by
    rw [slot, J.kept_append, hys, J.kept_of_not_isEmpty hz]
    exact J.whole_eq_product (by simp)
  have houter : J.slot (xs ++ [J.slot ys, z]) = J.product (J.kept xs ++ [J.slot ys, z]) := by
    rw [slot, kept_outer, J.kept_of_not_isEmpty hfull, J.kept_of_not_isEmpty hz]
    exact J.whole_eq_product (by simp)
  have hnested : J.slot (xs ++ [J.slot (ys ++ [z])]) =
      J.whole (J.kept xs ++ [J.product (y :: rest ++ [z])]) := by
    rw [slot, J.kept_append, hinner, J.kept_of_not_isEmpty (J.isEmpty_product _)]
  rw [houter, hnested]
  cases hxs : J.kept xs with
  | nil =>
    rw [List.nil_append, List.nil_append, whole, J.product_injective.eq_iff, slot, hys]
    cases rest with
    | nil => exact iff_of_true rfl ⟨rfl, rfl⟩
    | cons y' rest => simp
  | cons x front =>
    -- two items are put behind `x` on the one side, and one on the other
    rw [J.whole_eq_product (by simp), J.product_injective.eq_iff]
    refine iff_of_false (fun heq => ?_) fun h => absurd h.1 (List.cons_ne_nil _ _)
    have hlength := congrArg List.length heq
    simp at hlength

/-- **Where a sequence ends does not matter** for what comes last, exactly if this is empty, or if
there is nothing in front of it, or if there is one item which has nothing in front of itself. -/
theorem slot_nested_iff (xs ys : List α) (z : α) :
    J.slot (xs ++ [J.slot ys, z]) = J.slot (xs ++ [J.slot (ys ++ [z])]) ↔
      J.isEmpty z = true ∨ (J.kept ys).length = 0 ∨
        (J.kept xs).length = 0 ∧ (J.kept ys).length ≤ 1 := by
  cases hz : J.isEmpty z with
  | true => exact iff_of_true (J.slot_nested_of_isEmpty hz) (.inl rfl)
  | false =>
    cases hys : J.kept ys with
    | nil => exact iff_of_true (J.slot_nested_of_kept_eq_nil hz hys) (.inr (.inl rfl))
    | cons y rest =>
      rw [J.slot_nested_iff_of_kept hz hys]
      simp

end Lineup

/-! ## Outlines -/

namespace Shape

/-- Outlines side by side. -/
def outlineLineup : Lineup (Tree SlotTitle) where
  isEmpty t := t.label.kind == .empty
  empty := .node { kind := .empty, name := none } []
  product ts := .node { kind := .product, name := none } ts
  isEmpty_empty := rfl
  isEmpty_product _ := rfl
  product_injective _ _ h := (Tree.node.inj h).2

/-- The outline of the shape of a node, given those of its children. -/
def nodeOutline (a : Node) (parts : List (Tree SlotTitle)) : Tree SlotTitle :=
  match a.kind with
  | .literal => outlineLineup.empty
  | .capture => .node { kind := .leaf, name := a.name } []
  | .group => parts.headD outlineLineup.empty
  | .concat => outlineLineup.slot parts
  | .alternation =>
    if parts.all outlineLineup.isEmpty then outlineLineup.empty
    else .node { kind := .sum, name := none } parts
  | .quantifier =>
    let item := parts.headD outlineLineup.empty
    if outlineLineup.isEmpty item then outlineLineup.empty
    else .node { kind := if a.bounds.isOptional then .opt else .repeated, name := none } [item]

end Shape

/-- **The outline of the shape of a pattern**, without the places of the nodes. -/
def Pattern.outline (p : Pattern) : Tree SlotTitle :=
  p.fold fun q parts => Shape.nodeOutline q.label parts

theorem Pattern.outline_eq (p : Pattern) :
    p.outline = Shape.nodeOutline p.label (p.children.map outline) :=
  Tree.fold_eq _ p

namespace Shape

variable {s : Shape} {ss : List Shape}

theorem isEmpty_outline (s : Shape) : outlineLineup.isEmpty s.outline = s.isEmpty := by
  cases s <;> rfl

/-- Only the empty shape has an empty outline. -/
theorem outline_eq_empty (h : outlineLineup.isEmpty s.outline = true) :
    s.outline = outlineLineup.empty := by
  rw [isEmpty_outline] at h
  rw [isEmpty_iff.mp h]
  rfl

theorem kept_outlines (ss : List Shape) :
    outlineLineup.kept (ss.map outline) = (ss.filter (!·.isEmpty)).map outline := by
  rw [Lineup.kept, List.filter_map]
  refine congrArg (List.map outline) (List.filter_congr fun s _ => ?_)
  rw [Function.comp_apply, isEmpty_outline]

theorem outline_sequence (p : Located) (ss : List Shape) :
    (sequence p ss).outline = outlineLineup.slot (ss.map outline) := by
  rw [Lineup.slot, kept_outlines, sequence]
  cases ss.filter (!·.isEmpty) with
  | nil => rfl
  | cons s rest =>
    cases rest with
    | nil => rfl
    | cons s' rest => exact congrArg (Tree.node _) (outlines_eq_map _)

/-- The outline of a node depends on its fields and on the outlines of its children. -/
theorem outline_ofNode (p : Located) (ss : List Shape) :
    (ofNode p ss).outline = nodeOutline p.erase.label (ss.map outline) := by
  have hhead : (ss.map outline).headD outlineLineup.empty = (ss.headD empty).outline := by
    cases ss <;> rfl
  rw [ofNode, nodeOutline, Located.kind_erase, Located.name_erase, Located.bounds_erase, hhead]
  cases p.kind with
  | literal | capture | group => rfl
  | concat => exact outline_sequence p ss
  | alternation =>
    have hempty : (ss.map outline).all outlineLineup.isEmpty = ss.all isEmpty := by
      rw [List.all_map]
      exact congrArg ss.all (funext isEmpty_outline)
    simp only [hempty]
    cases ss.all isEmpty with
    | true => rfl
    | false => exact congrArg (Tree.node _) (outlines_eq_map ss)
  | quantifier =>
    simp only [isEmpty_outline]
    cases (ss.headD empty).isEmpty with
    | true => rfl
    | false =>
      show (loop p _).outline = _
      rw [loop]
      cases p.bounds.isOptional <;> rfl

/-- **The outline of the inferred shape** is known without the places of the nodes. -/
theorem outline_infer (p : Located) : (infer p).outline = p.erase.outline := by
  induction p using Located.induction with
  | node p ih =>
    rw [infer_eq, outline_ofNode, Pattern.outline_eq, Located.children_erase, List.map_map,
      List.map_map]
    exact congrArg (nodeOutline p.erase.label) (List.map_congr_left ih)

theorem outline_infer_locate (p : Pattern) : (infer p.locate).outline = p.outline := by
  rw [outline_infer, Pattern.erase_locate]

end Shape

/-! ## Paths -/

namespace Shape

/-- The paths to the leaves of a slot, given those to the leaves of its children. -/
def nodePaths (kind : SlotKind) (parts : List (List SlotPath)) : List SlotPath :=
  match kind with
  | .empty => []
  | .leaf => [[]]
  | .product => parts.zipIdx.flatMap fun part => part.1.map (.member part.2 :: ·)
  | .sum => parts.zipIdx.flatMap fun part => part.1.map (.branch part.2 :: ·)
  | .repeated => (parts.headD []).map (.each :: ·)
  | .opt => (parts.headD []).map (.inner :: ·)

/-- The paths to the leaves of an outline, from left to right. -/
def outlinePaths (t : Tree SlotTitle) : List SlotPath :=
  t.fold fun t parts => nodePaths t.label.kind parts

theorem outlinePaths_node (a : SlotTitle) (ts : List (Tree SlotTitle)) :
    outlinePaths (.node a ts) = nodePaths a.kind (ts.map outlinePaths) :=
  Tree.fold_eq _ _

theorem map_snd_leafPathsAll {step : Nat → Step} {paths : Shape → List SlotPath} {ss : List Shape}
    (h : ∀ s ∈ ss, s.leafPaths.map Prod.snd = paths s) (i : Nat) :
    (leafPathsAll step i ss).map Prod.snd =
      ((ss.map paths).zipIdx i).flatMap fun part => part.1.map (step part.2 :: ·) := by
  induction ss generalizing i with
  | nil => rfl
  | cons s ss ih =>
    obtain ⟨hs, hss⟩ := List.forall_mem_cons.mp h
    rw [leafPathsAll, List.map_append, ih hss, List.map_cons, List.zipIdx_cons, List.flatMap_cons,
      ← hs, List.map_map, List.map_map]
    rfl

/-- **The outline tells the paths to the leaves**, if every leaf has an origin. -/
theorem map_snd_leafPaths {s : Shape} (h : ∀ l ∈ s.leaves, l.origin ≠ none) :
    s.leafPaths.map Prod.snd = outlinePaths s.outline := by
  have hall : ∀ ss : List Shape, (∀ s ∈ ss, (∀ l ∈ s.leaves, l.origin ≠ none) →
      s.leafPaths.map Prod.snd = outlinePaths s.outline) →
      (∀ l ∈ leavesAll ss, l.origin ≠ none) → ∀ (step : Nat → Step),
      (leafPathsAll step 0 ss).map Prod.snd = ((outlines ss).map outlinePaths).zipIdx.flatMap
        fun part => part.1.map (step part.2 :: ·) := by
    intro ss ih horigin step
    rw [leavesAll_eq] at horigin
    rw [outlines_eq_map, List.map_map]
    exact map_snd_leafPathsAll (fun s hs => ih s hs fun l hl =>
      horigin l (List.mem_flatMap.mpr ⟨s, hs, hl⟩)) 0
  induction s with
  | empty => rfl
  | leaf o =>
    cases o with
    | none => exact absurd rfl (h (leaf none) List.mem_cons_self)
    | some c => rfl
  | product o ss ih =>
    rw [outline, outlinePaths_node]
    exact hall ss ih h .member
  | sum o ss ih =>
    rw [outline, outlinePaths_node]
    exact hall ss ih h .branch
  | repeated o s ih | opt o s ih =>
    rw [leafPaths, outline, outlinePaths_node, List.map_singleton, ← ih h, List.map_map]
    show _ = (s.leafPaths.map Prod.snd).map _
    rw [List.map_map]
    rfl

end Shape

/-- **Which captures are hidden**, in pre-order: those with another capture around them. -/
def Pattern.hidden (p : Pattern) : List Bool :=
  p.fold fun q parts =>
    if q.label.kind = .capture then false :: parts.flatten.map fun _ => true else parts.flatten

theorem Pattern.hidden_eq (p : Pattern) : p.hidden =
    if p.label.kind = .capture then false :: (p.children.map hidden).flatten.map fun _ => true
    else (p.children.map hidden).flatten :=
  Tree.fold_eq _ p

namespace Located

variable {p : Located}

/-- Whether a capture is hidden is known without the places of the nodes. -/
theorem Distinct.map_isHidden_captures (hd : p.Distinct) :
    p.captures.map (fun c => p.isHidden c.id) = p.erase.hidden := by
  induction p using Located.induction with
  | node p ih =>
    have hinside : ∀ q ∈ p.children, (captures q).map (fun c => p.isHidden c.id) =
        (erase q).hidden.map (p.isCapture || ·) := by
      intro q hq
      rw [← ih q hq (hd.child hq), List.map_map]
      exact List.map_congr_left fun c hc =>
        hd.isHidden_of_mem_child hq (id_mem_ids (List.mem_of_mem_filter hc))
    have hchildren : (p.children.flatMap captures).map (fun c => p.isHidden c.id) =
        (p.erase.children.map Pattern.hidden).flatten.map (p.isCapture || ·) := by
      rw [List.map_flatMap, children_erase, List.map_map, ← List.flatMap_def, List.map_flatMap]
      exact List.flatMap_congr hinside
    rw [captures_eq, List.map_append, hchildren, Pattern.hidden_eq, kind_erase]
    by_cases hk : p.kind = .capture
    · have hcapture : p.isCapture = true := beq_iff_eq.mpr hk
      rw [if_pos hcapture, if_pos hk, List.map_singleton, hd.isHidden_self, hcapture]
      rfl
    · have hcapture : p.isCapture = false := beq_false_of_ne hk
      rw [if_neg (by rw [hcapture]; decide), if_neg hk, hcapture]
      exact List.map_id _

end Located

/-- What is listed for those that are not hidden, and nothing for the others. -/
def spread {α : Type} : List Bool → List α → List (Option α)
  | [], _ => []
  | true :: hidden, xs => none :: spread hidden xs
  | false :: hidden, xs => xs.head? :: spread hidden xs.tail

/-- **Looking up the keys of all**, where only those that are not hidden are listed. -/
theorem map_lookup_eq_spread {α γ : Type} {key : γ → Nat} {hidden : γ → Bool} {cs : List γ}
    {xs : List (Nat × α)} (hlisted : xs.map Prod.fst = (cs.filter (!hidden ·)).map key)
    (hnodup : (cs.map key).Nodup) :
    cs.map (fun c => xs.lookup (key c)) = spread (cs.map hidden) (xs.map Prod.snd) := by
  induction cs generalizing xs with
  | nil => rfl
  | cons c cs ih =>
    rw [List.map_cons, List.nodup_cons] at hnodup
    obtain ⟨hfresh, hnodup⟩ := hnodup
    rw [List.filter_cons] at hlisted
    rw [List.map_cons, List.map_cons]
    cases hc : hidden c with
    | true =>
      rw [hc] at hlisted
      have hnone : xs.lookup (key c) = none := by
        refine List.lookup_eq_none_iff.mpr fun e he => bne_iff_ne.mpr fun heq => hfresh ?_
        have hmem : e.1 ∈ (cs.filter (!hidden ·)).map key := hlisted ▸ List.mem_map_of_mem he
        rw [heq]
        exact (List.filter_sublist.map key).subset hmem
      rw [spread, hnone, ih hlisted hnodup]
    | false =>
      rw [hc] at hlisted
      obtain ⟨e, rest, rfl, he, hrest⟩ := List.map_eq_cons_iff.mp hlisted
      have hlater : cs.map (fun c => (e :: rest).lookup (key c)) =
          cs.map fun c => rest.lookup (key c) := by
        refine List.map_congr_left fun d hdmem => ?_
        have hne : (key d == e.1) = false :=
          beq_false_of_ne fun heq => hfresh (he ▸ heq ▸ List.mem_map_of_mem hdmem)
        rw [List.lookup_cons, hne]
      rw [hlater, ih hrest hnodup, List.lookup_cons, he, beq_self_eq_true]
      rfl

/-- **The paths in the table of captures** are known without the places of the nodes. -/
theorem CaptureInfo.map_path_table {p : Located} (hwell : p.WellFormed) (hd : p.Distinct) :
    (table p (.infer p)).map path = spread p.erase.hidden (Shape.outlinePaths p.erase.outline) := by
  have horigin : ∀ l ∈ (Shape.infer p).leaves, l.origin ≠ none := by
    rw [hwell.leaves_infer hd, List.forall_mem_map]
    exact fun c _ => Option.some_ne_none c
  have hnodup : (p.captures.map Located.id).Nodup :=
    (List.filter_sublist.map Located.id).nodup hd
  have hpaths : (table p (.infer p)).map path =
      p.captures.map fun c => (Shape.infer p).leafPaths.lookup c.id := by
    rw [← map_node_table p (.infer p), List.map_map, table, List.map_map, List.map_map]
    rfl
  rw [hpaths, map_lookup_eq_spread (Located.map_fst_leafPaths hwell hd) hnodup,
    hd.map_isHidden_captures, Shape.map_snd_leafPaths horigin, Shape.outline_infer]

end CaptureTree
