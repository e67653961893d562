import CaptureTree.Proofs.Positions
import CaptureTree.Proofs.Shape.Paths

/-!
# The printed form of a shape

The printed form of a shape shows kinds and names, and nothing of the places of the nodes
that the shape stems from.  So it can be read off a pattern whose nodes do not know their
place: `Pattern.shapeText` does so from the leaves of the pattern up, and
`Shape.printed_infer` says that it is what is printed for the inferred shape.

Parts without captures leave no slot, and here they have no text.
-/

namespace CaptureTree

namespace Shape

/-- The printed form of a slot, none for an empty one. -/
def printed (s : Shape) : Option String :=
  if s.isEmpty then none else some s.text

/-- The printed form of several slots side by side, less the empty ones. -/
def sequenceText (parts : List (Option String)) : Option String :=
  match parts.reduceOption with
  | [] => none
  | [s] => some s
  | kept => some (SlotKind.product.name ++ "[" ++ ", ".intercalate kept ++ "]")

/-- The printed form of the shape of a node, given those of its children. -/
def nodeText (a : Node) (parts : List (Option String)) : Option String :=
  match a.kind with
  | .literal => none
  | .capture =>
    match a.name with
    | some name => some (SlotKind.leaf.name ++ "(" ++ name ++ ")")
    | none => some SlotKind.leaf.name
  | .group => parts.headD none
  | .concat => sequenceText parts
  | .alternation =>
    if parts.all Option.isNone then none
    else
      let branches := parts.map fun s => s.getD SlotKind.empty.name
      some (SlotKind.sum.name ++ "[" ++ ", ".intercalate branches ++ "]")
  | .quantifier =>
    (parts.headD none).map fun s =>
      if a.bounds.isOptional then SlotKind.opt.name ++ "(" ++ s ++ ")"
      else SlotKind.repeated.name ++ "(" ++ s ++ ")"

end Shape

/-- **The printed form of the shape of a pattern**, if it has captures. -/
def Pattern.shapeText (p : Pattern) : Option String :=
  p.fold fun q parts => Shape.nodeText q.label parts

theorem Pattern.shapeText_eq (p : Pattern) :
    p.shapeText = Shape.nodeText p.label (p.children.map shapeText) :=
  Tree.fold_eq _ p

namespace Shape

variable {s : Shape} {p : Located} {ss : List Shape}

theorem isNone_printed (s : Shape) : s.printed.isNone = s.isEmpty := by
  rw [printed]
  cases s.isEmpty <;> rfl

/-- A slot is printed as it is, also where it is empty. -/
theorem text_eq_getD (s : Shape) : s.text = s.printed.getD SlotKind.empty.name := by
  cases s <;> rfl

theorem texts_eq_map (ss : List Shape) : texts ss = ss.map text := by
  induction ss with
  | nil => rfl
  | cons s ss ih => rw [texts, ih, List.map_cons]

theorem reduceOption_printed (ss : List Shape) :
    (ss.map printed).reduceOption = (ss.filter (!·.isEmpty)).map text := by
  induction ss with
  | nil => rfl
  | cons s ss ih =>
    rw [List.map_cons, List.filter_cons, printed]
    cases s.isEmpty with
    | true => exact ih
    | false => exact congrArg (s.text :: ·) ih

theorem printed_sequence (p : Located) (ss : List Shape) :
    (sequence p ss).printed = sequenceText (ss.map printed) := by
  rw [sequenceText, reduceOption_printed, sequence]
  cases hkept : ss.filter (!·.isEmpty) with
  | nil => rfl
  | cons s rest =>
    cases rest with
    | nil =>
      have hs : s ∈ ss.filter (!·.isEmpty) := by
        rw [hkept]
        exact List.mem_cons_self
      have hnonempty : s.isEmpty = false := by
        simpa using (List.mem_filter.mp hs).2
      rw [printed, hnonempty]
      rfl
    | cons s' rest =>
      show some (text (product p (s :: s' :: rest))) = _
      rw [text, texts_eq_map]
      rfl

theorem printed_loop (q : Located) (s : Shape) :
    (loop q s).printed = some (if q.bounds.isOptional then SlotKind.opt.name ++ "(" ++ s.text ++ ")"
      else SlotKind.repeated.name ++ "(" ++ s.text ++ ")") := by
  rw [loop]
  split
  · rfl
  · rfl

/-- What is printed for a node depends on its fields and on what is printed for its
children. -/
theorem printed_ofNode (p : Located) (ss : List Shape) :
    (ofNode p ss).printed = nodeText p.erase.label (ss.map printed) := by
  have hhead : (ss.map printed).headD none = (ss.headD empty).printed := by
    cases ss <;> rfl
  rw [ofNode, nodeText, Located.kind_erase, Located.name_erase, Located.bounds_erase, hhead]
  cases p.kind with
  | literal => rfl
  | capture =>
    show some (text (leaf (some p))) = _
    rw [text, Option.bind_some]
    cases p.name <;> rfl
  | group => rfl
  | concat => exact printed_sequence p ss
  | alternation =>
    have hempty : (ss.map printed).all Option.isNone = ss.all isEmpty := by
      rw [List.all_map]
      exact congrArg ss.all (funext isNone_printed)
    have hbranches : (ss.map printed).map (fun s => s.getD SlotKind.empty.name) = texts ss := by
      rw [List.map_map, texts_eq_map]
      exact List.map_congr_left fun s _ => (text_eq_getD s).symm
    simp only [hempty, hbranches]
    cases ss.all isEmpty <;> rfl
  | quantifier =>
    simp only [printed]
    cases hs : (ss.headD empty).isEmpty with
    | true => rfl
    | false => exact printed_loop p _

/-- **The printed form of the inferred shape** is known without the places of the nodes. -/
theorem printed_infer (p : Located) : (infer p).printed = p.erase.shapeText := by
  induction p using Located.induction with
  | node p ih =>
    rw [infer_eq, printed_ofNode, Pattern.shapeText_eq, Located.children_erase, List.map_map,
      List.map_map]
    exact congrArg (nodeText p.erase.label) (List.map_congr_left ih)

/-- Shapes are printed alike where the patterns say so. -/
theorem text_infer_congr {p q : Located} (h : p.erase.shapeText = q.erase.shapeText) :
    (infer p).text = (infer q).text := by
  rw [text_eq_getD, text_eq_getD, printed_infer, printed_infer, h]

end Shape

end CaptureTree
