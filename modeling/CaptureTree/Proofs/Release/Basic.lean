import CaptureTree.Proofs.Naming

/-!
# Releasing a capture

To release a capture is to turn it into a group around the same pattern.  What it matches
is matched as before, but no longer recorded.  The outline of the pattern stays the same, so
every node keeps its position, and a node of the one pattern is found again in the other by
its position (`Pattern.locate_release`).

What the table of captures loses is one entry (`Located.capturesIn_release`), and a pattern
that validation accepts is still accepted (`Pattern.validate_release`).
-/

namespace CaptureTree

/-- **The pattern with its node at position `n` turned into a group.** -/
def Pattern.release (n : NodeId) (p : Pattern) : Pattern :=
  p.numbered (fun id node => if id = n then { kind := .group } else node) 0

namespace Located

/-- The fields of a node after the node at position `n` has become a group. -/
def releaseSite (n : NodeId) (a : Site) : Site :=
  if a.id = n then { kind := .group, id := n } else a

/-- The located pattern with its node at position `n` turned into a group. -/
def release (n : NodeId) (p : Located) : Located :=
  p.fold fun q parts => .node (releaseSite n q.label) parts

variable {p q a : Located} {n : NodeId}

theorem release_eq (n : NodeId) (p : Located) :
    p.release n = .node (releaseSite n p.label) (p.children.map (release n)) :=
  Tree.fold_eq _ p

theorem children_release : (p.release n).children = p.children.map (release n) := by
  rw [release_eq, Tree.children_node]

theorem children_release_singleton (h : p.children = [q]) :
    (p.release n).children = [q.release n] := by
  rw [children_release, h, List.map_singleton]

theorem label_release_of_ne (h : p.id ≠ n) : (p.release n).label = p.label := by
  rw [release_eq, Tree.label_node]
  exact if_neg h

theorem label_release_self (h : p.id = n) : (p.release n).label = { kind := .group, id := n } := by
  rw [release_eq, Tree.label_node]
  exact if_pos h

theorem kind_release_of_ne (h : p.id ≠ n) : (p.release n).kind = p.kind := by
  rw [kind, label_release_of_ne h, kind]

theorem kind_release_self (h : p.id = n) : (p.release n).kind = .group := by
  rw [kind, label_release_self h]

/-- Every node keeps its position. -/
@[simp] theorem id_release : (p.release n).id = p.id := by
  by_cases h : p.id = n
  · rw [id, label_release_self h, h]
  · rw [id, label_release_of_ne h, id]

theorem subtrees_release : (p.release n).subtrees = p.subtrees.map (release n) := by
  induction p using Located.induction with
  | node p ih =>
    rw [Tree.subtrees_eq, Tree.subtrees_eq, List.map_cons, List.map_flatMap, children_release,
      List.flatMap_map]
    exact congrArg (p.release n :: ·) (List.flatMap_congr ih)

theorem ids_release : (p.release n).ids = p.ids := by
  rw [ids, subtrees_release, List.map_map]
  exact List.map_congr_left fun a _ => id_release

/-! ## Captures -/

theorem isCapture_release : (p.release n).isCapture = (p.isCapture && p.id != n) := by
  rw [isCapture, isCapture]
  by_cases h : p.id = n
  · rw [kind_release_self h, h, bne_self_eq_false, Bool.and_false]
    rfl
  · rw [kind_release_of_ne h, bne_iff_ne.mpr h, Bool.and_true]

theorem captures_release :
    (p.release n).captures = (p.captures.filter fun a => a.id != n).map (release n) := by
  rw [captures, subtrees_release, List.filter_map, captures, List.filter_filter]
  refine congrArg (List.map _) (List.filter_congr fun a _ => ?_)
  rw [Function.comp_apply, isCapture_release, Bool.and_comm]

/-- A capture that is left was there before. -/
theorem hasCapture_of_release (h : (p.release n).hasCapture = true) : p.hasCapture = true := by
  rw [hasCapture, subtrees_release, List.any_map, List.any_eq_true] at h
  obtain ⟨a, ha, hcapture⟩ := h
  rw [Function.comp_apply, isCapture_release, Bool.and_eq_true] at hcapture
  exact List.any_eq_true.mpr ⟨a, ha, hcapture.1⟩

/-- Is there nothing but a capture at position `n`? -/
def CaptureAt (n : NodeId) (p : Located) : Prop :=
  ∀ a ∈ p.subtrees, Located.id a = n → Located.kind a = .capture

namespace CaptureAt

theorem of_mem_subtrees (h : p.CaptureAt n) (hq : q ∈ p.subtrees) : q.CaptureAt n :=
  fun a ha => h a (Tree.mem_subtrees_trans ha hq)

theorem child (h : p.CaptureAt n) (hq : q ∈ p.children) : q.CaptureAt n :=
  h.of_mem_subtrees (mem_subtrees_of_mem_children hq)

theorem id_ne (h : p.CaptureAt n) (hk : p.kind ≠ .capture) : p.id ≠ n := fun hid =>
  hk (h p (Tree.mem_subtrees_self p) hid)

theorem kind_eq_quantifier_iff (h : p.CaptureAt n) :
    (p.release n).kind = .quantifier ↔ p.kind = .quantifier := by
  by_cases hid : p.id = n
  · rw [kind_release_self hid, h p (Tree.mem_subtrees_self p) hid]
    exact iff_of_false (by decide) (by decide)
  · rw [kind_release_of_ne hid]

end CaptureAt

/-- A released pattern is as well formed as it was. -/
theorem WellFormed.release (h : p.WellFormed) (hn : p.CaptureAt n) : (p.release n).WellFormed := by
  induction h with
  | @literal p hk hc hclass =>
    have hid := hn.id_ne (by rw [hk]; decide)
    refine .literal ((kind_release_of_ne hid).trans hk) ?_ ?_
    · rw [children_release, hc, List.map_nil]
    · rw [label_release_of_ne hid]
      exact hclass
  | @capture p q hk hq _ ih =>
    have hwell := ih (hn.child (mem_children_of_eq hq))
    by_cases hid : p.id = n
    · exact .group (kind_release_self hid) (children_release_singleton hq) hwell
    · exact .capture ((kind_release_of_ne hid).trans hk) (children_release_singleton hq) hwell
  | @group p q hk hq _ ih =>
    have hid := hn.id_ne (by rw [hk]; decide)
    exact .group ((kind_release_of_ne hid).trans hk) (children_release_singleton hq)
      (ih (hn.child (mem_children_of_eq hq)))
  | @concat p hk _ ih =>
    have hid := hn.id_ne (by rw [hk]; decide)
    refine .concat ((kind_release_of_ne hid).trans hk) ?_
    rw [children_release, List.forall_mem_map]
    exact fun q hq => ih q hq (hn.child hq)
  | @alternation p hk hne _ ih =>
    have hid := hn.id_ne (by rw [hk]; decide)
    refine .alternation ((kind_release_of_ne hid).trans hk) ?_ ?_
    · rw [children_release]
      exact fun hnil => hne (List.map_eq_nil_iff.mp hnil)
    · rw [children_release, List.forall_mem_map]
      exact fun q hq => ih q hq (hn.child hq)
  | @quantifier p q hk hq hroom _ ih =>
    have hid := hn.id_ne (by rw [hk]; decide)
    refine .quantifier ((kind_release_of_ne hid).trans hk) (children_release_singleton hq) ?_
      (ih (hn.child (mem_children_of_eq hq)))
    rw [bounds, label_release_of_ne hid]
    exact hroom

/-- **The table of captures loses one entry**, and the nodes in it are those of the released
pattern. -/
theorem capturesIn_release (h : p.CaptureAt n) (outer : List Located) :
    (p.release n).capturesIn (outer.map (release n)) =
      ((p.capturesIn outer).filter fun e => e.1.id != n).map
        fun e => (e.1.release n, e.2.map (release n)) := by
  induction p using Located.induction generalizing outer with
  | node p ih =>
    have haround : (if (p.release n).kind = .quantifier then
        outer.map (release n) ++ [p.release n] else outer.map (release n)) =
          (if p.kind = .quantifier then outer ++ [p] else outer).map (release n) := by
      simp only [h.kind_eq_quantifier_iff]
      split
      · rw [List.map_append, List.map_singleton]
      · rfl
    rw [capturesIn_eq, capturesIn_eq, haround, children_release, List.flatMap_map,
      List.filter_append, List.map_append, List.filter_flatMap, List.map_flatMap]
    refine congrArg₂ List.append ?_ (List.flatMap_congr fun q hq => ih q hq (h.child hq) _)
    rw [isCapture_release]
    cases p.isCapture with
    | false => rfl
    | true =>
      rw [Bool.true_and, if_pos rfl, List.filter_cons, List.filter_nil]
      split
      · rfl
      · rfl

end Located

/-! ## Patterns without positions -/

namespace Pattern

variable {p : Pattern} {n : NodeId}

theorem locateFrom_release (n k : Nat) (p : Pattern) :
    Pattern.locateFrom k
        (p.numbered (fun id node => if id = n then { kind := .group } else node) k) =
      (p.locateFrom k).release n := by
  induction p using Tree.induction generalizing k with
  | node a ts ih =>
    let relabel : Nat → Node → Node := fun id node => if id = n then { kind := .group } else node
    let site : Nat → Node → Site := fun id node => { node with id }
    have hall : ∀ us : List Pattern, (∀ u ∈ us, u ∈ ts) → ∀ k,
        Tree.numberedAll site k (Tree.numberedAll relabel k us) =
          (Tree.numberedAll site k us).map (Located.release n) := by
      intro us hus
      induction us with
      | nil => intro k; rfl
      | cons u us ihus =>
        intro k
        have hu := ih u (hus u List.mem_cons_self) k
        have hrest := ihus (fun v hv => hus v (List.mem_cons_of_mem u hv)) (k + u.size)
        rw [Tree.numberedAll, Tree.numberedAll, Tree.size_numbered, hrest, Tree.numberedAll,
          List.map_cons]
        exact congrArg (· :: _) hu
    rw [Located.release_eq]
    refine congrArg₂ Tree.node ?_ (hall ts (fun _ h => h) (k + 1))
    show site k (relabel k a) = Located.releaseSite n (site k a)
    simp only [site, relabel, Located.releaseSite]
    split
    · rename_i hk
      rw [hk]
    · rfl

/-- **Releasing and locating** may be done in either order. -/
theorem locate_release : (p.release n).locate = p.locate.release n :=
  locateFrom_release n 0 p

theorem erase_release : (p.locate.release n).erase = p.release n := by
  rw [← locate_release, erase_locate]

/-! ## Validation -/

/-- A node that has become a group has nothing wrong with it: a group complains about its
children as a capture does. -/
theorem defect_release {a : Located} (hn : a.id = n → a.kind = .capture)
    (h : a.erase.defect [] = none) : (a.release n).erase.defect [] = none := by
  have hlength : ((a.release n).erase).children.length = (a.erase).children.length := by
    rw [Located.erase_eq, Located.erase_eq, Located.children_release]
    simp only [Tree.children_node, List.length_map]
  by_cases hid : a.id = n
  · have hk : a.erase.label.kind = .capture := by
      rw [Located.erase_eq, Tree.label_node]
      exact hn hid
    have hk' : (a.release n).erase.label.kind = .group := by
      rw [Located.erase_eq, Tree.label_node]
      exact Located.kind_release_self hid
    rw [defect, hk] at h
    have hone := childDefect_eq_none (Option.or_eq_none_iff.mp h).2
    rw [defect, hk']
    exact if_pos (hlength.trans hone)
  · rw [← h]
    refine defect_congr ?_ hlength
    rw [Located.erase_eq, Located.erase_eq, Located.label_release_of_ne hid]
    rfl

/-- The captures that are left keep their names. -/
theorem captureNames_release_sublist (n : NodeId) (p : Located) :
    ((p.release n).captures.filterMap Located.name).Sublist
      (p.captures.filterMap Located.name) := by
  have hkept : ∀ a ∈ p.captures.filter (fun a => a.id != n),
      (Located.name ∘ Located.release n) a = Located.name a := by
    intro a ha
    have hid : Located.id a ≠ n := bne_iff_ne.mp (List.mem_filter.mp ha).2
    rw [Function.comp_apply, Located.name, Located.label_release_of_ne hid, Located.name]
  rw [Located.captures_release, List.filterMap_map, List.filterMap_congr hkept]
  exact List.filter_sublist.filterMap _

/-- **A pattern that is accepted** is accepted with a capture released. -/
theorem validate_release (h : p.validate = .ok ()) (hn : p.locate.CaptureAt n) :
    (p.release n).validate = .ok () := by
  rw [validate_eq_ok_iff] at h ⊢
  obtain ⟨hnodes, hnames⟩ := h
  rw [← p.erase_locate, Located.filterMap_captureName] at hnames
  rw [← erase_release, Located.filterMap_captureName]
  refine ⟨fun q hq => ?_, (captureNames_release_sublist n p.locate).nodup hnames⟩
  rw [Located.subtrees_erase, Located.subtrees_release, List.map_map] at hq
  obtain ⟨a, ha, rfl⟩ := List.mem_map.mp hq
  have hmem := Located.erase_mem_subtrees ha
  rw [p.erase_locate] at hmem
  exact defect_release (hn a ha) (hnodes _ hmem)

end Pattern

end CaptureTree
