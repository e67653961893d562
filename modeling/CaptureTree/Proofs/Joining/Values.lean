import CaptureTree.Proofs.Denotation
import CaptureTree.Proofs.Joining.Slots

/-!
# Parentheses and values

The value of a match is made like the shape: what a part comes to is empty exactly if the part
leaves no slot (`Pattern.Faultless.fits_of_mem_ways`).  So where three operands are joined without
a seam, the parentheses do not show in any value either: `Joining.ways_value_join_join`.

The ways of a sequence are those of its parts one after the other, and the parentheses only say how
often the sum is taken (`Way.inSequence_nested`).  An alternation whose branches leave no slots has
just the ways of its branches (`Pattern.ways_value_orElse`).
-/

namespace CaptureTree

/-! ## Ways in sequence -/

namespace Way

variable {β : Type} {F : List β → β} {fs gs : List (Cursor → List (Way β))}
  {k : Cursor → List (Way β)} {c : Cursor}

theorem inSequence_singleton (k : Cursor → List (Way β)) (c : Cursor) :
    inSequence [k] c = (k c).map (map fun b => [b]) := by
  rw [inSequence, ← List.flatMap_pure_eq_map]
  rfl

/-- **A sequence inside a sequence**, with the last part inside or outside, if it makes no
difference for what is made of the ways that there are. -/
theorem inSequence_nested
    (h : ∀ u ∈ inSequence fs c, ∀ v ∈ inSequence gs u.1, ∀ w ∈ k v.1,
      F (u.2 ++ [F (v.2 ++ [w.2])]) = F (u.2 ++ [F v.2, w.2])) :
    (inSequence (fs ++ [fun c => (inSequence (gs ++ [k]) c).map (map F)]) c).map (map F) =
      (inSequence (fs ++ [fun c => (inSequence gs c).map (map F), k]) c).map (map F) := by
  rw [inSequence_append, inSequence_append, List.map_flatMap, List.map_flatMap]
  refine List.flatMap_congr fun u hu => ?_
  rw [inSequence_singleton, inSequence, inSequence_append, List.flatMap_map]
  simp only [List.map_flatMap, List.map_map, inSequence_singleton]
  refine List.flatMap_congr fun v hv => List.map_congr_left fun w hw => ?_
  exact congrArg (Prod.mk w.1) (h u hu v hv w hw)

end Way

/-! ## What a way comes to -/

namespace Value

/-- Values side by side. -/
def lineup : Lineup Value where
  isEmpty v := v.kind == .empty
  empty := empty
  product := product
  isEmpty_empty := rfl
  isEmpty_product _ := rfl
  product_injective _ _ h := (Tree.node.inj h).2

theorem sequence_eq_slot : sequence = lineup.slot := by
  funext vs
  show sequence vs = lineup.whole (vs.filter (·.kind != .empty))
  rw [sequence]
  cases vs.filter (·.kind != .empty) with
  | nil => rfl
  | cons v rest => cases rest <;> rfl

end Value

namespace Pattern

variable {op : Joining} {p q a b c : Pattern} {ps : List Pattern} {cur : Cursor}

/-- A pattern with nothing wrong in it is well formed. -/
theorem Faultless.wellFormed (h : p.Faultless) : p.locate.WellFormed :=
  Located.wellFormed_of_defect fun _ ha =>
    ⟨[], h _ (p.erase_locate ▸ Located.erase_mem_subtrees ha)⟩

/-- What a way comes to has the kind of the slot of the pattern. -/
theorem Faultless.exists_assemble (h : p.Faultless) {w : Way Value}
    (hw : w ∈ p.ways .value cur) : ∃ t, Value.assemble (.infer p.locate) t = .ok w.2 := by
  have htells := h.wellFormed.tells_ways p.distinct_locate (S := .value) cur
  rw [p.erase_locate] at htells
  obtain ⟨o, -, ho⟩ := exists_mem_of_forall₂ htells hw
  exact ⟨o.records, ho.comesTo.assemble_infer h.wellFormed⟩

/-- **What a way comes to is empty** exactly if the pattern leaves no slot. -/
theorem Faultless.fits_of_mem_ways (h : p.Faultless) {w : Way Value}
    (hw : w ∈ p.ways .value cur) : Value.lineup.Fits p w.2 := by
  obtain ⟨t, ht⟩ := h.exists_assemble hw
  have hkind : (Shape.infer p.locate).isEmpty = ((Shape.infer p.locate).kind == .empty) := by
    cases Shape.infer p.locate <;> rfl
  rw [Lineup.Fits, hasSlot, Bool.not_not, hkind, ← Value.kind_of_assemble ht]
  rfl

/-- Then it is the empty value. -/
theorem Faultless.eq_empty_of_mem_ways (h : p.Faultless) {w : Way Value}
    (hw : w ∈ p.ways .value cur) (hempty : Value.lineup.isEmpty w.2 = true) :
    w.2 = .empty := by
  obtain ⟨t, ht⟩ := h.exists_assemble hw
  have hfits : Value.lineup.isEmpty w.2 = !p.hasSlot := h.fits_of_mem_ways hw
  rw [hempty, hasSlot, Bool.not_not] at hfits
  rw [Shape.isEmpty_iff.mp hfits.symm] at ht
  exact (Except.ok.inj ht).symm

/-- In a sequence, this holds of every part. -/
theorem fits_of_mem_inSequence (h : ∀ p ∈ ps, Faultless p) {w : Way (List Value)}
    (hw : w ∈ Way.inSequence (ps.map (ways .value)) cur) :
    List.Forall₂ Value.lineup.Fits ps w.2 := by
  induction ps generalizing cur w with
  | nil =>
    obtain rfl := List.mem_singleton.mp hw
    exact .nil
  | cons p ps ih =>
    obtain ⟨hp, hps⟩ := List.forall_mem_cons.mp h
    rw [List.map_cons, Way.inSequence] at hw
    obtain ⟨u, hu, hw⟩ := List.mem_flatMap.mp hw
    obtain ⟨v, hv, rfl⟩ := List.mem_map.mp hw
    exact .cons (hp.fits_of_mem_ways hu) (ih hps hv)

/-! ## Sequences -/

theorem ways_value_followedBy (p q : Pattern) :
    (Joining.followedBy.join p q).ways .value = fun c =>
      (Way.inSequence ((Joining.followedBy.parts p).map (ways .value) ++ [q.ways .value]) c).map
        (Way.map Value.lineup.slot) := by
  funext c
  have hk : (Joining.followedBy.root p).kind = .concat := Joining.followedBy.kind_root p
  rw [Joining.join_eq, ways_node, nodeWays, hk, ← Value.sequence_eq_slot, List.map_append]
  rfl

/-- A pattern has the ways of its parts in a sequence. -/
theorem Faultless.ways_value_eq (h : p.Faultless) :
    p.ways .value = fun c =>
      (Way.inSequence ((Joining.followedBy.parts p).map (ways .value)) c).map
        (Way.map Value.lineup.slot) := by
  funext c
  rw [Joining.parts]
  split
  · rename_i hk
    have hk : p.label.kind = .concat := hk
    rw [ways_eq, nodeWays, hk, ← Value.sequence_eq_slot]
    rfl
  · rw [List.map_cons, List.map_nil, Way.inSequence_singleton, List.map_map]
    refine (List.map_id _).symm.trans (List.map_congr_left fun w hw => ?_)
    have hsingle := Value.lineup.slot_singleton (h.eq_empty_of_mem_ways hw)
    exact congrArg (Prod.mk w.1) hsingle.symm

/-! ## Alternations without slots -/

theorem Faultless.absentResults_eq_nil (h : p.Faultless) (hnone : p.hasSlot = false) :
    p.absentResults = [] := by
  have hempty := Located.isEmpty_absentResults p.locate
  rw [p.erase_locate, ← h.wellFormed.isEmpty_infer] at hempty
  rw [hasSlot, Bool.not_eq_false'] at hnone
  rw [← List.isEmpty_iff, hempty, hnone]

/-- Without slots, an alternation adds nothing to its branches. -/
theorem ways_value_alternation {n : Node} (hk : n.kind = .alternation)
    (h : ∀ p ∈ ps, Faultless p) (hnone : ∀ p ∈ ps, hasSlot p = false) :
    ways .value (.node n ps) = fun c => ps.flatMap fun p => p.ways .value c := by
  funext c
  have habsent : (ps.map absentResults).all List.isEmpty = true := by
    rw [List.all_map, List.all_eq_true]
    exact fun p hp => List.isEmpty_iff.mpr ((h p hp).absentResults_eq_nil (hnone p hp))
  have hbranch : Summary.value.branch (ps.map absentResults) = fun _ _ => .empty := by
    funext i v
    rw [Summary.value_branch, if_pos habsent]
  rw [ways_node, nodeWays, hk]
  show Way.inBranches (Summary.value.branch _) _ c = _
  rw [hbranch, Way.inBranches, ← List.flatMap_map (g := fun f : Cursor → List (Way Value) =>
    (f c).map (Way.map fun _ => Value.empty)) (f := Prod.fst), List.zipIdx_map_fst,
    List.flatMap_map]
  refine List.flatMap_congr fun p hp => ?_
  refine (List.map_congr_left fun w hw => ?_).trans (List.map_id _)
  have hfits : Value.lineup.isEmpty w.2 = !hasSlot p := (h p hp).fits_of_mem_ways hw
  rw [hnone p hp] at hfits
  exact congrArg (Prod.mk w.1) ((h p hp).eq_empty_of_mem_ways hw hfits).symm

theorem ways_value_orElse (h : (Joining.orElse.join p q).Faultless)
    (hnone : (Joining.orElse.join p q).hasSlot = false) :
    (Joining.orElse.join p q).ways .value = fun c =>
      ((Joining.orElse.parts p).flatMap fun x => x.ways .value c) ++ q.ways .value c := by
  rw [hasSlot_eq_false_iff_parts .orElse, Joining.parts_join] at hnone
  have hall : ∀ x ∈ Joining.orElse.parts p ++ [q], Faultless x := by
    rw [← Joining.parts_join]
    exact h.parts .orElse
  rw [Joining.join_eq, ways_value_alternation (Joining.orElse.kind_root p) hall hnone]
  simp only [List.flatMap_append, List.flatMap_singleton]

/-- A pattern without slots has the ways of its branches. -/
theorem Faultless.ways_value_eq_flatMap (h : p.Faultless) (hnone : p.hasSlot = false) :
    p.ways .value = fun c => (Joining.orElse.parts p).flatMap fun x => x.ways .value c := by
  have hall := h.parts .orElse
  rw [hasSlot_eq_false_iff_parts .orElse] at hnone
  rw [Joining.parts] at hall hnone ⊢
  split at hall
  · rename_i hk
    rw [if_pos hk] at hnone ⊢
    rw [← ways_value_alternation hk hall hnone, Tree.node_label_children]
  · rename_i hk
    rw [if_neg hk]
    simp only [List.flatMap_singleton]

end Pattern

/-! ## Joining without a seam -/

/-- **Where operands are joined without a seam, all values are equal** as well. -/
theorem Joining.ways_value_join_join {op : Joining} {a b c : Pattern} (h : op.Seamless a b c)
    (hright : (op.join a (op.join b c)).Faultless) (hleft : (op.join (op.join a b) c).Faultless) :
    (op.join a (op.join b c)).ways .value = (op.join (op.join a b) c).ways .value := by
  obtain ⟨ha, hinner⟩ := (Pattern.faultless_join op _ _).mp hright
  obtain ⟨hparts, hc⟩ := (Pattern.faultless_join op _ _).mp hleft
  have hb : b.Faultless := by
    rw [parts_join, List.forall_mem_append, List.forall_mem_singleton] at hparts
    exact hparts.2
  cases op with
  | followedBy =>
    funext cur
    simp only [Pattern.ways_value_followedBy, parts_join, List.map_append, List.append_assoc]
    show _ = (Way.inSequence (_ ++ [b.ways .value, _]) cur).map _
    rw [hb.ways_value_eq]
    refine Way.inSequence_nested fun u hu v hv w hw => ?_
    exact (Value.lineup.slot_nested_iff_seamless (Pattern.fits_of_mem_inSequence ha hu)
      (Pattern.fits_of_mem_inSequence (hb.parts .followedBy) hv) (hc.fits_of_mem_ways hw)).mpr h
  | orElse =>
    obtain ⟨hnoneA, hnoneB, hnoneC⟩ := h
    have hnoneInner := (Pattern.hasSlot_join_eq_false_iff .orElse b c).mpr ⟨hnoneB, hnoneC⟩
    have hnoneRight := (Pattern.hasSlot_join_eq_false_iff .orElse a _).mpr ⟨hnoneA, hnoneInner⟩
    have hnoneLeft := (Pattern.hasSlot_join_eq_false_iff .orElse _ c).mpr
      ⟨(Pattern.hasSlot_join_eq_false_iff .orElse a b).mpr ⟨hnoneA, hnoneB⟩, hnoneC⟩
    rw [Pattern.ways_value_orElse hright hnoneRight, Pattern.ways_value_orElse hleft hnoneLeft,
      Pattern.ways_value_orElse hinner hnoneInner]
    funext cur
    simp only [parts_join, List.flatMap_append, List.flatMap_singleton, List.append_assoc,
      hb.ways_value_eq_flatMap hnoneB]

end CaptureTree
