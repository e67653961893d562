import CaptureTree.Proofs.Matching.Ways
import CaptureTree.Proofs.Naming
import CaptureTree.Proofs.Shape.Printing
import Mathlib.Logic.Relation

/-!
# Regrouping a pattern

There are patterns that differ only in how their parts are grouped.  A group may be put
around any node and taken away again (`Pattern.Wraps`), and a concatenation inside a
concatenation, or an alternation as a branch of an alternation, may be spliced into the node
around it (`Pattern.Splices`).

Regrouped patterns are interchangeable (`Pattern.Interchangeable`): validation accepts the
one if it accepts the other, they have the same names, and they have the same ways to match,
in the same order.  For groups this holds whatever the ways are summed up to
(`Pattern.Wraps.interchangeable`), and the shape is printed alike
(`Pattern.shapeText_of_wraps`).  A splice changes the value, but not the results of the
captures (`Pattern.Splices.interchangeable`).
-/

namespace CaptureTree

namespace Pattern

/-! ## Rewriting a pattern -/

/-- **Is a group put around the pattern, or taken away?** -/
inductive Wraps : Pattern → Pattern → Prop
  | wrap (g : Node) (p : Pattern) (kind : g.kind = .group) : Wraps p (.node g [p])
  | unwrap (g : Node) (p : Pattern) (kind : g.kind = .group) : Wraps (.node g [p]) p

/-- **Are the children of a child spliced into the pattern**, in its place?  Parent and
child are both concatenations, or both alternations. -/
inductive Splices : Pattern → Pattern → Prop
  | concat (a b : Node) (before inner after : List Pattern) (kind : a.kind = .concat)
      (nested : b.kind = .concat) :
      Splices (.node a (before ++ .node b inner :: after)) (.node a (before ++ inner ++ after))
  | alternation (a b : Node) (before inner after : List Pattern) (kind : a.kind = .alternation)
      (nested : b.kind = .alternation) :
      Splices (.node a (before ++ .node b inner :: after)) (.node a (before ++ inner ++ after))

/-- Is one node of the pattern rewritten, wherever it stands? -/
inductive Somewhere (R : Pattern → Pattern → Prop) : Pattern → Pattern → Prop
  | here {p p' : Pattern} (step : R p p') : Somewhere R p p'
  | inside {q q' : Pattern} (a : Node) (before after : List Pattern) (step : Somewhere R q q') :
      Somewhere R (.node a (before ++ q :: after)) (.node a (before ++ q' :: after))

/-- Is the pattern regrouped, in one step? -/
def Regroups : Pattern → Pattern → Prop :=
  Somewhere fun p p' => Wraps p p' ∨ Splices p p'

theorem Somewhere.imp {R R' : Pattern → Pattern → Prop} (hstep : ∀ p p', R p p' → R' p p')
    {p p' : Pattern} (h : Somewhere R p p') : Somewhere R' p p' := by
  induction h with
  | here step => exact .here (hstep _ _ step)
  | inside a before after _ ih => exact .inside a before after ih

/-- Putting groups around nodes is regrouping. -/
theorem regroups_of_wraps {p p' : Pattern} (h : Relation.ReflTransGen (Somewhere Wraps) p p') :
    Relation.ReflTransGen Regroups p p' :=
  Relation.ReflTransGen.mono (fun _ _ hstep => hstep.imp fun _ _ => .inl) _ _ h

/-! ## Patterns that may stand for each other -/

/-- Is there nothing wrong with any of the nodes, apart from names that are used twice? -/
def Faultless (p : Pattern) : Prop :=
  ∀ q ∈ p.subtrees, defect [] q = none

/-- The names of the captures. -/
def captureNames (p : Pattern) : List String :=
  p.subtrees.filterMap captureName

/-- **May the second pattern stand for the first**, where matches are summed up? -/
structure Interchangeable {β : Type} (S : Summary β) (p p' : Pattern) : Prop where
  faultless : p.Faultless → p'.Faultless
  names : p'.captureNames = p.captureNames
  absentResults : p'.absentResults = p.absentResults
  ways : p'.ways S = p.ways S

variable {β : Type} {S : Summary β} {p p' q q' : Pattern} {a b : Node} {ps ps' : List Pattern}

theorem faultless_node :
    Faultless (.node a ps) ↔ defect [] (.node a ps) = none ∧ ∀ p ∈ ps, Faultless p := by
  rw [Faultless, Tree.subtrees_eq, List.forall_mem_cons]
  simp only [Tree.children_node, List.mem_flatMap, Faultless]
  exact and_congr_right fun _ => ⟨fun h p hp q hq => h q ⟨p, hp, hq⟩,
    fun h q ⟨p, hp, hq⟩ => h p hp q hq⟩

theorem captureNames_node (a : Node) (ps : List Pattern) :
    captureNames (.node a ps) =
      (captureName (.node a ps)).toList ++ ps.flatMap captureNames := by
  rw [captureNames, Tree.subtrees_eq, List.filterMap_cons, List.filterMap_flatMap]
  cases captureName (.node a ps) <;> rfl

/-- Only captures have names. -/
theorem captureNames_inner (hk : a.kind ≠ .capture) (ps : List Pattern) :
    captureNames (.node a ps) = ps.flatMap captureNames := by
  have hnone : captureName (.node a ps) = none := if_neg hk
  rw [captureNames_node, hnone]
  rfl

theorem absentResults_node (a : Node) (ps : List Pattern) :
    absentResults (.node a ps) = nodeAbsentResults a (ps.map absentResults) :=
  absentResults_eq _

theorem absentResults_inner (hc : a.kind ≠ .capture) (hq : a.kind ≠ .quantifier)
    (ps : List Pattern) : absentResults (.node a ps) = (ps.map absentResults).flatten := by
  rw [absentResults_node, nodeAbsentResults]
  split <;> first | contradiction | rfl

theorem ways_node (S : Summary β) (a : Node) (ps : List Pattern) :
    ways S (.node a ps) = nodeWays S a (ps.map absentResults) (ps.map (ways S)) :=
  ways_eq S _

namespace Interchangeable

theorem refl (S : Summary β) (p : Pattern) : Interchangeable S p p :=
  ⟨fun h => h, rfl, rfl, rfl⟩

theorem trans {p'' : Pattern} (h : Interchangeable S p p') (h' : Interchangeable S p' p'') :
    Interchangeable S p p'' where
  faultless hp := h'.faultless (h.faultless hp)
  names := h'.names.trans h.names
  absentResults := h'.absentResults.trans h.absentResults
  ways := h'.ways.trans h.ways

/-- **A part may be replaced in any place.** -/
theorem inside (h : Interchangeable S q q') (a : Node) (before after : List Pattern) :
    Interchangeable S (.node a (before ++ q :: after)) (.node a (before ++ q' :: after)) where
  faultless hp := by
    rw [faultless_node, List.forall_mem_append, List.forall_mem_cons] at hp ⊢
    obtain ⟨hroot, hbefore, hq, hafter⟩ := hp
    refine ⟨?_, hbefore, h.faultless hq, hafter⟩
    rw [← hroot]
    refine defect_congr rfl ?_
    simp only [Tree.children_node, List.length_append, List.length_cons]
  names := by
    rw [captureNames_node, captureNames_node, List.flatMap_append, List.flatMap_append,
      List.flatMap_cons, List.flatMap_cons, h.names]
    rfl
  absentResults := by
    rw [absentResults_node, absentResults_node, List.map_append, List.map_append, List.map_cons,
      List.map_cons, h.absentResults]
  ways := by
    simp only [ways_node, List.map_append, List.map_cons, h.absentResults, h.ways]

theorem of_somewhere {R : Pattern → Pattern → Prop}
    (hstep : ∀ p p', R p p' → Interchangeable S p p') (h : Somewhere R p p') :
    Interchangeable S p p' := by
  induction h with
  | here step => exact hstep _ _ step
  | inside a before after _ ih => exact ih.inside a before after

/-- **Any number of rewritings**, one after the other, leads to an interchangeable
pattern. -/
theorem of_reflTransGen {R : Pattern → Pattern → Prop}
    (hstep : ∀ p p', R p p' → Interchangeable S p p')
    (h : Relation.ReflTransGen (Somewhere R) p p') : Interchangeable S p p' := by
  induction h with
  | refl => exact .refl S p
  | tail _ hlast ih => exact ih.trans (.of_somewhere hstep hlast)

/-- Validation accepts what may stand for a pattern that it accepts. -/
theorem validate (h : Interchangeable S p p') (hp : p.validate = .ok ()) :
    p'.validate = .ok () := by
  obtain ⟨hfaultless, hnames⟩ := validate_eq_ok_iff.mp hp
  refine validate_eq_ok_iff.mpr ⟨h.faultless hfaultless, ?_⟩
  have hsame : p'.subtrees.filterMap captureName = p.subtrees.filterMap captureName := h.names
  rw [hsame]
  exact hnames

end Interchangeable

/-! ## Groups -/

/-- **A group makes no difference.** -/
theorem Wraps.interchangeable (S : Summary β) (h : Wraps p p') : Interchangeable S p p' := by
  have hgroup : ∀ (g : Node) (p : Pattern), g.kind = .group →
      captureNames (.node g [p]) = p.captureNames ∧
        absentResults (.node g [p]) = p.absentResults ∧ ways S (.node g [p]) = p.ways S := by
    intro g p hk
    refine ⟨?_, ?_, ?_⟩
    · rw [captureNames_inner (by rw [hk]; decide), List.flatMap_singleton]
    · rw [absentResults_node, nodeAbsentResults, hk]
      exact List.flatten_singleton
    · funext c
      rw [ways_node, nodeWays, hk]
      rfl
  cases h with
  | wrap g _ hk =>
    obtain ⟨hnames, habsent, hways⟩ := hgroup g p hk
    refine ⟨fun hp => ?_, hnames, habsent, hways⟩
    refine faultless_node.mpr ⟨?_, List.forall_mem_singleton.mpr hp⟩
    simp only [defect, Tree.label_node, hk]
    rfl
  | unwrap g _ hk =>
    obtain ⟨hnames, habsent, hways⟩ := hgroup g p' hk
    refine ⟨fun hp => ?_, hnames.symm, habsent.symm, hways.symm⟩
    exact List.forall_mem_singleton.mp (faultless_node.mp hp).2

/-- Nor does a group make a difference for the shape. -/
theorem Wraps.shapeText_eq (h : Wraps p p') : p'.shapeText = p.shapeText := by
  have hgroup : ∀ (g : Node) (p : Pattern), g.kind = .group →
      shapeText (.node g [p]) = p.shapeText := by
    intro g p hk
    rw [Pattern.shapeText_eq, Tree.label_node, Shape.nodeText, hk]
    rfl
  cases h with
  | wrap g _ hk => exact hgroup g p hk
  | unwrap g _ hk => exact (hgroup g p' hk).symm

theorem shapeText_of_somewhere (h : Somewhere Wraps p p') : p'.shapeText = p.shapeText := by
  induction h with
  | here step => exact step.shapeText_eq
  | inside a before after _ ih =>
    simp only [Pattern.shapeText_eq (.node a _), Tree.label_node, Tree.children_node,
      List.map_append, List.map_cons, ih]

/-- **Patterns that differ in groups have shapes that are printed alike.** -/
theorem shapeText_of_wraps (h : Relation.ReflTransGen (Somewhere Wraps) p p') :
    p'.shapeText = p.shapeText := by
  induction h with
  | refl => rfl
  | tail _ hlast ih => exact (shapeText_of_somewhere hlast).trans ih

end Pattern

/-! ## Splices -/

namespace Way

variable {β γ δ : Type} {c : Cursor}

/-- A sequence in two parts: the ways of the first, and from the end of each those of the
second. -/
theorem inSequence_append (fs gs : List (Cursor → List (Way β))) (c : Cursor) :
    inSequence (fs ++ gs) c =
      (inSequence fs c).flatMap fun v => (inSequence gs v.1).map (map (v.2 ++ ·)) := by
  induction fs generalizing c with
  | nil =>
    rw [List.nil_append, inSequence, List.flatMap_singleton]
    exact (List.map_id' _).symm
  | cons f fs ih =>
    rw [List.cons_append, inSequence, inSequence, List.flatMap_assoc]
    refine List.flatMap_congr fun w _ => ?_
    rw [ih, List.map_flatMap, List.flatMap_map]
    refine List.flatMap_congr fun v _ => ?_
    rw [List.map_map]
    rfl

/-- **A sequence inside a sequence** may be spliced into it, if it makes no difference for
what is made of the parts. -/
theorem inSequence_splice {f : List β → β}
    (hf : ∀ xs ys zs, f (xs ++ f ys :: zs) = f (xs ++ ys ++ zs))
    (fs gs hs : List (Cursor → List (Way β))) (c : Cursor) :
    (inSequence (fs ++ (fun c => (inSequence gs c).map (map f)) :: hs) c).map (map f) =
      (inSequence (fs ++ gs ++ hs) c).map (map f) := by
  rw [List.append_assoc, inSequence_append, inSequence_append, List.map_flatMap, List.map_flatMap]
  refine List.flatMap_congr fun u _ => ?_
  rw [inSequence, inSequence_append, List.flatMap_map]
  simp only [List.map_flatMap, List.map_map]
  refine List.flatMap_congr fun v _ => List.map_congr_left fun w _ => ?_
  exact congrArg (Prod.mk w.1) ((hf u.2 v.2 w.2).trans (congrArg f (List.append_assoc ..)))

theorem inBranches_append (f : Nat → β → γ) (gs hs : List (Cursor → List (Way β))) :
    inBranches f (gs ++ hs) c =
      inBranches f gs c ++ inBranches (fun i => f (gs.length + i)) hs c := by
  have hshift : hs.zipIdx gs.length = hs.zipIdx.map fun (h, i) => (h, gs.length + i) :=
    List.zipIdx_eq_map_add
  rw [inBranches, List.zipIdx_append, List.flatMap_append, Nat.zero_add, hshift, List.flatMap_map]
  rfl

/-- What is made of a branch matters only for the branches that are there. -/
theorem inBranches_congr {f f' : Nat → β → γ} {gs : List (Cursor → List (Way β))}
    (h : ∀ i < gs.length, f i = f' i) : inBranches f gs c = inBranches f' gs c := by
  refine List.flatMap_congr fun branch hbranch => ?_
  have hi := List.mem_zipIdx_iff_getElem?.mp hbranch
  rw [h branch.2 (List.getElem?_eq_some_iff.mp hi).1]

theorem map_inBranches (g : γ → δ) (f : Nat → β → γ) (gs : List (Cursor → List (Way β))) :
    (inBranches f gs c).map (map g) = inBranches (fun i => g ∘ f i) gs c := by
  rw [inBranches, List.map_flatMap]
  refine List.flatMap_congr fun branch _ => ?_
  rw [List.map_map]
  rfl

/-- A single branch. -/
theorem inBranches_cons (f : Nat → β → γ) (g : Cursor → List (Way β))
    (gs : List (Cursor → List (Way β))) :
    inBranches f (g :: gs) c =
      (g c).map (map (f 0)) ++ inBranches (fun i => f (1 + i)) gs c := by
  rw [← List.singleton_append, inBranches_append]
  refine congrArg (· ++ _) ?_
  exact List.flatMap_singleton ..

/-- **Branches that are branches of a branch** may be spliced into the branches around it, if
it makes no difference for what is made of them. -/
theorem inBranches_splice {f f' : Nat → β → β} {g : Nat → β → β}
    {gs hs ks : List (Cursor → List (Way β))} (hbefore : ∀ i < gs.length, f i = f' i)
    (hinner : ∀ i < hs.length, f gs.length ∘ g i = f' (gs.length + i))
    (hafter : ∀ i < ks.length, f (gs.length + (1 + i)) = f' (gs.length + hs.length + i)) :
    inBranches f (gs ++ inBranches g hs :: ks) c = inBranches f' (gs ++ hs ++ ks) c := by
  rw [List.append_assoc, inBranches_append, inBranches_append, inBranches_append, inBranches_cons,
    map_inBranches, Nat.add_zero]
  refine congrArg₂ List.append (inBranches_congr hbefore)
    (congrArg₂ List.append (inBranches_congr hinner) (inBranches_congr fun i hi => ?_))
  rw [hafter i hi, Nat.add_assoc]

end Way

namespace Summary

variable {xs ys zs : List (List Value)} {i : Nat}

/-- A branch in front of a nested alternation. -/
theorem results_branch_before (hi : i < xs.length) :
    results.branch (xs ++ ys.flatten :: zs) i = results.branch (xs ++ ys ++ zs) i := by
  funext rs
  simp only [results_branch, List.append_assoc, List.take_append_of_le_length (Nat.le_of_lt hi),
    List.drop_append_of_le_length hi, List.flatten_append, List.flatten_cons]

/-- A branch of a nested alternation. -/
theorem results_branch_inner (hi : i < ys.length) :
    results.branch (xs ++ ys.flatten :: zs) xs.length ∘ results.branch ys i =
      results.branch (xs ++ ys ++ zs) (xs.length + i) := by
  funext rs
  have hbefore : (xs ++ (ys ++ zs)).take (xs.length + i) = xs ++ ys.take i := by
    rw [List.take_length_add_append, List.take_append_of_le_length (Nat.le_of_lt hi)]
  have hafter : (xs ++ (ys ++ zs)).drop (xs.length + i + 1) = ys.drop (i + 1) ++ zs := by
    rw [Nat.add_assoc, List.drop_length_add_append, List.drop_append_of_le_length hi]
  have hnested : (xs ++ ys.flatten :: zs).drop (xs.length + 1) = zs := by
    rw [List.drop_length_add_append]
    rfl
  rw [Function.comp_apply, results_branch, results_branch, results_branch, hnested, List.take_left,
    List.append_assoc xs ys zs, hbefore, hafter, List.flatten_append, List.flatten_append]
  simp only [List.append_assoc]

/-- A branch behind a nested alternation. -/
theorem results_branch_after :
    results.branch (xs ++ ys.flatten :: zs) (xs.length + (1 + i)) =
      results.branch (xs ++ ys ++ zs) (xs.length + ys.length + i) := by
  funext rs
  have hlength : xs.length + ys.length = (xs ++ ys).length := List.length_append.symm
  rw [results_branch, results_branch, hlength, List.take_length_add_append, Nat.add_assoc _ i 1,
    List.drop_length_add_append, List.take_length_add_append, Nat.add_assoc _ _ 1,
    List.drop_length_add_append, Nat.add_comm 1 i, List.take_succ_cons, List.drop_succ_cons,
    List.flatten_append, List.flatten_append, List.flatten_append, List.flatten_cons]
  simp only [List.append_assoc]

end Summary

namespace Pattern

variable {p p' : Pattern} {a b : Node} {before inner after : List Pattern}

theorem captureNames_splice (hk : a.kind ≠ .capture) (hk' : b.kind ≠ .capture) :
    captureNames (.node a (before ++ inner ++ after)) =
      captureNames (.node a (before ++ .node b inner :: after)) := by
  simp only [captureNames_inner hk, captureNames_inner hk', List.flatMap_append, List.flatMap_cons,
    List.append_assoc]

theorem absentResults_splice (hc : a.kind ≠ .capture) (hq : a.kind ≠ .quantifier)
    (hc' : b.kind ≠ .capture) (hq' : b.kind ≠ .quantifier) :
    absentResults (.node a (before ++ inner ++ after)) =
      absentResults (.node a (before ++ .node b inner :: after)) := by
  simp only [absentResults_inner hc hq, absentResults_inner hc' hq', List.map_append, List.map_cons,
    List.flatten_append, List.flatten_cons, List.append_assoc]

theorem faultless_splice
    (hroot : defect [] (.node b inner) = none →
      defect [] (.node a (before ++ inner ++ after)) = none)
    (hp : Faultless (.node a (before ++ .node b inner :: after))) :
    Faultless (.node a (before ++ inner ++ after)) := by
  rw [faultless_node, List.forall_mem_append, List.forall_mem_cons] at hp
  obtain ⟨-, hbefore, hnested, hafter⟩ := hp
  obtain ⟨hdefect, hinner⟩ := faultless_node.mp hnested
  rw [faultless_node, List.forall_mem_append, List.forall_mem_append]
  exact ⟨hroot hdefect, ⟨hbefore, hinner⟩, hafter⟩

theorem ways_splice_concat (hk : a.kind = .concat) (hk' : b.kind = .concat) :
    ways .results (.node a (before ++ inner ++ after)) =
      ways .results (.node a (before ++ .node b inner :: after)) := by
  have hnested : ways .results (.node b inner) = fun c =>
      (Way.inSequence (inner.map (ways .results)) c).map (Way.map List.flatten) := by
    funext c
    rw [ways_node, nodeWays, hk']
    rfl
  funext c
  simp only [ways_node .results a, nodeWays, hk, List.map_append, List.map_cons, hnested]
  refine (Way.inSequence_splice (f := List.flatten) (fun xs ys zs => ?_) _ _ _ c).symm
  simp only [List.flatten_append, List.flatten_cons, List.append_assoc]

theorem ways_splice_alternation (hk : a.kind = .alternation) (hk' : b.kind = .alternation) :
    ways .results (.node a (before ++ inner ++ after)) =
      ways .results (.node a (before ++ .node b inner :: after)) := by
  have habsent := absentResults_inner (a := b) (by rw [hk']; decide) (by rw [hk']; decide) inner
  have hnested : ways .results (.node b inner) = Way.inBranches
      (Summary.results.branch (inner.map absentResults)) (inner.map (ways .results)) := by
    funext c
    rw [ways_node, nodeWays, hk']
  have hcount : ∀ qs : List Pattern, qs.length = (qs.map absentResults).length :=
    fun qs => (List.length_map _).symm
  funext c
  simp only [ways_node .results a, nodeWays, hk, List.map_append, List.map_cons, hnested, habsent]
  refine (Way.inBranches_splice (fun i hi => ?_) (fun i hi => ?_) fun i _ => ?_).symm
  · rw [List.length_map] at hi
    exact Summary.results_branch_before (by rwa [List.length_map])
  · rw [List.length_map] at hi
    rw [List.length_map, hcount before]
    exact Summary.results_branch_inner (by rwa [List.length_map])
  · rw [List.length_map, List.length_map, hcount before, hcount inner]
    exact Summary.results_branch_after

/-- **A splice makes no difference for the results of the captures.** -/
theorem Splices.interchangeable (h : Splices p p') : Interchangeable .results p p' := by
  cases h with
  | concat a b before inner after hk hk' =>
    refine ⟨faultless_splice fun _ => ?_,
      captureNames_splice (by rw [hk]; decide) (by rw [hk']; decide),
      absentResults_splice (by rw [hk]; decide) (by rw [hk]; decide) (by rw [hk']; decide)
        (by rw [hk']; decide), ways_splice_concat hk hk'⟩
    rw [defect, Tree.label_node, hk]
  | alternation a b before inner after hk hk' =>
    refine ⟨faultless_splice fun hdefect => ?_,
      captureNames_splice (by rw [hk]; decide) (by rw [hk']; decide),
      absentResults_splice (by rw [hk]; decide) (by rw [hk]; decide) (by rw [hk']; decide)
        (by rw [hk']; decide), ways_splice_alternation hk hk'⟩
    -- the nested alternation has branches, and these are branches now
    simp only [defect, Tree.label_node, Tree.children_node, hk'] at hdefect
    simp only [defect, Tree.label_node, Tree.children_node, hk]
    refine if_neg fun hempty => ?_
    have hnil : inner = [] :=
      (List.append_eq_nil_iff.mp (List.append_eq_nil_iff.mp (List.isEmpty_iff.mp hempty)).1).2
    rw [hnil] at hdefect
    cases hdefect

/-- **Regrouped patterns are interchangeable** where the results of captures are concerned. -/
theorem interchangeable_of_regroups (h : Relation.ReflTransGen Regroups p p') :
    Interchangeable .results p p' :=
  .of_reflTransGen (fun _ _ hstep => hstep.elim (Wraps.interchangeable _) Splices.interchangeable) h

end Pattern

end CaptureTree
