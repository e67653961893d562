import CaptureTree.Proofs.Matching.Preference
import CaptureTree.Proofs.Matching.Records
import CaptureTree.Proofs.Matching.Window
import CaptureTree.Proofs.Release.Basic
import CaptureTree.Proofs.Trace.Prune

/-!
# Matching with a capture released

A pattern matches in the same ways with a capture released, in the same order of preference
and to the same ends.  What is recorded differs in that some nodes no longer record: the
released capture itself, and every alternation and quantifier that had no other capture
inside it.  Nothing else changes, neither the records of the nodes that are left nor the
frames in which they stand (`Located.WellFormed.outcomes_release`).

A quantifier that no longer has a capture inside gives up the frames of its iterations, and
what was in them is now recorded beside each other.  It makes no difference, since a
pattern without captures records nothing at all (`Located.WellFormed.records_eq_nil`).
-/

namespace CaptureTree

namespace Outcome

/-- The outcome with nodes left out of its records. -/
def prune (keep : NodeId → Bool) (o : Outcome) : Outcome :=
  ⟨o.cursor, o.records.prune keep⟩

variable {keep : NodeId → Bool}

theorem prune_after (t : Trace) (o : Outcome) :
    (after t o).prune keep = after (t.prune keep) (o.prune keep) := by
  simp only [prune, after, Trace.prune_append]

end Outcome

namespace Located

open Outcome

variable {p q : Located} {n : NodeId} {keep : NodeId → Bool}

/-! ## Nodes that still record -/

/-- Are the nodes that are kept those that still record, apart from the released one? -/
def KeptBy (keep : NodeId → Bool) (n : NodeId) (p : Located) : Prop :=
  ∀ a ∈ p.subtrees, keep (Located.id a) = (Located.id a != n && (Located.release n a).hasCapture)

namespace KeptBy

theorem of_mem_subtrees (h : p.KeptBy keep n) (hq : q ∈ p.subtrees) : q.KeptBy keep n :=
  fun a ha => h a (Tree.mem_subtrees_trans ha hq)

theorem child (h : p.KeptBy keep n) (hq : q ∈ p.children) : q.KeptBy keep n :=
  h.of_mem_subtrees (mem_subtrees_of_mem_children hq)

theorem root (h : p.KeptBy keep n) : keep p.id = (p.id != n && (p.release n).hasCapture) :=
  h p (Tree.mem_subtrees_self p)

theorem root_of_ne (h : p.KeptBy keep n) (hid : p.id ≠ n) :
    keep p.id = (p.release n).hasCapture := by
  rw [h.root, bne_iff_ne.mpr hid, Bool.true_and]

/-- Whatever has another capture inside still records. -/
theorem of_capture (h : p.KeptBy keep n) (hid : p.id ≠ n) (hq : q ∈ p.subtrees)
    (hcapture : q.isCapture = true) (hother : q.id ≠ n) : keep p.id = true := by
  rw [h.root_of_ne hid, hasCapture, subtrees_release]
  refine List.any_eq_true.mpr ⟨q.release n, List.mem_map_of_mem hq, ?_⟩
  rw [isCapture_release, hcapture, bne_iff_ne.mpr hother]
  rfl

end KeptBy

/-! ## Outcomes -/

theorem mark_release (hkeep : p.KeptBy keep n) (hid : p.id ≠ n) (i : Nat) :
    (p.release n).mark i = (p.mark i).prune keep := by
  have hroot : keep (Record.choice p.id i).node = (p.release n).hasCapture := hkeep.root_of_ne hid
  rw [mark, mark]
  cases hcap : (p.release n).hasCapture with
  | true =>
    rw [if_pos rfl, if_pos (hasCapture_of_release hcap), id_release,
      Trace.prune_kept (hroot.trans hcap)]
    rfl
  | false =>
    rw [if_neg Bool.false_ne_true]
    split
    · exact (Trace.prune_dropped (hroot.trans hcap)).symm
    · rfl

/-- **What an iteration records** is framed as long as there is a capture left in the body.
Without one, nothing that was in the frame is left. -/
theorem entry_release (hk : p.kind = .quantifier) (hid : p.id ≠ n) (hkeep : p.KeptBy keep n)
    (hq : p.children = [q]) {t : Trace}
    (hnil : (q.release n).hasCapture = false → t.prune keep = []) :
    (Loop.ofNode (p.release n)).entry (t.prune keep) =
      ((Loop.ofNode p).entry t).prune keep := by
  have hkind : (p.release n).kind ≠ .capture := by
    rw [kind_release_of_ne hid, hk]
    decide
  have hroot : keep (Record.iteration p.id t).node = (q.release n).hasCapture := by
    rw [Record.node, hkeep.root_of_ne hid, hasCapture_body hkind (children_release_singleton hq)]
  rw [ofNode_entry (children_release_singleton hq), ofNode_entry hq, id_release]
  cases hcap : (q.release n).hasCapture with
  | true =>
    rw [if_pos rfl, if_pos (hasCapture_of_release hcap), Trace.prune_kept (hroot.trans hcap)]
    rfl
  | false =>
    rw [if_neg Bool.false_ne_true, hnil hcap]
    split
    · exact (Trace.prune_dropped (hroot.trans hcap)).symm
    · exact (hnil hcap).symm

theorem inSequence_release {qs : List Located}
    (h : ∀ q ∈ qs, ∀ c, (release n q).outcomes c = (outcomes q c).map (Outcome.prune keep))
    (c : Cursor) :
    inSequence ((qs.map (release n)).map outcomes) c =
      (inSequence (qs.map outcomes) c).map (Outcome.prune keep) := by
  induction qs generalizing c with
  | nil => rfl
  | cons q qs ih =>
    obtain ⟨hq, hqs⟩ := List.forall_mem_cons.mp h
    simp only [List.map_cons, inSequence, hq c, List.flatMap_map, List.map_flatMap]
    refine List.flatMap_congr fun o _ => ?_
    show ((inSequence _ o.cursor).map _) = _
    rw [ih hqs, List.map_map, List.map_map]
    refine List.map_congr_left fun rest _ => ?_
    simp only [Function.comp_apply, prune_after]
    rfl

end Located

/-- **A loop** over a body that records less records less, if its entries do. -/
theorem Loop.rounds_prune {l l' : Loop} (hbounds : l'.bounds = l.bounds)
    {keep : NodeId → Bool} {body body' : Cursor → List Outcome}
    (hbody : ∀ c, body' c = (body c).map (Outcome.prune keep))
    (hentry : ∀ c, ∀ o ∈ body c, l'.entry (o.records.prune keep) = (l.entry o.records).prune keep)
    (count : Nat) (c : Cursor) :
    l'.rounds body' count c = (l.rounds body count c).map (Outcome.prune keep) := by
  -- by induction on the budget, which every iteration uses up some of
  induction hb : l.budget count c.left using Nat.strongRecOn generalizing count c with
  | ind b ih =>
    have honward : ∀ o ∈ body c, l'.onward body' count c (o.prune keep) =
        (l.onward body count c o).map (Outcome.prune keep) := by
      intro o ho
      have hcounts : l'.counts count c (o.prune keep).cursor = l.counts count c o.cursor := by
        rw [counts, counts, hbounds]
        rfl
      rw [onward, onward, hcounts]
      split
      · rename_i hcounts
        rw [List.map_map]
        show List.map _ (l'.rounds body' (count + 1) o.cursor) = _
        rw [ih _ (hb ▸ l.budget_lt_of_counts hcounts) (count + 1) o.cursor rfl, List.map_map]
        refine List.map_congr_left fun rest _ => ?_
        rw [Function.comp_apply, Function.comp_apply, Outcome.prune_after, ← hentry c o ho]
        rfl
      · rfl
    rw [rounds_eq_onward, rounds_eq_onward, hbounds, hbody, List.flatMap_map,
      List.flatMap_congr honward]
    split
    · rfl
    · rw [List.map_append, List.map_flatMap]
      refine congrArg (List.append _) ?_
      split
      · rfl
      · rfl

namespace Located

open Outcome

variable {p q : Located} {n : NodeId} {keep : NodeId → Bool}

/-- **Matching with a capture released** finds the same outcomes, with fewer records. -/
theorem WellFormed.outcomes_release (h : p.WellFormed) (hn : p.CaptureAt n)
    (hkeep : p.KeptBy keep n) (c : Cursor) :
    (p.release n).outcomes c = (p.outcomes c).map (Outcome.prune keep) := by
  induction h generalizing c with
  | @literal p hk hc hclass =>
    have hid := hn.id_ne (by rw [hk]; decide)
    rw [outcomes_literal ((kind_release_of_ne hid).trans hk), outcomes_literal hk, List.map_map,
      label_release_of_ne hid]
    rfl
  | @capture p q hk hq hwell ih =>
    have hchild := mem_children_of_eq hq
    have hinside := ih (hn.child hchild) (hkeep.child hchild) c
    rw [outcomes_capture hk hq, List.map_map]
    by_cases hid : p.id = n
    · have hdropped : ∀ s, keep (Record.span p.id s).node = false := by
        intro s
        rw [Record.node, hkeep.root, hid, bne_self_eq_false, Bool.false_and]
      rw [outcomes_group (kind_release_self hid) (children_release_singleton hq), hinside]
      refine List.map_congr_left fun o _ => ?_
      rw [Function.comp_apply, Outcome.prune, Outcome.prune, Trace.prune_append,
        Trace.prune_dropped (hdropped _), List.append_nil]
    · have hkept : ∀ s, keep (Record.span p.id s).node = true := fun _ =>
        hkeep.of_capture hid (Tree.mem_subtrees_self p) (beq_iff_eq.mpr hk) hid
      rw [outcomes_capture ((kind_release_of_ne hid).trans hk) (children_release_singleton hq),
        hinside, List.map_map]
      refine List.map_congr_left fun o _ => ?_
      rw [Function.comp_apply, Function.comp_apply, Outcome.prune, Outcome.prune,
        Trace.prune_append, Trace.prune_kept (hkept _), id_release]
      rfl
  | @group p q hk hq hwell ih =>
    have hid := hn.id_ne (by rw [hk]; decide)
    have hchild := mem_children_of_eq hq
    rw [outcomes_group ((kind_release_of_ne hid).trans hk) (children_release_singleton hq),
      outcomes_group hk hq]
    exact ih (hn.child hchild) (hkeep.child hchild) c
  | @concat p hk hwell ih =>
    have hid := hn.id_ne (by rw [hk]; decide)
    rw [outcomes_concat ((kind_release_of_ne hid).trans hk), outcomes_concat hk, children_release]
    exact inSequence_release (fun q hq => ih q hq (hn.child hq) (hkeep.child hq)) c
  | @alternation p hk hne hwell ih =>
    have hid := hn.id_ne (by rw [hk]; decide)
    have hne' : (p.release n).children ≠ [] := by
      rw [children_release]
      exact fun hnil => hne (List.map_eq_nil_iff.mp hnil)
    rw [outcomes_alternation ((kind_release_of_ne hid).trans hk) hne', outcomes_alternation hk hne,
      children_release, List.zipIdx_map, List.flatMap_map, List.map_flatMap]
    refine List.flatMap_congr fun b hb => ?_
    have hmem := List.fst_mem_of_mem_zipIdx hb
    show ((Located.release n b.1).outcomes c).map (after ((p.release n).mark b.2)) = _
    rw [ih b.1 hmem (hn.child hmem) (hkeep.child hmem), List.map_map, List.map_map]
    refine List.map_congr_left fun o _ => ?_
    rw [Function.comp_apply, Function.comp_apply, prune_after, mark_release hkeep hid]
  | @quantifier p q hk hq hroom hwell ih =>
    have hid := hn.id_ne (by rw [hk]; decide)
    have hchild := mem_children_of_eq hq
    have hinside := ih (hn.child hchild) (hkeep.child hchild)
    rw [outcomes_quantifier ((kind_release_of_ne hid).trans hk) (children_release_singleton hq),
      outcomes_quantifier hk hq]
    refine Loop.rounds_prune ?_ hinside ?_ 0 c
    · rw [ofNode_bounds, ofNode_bounds, bounds, label_release_of_ne hid, bounds]
    · intro c o ho
      have hmem : o.prune keep ∈ (q.release n).outcomes c := by
        rw [hinside]
        exact List.mem_map_of_mem ho
      exact entry_release hk hid hkeep hq fun hcap =>
        (hwell.release (hn.child hchild)).records_eq_nil hcap hmem

/-! ## Matching and searching -/

/-- What is found, with nodes left out of its trace. -/
def pruneFound (keep : NodeId → Bool) (found : Span × Trace) : Span × Trace :=
  (found.1, found.2.prune keep)

theorem WellFormed.match?_release (h : p.WellFormed) (hn : p.CaptureAt n)
    (hkeep : p.KeptBy keep n) (w : Bytes) :
    (p.release n).match? w = (p.match? w).map (pruneFound keep) := by
  rw [match?_eq_find?, match?_eq_find?, h.outcomes_release hn hkeep, List.find?_map,
    Option.map_map, Option.map_map]
  rfl

theorem WellFormed.search?_release (h : p.WellFormed) (hn : p.CaptureAt n)
    (hkeep : p.KeptBy keep n) (w : Bytes) :
    (p.release n).search? w = (p.search? w).map (pruneFound keep) := by
  rw [search?_eq_findSome?, search?_eq_findSome?, List.map_findSome?]
  refine congrArg (List.findSome? · _) (funext fun b => ?_)
  rw [h.outcomes_release hn hkeep, List.head?_map, Option.map_map, Function.comp_apply,
    Option.map_map]
  rfl

/-- Does a node still record with the one at position `n` released?  Not if it is that node,
nor if it has no capture left inside. -/
def keeps (p : Located) (n m : NodeId) : Bool :=
  m != n && (p.find m).any fun a => (a.release n).hasCapture

theorem Distinct.keptBy (hd : p.Distinct) : p.KeptBy (p.keeps n) n := by
  intro a ha
  rw [keeps, hd.find_id ha, Option.any_some]

end Located

end CaptureTree
