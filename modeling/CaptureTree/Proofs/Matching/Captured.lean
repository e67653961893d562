import CaptureTree.Proofs.Matching.Preferred
import CaptureTree.Proofs.Matching.Records
import CaptureTree.Proofs.Trace.Restrict

/-!
# What is recorded inside a capture

A run through a pattern goes through the parts of it, and where the run is preferred, so
are the runs through the parts: a part that could have been run better between the same two
places would make a better run of the whole.  This holds for captures at any depth, in
any iteration of a loop and in any branch.

`Located.Captured` says of a span in a frame that it was recorded by a preferred way of
what is captured, and that what the frame holds for the captured pattern are the records
of that way.  Every span in every frame of a preferred way is such a span
(`Located.WellFormed.captured_of_preferred`).
-/

namespace CaptureTree

/-! ## Every span in every frame -/

/-- Does something hold of every span, with the frame that it is recorded in? -/
structure Trace.Everywhere (P : Trace → NodeId → Span → Prop) (t : Trace) : Prop where
  /-- It holds of the spans of the trace itself, -/
  here : ∀ n s, Record.span n s ∈ t → P t n s
  /-- and of those in the frames inside. -/
  inside : ∀ f, t.Inside f → ∀ n s, Record.span n s ∈ f → P f n s

namespace Trace.Everywhere

variable {P Q R : Trace → NodeId → Span → Prop} {t u : Trace}

theorem nil : Everywhere P [] where
  here _ _ h := absurd h List.not_mem_nil
  inside _ h := by
    obtain ⟨_, _, hmem, -⟩ := h
    exact absurd hmem List.not_mem_nil

theorem imp (h : t.Everywhere P) (hPQ : ∀ f n s, P f n s → Q f n s) : t.Everywhere Q where
  here n s hs := hPQ t n s (h.here n s hs)
  inside f hf n s hs := hPQ f n s (h.inside f hf n s hs)

theorem of_frame? (h : t.Everywhere P) {address : FrameAddress} {f : Trace}
    (hf : t.frame? address = some f) {n : NodeId} {s : Span} (hs : Record.span n s ∈ f) :
    P f n s := by
  rcases eq_or_inside_of_frame? hf with rfl | hinside
  · exact h.here n s hs
  · exact h.inside f hinside n s hs

/-- Records that stand side by side share their frame, but not those inside. -/
theorem append (ht : t.Everywhere P) (hu : u.Everywhere Q) (hPR : ∀ f n s, P f n s → R f n s)
    (hQR : ∀ f n s, Q f n s → R f n s) (hPt : ∀ n s, P t n s → R (t ++ u) n s)
    (hQu : ∀ n s, Q u n s → R (t ++ u) n s) : (t ++ u).Everywhere R where
  here n s hs := by
    rcases List.mem_append.mp hs with hs | hs
    · exact hPt n s (ht.here n s hs)
    · exact hQu n s (hu.here n s hs)
  inside f hf n s hs := by
    rcases inside_append.mp hf with hf | hf
    · exact hPR f n s (ht.inside f hf n s hs)
    · exact hQR f n s (hu.inside f hf n s hs)

end Trace.Everywhere

namespace Located

open Outcome

variable {p q : Located} {c : Cursor} {f : Trace} {n : NodeId} {s : Span}

/-! ## Spans of preferred ways -/

/-- **Was the span recorded by a preferred way of a capture's body**, somewhere from `c`
on, with the records that the frame holds for the body? -/
def Captured (p : Located) (c : Cursor) (f : Trace) (n : NodeId) (s : Span) : Prop :=
  ∃ a q : Located, a ∈ p.subtrees ∧ a.id = n ∧ a.kind = .capture ∧ a.children = [q] ∧
    ∃ k ≤ c.left, ∃ o, Preferred q.outcomes (c.advance k) o ∧
      s = ⟨(c.advance k).pos, o.cursor.pos⟩ ∧ f.restrict q = o.records

namespace Captured

theorem hasCapture (h : p.Captured c f n s) : p.hasCapture = true := by
  obtain ⟨a, -, ha, -, hk, -⟩ := h
  exact List.any_eq_true.mpr ⟨a, ha, beq_iff_eq.mpr hk⟩

/-- What holds in a part holds in the whole, from an earlier place on, and in any frame
that has the same records for the part. -/
theorem mono {g : Trace} {j : Nat} (h : q.Captured (c.advance j) f n s) (hj : j ≤ c.left)
    (hq : q ∈ p.subtrees) (hagree : g.restrict q = f.restrict q) : p.Captured c g n s := by
  obtain ⟨a, b, ha, hid, hk, hb, k, hle, o, ho, hspan, hrecords⟩ := h
  rw [Cursor.left_advance] at hle
  rw [Cursor.advance_advance] at ho hspan
  have hsub : b ∈ q.subtrees :=
    Tree.mem_subtrees_trans (mem_subtrees_of_mem_children (mem_children_of_eq hb)) ha
  refine ⟨a, b, Tree.mem_subtrees_trans ha hq, hid, hk, hb, j + k, by omega, o, ho, hspan, ?_⟩
  rw [← Trace.restrict_restrict hsub, hagree, Trace.restrict_restrict hsub, hrecords]

theorem child {g : Trace} (h : q.Captured c f n s) (hq : q ∈ p.children)
    (hagree : g.restrict q = f.restrict q) : p.Captured c g n s :=
  Captured.mono (j := 0) h (Nat.zero_le _) (mem_subtrees_of_mem_children hq) hagree

end Captured

/-- **The iterations of a preferred way round a loop** are preferred ways of its body. -/
theorem WellFormed.exists_preferred_iterations (h : q.WellFormed) {l : Loop} {count : Nat}
    (hc : c.Coherent) {o : Outcome} (ho : Preferred (l.rounds q.outcomes count) c o) :
    ∃ os : List Outcome, o.records = os.flatMap (fun i => l.entry i.records) ∧
      ∀ i ∈ os, ∃ k ≤ c.left, Preferred q.outcomes (c.advance k) i := by
  -- by induction on the budget, which every iteration uses up some of
  induction hb : l.budget count c.left using Nat.strongRecOn generalizing count c o with
  | ind b ih =>
    rcases Loop.preferred_rounds ho with rfl | ⟨first, rest, hfirst, hcounts, hrest, rfl⟩
    · exact ⟨[], rfl, fun _ hi => absurd hi List.not_mem_nil⟩
    · obtain ⟨j, hj, hcursor⟩ := h.exists_advance hc hfirst.mem
      have hcoherent : first.cursor.Coherent := hcursor ▸ hc.advance j
      obtain ⟨os, hrecords, hall⟩ :=
        ih _ (hb ▸ l.budget_lt_of_counts hcounts) hcoherent hrest rfl
      refine ⟨first :: os, ?_, List.forall_mem_cons.mpr ⟨⟨0, Nat.zero_le _, hfirst⟩, ?_⟩⟩
      · rw [after_records, hrecords, List.flatMap_cons]
      · intro i hi
        obtain ⟨k, hk, hpreferred⟩ := hall i hi
        rw [hcursor, Cursor.advance_advance] at hpreferred
        rw [hcursor, Cursor.left_advance] at hk
        exact ⟨j + k, by omega, hpreferred⟩

/-- What a sequence of parts records is for nodes of the parts. -/
theorem exists_node_mem_ids {qs : List Located} (hwell : ∀ q ∈ qs, WellFormed q)
    (hdistinct : ∀ q ∈ qs, Distinct q) (hc : c.Coherent) {o : Outcome}
    (ho : o ∈ inSequence (qs.map outcomes) c) {r : Record} (hr : r ∈ o.records) :
    ∃ q ∈ qs, r.node ∈ Located.ids q := by
  obtain ⟨os, hsteps, hrecords⟩ := exists_steps ho
  rw [hrecords] at hr
  obtain ⟨i, hi, hr⟩ := List.mem_flatMap.mp hr
  obtain ⟨q, hq, e, he, -, hmem⟩ := hsteps.exists_part hwell hc hi
  exact ⟨q, hq, (hwell q hq).node_mem_ids (hdistinct q hq) he hmem hr⟩

/-- Spans of a preferred way through parts that stand one behind the other. -/
theorem captured_inSequence {qs : List Located}
    (hdisjoint : qs.Pairwise fun q q' : Located => List.Disjoint q.ids q'.ids)
    (hwell : ∀ q ∈ qs, WellFormed q) (hdistinct : ∀ q ∈ qs, Distinct q)
    (hqs : ∀ q ∈ qs, ∀ c, c.Coherent → ∀ o, Preferred (outcomes q) c o →
      o.records.Everywhere (Captured q c))
    (hc : c.Coherent) {o : Outcome} (ho : Preferred (inSequence (qs.map outcomes)) c o) :
    o.records.Everywhere fun f n s => ∃ q ∈ qs, Captured q c f n s := by
  induction qs generalizing c o with
  | nil =>
    obtain rfl := List.mem_singleton.mp ho.mem
    exact .nil
  | cons q qs ih =>
    obtain ⟨hq, hqs⟩ := List.forall_mem_cons.mp hqs
    obtain ⟨hwellq, hwell⟩ := List.forall_mem_cons.mp hwell
    obtain ⟨hdistinctq, hdistinct⟩ := List.forall_mem_cons.mp hdistinct
    rw [List.pairwise_cons] at hdisjoint
    obtain ⟨first, rest, hfirst, hrest, rfl⟩ :=
      exists_preferred_of_flatMap (f := outcomes q) (e := fun t => t) ho
    obtain ⟨j, hj, hcursor⟩ := hwellq.exists_advance hc hfirst.mem
    have hcoherent : first.cursor.Coherent := hcursor ▸ hc.advance j
    have hrestall := ih hdisjoint.2 hwell hdistinct hqs hcoherent hrest
    -- neither touches what the other one records
    have hrestids : rest.records.touches q = false := by
      refine Trace.touches_eq_false_iff.mpr fun r hr hmem => ?_
      obtain ⟨b, hb, hnode⟩ := exists_node_mem_ids hwell hdistinct hcoherent hrest.mem hr
      exact hdisjoint.1 b hb hmem hnode
    have hfirstids : ∀ b ∈ qs, first.records.touches b = false := fun b hb =>
      hwellq.untouched hdistinctq hc hfirst.mem (hdisjoint.1 b hb)
    have hlater : ∀ f g n s, (∀ b ∈ qs, Trace.restrict g b = Trace.restrict f b) →
        (∃ b ∈ qs, Captured b first.cursor f n s) → ∃ b ∈ q :: qs, Captured b c g n s := by
      rintro f g n s hagree ⟨b, hb, hcaptured⟩
      rw [hcursor] at hcaptured
      exact ⟨b, List.mem_cons_of_mem q hb,
        hcaptured.mono hj (Tree.mem_subtrees_self b) (hagree b hb)⟩
    refine (hq c hc first hfirst).append hrestall ?_ ?_ ?_ ?_
    · exact fun f n s hcaptured => ⟨q, List.mem_cons_self, hcaptured⟩
    · exact fun f n s => hlater f f n s fun _ _ => rfl
    · refine fun n s hcaptured => ⟨q, List.mem_cons_self, ?_⟩
      refine Captured.mono (j := 0) hcaptured (Nat.zero_le _) (Tree.mem_subtrees_self q) ?_
      rw [Trace.restrict_append, Trace.restrict_eq_nil hrestids, List.append_nil]
    · refine fun n s => hlater _ _ n s fun b hb => ?_
      rw [Trace.restrict_append, Trace.restrict_eq_nil (hfirstids b hb), List.nil_append]

/-- Spans of the iterations of a loop.  They are in frames of their own, since a body
with a capture has its iterations framed. -/
theorem captured_iterations (hq : p.children = [q]) {os : List Outcome}
    (h : ∀ i ∈ os, ∃ k ≤ c.left, i.records.Everywhere (q.Captured (c.advance k))) :
    Trace.Everywhere (p.Captured c) (os.flatMap fun i => (Loop.ofNode p).entry i.records) := by
  have hsub := mem_subtrees_of_mem_children (mem_children_of_eq hq)
  refine ⟨fun n s hs => ?_, fun f hf n s hs => ?_⟩
  · obtain ⟨i, hi, hs⟩ := List.mem_flatMap.mp hs
    obtain ⟨k, -, hall⟩ := h i hi
    rw [ofNode_entry hq] at hs
    split at hs
    · cases List.mem_singleton.mp hs
    · rename_i hframeless
      exact absurd (hall.here n s hs).hasCapture hframeless
  · obtain ⟨m, g, hmem, address, hf⟩ := hf
    obtain ⟨i, hi, hmem⟩ := List.mem_flatMap.mp hmem
    obtain ⟨k, hle, hall⟩ := h i hi
    rw [ofNode_entry hq] at hmem
    split at hmem
    · obtain ⟨rfl, rfl⟩ := Record.iteration.inj (List.mem_singleton.mp hmem)
      exact (hall.of_frame? hf hs).mono hle hsub rfl
    · rename_i hframeless
      exact absurd (hall.inside f ⟨m, g, hmem, address, hf⟩ n s hs).hasCapture hframeless

/-- **Every span in a preferred way** was recorded by a preferred way of what is
captured. -/
theorem WellFormed.captured_of_preferred (h : p.WellFormed) (hd : p.Distinct)
    (hc : c.Coherent) {o : Outcome} (ho : Preferred p.outcomes c o) :
    o.records.Everywhere (p.Captured c) := by
  induction h generalizing c o with
  | literal hk =>
    have hmem := ho.mem
    rw [outcomes_literal hk, List.mem_map] at hmem
    obtain ⟨d, -, rfl⟩ := hmem
    exact .nil
  | @capture p q hk hq hwell ih =>
    have hchild := mem_children_of_eq hq
    rw [Preferred, outcomes_capture hk hq, List.find?_map, Option.map_eq_some_iff] at ho
    obtain ⟨o, ho, rfl⟩ := ho
    have ho : Preferred q.outcomes c o := ho
    have hroot : Trace.touches [.span p.id ⟨c.pos, o.cursor.pos⟩] q = false := by
      refine hd.untouched_child hchild fun r hr => ?_
      rw [List.mem_singleton.mp hr]
      rfl
    have hrestrict : Trace.restrict (o.records ++ [.span p.id ⟨c.pos, o.cursor.pos⟩]) q =
        o.records.restrict q := by
      rw [Trace.restrict_append, Trace.restrict_eq_nil hroot, List.append_nil]
    have hinside := ih (hd.child hchild) hc ho
    refine ⟨fun n s hs => ?_, fun f hf n s hs => ?_⟩
    · rcases List.mem_append.mp hs with hs | hs
      · exact (hinside.here n s hs).child hchild hrestrict
      · -- the capture's own span, recorded after all that is inside
        obtain ⟨rfl, rfl⟩ := Record.span.inj (List.mem_singleton.mp hs)
        refine ⟨p, q, Tree.mem_subtrees_self p, rfl, hk, hq, 0, Nat.zero_le _, o, ho, rfl, ?_⟩
        rw [hrestrict]
        exact Trace.restrict_eq_self fun r hr => hwell.node_mem_ids (hd.child hchild) hc ho.mem hr
    · rcases Trace.inside_append.mp hf with hf | ⟨m, g, hmem, -⟩
      · exact (hinside.inside f hf n s hs).child hchild rfl
      · cases List.mem_singleton.mp hmem
  | @group p q hk hq hwell ih =>
    have hchild := mem_children_of_eq hq
    rw [outcomes_group hk hq] at ho
    exact (ih (hd.child hchild) hc ho).imp fun f n s hcaptured => hcaptured.child hchild rfl
  | @concat p hk hwell ih =>
    rw [outcomes_concat hk] at ho
    have hparts := captured_inSequence hd.pairwise_children hwell (fun q hq => hd.child hq)
      (fun q hq _ hc _ ho => ih q hq (hd.child hq) hc ho) hc ho
    refine hparts.imp fun f n s hcaptured => ?_
    obtain ⟨q, hq, hcaptured⟩ := hcaptured
    exact hcaptured.child hq rfl
  | @alternation p hk hne hwell ih =>
    rw [Preferred, outcomes_alternation hk hne, List.find?_flatMap] at ho
    obtain ⟨⟨b, i⟩, hb, hfound⟩ := List.exists_of_findSome?_eq_some ho
    rw [List.find?_map, Option.map_eq_some_iff] at hfound
    obtain ⟨o, ho, rfl⟩ := hfound
    have ho : Preferred (outcomes b) c o := ho
    have hchild : b ∈ p.children := List.fst_mem_of_mem_zipIdx hb
    have hrestrict : Trace.restrict (p.mark i ++ o.records) b = o.records.restrict b := by
      rw [Trace.restrict_append, Trace.restrict_eq_nil, List.nil_append]
      exact hd.untouched_child hchild fun r hr => eq_choice_of_mem_mark hr ▸ rfl
    have hinside := ih b hchild (hd.child hchild) hc ho
    refine ⟨fun n s hs => ?_, fun f hf n s hs => ?_⟩
    · rcases List.mem_append.mp hs with hs | hs
      · cases eq_choice_of_mem_mark hs
      · exact (hinside.here n s hs).child hchild hrestrict
    · rcases Trace.inside_append.mp hf with ⟨m, g, hmem, -⟩ | hf
      · cases eq_choice_of_mem_mark hmem
      · exact (hinside.inside f hf n s hs).child hchild rfl
  | @quantifier p q hk hq hroom hwell ih =>
    have hchild := mem_children_of_eq hq
    rw [outcomes_quantifier hk hq] at ho
    obtain ⟨os, hrecords, hall⟩ := hwell.exists_preferred_iterations hc ho
    rw [hrecords]
    refine captured_iterations hq fun i hi => ?_
    obtain ⟨k, hle, hpreferred⟩ := hall i hi
    exact ⟨k, hle, ih (hd.child hchild) (hc.advance k) hpreferred⟩

end Located

end CaptureTree
