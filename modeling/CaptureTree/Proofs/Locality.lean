import CaptureTree.Proofs.Trace.Placement
import CaptureTree.Proofs.Value.Alike

/-!
# A slot is read from the records of its own nodes

The value of a slot depends on what is recorded for the nodes below it, and on nothing else.  Two
relations between traces make this precise, for the nodes of one part of a pattern.

* `Trace.AgreeThroughout`: the traces have the same spans and the same choices for these nodes, and
  as many iterations, and the frames of the iterations agree in turn.
* `Trace.Tampered`: one trace comes from the other by adding, removing and replacing records of
  other nodes, in any of its frames.

Tampering with other nodes leaves all rows of these nodes as they are
(`Trace.Tampered.agreeThroughout`).  Frames that agree throughout look alike to whoever reads the
part, or anything inside it (`Trace.AgreeThroughout.alike`), although the shape has slots for few
of the nodes: reading a slot asks for the rows of its node, whether the branches and bodies below
that node are touched, and for the spans of the captures in a body.
-/

namespace CaptureTree

open Located

namespace Trace

variable {n q : Located} {t u t' u' : Trace}

/-! ## Frames that agree throughout -/

/-- **Do two frames agree on a pattern throughout?**  They have the same spans and choices for all
nodes of the pattern, and iterations that agree on the pattern one by one. -/
inductive AgreeThroughout (n : Located) : Trace → Trace → Prop
  | intro {t u : Trace} (spans : ∀ k ∈ n.ids, t.spans k = u.spans k)
      (choices : ∀ k ∈ n.ids, t.choices k = u.choices k)
      (iterations : ∀ k ∈ n.ids,
        List.Forall₂ (AgreeThroughout n) (t.iterations k) (u.iterations k)) :
      AgreeThroughout n t u

namespace AgreeThroughout

theorem spans (h : AgreeThroughout n t u) : ∀ k ∈ n.ids, t.spans k = u.spans k := by
  cases h
  assumption

theorem choices (h : AgreeThroughout n t u) : ∀ k ∈ n.ids, t.choices k = u.choices k := by
  cases h
  assumption

theorem iterations (h : AgreeThroughout n t u) :
    ∀ k ∈ n.ids, List.Forall₂ (AgreeThroughout n) (t.iterations k) (u.iterations k) := by
  cases h
  assumption

theorem nil : AgreeThroughout n [] [] :=
  .intro (fun _ _ => rfl) (fun _ _ => rfl) fun _ _ => .nil

theorem append (h : AgreeThroughout n t u) (h' : AgreeThroughout n t' u') :
    AgreeThroughout n (t ++ t') (u ++ u') := by
  refine .intro (fun k hk => ?_) (fun k hk => ?_) fun k hk => ?_
  · rw [spans_append, spans_append, h.spans k hk, h'.spans k hk]
  · rw [choices_append, choices_append, h.choices k hk, h'.choices k hk]
  · rw [iterations_append, iterations_append]
    exact List.rel_append (h.iterations k hk) (h'.iterations k hk)

/-- An iteration may be exchanged for one that agrees with it. -/
theorem iteration (h : AgreeThroughout n t u) (k : NodeId) :
    AgreeThroughout n [.iteration k t] [.iteration k u] := by
  refine .intro (fun _ _ => rfl) (fun _ _ => rfl) fun m _ => ?_
  by_cases hm : k = m
  · have hrow : ∀ f, Trace.iterations [.iteration k f] m = [f] := by
      intro f
      simp [Trace.iterations, Record.frameOf?, hm]
    rw [hrow, hrow]
    exact .cons h .nil
  · rw [(rows_singleton (r := .iteration k t) hm).2.2, (rows_singleton (r := .iteration k u) hm).2.2]
    exact .nil

/-- Frames agree on what neither of them touches. -/
theorem of_untouched (ht : t.touches n = false) (hu : u.touches n = false) :
    AgreeThroughout n t u := by
  rw [touches_eq_false_iff_rows] at ht hu
  refine .intro (fun k hk => ?_) (fun k hk => ?_) fun k hk => ?_
  · rw [(ht k hk).1, (hu k hk).1]
  · rw [(ht k hk).2.1, (hu k hk).2.1]
  · rw [(ht k hk).2.2, (hu k hk).2.2]
    exact .nil

theorem refl_of_records (h : ∀ r ∈ t, AgreeThroughout n [r] [r]) : AgreeThroughout n t t := by
  induction t with
  | nil => exact nil
  | cons r t ih =>
    obtain ⟨hr, ht⟩ := List.forall_mem_cons.mp h
    exact hr.append (ih ht)

theorem refl_record (n : Located) (r : Record) : AgreeThroughout n [r] [r] := by
  induction r using Record.induction with
  | span k s => exact .intro (fun _ _ => rfl) (fun _ _ => rfl) fun _ _ => .nil
  | choice k i => exact .intro (fun _ _ => rfl) (fun _ _ => rfl) fun _ _ => .nil
  | iteration k f ih => exact (refl_of_records ih).iteration k

/-! ## What is read of them -/

/-- Frames that agree throughout touch the same parts. -/
theorem touches_eq (h : AgreeThroughout n t u) (hq : q ∈ n.subtrees) :
    t.touches q = u.touches q := by
  rw [Bool.eq_iff_iff, ← Bool.not_eq_false, ← Bool.not_eq_false, not_iff_not,
    touches_eq_false_iff_rows, touches_eq_false_iff_rows]
  refine forall₂_congr fun k hk => ?_
  have hkn : k ∈ n.ids := ids_subset hq hk
  have hlength := (h.iterations k hkn).length_eq
  rw [h.spans k hkn, h.choices k hkn, ← List.length_eq_zero_iff (l := t.iterations k), hlength,
    List.length_eq_zero_iff]

/-- Span lists are taken for iterations in both frames or in neither, and mean the same. -/
theorem frames_eq_of_touched (h : AgreeThroughout n t u) {b : Located} (hq : q ∈ n.subtrees)
    (hb : q.body = some b) (ht : t.touches b = true) (slot : SlotTitle) :
    t.frames slot q = u.frames slot q := by
  have hbq : b ∈ q.subtrees := mem_subtrees_of_mem_children (List.mem_of_head? hb)
  have hbn : b ∈ n.subtrees := Tree.mem_subtrees_trans hbq hq
  have hsplit : splitSpans slot b t = splitSpans slot b u := by
    refine splitSpans_congr slot fun c hc => h.spans c.id (id_mem_ids ?_)
    exact Tree.mem_subtrees_trans (List.mem_of_mem_filter hc) hbn
  have hlength := (h.iterations q.id (id_mem_ids hq)).length_eq
  have hu : u.touches b = true := (h.touches_eq hbn).symm.trans ht
  rw [frames_of_touched hb ht, frames_of_touched hb hu, hsplit, hlength,
    isEmpty_eq_of_length_eq hlength]

/-- **Frames that agree throughout look alike**, to a reader of any part. -/
theorem alike (h : AgreeThroughout n t u) (hwell : q.WellFormed) (hq : q ∈ n.subtrees) :
    Alike q t u := by
  have hpart : ∀ {a b : Located}, a ∈ n.subtrees → b ∈ a.children → b ∈ n.subtrees :=
    fun ha hb => Tree.mem_subtrees_trans (mem_subtrees_of_mem_children hb) ha
  induction hwell generalizing t u with
  | literal hk hc => exact .bare (hasCapture_literal hk hc)
  | @capture q b hk hc _ ih =>
    exact .capture hk hc (h.spans q.id (id_mem_ids hq)) (ih h (hpart hq (mem_children_of_eq hc)))
  | group hk hc _ ih => exact .group hk hc (ih h (hpart hq (mem_children_of_eq hc)))
  | concat hk _ ih => exact .concat hk fun b hb => ih b hb h (hpart hq hb)
  | @alternation q hk _ _ ih =>
    exact .alternation hk (h.choices q.id (id_mem_ids hq))
      (fun b hb => h.touches_eq (hpart hq hb)) fun b hb => ih b hb h (hpart hq hb)
  | @quantifier q b hk hc _ hbwell ih =>
    have hb : b ∈ n.subtrees := hpart hq (mem_children_of_eq hc)
    have hbody := body_eq_some hc
    cases ht : t.touches b with
    | true =>
      exact .of_frames_eq hk hc (h.frames_eq_of_touched hq hbody ht) fun f => .refl hbwell f
    | false =>
      have hu : u.touches b = false := (h.touches_eq hb).symm.trans ht
      obtain ⟨hlength, hpairs⟩ := List.forall₂_iff_zip.mp (h.iterations q.id (id_mem_ids hq))
      refine .iterated hk hc (fun _ => frames_of_untouched (untouched_of_body hbody ht))
        (fun _ => frames_of_untouched (untouched_of_body hbody hu)) hlength fun pair hpair => ?_
      exact ih (hpairs hpair) hb

end AgreeThroughout

/-! ## Records of other nodes -/

/-- **Is one trace the other, tampered with outside a pattern?**  Records of nodes that are not in
the pattern may have been added and removed, in the frame and in the frames of all iterations. -/
inductive Tampered (n : Located) : Trace → Trace → Prop
  | nil : Tampered n [] []
  | keep {t u : Trace} (r : Record) (rest : Tampered n t u) : Tampered n (r :: t) (r :: u)
  | add {t u : Trace} {r : Record} (outside : r.node ∉ n.ids) (rest : Tampered n t u) :
      Tampered n t (r :: u)
  | remove {t u : Trace} {r : Record} (outside : r.node ∉ n.ids) (rest : Tampered n t u) :
      Tampered n (r :: t) u
  | inside {f g t u : Trace} {k : NodeId} (frame : Tampered n f g) (rest : Tampered n t u) :
      Tampered n (.iteration k f :: t) (.iteration k g :: u)

/-- **Tampering leaves the nodes of the pattern alone.** -/
theorem Tampered.agreeThroughout (h : Tampered n t u) : AgreeThroughout n t u := by
  have huntouched : ∀ {r : Record}, r.node ∉ n.ids → touches [r] n = false := fun hr =>
    touches_eq_false_iff.mpr fun r' hr' => by rwa [List.mem_singleton.mp hr']
  induction h with
  | nil => exact .nil
  | keep r _ ih => exact (AgreeThroughout.refl_record n r).append ih
  | add hr _ ih => exact (AgreeThroughout.of_untouched (touches_nil n) (huntouched hr)).append ih
  | remove hr _ ih =>
    exact (AgreeThroughout.of_untouched (huntouched hr) (touches_nil n)).append ih
  | inside _ _ ihframe ih => exact (ihframe.iteration _).append ih

end Trace

namespace Value

/-- **A slot is read from the records of its own nodes.**  For every node of a pattern that
validation accepts, its slot has the same value in two traces, or can not be read for the same
reason, if the traces agree throughout on the nodes below it.  So nothing that is added, removed
or replaced for other nodes, in whatever frame, makes a difference. -/
theorem assemble_reads_own_nodes {p : Pattern} (h : p.validate = .ok ()) {n : Located}
    (hn : n ∈ p.locate.subtrees) :
    (∀ t u, Trace.AgreeThroughout n t u → assemble (.infer n) t = assemble (.infer n) u) ∧
      ∀ t u, Trace.Tampered n t u → assemble (.infer n) t = assemble (.infer n) u := by
  have hwell : n.WellFormed := (Pattern.wellFormed_locate h).of_mem_subtrees hn
  have hagree : ∀ t u, Trace.AgreeThroughout n t u →
      assemble (.infer n) t = assemble (.infer n) u := fun t u htu =>
    (htu.alike hwell (Tree.mem_subtrees_self n)).assemble_infer hwell
  exact ⟨hagree, fun t u htu => hagree t u htu.agreeThroughout⟩

/-- A loop over two branches, between two captures. -/
def loopBetween : Pattern :=
  .concat [(Pattern.exact [0x61]).capture,
    (Pattern.alternation [(Pattern.exact [0x62]).capture, (Pattern.exact [0x63]).capture]).star,
    (Pattern.exact [0x64]).capture]

/-- A match of `abcd`. -/
def twoRounds : Trace :=
  [.span 1 ⟨0, 1⟩, .iteration 3 [.choice 4 0, .span 5 ⟨1, 2⟩],
    .iteration 3 [.choice 4 1, .span 7 ⟨2, 3⟩], .span 9 ⟨3, 4⟩]

/-- The same rounds, with records around the loop, and even inside its iterations, that make no
sense. -/
def spoiledAround : Trace :=
  [.span 1 ⟨7, 2⟩, .span 1 ⟨0, 9⟩, .iteration 3 [.choice 4 0, .span 9 ⟨3, 4⟩, .span 5 ⟨1, 2⟩],
    .choice 0 5, .iteration 3 [.choice 4 1, .span 7 ⟨2, 3⟩, .iteration 40 []]]

theorem assemble_reads_own_nodes_loopBetween :
    loopBetween.validate = .ok () ∧ ∃ n ∈ loopBetween.locate.subtrees,
      loopBetween.locate.find 3 = some n ∧ Trace.AgreeThroughout n twoRounds spoiledAround ∧
      Trace.Tampered n twoRounds spoiledAround ∧
      assemble (.infer n) twoRounds = assemble (.infer n) spoiledAround ∧
      assemble (.infer n) spoiledAround =
        .ok (repeated [sum 0 (leaf (some ⟨1, 2⟩)), sum 1 (leaf (some ⟨2, 3⟩))]) := by
  obtain ⟨n, hfind⟩ : ∃ n, loopBetween.locate.find 3 = some n := ⟨_, rfl⟩
  have hn := (mem_subtrees_of_find hfind).1
  obtain ⟨hagree, hsame⟩ := assemble_reads_own_nodes (p := loopBetween) rfl hn
  have htampered : Trace.Tampered n twoRounds spoiledAround := by
    obtain rfl := Option.some.inj hfind
    refine .remove (by decide) (.add (by decide) (.add (by decide) (.inside ?_ ?_)))
    · exact .keep _ (.add (by decide) (.keep _ .nil))
    · refine .add (by decide) (.inside (.keep _ (.keep _ (.add (by decide) .nil))) ?_)
      exact .remove (by decide) .nil
  refine ⟨rfl, n, hn, hfind, htampered.agreeThroughout, htampered, hsame _ _ htampered, ?_⟩
  rw [← hagree _ _ htampered.agreeThroughout]
  obtain rfl := Option.some.inj hfind
  rfl

end Value

end CaptureTree
