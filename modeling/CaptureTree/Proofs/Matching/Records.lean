import CaptureTree.Proofs.Matching.Language
import CaptureTree.Proofs.Trace.Placement
import CaptureTree.Proofs.Trace.RunBetween

/-!
# What an outcome records

Two things hold of the records of every outcome of a well-formed pattern.

* They are all in their place (`Located.WellFormed.placed_outcomes`): they belong
  to nodes of the pattern, what is recorded inside an iteration belongs to the
  body, and the spans lie between the start and the end of the input.
* They are what one run through the pattern leaves, from where the outcome begins to
  where it ends (`Located.WellFormed.runBetween_outcomes`).

The second rests on the first: the parts of a pattern share a frame, and they do
not get into each other's way because each of them only records for its own nodes
(`Outcome.Steps.exists_agreeOn`).  A pattern without captures records nothing at all
(`Located.WellFormed.records_eq_nil`).
-/

namespace CaptureTree

/-- An outcome ends in the input that it starts in. -/
theorem Located.WellFormed.coherent_cursor {p : Located} (h : p.WellFormed) {c : Cursor}
    (hc : c.Coherent) {o : Outcome} (ho : o ∈ p.outcomes c) :
    o.cursor.Coherent ∧ o.cursor.pos + o.cursor.left = c.pos + c.left := by
  obtain ⟨n, hn, hcursor⟩ := h.exists_advance hc ho
  rw [hcursor]
  refine ⟨hc.advance n, ?_⟩
  show c.pos + n + (c.left - n) = c.pos + c.left
  omega

/-- An outcome does not end before it begins. -/
theorem Located.WellFormed.pos_le {p : Located} (h : p.WellFormed) {c : Cursor} (hc : c.Coherent)
    {o : Outcome} (ho : o ∈ p.outcomes c) : c.pos ≤ o.cursor.pos := by
  obtain ⟨n, -, hcursor⟩ := h.exists_advance hc ho
  rw [hcursor]
  exact Nat.le_add_right c.pos n

namespace Outcome

/-- An outcome in a chain is one of the part at its place, from one cut to the next. -/
theorem Steps.exists_partAt {qs : List Located} (hwell : ∀ q ∈ qs, Located.WellFormed q)
    {c d : Cursor} (hc : c.Coherent) {os : List Outcome}
    (h : Steps (qs.map Located.outcomes) c os d) {i : Nat} {o : Outcome} (ho : os[i]? = some o) :
    ∃ q e, qs[i]? = some q ∧ e.Coherent ∧ e.pos + e.left = c.pos + c.left ∧
      o ∈ q.outcomes e ∧ e.pos = cutAt c os i ∧ o.cursor.pos = cutAt c os (i + 1) := by
  induction qs generalizing c os i with
  | nil =>
    cases h
    cases ho
  | cons q qs ih =>
    obtain ⟨hq, hqs⟩ := List.forall_mem_cons.mp hwell
    cases h with
    | @cons _ _ _ _ first os hhead htail =>
      cases i with
      | zero =>
        obtain rfl := Option.some.inj ho
        exact ⟨q, c, rfl, hc, rfl, hhead, rfl, (cutAt_zero _ os).symm⟩
      | succ i =>
        obtain ⟨hcoherent, htotal⟩ := hq.coherent_cursor hc hhead
        obtain ⟨p, e, hp, he, hsize, hrest⟩ := ih hqs hcoherent htail ho
        exact ⟨p, e, hp, he, hsize.trans htotal, hrest⟩

/-- An outcome in a chain is one of a part, at a place in the same input. -/
theorem Steps.exists_part {qs : List Located} (hwell : ∀ q ∈ qs, Located.WellFormed q)
    {c d : Cursor} (hc : c.Coherent) {os : List Outcome}
    (h : Steps (qs.map Located.outcomes) c os d) {o : Outcome} (ho : o ∈ os) :
    ∃ q ∈ qs, ∃ e : Cursor, e.Coherent ∧ e.pos + e.left = c.pos + c.left ∧
      o ∈ Located.outcomes q e := by
  obtain ⟨i, hi⟩ := List.mem_iff_getElem?.mp ho
  obtain ⟨q, e, hq, he, hsize, hmem, -⟩ := h.exists_partAt hwell hc hi
  exact ⟨q, List.mem_of_getElem? hq, e, he, hsize, hmem⟩

/-- An outcome in a chain of rounds is one of the body, from one cut to the next. -/
theorem Steps.exists_round {q : Located} (hwell : q.WellFormed) {c d : Cursor}
    (hc : c.Coherent) {k : Nat} {os : List Outcome}
    (h : Steps (List.replicate k q.outcomes) c os d) {i : Nat} {o : Outcome}
    (ho : os[i]? = some o) :
    ∃ e : Cursor, e.Coherent ∧ e.pos + e.left = c.pos + c.left ∧ o ∈ q.outcomes e ∧
      e.pos = cutAt c os i ∧ o.cursor.pos = cutAt c os (i + 1) := by
  rw [← List.map_replicate] at h
  have hall : ∀ b ∈ List.replicate k q, Located.WellFormed b := by
    intro b hb
    rw [List.eq_of_mem_replicate hb]
    exact hwell
  obtain ⟨b, e, hb, hround⟩ := h.exists_partAt hall hc ho
  obtain rfl := List.eq_of_mem_replicate (List.mem_of_getElem? hb)
  exact ⟨e, hround⟩

end Outcome

namespace Located

/-! ## Records are in their place -/

/-- **Every outcome's records are in their place**, for an input that is as long as
the cursor says. -/
theorem WellFormed.placed_outcomes {p : Located} (h : p.WellFormed) (hd : p.Distinct) {c : Cursor}
    (hc : c.Coherent) {o : Outcome} (ho : o ∈ p.outcomes c) :
    Trace.Placed (c.pos + c.left) (some p) o.records := by
  induction h generalizing c o with
  | literal hk hl hn =>
    rw [outcomes_literal hk, List.mem_map] at ho
    obtain ⟨d, -, rfl⟩ := ho
    exact fun r hr => absurd hr List.not_mem_nil
  | @capture p q hk hq hwell ih =>
    rw [outcomes_capture hk hq, List.mem_map] at ho
    obtain ⟨o, ho, rfl⟩ := ho
    intro r hr
    rcases List.mem_append.mp hr with hr | hr
    · exact (ih (hd.child (mem_children_of_eq hq)) hc ho r hr).mono hd
        (mem_subtrees_of_mem_children (mem_children_of_eq hq))
    · obtain rfl := List.mem_singleton.mp hr
      obtain ⟨n, hle, hcursor⟩ := hwell.exists_advance hc ho
      refine .span hd.find_self hk ?_
      rw [Span.fits_iff, hcursor]
      simp only [Cursor.advance]
      omega
  | @group p q hk hq hwell ih =>
    rw [outcomes_group hk hq] at ho
    exact fun r hr => (ih (hd.child (mem_children_of_eq hq)) hc ho r hr).mono hd
      (mem_subtrees_of_mem_children (mem_children_of_eq hq))
  | @concat p hk hwell ih =>
    rw [outcomes_concat hk] at ho
    obtain ⟨os, hsteps, hrecords⟩ := Outcome.exists_steps ho
    intro r hr
    rw [hrecords, List.mem_flatMap] at hr
    obtain ⟨part, hpart, hr⟩ := hr
    obtain ⟨q, hq, e, he, hsize, hmem⟩ := hsteps.exists_part hwell hc hpart
    rw [← hsize]
    exact (ih q hq (hd.child hq) he hmem r hr).mono hd (mem_subtrees_of_mem_children hq)
  | @alternation p hk hne hwell ih =>
    obtain ⟨i, b, hb, part, hpart, rfl⟩ := (mem_outcomes_alternation hk hne).mp ho
    have hmem : b ∈ p.children := List.mem_of_getElem? hb
    intro r hr
    rcases List.mem_append.mp hr with hr | hr
    · rw [mark] at hr
      split at hr
      · obtain rfl := List.mem_singleton.mp hr
        exact .choice hd.find_self hk (List.getElem?_eq_some_iff.mp hb).1
      · exact absurd hr List.not_mem_nil
    · exact (ih b hmem (hd.child hmem) hc hpart r hr).mono hd (mem_subtrees_of_mem_children hmem)
  | @quantifier p q hk hq hroom hwell ih =>
    rw [outcomes_quantifier hk hq] at ho
    obtain ⟨os, hsteps, hrecords, -⟩ := (Loop.ofNode p).exists_iterations _ hroom ho
    have hinside : ∀ i ∈ os, Trace.Placed (c.pos + c.left) (some q) i.records := by
      intro i hi
      obtain ⟨k, hk⟩ := List.mem_iff_getElem?.mp hi
      obtain ⟨e, he, hsize, hmem, -⟩ := hsteps.exists_round hwell hc hk
      rw [← hsize]
      exact ih (hd.child (mem_children_of_eq hq)) he hmem
    intro r hr
    rw [hrecords, List.mem_flatMap] at hr
    obtain ⟨i, hi, hr⟩ := hr
    rw [ofNode_entry hq] at hr
    split at hr
    · obtain rfl := List.mem_singleton.mp hr
      refine .iteration hd.find_self hk ?_
      rw [body, hq]
      exact hinside i hi
    · exact (hinside i hi r hr).mono hd (mem_subtrees_of_mem_children (mem_children_of_eq hq))

/-- An outcome only records for nodes of the pattern. -/
theorem WellFormed.node_mem_ids {p : Located} (h : p.WellFormed) (hd : p.Distinct) {c : Cursor}
    (hc : c.Coherent) {o : Outcome} (ho : o ∈ p.outcomes c) {r : Record} (hr : r ∈ o.records) :
    r.node ∈ p.ids :=
  (h.placed_outcomes hd hc ho r hr).node_mem_ids

/-- What an outcome of a pattern records does not touch what stands beside it. -/
theorem WellFormed.untouched {p q : Located} (h : p.WellFormed) (hd : p.Distinct) {c : Cursor}
    (hc : c.Coherent) {o : Outcome} (ho : o ∈ p.outcomes c)
    (hdisjoint : List.Disjoint p.ids q.ids) :
    Trace.touches o.records q = false :=
  Trace.touches_eq_false_iff.mpr fun _ hr => hdisjoint (h.node_mem_ids hd hc ho hr)

end Located

/-! ## Records are those of a run -/

/-- **Parts that share a frame do not get into each other's way.**  Each part of a
sequence finds the rows that it recorded itself. -/
theorem Outcome.Steps.exists_agreeOn {qs : List Located}
    (hdisjoint : qs.Pairwise fun q q' : Located => List.Disjoint q.ids q'.ids)
    (hwell : ∀ q ∈ qs, Located.WellFormed q) (hdistinct : ∀ q ∈ qs, Located.Distinct q)
    {c d : Cursor} (hc : c.Coherent) {os : List Outcome}
    (h : Steps (qs.map Located.outcomes) c os d) {i : Nat} {q : Located} (hq : qs[i]? = some q) :
    ∃ e o, e.Coherent ∧ o ∈ q.outcomes e ∧ e.pos = cutAt c os i ∧
      o.cursor.pos = cutAt c os (i + 1) ∧
      Trace.AgreeOn q o.records (os.flatMap Outcome.records) := by
  induction qs generalizing c os i with
  | nil => cases hq
  | cons p qs ih =>
    have hall := List.forall_mem_cons.mp hwell
    have hids := List.forall_mem_cons.mp hdistinct
    rw [List.pairwise_cons] at hdisjoint
    cases h with
    | @cons _ _ _ _ first os hhead htail =>
      obtain ⟨hcoherent, -⟩ := hall.1.coherent_cursor hc hhead
      rw [List.flatMap_cons]
      cases i with
      | zero =>
        obtain rfl := Option.some.inj hq
        -- the records of the later parts are for nodes of those parts
        refine ⟨c, first, hc, hhead, rfl, (cutAt_zero _ os).symm,
          .append_right (Trace.touches_eq_false_iff.mpr ?_)⟩
        intro r hr hmem
        obtain ⟨o, ho, hr⟩ := List.mem_flatMap.mp hr
        obtain ⟨b, hb, e, he, -, ho⟩ := htail.exists_part hall.2 hcoherent ho
        exact hdisjoint.1 b hb hmem ((hall.2 b hb).node_mem_ids (hids.2 b hb) he ho hr)
      | succ i =>
        obtain ⟨e, o, he, ho, hbegin, hend, hagree⟩ :=
          ih hdisjoint.2 hall.2 hids.2 hcoherent htail hq
        refine ⟨e, o, he, ho, hbegin, hend, hagree.trans (.append_left ?_)⟩
        exact hall.1.untouched hids.1 hc hhead (hdisjoint.1 q (List.mem_of_getElem? hq))

namespace Located

/-- **A pattern without captures records nothing.** -/
theorem WellFormed.records_eq_nil {p : Located} (h : p.WellFormed) (hcap : p.hasCapture = false)
    {c : Cursor} {o : Outcome} (ho : o ∈ p.outcomes c) : o.records = [] := by
  induction h generalizing c o with
  | literal hk =>
    rw [outcomes_literal hk, List.mem_map] at ho
    obtain ⟨d, -, rfl⟩ := ho
    rfl
  | @capture p q hk =>
    rw [hasCapture, List.any_eq_false] at hcap
    exact absurd (beq_iff_eq.mpr hk) (hcap p (Tree.mem_subtrees_self p))
  | group hk hq hwell ih =>
    rw [outcomes_group hk hq] at ho
    exact ih (hasCapture_eq_false_of_mem_children (mem_children_of_eq hq) hcap) ho
  | @concat p hk hwell ih =>
    rw [outcomes_concat hk] at ho
    obtain ⟨os, hsteps, hrecords⟩ := Outcome.exists_steps ho
    rw [hrecords, List.flatMap_eq_nil_iff]
    intro i hi
    obtain ⟨f, hf, e, he⟩ := hsteps.exists_mem hi
    obtain ⟨q, hq, rfl⟩ := List.mem_map.mp hf
    exact ih q hq (hasCapture_eq_false_of_mem_children hq hcap) he
  | @alternation p hk hne hwell ih =>
    obtain ⟨i, b, hb, inner, hinner, rfl⟩ := (mem_outcomes_alternation hk hne).mp ho
    have hmem := List.mem_of_getElem? hb
    have hnone := ih b hmem (hasCapture_eq_false_of_mem_children hmem hcap) hinner
    rw [Outcome.after_records, hnone, mark, hcap]
    rfl
  | @quantifier p q hk hq hroom hwell ih =>
    have hbody := hasCapture_eq_false_of_mem_children (mem_children_of_eq hq) hcap
    rw [outcomes_quantifier hk hq] at ho
    obtain ⟨os, hsteps, hrecords, -⟩ := (Loop.ofNode p).exists_iterations _ hroom ho
    rw [hrecords, List.flatMap_eq_nil_iff]
    intro i hi
    obtain ⟨f, hf, e, he⟩ := hsteps.exists_mem hi
    rw [List.eq_of_mem_replicate hf] at he
    rw [ofNode_entry hq, hbody]
    exact ih hbody he

/-- A record for the root of a pattern does not touch a child. -/
theorem Distinct.untouched_child {p q : Located} (h : p.Distinct) (hq : q ∈ p.children)
    {t : Trace} (ht : ∀ r ∈ t, r.node = p.id) : t.touches q = false :=
  Trace.touches_eq_false_iff.mpr fun r hr => ht r hr ▸ h.id_notMem_ids hq

/-- The frames of a loop that gives every iteration its own. -/
theorem iterations_flatMap (n : NodeId) (fs : List Trace) :
    Trace.iterations (fs.flatMap fun f => [.iteration n f]) n = fs := by
  induction fs with
  | nil => rfl
  | cons f fs ih =>
    rw [List.flatMap_cons, Trace.iterations_append, ih]
    simp [Trace.iterations, Record.frameOf?]

/-- **Every outcome records one run through the pattern**, from where it begins to where it
ends. -/
theorem WellFormed.runBetween_outcomes {p : Located} (h : p.WellFormed) (hd : p.Distinct)
    {c : Cursor} (hc : c.Coherent) {o : Outcome} (ho : o ∈ p.outcomes c) :
    Trace.RunBetween p c.pos o.cursor.pos o.records := by
  have hle := h.pos_le hc ho
  induction h generalizing c o with
  | literal hk hl => exact .literal hk hl hle
  | @capture p q hk hq hwell ih =>
    rw [outcomes_capture hk hq, List.mem_map] at ho
    obtain ⟨o, ho, rfl⟩ := ho
    have hnone : Trace.spans o.records p.id = [] := by
      refine (Trace.rows_eq_nil_iff.mpr fun r hr hid => ?_).1
      have hmem := hwell.node_mem_ids (hd.child (mem_children_of_eq hq)) hc ho hr
      exact hd.id_notMem_ids (mem_children_of_eq hq) (hid ▸ hmem)
    refine .capture hk hq ?_ ?_
    · rw [Trace.spans_append, hnone, List.nil_append]
      simp [Trace.spans, Record.spanOf?]
    · refine (ih (hd.child (mem_children_of_eq hq)) hc ho hle).congr (.append_right ?_)
      refine hd.untouched_child (mem_children_of_eq hq) fun r hr => ?_
      rw [List.mem_singleton.mp hr]
      rfl
  | @group p q hk hq hwell ih =>
    rw [outcomes_group hk hq] at ho
    exact .group hk hq (ih (hd.child (mem_children_of_eq hq)) hc ho hle)
  | @concat p hk hwell ih =>
    rw [outcomes_concat hk] at ho
    obtain ⟨os, hsteps, hrecords⟩ := Outcome.exists_steps ho
    refine .concat hk (Outcome.cutAt_zero c os) ?_ fun i q hq => ?_
    · rw [← hsteps.cutAt_length, hsteps.length_eq, List.length_map]
    · obtain ⟨e, part, he, hpart, hbegin, hend, hagree⟩ :=
        hsteps.exists_agreeOn hd.pairwise_children hwell (fun q hq => hd.child hq) hc hq
      have hmem := List.mem_of_getElem? hq
      have hrun := ih q hmem (hd.child hmem) he hpart ((hwell q hmem).pos_le he hpart)
      rw [hbegin, hend] at hrun
      rw [hrecords]
      exact hrun.congr hagree
  | @alternation p hk hne hwell ih =>
    obtain ⟨i, b, hb, part, hpart, rfl⟩ := (mem_outcomes_alternation hk hne).mp ho
    have hmem : b ∈ p.children := List.mem_of_getElem? hb
    have hmark : ∀ r ∈ p.mark i, r.node = p.id := by
      intro r hr
      rw [eq_choice_of_mem_mark hr]
      rfl
    refine .alternation hk hb (fun hcap => ?_) ?_ fun j b' hj hne => ?_
    · have hnone : Trace.choices part.records p.id = [] := by
        refine (Trace.rows_eq_nil_iff.mpr fun r hr hid => ?_).2.1
        have hr := (hwell b hmem).node_mem_ids (hd.child hmem) hc hpart hr
        exact hd.id_notMem_ids hmem (hid ▸ hr)
      rw [Outcome.after_records, Trace.choices_append, hnone, List.append_nil, mark, if_pos hcap]
      simp [Trace.choices, Record.choiceOf?]
    · exact (ih b hmem (hd.child hmem) hc hpart hle).congr
        (.append_left (hd.untouched_child hmem hmark))
    · rw [Outcome.after_records, Trace.touches_append,
        hd.untouched_child (List.mem_of_getElem? hj) hmark, Bool.false_or]
      exact (hwell b hmem).untouched (hd.child hmem) hc hpart (hd.disjoint_of_ne hb hj hne.symm)
  | @quantifier p q hk hq hroom hwell ih =>
    have hwhole := WellFormed.quantifier hk hq hroom hwell
    cases hcap : q.hasCapture with
    | false =>
      have hnone : p.hasCapture = false := by
        rw [hasCapture_body (by rw [hk]; decide) hq, hcap]
      refine .silent hk hq hcap ?_ hle
      rw [hwhole.records_eq_nil hnone ho]
      rfl
    | true =>
      have hcoherent := hwhole.coherent_cursor hc ho
      rw [outcomes_quantifier hk hq] at ho
      obtain ⟨os, hsteps, hrecords, hallow, hfew⟩ := (Loop.ofNode p).exists_iterations _ hroom ho
      have hframed : o.records = (os.map Outcome.records).flatMap fun f => [.iteration p.id f] := by
        rw [hrecords, List.flatMap_map]
        refine congrArg (List.flatMap · os) (funext fun i => ?_)
        rw [ofNode_entry hq, if_pos hcap]
      have hframes : Trace.iterations o.records p.id = os.map Outcome.records := by
        rw [hframed, iterations_flatMap]
      refine .loop hk hq hcap ?_ ?_ ?_ (Outcome.cutAt_zero c os) ?_ ?_
      · refine hd.untouched_child (mem_children_of_eq hq) fun r hr => ?_
        rw [hframed, List.mem_flatMap] at hr
        obtain ⟨i, -, hr⟩ := hr
        rw [List.mem_singleton.mp hr]
        rfl
      · rw [hframes, List.length_map]
        exact hallow
      · rw [hframes, List.length_map]
        rw [ofNode_bounds] at hfew
        omega
      · rw [hframes, List.length_map, hsteps.cutAt_length]
      · rw [hframes]
        intro i f hf
        rw [List.getElem?_map, Option.map_eq_some_iff] at hf
        obtain ⟨round, hround, rfl⟩ := hf
        obtain ⟨e, he, -, hmem, hbegin, hend⟩ := hsteps.exists_round hwell hc hround
        rw [← hbegin, ← hend]
        exact ih (hd.child (mem_children_of_eq hq)) he hmem (hwell.pos_le he hmem)

/-- Every outcome records one run through the pattern. -/
theorem WellFormed.executed_outcomes {p : Located} (h : p.WellFormed) (hd : p.Distinct)
    {c : Cursor} (hc : c.Coherent) {o : Outcome} (ho : o ∈ p.outcomes c) :
    Trace.Executed p o.records :=
  (h.runBetween_outcomes hd hc ho).executed

end Located

end CaptureTree
