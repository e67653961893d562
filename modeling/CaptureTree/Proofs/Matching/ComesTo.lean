import CaptureTree.Proofs.Matching.Records
import CaptureTree.Proofs.Matching.Ways

/-!
# What the records of a match come to

The outcomes of a pattern and its ways to match are two lists that go together one by one
(`Located.WellFormed.tells_ways`).  An outcome has records where the way has a sum, and the
records come to this sum.

`Trace.ComesTo` says what a frame comes to.  It is a run through the pattern, as in
`Trace.Executed`, and it keeps the spans, the branches and the iterations of that run.  Like
a run, it is known by the rows of the pattern alone (`Trace.ComesTo.congr`), so the parts of
a pattern may share a frame.
-/

namespace CaptureTree

open Located

variable {β : Type} {S : Summary β}

namespace Trace

/-- **Is this what the frame comes to**, in a summary of the match? -/
inductive ComesTo (S : Summary β) : Located → Trace → β → Prop
  | literal {p : Located} {t : Trace} (kind : p.kind = .literal) (children : p.children = []) :
      ComesTo S p t S.literal
  | capture {p q : Located} {t : Trace} {s : Span} {b : β} (kind : p.kind = .capture)
      (children : p.children = [q]) (span : t.spans p.id = [s]) (inside : ComesTo S q t b) :
      ComesTo S p t (S.capture s b)
  | group {p q : Located} {t : Trace} {b : β} (kind : p.kind = .group)
      (children : p.children = [q]) (inside : ComesTo S q t b) : ComesTo S p t b
  | concat {p : Located} {t : Trace} {bs : List β} (kind : p.kind = .concat)
      (length : p.children.length = bs.length)
      (parts : ∀ pair ∈ p.children.zip bs, ComesTo S pair.1 t pair.2) :
      ComesTo S p t (S.sequence bs)
  | alternation {p q : Located} {t : Trace} {i : Nat} {b : β} (kind : p.kind = .alternation)
      (branch : p.children[i]? = some q)
      (chosen : p.hasCapture = true → t.choices p.id = [i]) (inside : ComesTo S q t b)
      (others : ∀ j a, p.children[j]? = some a → j ≠ i → t.touches a = false) :
      ComesTo S p t (S.branch (p.erase.children.map Pattern.absentResults) i b)
  | unrecorded {p q : Located} {t : Trace} {bs : List β} (kind : p.kind = .quantifier)
      (children : p.children = [q]) (none : q.hasCapture = false) :
      ComesTo S p t (S.loop p.bounds q.erase.absentResults bs)
  | loop {p q : Located} {t : Trace} {bs : List β} (kind : p.kind = .quantifier)
      (children : p.children = [q]) (loose : t.touches q = false)
      (once : p.bounds.isOptional = true → (t.iterations p.id).length ≤ 1)
      (length : (t.iterations p.id).length = bs.length)
      (frames : ∀ pair ∈ (t.iterations p.id).zip bs, ComesTo S q pair.1 pair.2) :
      ComesTo S p t (S.loop p.bounds q.erase.absentResults bs)

/-- **What a frame comes to is known by its rows alone.** -/
theorem ComesTo.congr {p : Located} {t u : Trace} {b : β} (h : ComesTo S p t b)
    (hagree : AgreeOn p t u) : ComesTo S p u b := by
  induction h generalizing u with
  | literal hk hc => exact .literal hk hc
  | @capture p q t s b hk hc hspan _ ih =>
    refine .capture hk hc ?_ (ih (hagree.child (mem_children_of_eq hc)))
    rw [← hagree.spans p.id (id_mem_ids_self p), hspan]
  | @group p q t b hk hc _ ih => exact .group hk hc (ih (hagree.child (mem_children_of_eq hc)))
  | @concat p t bs hk hlength _ ih =>
    exact .concat hk hlength fun pair hpair =>
      ih pair hpair (hagree.child (List.of_mem_zip hpair).1)
  | @alternation p q t i b hk hb hchosen _ hothers ih =>
    refine .alternation hk hb (fun hcap => ?_) (ih (hagree.child (List.mem_of_getElem? hb)))
      fun j a ha hne => (hagree.child (List.mem_of_getElem? ha)).untouched (hothers j a ha hne)
    rw [← hagree.choices p.id (id_mem_ids_self p), hchosen hcap]
  | unrecorded hk hc hnone => exact .unrecorded hk hc hnone
  | @loop p q t bs hk hc hloose honce hlength hframes _ =>
    have hrows := hagree.iterations p.id (id_mem_ids_self p)
    refine .loop hk hc ((hagree.child (mem_children_of_eq hc)).untouched hloose) ?_ ?_ ?_
    · rw [← hrows]
      exact honce
    · rw [← hrows]
      exact hlength
    · rw [← hrows]
      exact hframes

end Trace

/-! ## Outcomes and ways, side by side -/

/-- **Does an outcome tell of a way to match?**  It ends where the way ends, it records for
nodes of the pattern, and its records come to what the way comes to. -/
structure Outcome.Tells (S : Summary β) (p : Located) (o : Outcome) (w : Way β) : Prop where
  cursor : o.cursor = w.1
  within : ∀ r ∈ o.records, r.node ∈ p.ids
  comesTo : Trace.ComesTo S p o.records w.2

/-- Does an outcome of a sequence tell of a way to match the sequence?  Every part finds in
the records what it comes to. -/
structure Outcome.TellsParts (S : Summary β) (qs : List Located) (o : Outcome)
    (w : Way (List β)) : Prop where
  cursor : o.cursor = w.1
  within : ∀ r ∈ o.records, ∃ q ∈ qs, r.node ∈ q.ids
  parts : List.Forall₂ (fun q b => Trace.ComesTo S q o.records b) qs w.2

/-- Does an outcome of a loop after `count` iterations tell of a way to go round it?  Its
records are the entries of further iterations, and each of these comes to its part. -/
structure Outcome.TellsTurns (S : Summary β) (l : Loop) (q : Located) (count : Nat) (o : Outcome)
    (w : Way (List β)) : Prop where
  cursor : o.cursor = w.1
  most : ∀ max ∈ l.bounds.max, count ≤ max → count + w.2.length ≤ max
  frames : ∃ fs : List Trace, o.records = fs.flatMap l.entry ∧
    (∀ f ∈ fs, ∀ r ∈ f, r.node ∈ q.ids) ∧ List.Forall₂ (fun f b => Trace.ComesTo S q f b) fs w.2

namespace Outcome

/-- Outcomes of the parts of a sequence tell of the ways to match it. -/
theorem tells_inSequence {qs : List Located}
    (hdisjoint : qs.Pairwise fun q q' : Located => List.Disjoint q.ids q'.ids)
    (h : ∀ q ∈ qs, ∀ c, List.Forall₂ (Tells S q) (Located.outcomes q c) (q.erase.ways S c))
    (c : Cursor) :
    List.Forall₂ (TellsParts S qs) (inSequence (qs.map Located.outcomes) c)
      (Way.inSequence (qs.map fun q => q.erase.ways S) c) := by
  induction qs generalizing c with
  | nil =>
    refine .cons ⟨rfl, fun r hr => absurd hr List.not_mem_nil, .nil⟩ .nil
  | cons q qs ih =>
    rw [List.pairwise_cons] at hdisjoint
    obtain ⟨hq, hqs⟩ := List.forall_mem_cons.mp h
    rw [List.map_cons, List.map_cons, inSequence, Way.inSequence]
    refine List.rel_flatMap (hq c) fun o w htells => ?_
    rw [← htells.cursor, List.forall₂_map_left_iff, List.forall₂_map_right_iff]
    refine (ih hdisjoint.2 hqs o.cursor).imp fun o' w' htells' => ⟨htells'.cursor, ?_, ?_⟩
    · intro r hr
      rcases List.mem_append.mp hr with hr | hr
      · exact ⟨q, List.mem_cons_self, htells.within r hr⟩
      · obtain ⟨q', hq', hmem⟩ := htells'.within r hr
        exact ⟨q', List.mem_cons_of_mem q hq', hmem⟩
    · -- what the first part records is not for the others, nor the other way round
      refine .cons (htells.comesTo.congr (.append_right ?_)) ?_
      · refine Trace.touches_eq_false_iff.mpr fun r hr hmem => ?_
        obtain ⟨q', hq', hr⟩ := htells'.within r hr
        exact hdisjoint.1 q' hq' hmem hr
      · refine (forall₂_congr_of_mem (fun q' hq' b => ?_)).mp htells'.parts
        have hbeside : Trace.touches o.records q' = false :=
          Trace.touches_eq_false_iff.mpr fun r hr => hdisjoint.1 q' hq' (htells.within r hr)
        exact ⟨fun hcomes => hcomes.congr (.append_left hbeside), fun hcomes => hcomes.congr
          (Trace.AgreeOn.append_left hbeside).symm⟩

/-- Outcomes of a loop tell of the ways to go round it. -/
theorem tells_inTurns {l : Loop} {q : Located}
    (h : ∀ c, List.Forall₂ (Tells S q) (Located.outcomes q c) (q.erase.ways S c)) (m count : Nat)
    (c : Cursor) :
    List.Forall₂ (TellsTurns S l q count) (l.outcomes q.outcomes m count c)
      (Way.inTurns l.bounds (q.erase.ways S) m count c) := by
  have hleave : ∀ (count : Nat) (c : Cursor), TellsTurns S l q count (here c) (c, []) :=
    fun count c => ⟨rfl, fun max _ hle => hle, [], rfl,
      fun f hf => absurd hf List.not_mem_nil, .nil⟩
  induction m generalizing count c with
  | zero =>
    rw [Loop.outcomes, Way.inTurns]
    split
    · exact .cons (hleave count c) .nil
    · exact .nil
  | succ m ih =>
    rw [Loop.outcomes, Way.inTurns]
    split
    · exact .cons (hleave count c) .nil
    · rename_i hfull
      refine List.rel_append (List.rel_flatMap (h c) fun o w htells => ?_) ?_
      · rw [Loop.counts, htells.cursor]
        split
        · rw [List.forall₂_map_left_iff, List.forall₂_map_right_iff]
          refine (ih (count + 1) w.1).imp fun o' w' htells' => ⟨htells'.cursor, ?_, ?_⟩
          · intro max hmax _
            have hlt : count < max := by
              refine Nat.lt_of_not_le fun hle => hfull ?_
              exact l.bounds.isFull_iff.mpr ⟨max, hmax, hle⟩
            have hmost := htells'.most max hmax hlt
            show count + (w.2 :: w'.2).length ≤ max
            rw [List.length_cons]
            omega
          · obtain ⟨fs, hrecords, hwithin, hall⟩ := htells'.frames
            refine ⟨o.records :: fs, ?_, List.forall_mem_cons.mpr ⟨htells.within, hwithin⟩,
              .cons htells.comesTo hall⟩
            rw [after_records, hrecords, List.flatMap_cons]
        · exact .nil
      · split
        · exact .cons (hleave count c) .nil
        · exact .nil

end Outcome

namespace Located

variable {p q : Located}

/-- The ways of a node with one child are made of those of the child. -/
theorem ways_erase_body (S : Summary β) (hc : p.children = [q]) :
    p.erase.ways S =
      Pattern.nodeWays S p.erase.label [q.erase.absentResults] [q.erase.ways S] := by
  rw [Pattern.ways_eq, children_erase, hc]
  rfl

theorem ways_literal (hk : p.kind = .literal) (c : Cursor) :
    p.erase.ways S c = (c.match? p.label.literal).toList.map fun d => (d, S.literal) := by
  rw [Pattern.ways_eq, Pattern.nodeWays, kind_erase, hk, erase_eq]
  rfl

theorem ways_capture (hk : p.kind = .capture) (hc : p.children = [q]) (c : Cursor) :
    p.erase.ways S c =
      (q.erase.ways S c).map fun w => (w.1, S.capture ⟨c.pos, w.1.pos⟩ w.2) := by
  rw [ways_erase_body S hc, Pattern.nodeWays, kind_erase, hk]
  rfl

theorem ways_group (hk : p.kind = .group) (hc : p.children = [q]) :
    p.erase.ways S = q.erase.ways S := by
  funext c
  rw [ways_erase_body S hc, Pattern.nodeWays, kind_erase, hk]
  rfl

theorem ways_concat (hk : p.kind = .concat) (c : Cursor) :
    p.erase.ways S c =
      (Way.inSequence (p.children.map fun q => (erase q).ways S) c).map (Way.map S.sequence) := by
  rw [Pattern.ways_eq, Pattern.nodeWays, kind_erase, hk, children_erase, List.map_map]
  rfl

theorem ways_alternation (hk : p.kind = .alternation) (c : Cursor) :
    p.erase.ways S c = p.children.zipIdx.flatMap fun branch =>
      (Pattern.ways S (erase branch.1) c).map
        (Way.map (S.branch (p.erase.children.map Pattern.absentResults) branch.2)) := by
  rw [Pattern.ways_eq, Pattern.nodeWays, kind_erase, hk]
  simp only [Way.inBranches, children_erase, List.map_map, List.zipIdx_map, List.flatMap_map]
  rfl

theorem ways_quantifier (hk : p.kind = .quantifier) (hc : p.children = [q]) (c : Cursor) :
    p.erase.ways S c =
      (Way.inTurns p.bounds (q.erase.ways S) (p.bounds.min + c.left) 0 c).map
        (Way.map (S.loop p.bounds q.erase.absentResults)) := by
  rw [ways_erase_body S hc, Pattern.nodeWays, kind_erase, hk, bounds_erase]
  rfl

end Located

/-! ## One node -/

namespace Outcome

variable {p q : Located} {o : Outcome} {w : Way β}

/-- An outcome of what is captured, with its span put down behind. -/
theorem Tells.capture (h : Tells S q o w) (hk : p.kind = .capture) (hc : p.children = [q])
    (hd : p.Distinct) (c : Cursor) :
    Tells S p ⟨o.cursor, o.records ++ [.span p.id ⟨c.pos, o.cursor.pos⟩]⟩
      (w.1, S.capture ⟨c.pos, w.1.pos⟩ w.2) := by
  have hq := mem_children_of_eq hc
  have hnone : Trace.spans o.records p.id = [] := by
    refine (Trace.rows_eq_nil_iff.mpr fun r hr hid => ?_).1
    exact hd.id_notMem_ids hq (hid ▸ h.within r hr)
  rw [← h.cursor]
  refine ⟨rfl, fun r hr => ?_, .capture hk hc ?_ (h.comesTo.congr (.append_right ?_))⟩
  · rcases List.mem_append.mp hr with hr | hr
    · exact ids_subset_of_mem_children hq (h.within r hr)
    · rw [List.mem_singleton.mp hr]
      exact id_mem_ids_self p
  · rw [Trace.spans_append, hnone, List.nil_append]
    simp [Trace.spans, Record.spanOf?]
  · refine hd.untouched_child hq fun r hr => ?_
    rw [List.mem_singleton.mp hr]
    rfl

/-- An outcome of a branch, with the branch put down in front. -/
theorem Tells.branch {i : Nat} (h : Tells S q o w) (hk : p.kind = .alternation)
    (hb : p.children[i]? = some q) (hd : p.Distinct) :
    Tells S p (after (p.mark i) o)
      (w.map (S.branch (p.erase.children.map Pattern.absentResults) i)) := by
  have hq := List.mem_of_getElem? hb
  have hmark : ∀ a ∈ p.children, Trace.touches (p.mark i) a = false := fun a ha =>
    hd.untouched_child ha fun r hr => eq_choice_of_mem_mark hr ▸ rfl
  refine ⟨h.cursor, fun r hr => ?_, .alternation hk hb (fun hcap => ?_)
    (h.comesTo.congr (.append_left (hmark q hq))) fun j a ha hne => ?_⟩
  · rcases List.mem_append.mp hr with hr | hr
    · rw [eq_choice_of_mem_mark hr]
      exact id_mem_ids_self p
    · exact ids_subset_of_mem_children hq (h.within r hr)
  · have hnone : Trace.choices o.records p.id = [] := by
      refine (Trace.rows_eq_nil_iff.mpr fun r hr hid => ?_).2.1
      exact hd.id_notMem_ids hq (hid ▸ h.within r hr)
    rw [after_records, Trace.choices_append, hnone, List.append_nil, mark, if_pos hcap]
    simp [Trace.choices, Record.choiceOf?]
  · rw [after_records, Trace.touches_append, hmark a (List.mem_of_getElem? ha), Bool.false_or]
    exact Trace.touches_eq_false_iff.mpr fun r hr =>
      hd.disjoint_of_ne hb ha hne.symm (h.within r hr)

/-- An outcome of all the iterations of a quantifier. -/
theorem TellsTurns.tells {w : Way (List β)} (h : TellsTurns S (Loop.ofNode p) q 0 o w)
    (hk : p.kind = .quantifier) (hc : p.children = [q]) (hd : p.Distinct) :
    Tells S p o (w.map (S.loop p.bounds q.erase.absentResults)) := by
  have hq := mem_children_of_eq hc
  obtain ⟨fs, hrecords, hwithin, hall⟩ := h.frames
  cases hcap : q.hasCapture with
  | false =>
    refine ⟨h.cursor, fun r hr => ?_, .unrecorded hk hc hcap⟩
    rw [hrecords, List.mem_flatMap] at hr
    obtain ⟨f, hf, hr⟩ := hr
    rw [ofNode_entry hc, hcap] at hr
    exact ids_subset_of_mem_children hq (hwithin f hf r hr)
  | true =>
    have hframed : o.records = fs.flatMap fun f => [.iteration p.id f] := by
      rw [hrecords]
      refine congrArg (List.flatMap · fs) (funext fun f => ?_)
      rw [ofNode_entry hc, hcap]
      rfl
    have hroot : ∀ r ∈ o.records, r.node = p.id := by
      intro r hr
      rw [hframed, List.mem_flatMap] at hr
      obtain ⟨f, -, hr⟩ := hr
      rw [List.mem_singleton.mp hr]
      rfl
    have hiterations : Trace.iterations o.records p.id = fs := by
      rw [hframed, iterations_flatMap]
    obtain ⟨hlength, hcomes⟩ := List.forall₂_iff_zip.mp hall
    refine ⟨h.cursor, fun r hr => ?_, .loop hk hc (hd.untouched_child hq hroot)
      (fun ho => ?_) ?_ fun pair hpair => ?_⟩
    · rw [hroot r hr]
      exact id_mem_ids_self p
    · rw [hiterations, hlength]
      have hmost := h.most 1
      have hle := hmost (congrArg Bounds.max (p.bounds.isOptional_iff.mp ho)) (Nat.zero_le 1)
      rwa [Nat.zero_add] at hle
    · rw [hiterations, hlength]
    · rw [hiterations] at hpair
      exact hcomes hpair

end Outcome

/-- **Outcomes and ways to match go together**, one by one and in the same order. -/
theorem Located.WellFormed.tells_ways {p : Located} (h : p.WellFormed) (hd : p.Distinct)
    (c : Cursor) : List.Forall₂ (Outcome.Tells S p) (p.outcomes c) (p.erase.ways S c) := by
  induction h generalizing c with
  | @literal p hk hc _ =>
    rw [outcomes_literal hk, ways_literal hk, List.forall₂_map_left_iff, List.forall₂_map_right_iff,
      List.forall₂_same]
    exact fun d _ => ⟨rfl, fun r hr => absurd hr List.not_mem_nil, .literal hk hc⟩
  | @capture p q hk hc _ ih =>
    rw [outcomes_capture hk hc, ways_capture hk hc, List.forall₂_map_left_iff,
      List.forall₂_map_right_iff]
    exact (ih (hd.child (mem_children_of_eq hc)) c).imp fun o w htells =>
      htells.capture hk hc hd c
  | @group p q hk hc _ ih =>
    have hq := mem_children_of_eq hc
    rw [outcomes_group hk hc, ways_group hk hc]
    exact (ih (hd.child hq) c).imp fun o w htells =>
      ⟨htells.cursor, fun r hr => ids_subset_of_mem_children hq (htells.within r hr),
        .group hk hc htells.comesTo⟩
  | @concat p hk _ ih =>
    rw [outcomes_concat hk, ways_concat hk, List.forall₂_map_right_iff]
    have hparts := Outcome.tells_inSequence hd.pairwise_children
      (fun q hq => ih q hq (hd.child hq)) c
    refine hparts.imp fun o w htells => ⟨htells.cursor, fun r hr => ?_, ?_⟩
    · obtain ⟨q, hq, hmem⟩ := htells.within r hr
      exact ids_subset_of_mem_children hq hmem
    · obtain ⟨hlength, hcomes⟩ := List.forall₂_iff_zip.mp htells.parts
      exact .concat hk hlength fun pair hpair => hcomes hpair
  | @alternation p hk hne _ ih =>
    rw [outcomes_alternation hk hne, ways_alternation hk]
    have hbranches : List.Forall₂ (fun b b' => b = b' ∧ b ∈ p.children.zipIdx) p.children.zipIdx
        p.children.zipIdx := List.forall₂_same.mpr fun b hb => ⟨rfl, hb⟩
    refine List.rel_flatMap hbranches ?_
    rintro ⟨b, i⟩ - ⟨rfl, hmem⟩
    have hb := List.mem_zipIdx_iff_getElem?.mp hmem
    have hin := List.mem_of_getElem? hb
    rw [List.forall₂_map_left_iff, List.forall₂_map_right_iff]
    exact (ih b hin (hd.child hin) c).imp fun o w htells => htells.branch hk hb hd
  | @quantifier p q hk hc _ _ ih =>
    rw [outcomes_quantifier hk hc, ways_quantifier hk hc, List.forall₂_map_right_iff]
    have hturns := Outcome.tells_inTurns (l := Loop.ofNode p)
      (ih (hd.child (mem_children_of_eq hc))) (p.bounds.min + c.left) 0 c
    exact hturns.imp fun o w htells => htells.tells hk hc hd

end CaptureTree
