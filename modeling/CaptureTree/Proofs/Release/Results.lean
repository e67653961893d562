import CaptureTree.Proofs.Release.Outcomes
import CaptureTree.Proofs.Value.Runs

/-!
# Results with a capture released

The flat result of a capture is read from the rows of the quantifiers around it and, in
their innermost frames, from its own row.  None of these rows goes away when another
capture is released, so the result stays the same (`Trace.Executed.assemble_flat_prune`).

This is about the traces of runs.  A trace may also hold span lists instead of frames, and
there the number of iterations can be known from the released capture alone.
-/

namespace CaptureTree

open Located

namespace Trace.Executed

variable {p q c : Located} {qs : List Located} {t : Trace} {n : NodeId} {keep : NodeId → Bool}

/-- **The frames of the outermost quantifier around a capture** hold runs through its
body, and nothing of the body is recorded beside them. -/
theorem frames_of_holds (h : Executed p t) (hwell : p.WellFormed) (hholds : p.Holds (q :: qs) c) :
    ∃ b : Located, q.children = [b] ∧ b.Holds qs c ∧ t.touches b = false ∧
      ∀ f ∈ t.iterations q.id, Executed b f := by
  induction h with
  | @literal p t hk hc =>
    obtain ⟨a, ha, -⟩ := hholds.of_inner (by rw [hk]; decide) (by rw [hk]; decide)
    rw [hc] at ha
    exact absurd ha List.not_mem_nil
  | @capture p a t s hk hc _ _ ih =>
    rcases hholds.of_capture hk with ⟨hnil, -⟩ | ⟨a', ha, hinside⟩
    · cases hnil
    · rw [hc, List.mem_singleton] at ha
      exact ih (hwell.child (mem_children_of_eq hc)) (ha ▸ hinside)
  | @group p a t hk hc _ ih =>
    obtain ⟨a', ha, hinside⟩ := hholds.of_inner (by rw [hk]; decide) (by rw [hk]; decide)
    rw [hc, List.mem_singleton] at ha
    exact ih (hwell.child (mem_children_of_eq hc)) (ha ▸ hinside)
  | @concat p t hk _ ih =>
    obtain ⟨a, ha, hinside⟩ := hholds.of_inner (by rw [hk]; decide) (by rw [hk]; decide)
    exact ih a ha (hwell.child ha) hinside
  | @alternation p a t i hk ha hchosen _ hothers ih =>
    obtain ⟨a', ha', hinside⟩ := hholds.of_inner (by rw [hk]; decide) (by rw [hk]; decide)
    obtain ⟨j, hj⟩ := List.mem_iff_getElem?.mp ha'
    by_cases hji : j = i
    · subst hji
      obtain rfl := Option.some.inj (hj.symm.trans ha)
      exact ih (hwell.child ha') hinside
    · -- a branch that was not taken has no frames
      have huntouched := hothers j a' hj hji
      obtain ⟨hq, hk, b, hb, hbody⟩ := hinside.of_cons
      obtain ⟨b', hb', -⟩ := ((hwell.child ha').of_mem_subtrees hq).of_quantifier hk
      rw [hb', List.mem_singleton] at hb
      subst hb
      have hsub := Tree.mem_subtrees_trans
        (mem_subtrees_of_mem_children (mem_children_of_eq hb')) hq
      have hrows := touches_eq_false_iff_rows.mp huntouched q.id (id_mem_ids hq)
      refine ⟨b, hb', hbody, touches_eq_false_of_mem_subtrees huntouched hsub, fun f hf => ?_⟩
      rw [hrows.2.2] at hf
      exact absurd hf List.not_mem_nil
  | @quantifier p a t hk hc hloose _ hinside =>
    obtain ⟨a', ha', rest, heq, hbody⟩ := hholds.of_quantifier hk
    obtain ⟨rfl, rfl⟩ := List.cons.inj heq
    rw [hc, List.mem_singleton] at ha'
    subst ha'
    exact ⟨a', hc, hbody, hloose hbody.hasCapture, hinside hbody.hasCapture⟩

/-- **Results of other captures stay.**  What the flat shape of a capture gives for a
run is what it gives for the run with another capture released. -/
theorem assemble_flat_prune (h : Executed p t) (hwell : p.WellFormed) (hholds : p.Holds qs c)
    (hn : p.CaptureAt n) (hkeep : p.KeptBy keep n) (hc : c.id ≠ n) {v : Value}
    (hv : Value.assemble (.flat qs c) t = .ok v) :
    Value.assemble (.flat (qs.map (release n)) (c.release n)) (t.prune keep) = .ok v := by
  induction qs generalizing p t v with
  | nil =>
    have hmem := hholds.capture_mem_subtrees
    have hkeepc := (hkeep.of_mem_subtrees hmem).of_capture hc (Tree.mem_subtrees_self c)
      hholds.isCapture hc
    obtain ⟨hone, rfl⟩ := Value.assemble_leaf_eq_ok.mp hv
    refine Value.assemble_leaf_eq_ok.mpr ?_
    rw [id_release, spans_prune hkeepc]
    exact ⟨hone, rfl⟩
  | cons q qs ih =>
    obtain ⟨hq, hk, -⟩ := hholds.of_cons
    obtain ⟨b, hb, hinside, huntouched, hframes⟩ := h.frames_of_holds hwell hholds
    have hid : q.id ≠ n := (hn.of_mem_subtrees hq).id_ne (by rw [hk]; decide)
    have hsub := Tree.mem_subtrees_trans (mem_subtrees_of_mem_children (mem_children_of_eq hb)) hq
    have hmem : c ∈ q.subtrees := Tree.mem_subtrees_trans hinside.capture_mem_subtrees
      (mem_subtrees_of_mem_children (mem_children_of_eq hb))
    have hkeepq := (hkeep.of_mem_subtrees hq).of_capture hid hmem hholds.isCapture hc
    have hbounds : (q.release n).bounds = q.bounds := by
      rw [bounds, label_release_of_ne hid, bounds]
    have hbody : ∀ a ∈ q.body, t.touches a = false := fun a ha => eq_of_mem_body hb ha ▸ huntouched
    have hbody' : ∀ a ∈ (q.release n).body, (t.prune keep).touches a = false := by
      intro a ha
      rw [eq_of_mem_body (children_release_singleton hb) ha]
      exact touches_prune huntouched ids_release
    have hv : Value.assemble (.loop q (.flat qs c)) t = .ok v := hv
    obtain ⟨fs, hfs, hmany, vs, hall, rfl⟩ := Value.assemble_loop_eq_ok.mp hv
    obtain rfl : t.iterations q.id = fs :=
      Except.ok.inj ((frames_of_untouched hbody).symm.trans hfs)
    refine Value.assemble_loop_eq_ok.mpr ⟨(t.iterations q.id).map (prune keep), ?_, ?_, vs, ?_, ?_⟩
    · rw [frames_of_untouched hbody', id_release, iterations_prune hkeepq]
    · rw [hbounds, List.length_map]
      exact hmany
    · rw [List.forall₂_map_left_iff]
      refine ((List.forall₂_and_left _ _).mpr ⟨hframes, hall⟩).imp fun f v hf => ?_
      exact ih hf.1 (hwell.of_mem_subtrees hsub) hinside (hn.of_mem_subtrees hsub)
        (hkeep.of_mem_subtrees hsub) hf.2
    · rw [Value.ofItems, Value.ofItems, hbounds]

end Trace.Executed

end CaptureTree
