import CaptureTree.Proofs.Value.Projection

/-!
# Runs can be read

A frame that holds what one run through a pattern records can be read along the shape
of the pattern (`Trace.Executed.exists_assemble_infer`), and along the flat shape of
every capture in it, visible or hidden (`Trace.Executed.exists_assemble_flat`).

Each way in which reading can fail is excluded by the part of a run that has to do
with it: a capture has one span, an alternation has one branch in use, a quantifier
has no loose records beside its frames, and no more frames than its bounds allow.
-/

namespace CaptureTree

open Located

namespace Trace.Executed

variable {p q c : Located} {qs : List Located} {t : Trace}

/-- **In a run, an alternation has one branch in use.** -/
theorem liveBranches_eq {i : Nat} (hbranch : p.children[i]? = some q)
    (hchosen : t.choices p.id = [i])
    (hothers : ∀ j b, p.children[j]? = some b → j ≠ i → t.touches b = false) :
    t.liveBranches p = [i] := by
  refine liveBranches_eq_singleton fun j => ?_
  rw [mem_liveBranches, hchosen, List.mem_singleton]
  constructor
  · rintro ⟨b, hb, hlive⟩
    by_contra hji
    rcases hlive with hlive | hlive
    · exact hji hlive
    · rw [hothers j b hb hji] at hlive
      cases hlive
  · rintro rfl
    exact ⟨q, hbranch, .inl rfl⟩

end Trace.Executed

/-! ## What one run leaves in a slot -/

namespace Value

variable {p q : Located} {t : Trace}

theorem assemble_leaf_of_span {s : Span} (h : t.spans p.id = [s]) :
    assemble (.leaf (some p)) t = .ok (leaf (some s)) := by
  refine assemble_leaf_eq_ok.mpr ?_
  rw [h]
  exact ⟨Nat.le_refl 1, rfl⟩

/-- A sum is read in the one branch that was chosen, if the others are not in use. -/
theorem assemble_sum_of_branch {i : Nat} {v : Value} (hbranch : p.children[i]? = some q)
    (hchosen : t.choices p.id = [i])
    (hothers : ∀ j b, p.children[j]? = some b → j ≠ i → t.touches b = false)
    (hv : assemble (.infer q) t = .ok v) :
    assemble (.sum p (p.children.map Shape.infer)) t = .ok (sum i v) := by
  refine assemble_sum_eq_ok.mpr ⟨i, Trace.branchTaken_eq_ok.mpr ?_, Shape.infer q, ?_, v, hv, rfl⟩
  · rw [Trace.Executed.liveBranches_eq hbranch hchosen hothers, hchosen]
    exact ⟨Nat.le_refl 1, rfl⟩
  · exact Shape.getElem?_map_infer hbranch

/-- The slot of a quantifier is read from the frames that were recorded, if nothing of the
body stands beside them. -/
theorem assemble_loop_of_frames {s : Shape} {vs : List Value} (hc : p.children = [q])
    (hloose : t.touches q = false)
    (honce : p.bounds.isOptional = true → (t.iterations p.id).length ≤ 1)
    (hvs : List.Forall₂ (fun f v => assemble s f = .ok v) (t.iterations p.id) vs) :
    assemble (.loop p s) t = .ok (ofItems p vs) := by
  have hbody : ∀ b ∈ p.body, t.touches b = false := fun b hb => eq_of_mem_body hc hb ▸ hloose
  exact assemble_loop_eq_ok.mpr ⟨_, Trace.frames_of_untouched hbody, honce, vs, hvs, rfl⟩

end Value

/-! ## Reading a run -/

namespace Trace.Executed

variable {p q c : Located} {qs : List Located} {t : Trace}

/-- In a run, a quantifier around a capture has the frames that were recorded, and its
slot can be read if what is inside it can be read from each of them. -/
theorem exists_assemble_loop {s : Shape} (hc : p.children = [q])
    (hloose : t.touches q = false) (hcount : p.bounds.Allow (t.iterations p.id).length)
    (hinside : ∀ f ∈ t.iterations p.id, ∃ v, Value.assemble s f = .ok v) :
    ∃ v, Value.assemble (.loop p s) t = .ok v := by
  obtain ⟨vs, hvs⟩ := exists_forall₂_of_forall hinside
  exact ⟨_, Value.assemble_loop_of_frames hc hloose hcount.le_one hvs⟩

/-- **A run can be read along the shape of the pattern.** -/
theorem exists_assemble_infer (h : Executed p t) (hwell : p.WellFormed) :
    ∃ v, Value.assemble (.infer p) t = .ok v := by
  induction h with
  | literal hk =>
    rw [Shape.infer_literal hk]
    exact ⟨Value.empty, rfl⟩
  | @capture p q t s hk hc hspan =>
    rw [Shape.infer_capture hk]
    exact ⟨_, Value.assemble_leaf_of_span hspan⟩
  | @group p q t hk hc _ ih =>
    rw [Shape.infer_group hk hc]
    exact ih (hwell.child (mem_children_of_eq hc))
  | @concat p t hk _ ih =>
    rw [Shape.infer_concat hk]
    have hparts : ∀ s ∈ p.children.map Shape.infer, ∃ v, Value.assemble s t = .ok v := by
      intro s hs
      obtain ⟨q, hq, rfl⟩ := List.mem_map.mp hs
      exact ih q hq (hwell.child hq)
    rcases Shape.sequence_cases p (p.children.map Shape.infer) with ⟨hseq, -⟩ | ⟨s, hs, hseq⟩ | hseq
    · rw [hseq]
      exact ⟨Value.empty, rfl⟩
    · rw [hseq]
      exact hparts s hs
    · rw [hseq]
      obtain ⟨vs, hvs⟩ := exists_forall₂_of_forall fun s hs => hparts s (List.mem_of_mem_filter hs)
      exact ⟨Value.product vs, Value.assemble_product_eq_ok.mpr ⟨vs, hvs, rfl⟩⟩
  | @alternation p q t i hk hb hchosen _ hothers ih =>
    have hshape := Shape.infer_alternation hk
    split at hshape
    · rw [hshape]
      exact ⟨Value.empty, rfl⟩
    · have hcap : p.hasCapture = true := by
        refine hwell.hasCapture_of_infer fun hempty => ?_
        rw [hempty] at hshape
        cases hshape
      obtain ⟨v, hv⟩ := ih (hwell.child (List.mem_of_getElem? hb))
      rw [hshape]
      exact ⟨_, Value.assemble_sum_of_branch hb (hchosen hcap) hothers hv⟩
  | @quantifier p q t hk hc hloose hcount _ ih =>
    have hq : q.WellFormed := hwell.child (mem_children_of_eq hc)
    have hshape := Shape.infer_quantifier hk hc
    split at hshape
    · rw [hshape]
      exact ⟨Value.empty, rfl⟩
    · rename_i hnonempty
      have hcap : q.hasCapture = true := by
        refine hq.hasCapture_of_infer fun hempty => hnonempty ?_
        rw [hempty]
        rfl
      rw [hshape]
      exact exists_assemble_loop hc (hloose hcap) (hcount hcap) fun f hf => ih hcap f hf hq

/-- **A run can be read along the flat shape of every capture.** -/
theorem exists_assemble_flat (h : Executed p t) (hholds : p.Holds qs c) :
    ∃ v, Value.assemble (.flat qs c) t = .ok v := by
  induction h generalizing qs with
  | @literal p t hk hc =>
    obtain ⟨q, hq, -⟩ := hholds.of_inner (by rw [hk]; decide) (by rw [hk]; decide)
    rw [hc] at hq
    exact absurd hq List.not_mem_nil
  | @capture p q t s hk hc hspan _ ih =>
    rcases hholds.of_capture hk with ⟨rfl, rfl⟩ | ⟨q', hq, hinside⟩
    · exact ⟨_, Value.assemble_leaf_of_span hspan⟩
    · rw [hc, List.mem_singleton] at hq
      exact ih (hq ▸ hinside)
  | @group p q t hk hc _ ih =>
    obtain ⟨q', hq, hinside⟩ := hholds.of_inner (by rw [hk]; decide) (by rw [hk]; decide)
    rw [hc, List.mem_singleton] at hq
    exact ih (hq ▸ hinside)
  | @concat p t hk _ ih =>
    obtain ⟨q, hq, hinside⟩ := hholds.of_inner (by rw [hk]; decide) (by rw [hk]; decide)
    exact ih q hq hinside
  | @alternation p q t i hk hb hchosen _ hothers ih =>
    obtain ⟨b, hmem, hinside⟩ := hholds.of_inner (by rw [hk]; decide) (by rw [hk]; decide)
    obtain ⟨j, hj⟩ := List.mem_iff_getElem?.mp hmem
    by_cases hji : j = i
    · subst hji
      obtain rfl := Option.some.inj (hj.symm.trans hb)
      exact ih hinside
    · exact ⟨_, Value.assemble_flat_of_untouched hinside (hothers j b hj hji)⟩
  | @quantifier p q t hk hc hloose hcount _ ih =>
    obtain ⟨q', hq, rest, rfl, hinside⟩ := hholds.of_quantifier hk
    rw [hc, List.mem_singleton] at hq
    rw [hq] at hinside
    have hcap := hinside.hasCapture
    exact exists_assemble_loop hc (hloose hcap) (hcount hcap) fun f hf => ih hcap f hf hinside

end Trace.Executed

end CaptureTree
