import CaptureTree.Proofs.Matching.ComesTo
import CaptureTree.Proofs.Value.Runs

/-!
# Values and results, without a trace

The summaries of a match are what is read from its trace.  Where a frame comes to a value,
this is the value that assembling along the shape of the pattern returns
(`Trace.ComesTo.assemble_infer`), and where it comes to a list of results, each of them is
what assembling the flat shape of its capture returns (`Trace.ComesTo.assemble_flats`).

Absent results need no frame.  They are what is read where nothing is recorded
(`Located.absentResults_erase`), and a pattern has none of them if it has no captures
(`Located.isEmpty_absentResults`).
-/

namespace CaptureTree

open Located

/-! ## Absent results -/

namespace Located

variable {p : Located} {t : Trace}

/-- **The absent results of a pattern** are the empty results of its captures. -/
theorem absentResults_erase (p : Located) :
    p.erase.absentResults = (p.capturesIn []).map fun e => Value.absentFlat e.2 := by
  induction p using Located.induction with
  | node p ih =>
    have hparts : (p.erase.children.map Pattern.absentResults).flatten =
        (p.children.flatMap (capturesIn [])).map fun e => Value.absentFlat e.2 := by
      rw [children_erase, List.map_map, ← List.flatMap_def, List.map_flatMap]
      exact List.flatMap_congr fun q hq => ih q hq
    rw [Pattern.absentResults_eq, Pattern.nodeAbsentResults, kind_erase, bounds_erase, hparts]
    cases hk : p.kind with
    | capture =>
      have hcapture : p.isCapture = true := beq_iff_eq.mpr hk
      rw [capturesIn_eq, if_pos hcapture, if_neg (by rw [hk]; decide)]
      rfl
    | quantifier =>
      rw [capturesIn_quantifier hk, List.map_map, List.map_map]
      rfl
    | literal | group | concat | alternation =>
      rw [capturesIn_inner (by rw [hk]; decide) (by rw [hk]; decide)]

theorem isEmpty_absentResults (p : Located) :
    p.erase.absentResults.isEmpty = !p.hasCapture := by
  have hcaptures : (p.capturesIn []).isEmpty = p.captures.isEmpty := by
    rw [← map_fst_capturesIn [] p, List.isEmpty_map]
  rw [absentResults_erase, List.isEmpty_map, hcaptures, captures, hasCapture, Bool.eq_iff_iff,
    List.isEmpty_iff, List.filter_eq_nil_iff, Bool.not_eq_true', List.any_eq_false]

/-- The absent results are those that are read where nothing is recorded. -/
theorem assemble_absentResults {ps : List Located}
    (h : ∀ p ∈ ps, t.touches p = false) :
    List.Forall₂ (fun e u => Value.assemble (.flat e.2 e.1) t = .ok u)
      (ps.flatMap (capturesIn [])) (ps.map fun p => (erase p).absentResults).flatten := by
  have hresults : (ps.map fun p => (erase p).absentResults).flatten =
      (ps.flatMap (capturesIn [])).map fun e => Value.absentFlat e.2 := by
    rw [← List.flatMap_def, List.map_flatMap]
    exact List.flatMap_congr fun p _ => p.absentResults_erase
  rw [hresults, List.forall₂_map_right_iff, List.forall₂_same]
  rintro ⟨c, qs⟩ he
  obtain ⟨p, hp, he⟩ := List.mem_flatMap.mp he
  obtain ⟨qs', rfl, hholds⟩ := mem_capturesIn.mp he
  exact Value.assemble_flat_of_untouched hholds (h p hp)

end Located

/-! ## Values -/

namespace Value

/-- The value of a sequence is made of the values of its parts. -/
theorem assemble_sequence {p : Located} {ss : List Shape} {vs : List Value} {t : Trace}
    (h : List.Forall₂ (fun s v => assemble s t = .ok v) ss vs) :
    assemble (.sequence p ss) t = .ok (sequence vs) := by
  have hkept : List.Forall₂ (fun s v => assemble s t = .ok v) (ss.filter (!·.isEmpty))
      (vs.filter (·.kind != .empty)) := by
    refine List.rel_filter (fun s v hv => ?_) h
    have hkind : (!s.isEmpty) = (s.kind != .empty) := by cases s <;> rfl
    show (!s.isEmpty) = true ↔ (v.kind != .empty) = true
    rw [kind_of_assemble hv, hkind]
  rw [Shape.sequence, sequence]
  revert hkept
  generalize ss.filter (!·.isEmpty) = ss'
  generalize vs.filter (·.kind != .empty) = vs'
  intro hkept
  cases hkept with
  | nil => rfl
  | cons hs htail =>
    cases htail with
    | nil => exact hs
    | cons hs' htail =>
      exact assemble_product_eq_ok.mpr ⟨_, .cons hs (.cons hs' htail), rfl⟩

end Value

namespace Trace.ComesTo

variable {p : Located} {t : Trace}

/-- **Assembling returns the value that a frame comes to.** -/
theorem assemble_infer {v : Value} (h : ComesTo .value p t v) (hwell : p.WellFormed) :
    Value.assemble (.infer p) t = .ok v := by
  induction h with
  | literal hk =>
    rw [Shape.infer_literal hk]
    rfl
  | @capture p q t s v hk hc hspan =>
    rw [Shape.infer_capture hk]
    exact Value.assemble_leaf_of_span hspan
  | @group p q t v hk hc _ ih =>
    rw [Shape.infer_group hk hc]
    exact ih (hwell.child (mem_children_of_eq hc))
  | @concat p t vs hk hlength _ ih =>
    rw [Shape.infer_concat hk]
    refine Value.assemble_sequence (List.forall₂_map_left_iff.mpr ?_)
    exact List.forall₂_iff_zip.mpr ⟨hlength, fun {q v} hpair =>
      ih (q, v) hpair (hwell.child (List.of_mem_zip hpair).1)⟩
  | @alternation p q t i v hk hb hchosen _ hothers ih =>
    have hnone : (p.erase.children.map Pattern.absentResults).all List.isEmpty =
        (p.children.map Shape.infer).all Shape.isEmpty := by
      rw [children_erase, Bool.eq_iff_iff, List.all_eq_true, List.all_eq_true]
      simp only [List.forall_mem_map]
      refine forall₂_congr fun a ha => ?_
      rw [isEmpty_absentResults, (hwell.child ha).isEmpty_infer]
    have hshape := Shape.infer_alternation hk
    rw [← hnone] at hshape
    rw [Summary.value_branch]
    split at hshape
    · rename_i hempty
      rw [hshape, if_pos hempty]
      rfl
    · rename_i hsome
      have hcap : p.hasCapture = true := by
        refine hwell.hasCapture_of_infer fun hempty => ?_
        rw [hempty] at hshape
        cases hshape
      rw [hshape, if_neg hsome]
      exact Value.assemble_sum_of_branch hb (hchosen hcap) hothers
        (ih (hwell.child (List.mem_of_getElem? hb)))
  | @unrecorded p q t vs hk hc hnone =>
    have hq := hwell.child (mem_children_of_eq hc)
    have hempty : q.erase.absentResults.isEmpty = true := by
      rw [isEmpty_absentResults, hnone]
      rfl
    have hshape := Shape.infer_quantifier hk hc
    rw [hq.isEmpty_infer, hnone] at hshape
    rw [Summary.value_loop, hshape, if_pos hempty]
    rfl
  | @loop p q t vs hk hc hloose honce hlength _ ih =>
    have hq := hwell.child (mem_children_of_eq hc)
    have hshape := Shape.infer_quantifier hk hc
    rw [hq.isEmpty_infer, ← isEmpty_absentResults] at hshape
    rw [Summary.value_loop]
    split at hshape
    · rename_i hempty
      rw [hshape, if_pos hempty]
      rfl
    · rename_i hsome
      rw [hshape, if_neg hsome]
      refine Value.assemble_loop_of_frames hc hloose honce ?_
      exact List.forall₂_iff_zip.mpr ⟨hlength, fun {f v} hpair => ih (f, v) hpair hq⟩

end Trace.ComesTo

/-! ## Results -/

namespace Summary

/-- Putting an entry in front of every column. -/
theorem forall₂_zipWith_cons {α β : Type} {R : α → β → Prop} {S : α → List β → Prop}
    {T : α → List β → Prop} (hstep : ∀ a b bs, R a b → S a bs → T a (b :: bs)) {as : List α}
    {row : List β} {cols : List (List β)} (hrow : List.Forall₂ R as row)
    (hcols : List.Forall₂ S as cols) : List.Forall₂ T as (List.zipWith List.cons row cols) := by
  induction hrow generalizing cols with
  | nil =>
    cases hcols
    exact .nil
  | cons hhead _ ih =>
    cases hcols with
    | cons hcol hcols => exact .cons (hstep _ _ _ hhead hcol) (ih hcols)

/-- **The columns of the rows of a loop.**  If every row has a result for every capture,
then the column of a capture has its results in all rows. -/
theorem forall₂_columns {α γ : Type} {R : γ → α → Value → Prop} {as : List α}
    {absent : List Value} (hlength : as.length = absent.length) {fs : List γ}
    {rows : List (List Value)} (h : List.Forall₂ (fun f row => List.Forall₂ (R f) as row) fs rows) :
    List.Forall₂ (fun a col => List.Forall₂ (fun f u => R f a u) fs col) as
      (columns absent rows) := by
  induction h with
  | nil =>
    refine List.forall₂_map_right_iff.mpr (List.forall₂_iff_zip.mpr ⟨hlength, fun _ => .nil⟩)
  | cons hrow _ ih => exact forall₂_zipWith_cons (fun a u col hu hcol => .cons hu hcol) hrow ih

/-- A loop around a body without captures has no results. -/
theorem columns_nil (rows : List (List Value)) : columns [] rows = [] := by
  cases rows with
  | nil => rfl
  | cons row rows =>
    show List.zipWith List.cons row (columns [] rows) = []
    rw [columns_nil rows, List.zipWith_nil_right]

end Summary

namespace Trace.ComesTo

variable {p : Located} {t : Trace}

/-- **Assembling a flat shape returns the result** that a frame comes to, for every
capture. -/
theorem assemble_flats {us : List Value} (h : ComesTo .results p t us) :
    List.Forall₂ (fun e u => Value.assemble (.flat e.2 e.1) t = .ok u) (p.capturesIn []) us := by
  induction h with
  | @literal p t hk hc =>
    rw [capturesIn_inner (by rw [hk]; decide) (by rw [hk]; decide), hc]
    exact .nil
  | @capture p q t s us hk hc hspan _ ih =>
    rw [capturesIn_capture hk hc]
    exact .cons (Value.assemble_leaf_of_span hspan) ih
  | @group p q t us hk hc _ ih =>
    rw [capturesIn_inner (by rw [hk]; decide) (by rw [hk]; decide), hc, List.flatMap_singleton]
    exact ih
  | @concat p t uss hk hlength _ ih =>
    rw [capturesIn_inner (by rw [hk]; decide) (by rw [hk]; decide), List.flatMap_def]
    refine List.rel_flatten (List.forall₂_map_left_iff.mpr ?_)
    exact List.forall₂_iff_zip.mpr ⟨hlength, fun {q us} hpair => ih (q, us) hpair⟩
  | @alternation p q t i us hk hb _ _ hothers ih =>
    obtain ⟨hi, hq⟩ := List.getElem?_eq_some_iff.mp hb
    have hsplit : p.children = p.children.take i ++ (q :: p.children.drop (i + 1)) := by
      rw [← hq, List.getElem_cons_drop, List.take_append_drop]
    have hbefore : ∀ a ∈ p.children.take i, t.touches a = false := by
      intro a ha
      obtain ⟨j, hj, rfl⟩ := List.mem_take_iff_getElem.mp ha
      exact hothers j _ (List.getElem?_eq_getElem _) (Nat.ne_of_lt (Nat.lt_of_lt_of_le hj
        (Nat.min_le_left _ _)))
    have hafter : ∀ a ∈ p.children.drop (i + 1), t.touches a = false := by
      intro a ha
      obtain ⟨j, hj, rfl⟩ := List.mem_drop_iff_getElem.mp ha
      exact hothers _ _ (List.getElem?_eq_getElem _) (by omega)
    have hcaptures : p.capturesIn [] = (p.children.take i).flatMap (capturesIn []) ++
        q.capturesIn [] ++ (p.children.drop (i + 1)).flatMap (capturesIn []) := by
      rw [capturesIn_inner (by rw [hk]; decide) (by rw [hk]; decide), List.append_assoc,
        ← List.flatMap_cons, ← List.flatMap_append, ← hsplit]
    have hresults : Summary.results.branch (p.erase.children.map Pattern.absentResults) i us =
        ((p.children.take i).map fun a => (erase a).absentResults).flatten ++ us ++
          ((p.children.drop (i + 1)).map fun a => (erase a).absentResults).flatten := by
      rw [Summary.results_branch, children_erase, List.map_map, ← List.map_take, ← List.map_drop]
      rfl
    rw [hcaptures, hresults]
    exact List.rel_append (List.rel_append (assemble_absentResults hbefore) ih)
      (assemble_absentResults hafter)
  | @unrecorded p q t uss hk hc hnone =>
    have habsent : q.erase.absentResults = [] := by
      rw [← List.isEmpty_iff, isEmpty_absentResults, hnone]
      rfl
    have hempty : q.capturesIn [] = [] :=
      List.map_eq_nil_iff.mp ((absentResults_erase q).symm.trans habsent)
    rw [capturesIn_quantifier hk, hc, List.flatMap_singleton, hempty, habsent,
      Summary.results_loop, Summary.columns_nil]
    exact .nil
  | @loop p q t uss hk hc hloose honce hlength _ ih =>
    have hcount : (q.capturesIn []).length = q.erase.absentResults.length := by
      rw [absentResults_erase, List.length_map]
    have hrows : List.Forall₂ (fun f us => List.Forall₂ (fun e u => Value.assemble (.flat e.2 e.1) f
        = .ok u) (q.capturesIn []) us) (t.iterations p.id) uss :=
      List.forall₂_iff_zip.mpr ⟨hlength, fun {f us} hpair => ih (f, us) hpair⟩
    rw [capturesIn_quantifier hk, hc, List.flatMap_singleton, Summary.results_loop,
      List.forall₂_map_left_iff, List.forall₂_map_right_iff]
    exact (Summary.forall₂_columns hcount hrows).imp fun e col hcol =>
      Value.assemble_loop_of_frames hc hloose honce hcol

end Trace.ComesTo

end CaptureTree
