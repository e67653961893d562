import CaptureTree.Proofs.Results
import CaptureTree.Proofs.Shape.Paths
import CaptureTree.Proofs.Trace.Executed
import CaptureTree.Value.Assembly
import Mathlib.Data.List.Nodup

/-!
# When a frame can be read

`Value.assemble` reads a frame along a shape, and gives up at the first
contradiction.  For each kind of slot this module says when reading succeeds, and
with which value: a leaf needs at most one span (`assemble_leaf_eq_ok`), the members
of a product are read one by one (`assemble_product_eq_ok`), a sum needs one branch
in use (`assemble_sum_eq_ok`), and the slot of a quantifier reads every iteration
from its own frame (`assemble_loop_eq_ok`).

Lists and slots that may be left out are the two forms of one slot, that of a
quantifier; `Value.ofItems` is the value of either.
-/

namespace CaptureTree

namespace Trace

variable {slot : SlotTitle} {a b q : Located} {t : Trace}

/-! ## Iterations -/

/-- Without loose records in the body, the frames are those that were recorded. -/
theorem frames_of_untouched (h : ∀ b ∈ q.body, t.touches b = false) :
    t.frames slot q = .ok (t.iterations q.id) := by
  have hnone : q.body.filter t.touches = none := by
    refine Option.filter_eq_none_iff.mpr fun b hb => ?_
    rw [h b hb]
    decide
  rw [frames, hnone]

/-- A quantifier has no body but its body. -/
theorem untouched_of_body (hb : q.body = some b) (ht : t.touches b = false) :
    ∀ b' ∈ q.body, t.touches b' = false := by
  intro b' hb'
  obtain rfl := Option.some.inj (hb.symm.trans hb')
  exact ht

/-- Loose records in the body are read as span lists if there are no frames. -/
theorem frames_of_touched (hb : q.body = some b) (ht : t.touches b = true) :
    t.frames slot q =
      if (t.iterations q.id).isEmpty then splitSpans slot b t
      else .error (.looseRecords slot (t.iterations q.id).length) := by
  rw [frames, hb, Option.filter_some, if_pos ht]

/-- **Frames are recorded, or else split off span lists.** -/
theorem frames_eq_ok {fs : List Trace} (h : t.frames slot q = .ok fs) :
    ((∀ b ∈ q.body, t.touches b = false) ∧ fs = t.iterations q.id) ∨
      ∃ b ∈ q.body, t.iterations q.id = [] ∧ splitSpans slot b t = .ok fs := by
  by_cases hloose : ∀ b ∈ q.body, t.touches b = false
  · left
    rw [frames_of_untouched hloose] at h
    exact ⟨hloose, (Except.ok.inj h).symm⟩
  · right
    push Not at hloose
    obtain ⟨b, hb, htouch⟩ := hloose
    rw [Bool.ne_false_iff] at htouch
    rw [frames_of_touched hb htouch] at h
    split at h
    · rename_i hempty
      exact ⟨b, hb, List.isEmpty_iff.mp hempty, h⟩
    · cases h

/-! ## Branches -/

theorem mem_liveBranches {i : Nat} :
    i ∈ t.liveBranches a ↔
      ∃ b, a.children[i]? = some b ∧ (i ∈ t.choices a.id ∨ t.touches b = true) := by
  simp only [liveBranches, List.mem_map, List.mem_filter, Bool.or_eq_true, List.contains_iff_mem,
    Prod.exists, List.mem_zipIdx_iff_getElem?]
  constructor
  · rintro ⟨b, j, ⟨hb, hlive⟩, rfl⟩
    exact ⟨b, hb, hlive⟩
  · rintro ⟨b, hb, hlive⟩
    exact ⟨b, i, ⟨hb, hlive⟩, rfl⟩

theorem nodup_liveBranches : (t.liveBranches a).Nodup := by
  have hsub : (t.liveBranches a).Sublist (a.children.zipIdx.map (·.2)) :=
    List.filter_sublist.map _
  refine hsub.nodup ?_
  rw [List.zipIdx_map_snd]
  exact List.nodup_range'

/-- One branch is in use if that branch is and no other is. -/
theorem liveBranches_eq_singleton {i : Nat} (h : ∀ j, j ∈ t.liveBranches a ↔ j = i) :
    t.liveBranches a = [i] := by
  refine List.perm_singleton.mp ((List.perm_ext_iff_of_nodup nodup_liveBranches
    (List.nodup_singleton i)).mpr fun j => ?_)
  rw [h j, List.mem_singleton]

theorem branchTaken_eq_ok {i : Nat} :
    t.branchTaken slot a = .ok i ↔ (t.choices a.id).length ≤ 1 ∧ t.liveBranches a = [i] := by
  rw [branchTaken]
  constructor
  · intro h
    split at h
    · cases h
    · rename_i hmany
      refine ⟨Nat.le_of_not_lt hmany, ?_⟩
      split at h
      · rename_i j hlive
        rw [hlive, Except.ok.inj h]
      · cases h
  · rintro ⟨hmany, hlive⟩
    rw [if_neg (Nat.not_lt.mpr hmany), hlive]

/-- The branches that were not taken have nothing recorded inside them. -/
theorem untouched_of_branchTaken {i j : Nat} (h : t.branchTaken slot a = .ok i)
    (hb : a.children[j]? = some b) (hij : j ≠ i) : t.touches b = false := by
  by_contra htouch
  rw [Bool.not_eq_false] at htouch
  have hmem : j ∈ t.liveBranches a := mem_liveBranches.mpr ⟨b, hb, .inr htouch⟩
  rw [(branchTaken_eq_ok.mp h).2, List.mem_singleton] at hmem
  exact hij hmem

end Trace

namespace Value

variable {p q a c : Located} {s : Shape} {ss : List Shape} {t : Trace} {v : Value}

/-! ## Slots -/

/-- The value of the slot of a quantifier, given one value per iteration. -/
def ofItems (q : Located) (vs : List Value) : Value :=
  .node { kind := if q.bounds.isOptional then .opt else .repeated,
          present := q.bounds.isOptional && !vs.isEmpty } vs

theorem assembleLeaf_eq_ok {slot : SlotTitle} {spans : List Span} :
    assembleLeaf slot spans = .ok v ↔ spans.length ≤ 1 ∧ v = leaf spans.head? := by
  rcases spans with _ | ⟨s, _ | ⟨s', rest⟩⟩
  · simp [assembleLeaf, eq_comm]
  · simp [assembleLeaf, eq_comm]
  · simp [assembleLeaf]

theorem assemble_leaf_eq_ok :
    assemble (.leaf (some c)) t = .ok v ↔
      (t.spans c.id).length ≤ 1 ∧ v = leaf (t.spans c.id).head? :=
  assembleLeaf_eq_ok

theorem assembleAll_eq_ok {vs : List Value} :
    assembleAll ss t = .ok vs ↔ List.Forall₂ (fun s v => assemble s t = .ok v) ss vs := by
  induction ss generalizing vs with
  | nil =>
    rw [assembleAll, List.forall₂_nil_left_iff, Except.ok.injEq, eq_comm]
  | cons s ss ih =>
    simp only [assembleAll, bind_eq_ok, pure_eq_ok, ih, List.forall₂_cons_left_iff]
    constructor
    · rintro ⟨v, hv, vs, hvs, rfl⟩
      exact ⟨v, vs, hv, hvs, rfl⟩
    · rintro ⟨v, vs, hv, hvs, rfl⟩
      exact ⟨v, hv, vs, hvs, rfl⟩

theorem assemble_product_eq_ok :
    assemble (.product p ss) t = .ok v ↔
      ∃ vs, List.Forall₂ (fun s v => assemble s t = .ok v) ss vs ∧ product vs = v := by
  simp only [assemble, bind_eq_ok, pure_eq_ok, assembleAll_eq_ok]

theorem assembleBranch_eq_ok {slot : SlotTitle} {i : Nat} :
    assembleBranch slot ss i t = .ok v ↔ ∃ s, ss[i]? = some s ∧ assemble s t = .ok v := by
  induction ss generalizing i with
  | nil => simp [assembleBranch]
  | cons s ss ih =>
    cases i with
    | zero => simp [assembleBranch]
    | succ i => simp [assembleBranch, ih]

theorem assemble_sum_eq_ok :
    assemble (.sum a ss) t = .ok v ↔
      ∃ i, t.branchTaken (Shape.sum a ss).title a = .ok i ∧
        ∃ s, ss[i]? = some s ∧ ∃ w, assemble s t = .ok w ∧ sum i w = v := by
  simp only [assemble, bind_eq_ok, pure_eq_ok, assembleBranch_eq_ok]
  constructor
  · rintro ⟨i, hi, w, ⟨s, hs, hw⟩, rfl⟩
    exact ⟨i, hi, s, hs, w, hw, rfl⟩
  · rintro ⟨i, hi, s, hs, w, hw, rfl⟩
    exact ⟨i, hi, w, ⟨s, hs, hw⟩, rfl⟩

theorem assemble_repeated_eq_ok :
    assemble (.repeated q s) t = .ok v ↔
      ∃ fs, t.frames (Shape.repeated q s).title q = .ok fs ∧
        ∃ vs, List.Forall₂ (fun f v => assemble s f = .ok v) fs vs ∧ repeated vs = v := by
  simp only [assemble, bind_eq_ok, pure_eq_ok, mapM_eq_ok]

theorem assemble_opt_eq_ok :
    assemble (.opt q s) t = .ok v ↔
      ∃ fs, t.frames (Shape.opt q s).title q = .ok fs ∧ fs.length ≤ 1 ∧
        ∃ vs, List.Forall₂ (fun f v => assemble s f = .ok v) fs vs ∧
          Tree.node { kind := .opt, present := !vs.isEmpty } vs = v := by
  simp only [assemble, bind_eq_ok]
  refine exists_congr fun fs => and_congr_right fun _ => ?_
  rcases fs with _ | ⟨f, _ | ⟨g, rest⟩⟩
  · simp [pure_eq_ok, opt, List.forall₂_nil_left_iff]
  · simp [map_eq_ok, opt, List.forall₂_cons_left_iff, List.forall₂_nil_left_iff]
  · simp

/-- **The slot of a quantifier** holds one value per frame, and for a quantifier that
says at most once there is at most one frame. -/
theorem assemble_loop_eq_ok :
    assemble (.loop q s) t = .ok v ↔
      ∃ fs, t.frames (Shape.loop q .empty).title q = .ok fs ∧
        (q.bounds.isOptional = true → fs.length ≤ 1) ∧
        ∃ vs, List.Forall₂ (fun f v => assemble s f = .ok v) fs vs ∧ ofItems q vs = v := by
  rw [Shape.title_loop q .empty s]
  cases ho : q.bounds.isOptional with
  | false =>
    have hloop : Shape.loop q s = .repeated q s := if_neg (by rw [ho]; decide)
    rw [hloop, assemble_repeated_eq_ok]
    simp only [ofItems, ho, Bool.false_eq_true, if_false, Bool.false_and, false_implies, true_and]
    rfl
  | true =>
    have hloop : Shape.loop q s = .opt q s := if_pos ho
    rw [hloop, assemble_opt_eq_ok]
    simp [ofItems, ho]

/-- If all parts can be read from another frame with the same values, so can their sequence. -/
theorem assemble_sequence_transfer {u : Trace}
    (h : ∀ s ∈ ss, ∀ v, assemble s t = .ok v → assemble s u = .ok v)
    (hv : assemble (.sequence p ss) t = .ok v) : assemble (.sequence p ss) u = .ok v := by
  rcases Shape.sequence_cases p ss with ⟨hseq, -⟩ | ⟨s, hs, hseq⟩ | hseq
  · rw [hseq] at hv ⊢
    exact hv
  · rw [hseq] at hv ⊢
    exact h s hs v hv
  · rw [hseq, assemble_product_eq_ok] at hv ⊢
    obtain ⟨vs, hall, rfl⟩ := hv
    have hkept : ∀ s ∈ ss.filter (!·.isEmpty), s ∈ ss := fun s hs => List.mem_of_mem_filter hs
    refine ⟨vs, ((List.forall₂_and_left _ _).mpr ⟨hkept, hall⟩).imp ?_, rfl⟩
    exact fun s v hs => h s hs.1 v hs.2

/-- If every iteration has a counterpart in another frame that is read with the same value, so
is the slot of the quantifier. -/
theorem assemble_loop_transfer {u : Trace} {R : Trace → Trace → Prop}
    (hframes : ∀ slot fs, t.frames slot q = .ok fs →
      ∃ gs, u.frames slot q = .ok gs ∧ List.Forall₂ R fs gs)
    (h : ∀ f g v, R f g → assemble s f = .ok v → assemble s g = .ok v)
    (hv : assemble (.loop q s) t = .ok v) : assemble (.loop q s) u = .ok v := by
  obtain ⟨fs, hfs, hmany, vs, hall, rfl⟩ := assemble_loop_eq_ok.mp hv
  obtain ⟨gs, hgs, hsides⟩ := hframes _ fs hfs
  refine assemble_loop_eq_ok.mpr ⟨gs, hgs, ?_, vs, forall₂_transfer h hsides hall, rfl⟩
  rwa [← hsides.length_eq]

/-- A value is of the kind of its shape. -/
theorem kind_of_assemble (h : assemble s t = .ok v) : v.kind = s.kind := by
  cases s with
  | empty =>
    rw [assemble, Except.ok.injEq] at h
    rw [← h]
    rfl
  | leaf o =>
    rw [assemble, assembleLeaf_eq_ok] at h
    rw [h.2]
    rfl
  | product p ss =>
    obtain ⟨vs, -, rfl⟩ := assemble_product_eq_ok.mp h
    rfl
  | sum a ss =>
    obtain ⟨i, -, s, -, w, -, rfl⟩ := assemble_sum_eq_ok.mp h
    rfl
  | repeated q s =>
    obtain ⟨fs, -, vs, -, rfl⟩ := assemble_repeated_eq_ok.mp h
    rfl
  | opt q s =>
    obtain ⟨fs, -, -, vs, -, rfl⟩ := assemble_opt_eq_ok.mp h
    rfl

end Value

end CaptureTree
