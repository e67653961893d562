import CaptureTree.Proofs.Evaluation
import CaptureTree.Proofs.Trace.Enriched
import CaptureTree.Proofs.Value.Spans

/-!
# Recording more than necessary does no harm

The search records choices and iterations of nodes with captures only.  Another engine may
record those of all alternations and quantifiers, and evaluation returns the same match
(`Regex.evaluate_enriched`).

What was added could do harm in three ways.  It could be loose in the body of a loop that is read
from frames, or it could seem to put a second branch into use; `Trace.OpenAt` excludes these.  And
it could change what the frame of an iteration says, but that is the same question one frame
further in.  So the value is the same (`Trace.Enriched.assemble_infer`), and the results of hidden
captures are as well (`Trace.Enriched.assemble_flat`).
-/

namespace CaptureTree

open Located

namespace Trace.Enriched

variable {root p a c : Located} {qs : List Located} {t u : Trace} {v : Value}

/-- **A flat result is read as before.** -/
theorem assemble_flat (h : Enriched root p t t u) (hholds : p.Holds qs c) (hwell : p.WellFormed)
    (hd : p.Distinct) (hv : Value.assemble (.flat qs c) t = .ok v) :
    Value.assemble (.flat qs c) u = .ok v := by
  induction qs generalizing p t u v with
  | nil =>
    refine Value.assemble_leaf_eq_ok.mpr ?_
    rw [h.spans_eq]
    exact Value.assemble_leaf_eq_ok.mp hv
  | cons q qs ih =>
    obtain ⟨b, hq, hb, hqbody, hinside, hbody, hdb⟩ := hholds.exists_body hwell hd
    obtain ⟨-, hk, -⟩ := hholds.of_cons
    have hcap : q.hasCapture = true := hasCapture_of_mem_children hb hinside.hasCapture
    refine Value.assemble_loop_transfer (fun slot fs => h.frames hd hq hk hcap hqbody) ?_ hv
    exact fun f g v hg hv => ih hg hinside hbody hdb hv

/-- Is `a` a part of the scope `p`, with a slot of its own in the value? -/
structure PartOf (root p a : Located) : Prop where
  scope : p ∈ root.subtrees
  part : a ∈ p.subtrees
  visible : root.isHidden a.id = false

namespace PartOf

variable {q : Located}

theorem root_self (hd : root.Distinct) : PartOf root root root :=
  ⟨Tree.mem_subtrees_self root, Tree.mem_subtrees_self root, hd.isHidden_self⟩

theorem distinct (h : PartOf root p a) (hd : root.Distinct) : p.Distinct :=
  hd.of_mem_subtrees h.scope

/-- A child is a part of the same scope. -/
theorem child (h : PartOf root p a) (hd : root.Distinct) (hk : a.kind ≠ .capture)
    (hq : q ∈ a.children) : PartOf root p q :=
  ⟨h.scope, Tree.mem_subtrees_trans (mem_subtrees_of_mem_children hq) h.part,
    (hd.isHidden_child (Tree.mem_subtrees_trans h.part h.scope) hk hq).trans h.visible⟩

/-- Every part is a scope for itself. -/
theorem self (h : PartOf root p a) : PartOf root a a :=
  ⟨Tree.mem_subtrees_trans h.part h.scope, Tree.mem_subtrees_self a, h.visible⟩

end PartOf

/-- **The value is read as before**, in every part of the scope that is not hidden. -/
theorem assemble_infer (h : Enriched root p t t u) (hwell : a.WellFormed) (hd : root.Distinct)
    (ha : PartOf root p a) (hv : Value.assemble (.infer a) t = .ok v) :
    Value.assemble (.infer a) u = .ok v := by
  induction hwell generalizing p t u v with
  | literal hk =>
    rw [Shape.infer_literal hk] at hv ⊢
    exact hv
  | capture hk =>
    rw [Shape.infer_capture hk, Value.assemble_leaf_eq_ok] at hv ⊢
    rwa [h.spans_eq]
  | @group a q hk hc _ ih =>
    rw [Shape.infer_group hk hc] at hv ⊢
    exact ih h (ha.child hd (by rw [hk]; decide) (mem_children_of_eq hc)) hv
  | @concat a hk _ ih =>
    have hparts : ∀ s ∈ a.children.map Shape.infer, ∀ v, Value.assemble s t = .ok v →
        Value.assemble s u = .ok v := by
      intro s hs v hv
      obtain ⟨q, hq, rfl⟩ := List.mem_map.mp hs
      exact ih q hq h (ha.child hd (by rw [hk]; decide) hq) hv
    rw [Shape.infer_concat hk] at hv ⊢
    exact Value.assemble_sequence_transfer hparts hv
  | @alternation a hk hne hall ih =>
    have hshape := Shape.infer_alternation hk
    split at hshape
    · rw [hshape] at hv ⊢
      exact hv
    · have hcap : a.hasCapture = true := by
        refine (WellFormed.alternation hk hne hall).hasCapture_of_infer ?_
        rw [hshape]
        exact Shape.noConfusion
      rw [hshape, Value.assemble_sum_eq_ok] at hv ⊢
      obtain ⟨i, hi, s, hs, w, hw, rfl⟩ := hv
      refine ⟨i, h.branchTaken (ha.distinct hd) ha.part hk hcap ha.visible hi, s, hs, w, ?_, rfl⟩
      obtain ⟨q, hq, rfl⟩ := List.mem_map.mp (List.mem_of_getElem? hs)
      exact ih q hq h (ha.child hd (by rw [hk]; decide) hq) hw
  | @quantifier a q hk hc hbounds hq ih =>
    have hshape := Shape.infer_quantifier hk hc
    split at hshape
    · rw [hshape] at hv ⊢
      exact hv
    · rename_i hslot
      have hcap : a.hasCapture = true := by
        rw [hasCapture_body (by rw [hk]; decide) hc]
        exact hq.hasCapture_of_infer fun hempty => hslot (Shape.isEmpty_iff.mpr hempty)
      have hbody := (ha.child hd (by rw [hk]; decide) (mem_children_of_eq hc)).self
      rw [hshape] at hv ⊢
      refine Value.assemble_loop_transfer
        (fun slot fs => h.frames (ha.distinct hd) ha.part hk hcap (body_eq_some hc)) ?_ hv
      exact fun f g v hg hv => ih hg hbody hv

end Trace.Enriched

namespace Regex

variable {r : Regex} {w : Bytes} {t u : Trace} {whole : Span}

/-- **Recording more than necessary does no harm.**  Let a trace evaluate to a match, and add to any
of its frames, in any number, choices of alternations without captures and iterations of
quantifiers without captures, in places that are in no loop with captures and in no branch of
the value that was not taken.  The trace still evaluates to the same match. -/
theorem evaluate_enriched {p : Pattern} (h : compile p = .ok r) {m : Match}
    (hm : r.evaluate whole t w = .ok m) (hmore : Trace.Enriched r.pattern r.pattern t t u) :
    r.evaluate whole u w = .ok m := by
  obtain ⟨hr, -⟩ := compiled_of_compile h
  obtain ⟨hwhole, hcheck, v, hv, flat, hflat, rfl⟩ := evaluate_eq_ok.mp hm
  obtain ⟨rs, hall, rfl⟩ := flatten_eq_ok.mp hflat
  have hcheck' : u.check r.pattern w.length = .ok () :=
    Trace.check_eq_ok_iff.mpr (hmore.placed (Trace.check_eq_ok_iff.mp hcheck))
  have hv' : Value.assemble r.shape u = .ok v := by
    rw [hr.shape] at hv ⊢
    exact hmore.assemble_infer hr.wellFormed hr.distinct (.root_self hr.distinct) hv
  have hresult : ∀ c ∈ r.captures, ∀ x, Value.result r.shape v t c = .ok x →
      Value.result r.shape v u c = .ok x := by
    intro c hc x hx
    obtain ⟨qs, hholds, hshape, -⟩ := hr.exists_route hc
    rw [Value.result] at hx ⊢
    cases hpath : c.path with
    | some path =>
      simp only [hpath] at hx ⊢
      exact hx
    | none =>
      simp only [hpath, Inconsistency.whileReading, mapError_eq_ok, hshape] at hx ⊢
      exact hmore.assemble_flat hholds hr.wellFormed hr.distinct hx
  refine evaluate_eq_ok.mpr ⟨hwhole, hcheck', v, hv', _, flatten_eq_ok.mpr ⟨rs, ?_, rfl⟩, rfl⟩
  refine ((List.forall₂_and_left _ _).mpr ⟨fun c hc => hc, hall⟩).imp ?_
  exact fun c x hc => hresult c hc.1 x hc.2

/-- A branch with a loop that captures nothing in front of a capture, or a branch with a loop around
a capture. -/
def plainLoopBeside : Pattern :=
  .alternation [
    .concat [(Pattern.alternation [.exact [0x61], .exact [0x62]]).star,
      ((Pattern.alternation [.exact [0x63], .exact [0x64]]).capture).star],
    (Pattern.exact [0x65]).capture]

/-- A match of `bd` with the records that captures need. -/
def neededRecords : Trace :=
  [.choice 0 0, .iteration 6 [.span 7 ⟨1, 2⟩]]

/-- The same match with the records of all nodes. -/
def allRecords : Trace :=
  [.choice 0 0, .iteration 2 [.choice 3 1], .iteration 6 [.choice 8 1, .span 7 ⟨1, 2⟩]]

theorem evaluate_enriched_allRecords :
    ∃ r m, compile plainLoopBeside = .ok r ∧
      r.evaluate ⟨0, 2⟩ neededRecords [0x62, 0x64] = .ok m ∧
      Trace.Enriched r.pattern r.pattern neededRecords neededRecords allRecords ∧
      r.evaluate ⟨0, 2⟩ allRecords [0x62, 0x64] = .ok m := by
  have hmore : Trace.Enriched plainLoopBeside.locate plainLoopBeside.locate neededRecords
      neededRecords allRecords := by
    refine .keep _ (.add ?_ (by decide) (.inside rfl rfl (.add ?_ (by decide) (.keep _ .nil)) .nil))
    · refine .iteration rfl rfl rfl rfl fun r hr => ?_
      rw [List.mem_singleton.mp hr]
      exact .choice rfl rfl rfl (by decide)
    · exact .choice rfl rfl rfl (by decide)
  exact ⟨_, _, rfl, rfl, hmore, evaluate_enriched (p := plainLoopBeside) rfl rfl hmore⟩

end Regex

end CaptureTree
