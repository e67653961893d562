import CaptureTree.Proofs.Evaluation
import CaptureTree.Proofs.Value.Spans

/-!
# Evaluation keeps all spans

A trace may come from any engine, and its records may be spread over frames in many
ways: iterations with frames, span lists without them, loops inside loops of which
only one has frames, or records below a branch that was not taken.  Every such trace
is either refused or read in full.  If `Regex.evaluate` returns a match, the result of
each capture has all spans that the trace holds for it, each of them once and in the
order in which they were recorded.

The two places to look for the spans of a capture, its own result and the value of the
whole pattern, are connected by projection.  So it is enough to look at results, and
all of them come from assembling a flat shape
(`Regex.Compiled.assemble_flat_of_result`).
-/

namespace CaptureTree

namespace Regex

variable {r : Regex} {w : Bytes} {t : Trace} {whole : Span} {c : CaptureInfo}

/-- **Evaluation keeps all spans.**  From any trace for which it returns a match, the
result of each capture has the spans that the trace holds for the capture, and for a
visible capture the value has them at the positions of its leaf. -/
theorem evaluate_keeps_spans {p : Pattern} (h : compile p = .ok r) {m : Match}
    (hm : r.evaluate whole t w = .ok m) {k : Nat} (hc : r.capture k = .ok c) :
    (∃ u, m.get k = .ok u ∧ u.spans = t.allSpans c.node.id) ∧
      ∀ path ∈ c.path, (m.value.along path).flatMap Value.spans = t.allSpans c.node.id := by
  obtain ⟨hr, -⟩ := compiled_of_compile h
  obtain ⟨u, hget, hresult⟩ := exists_get_of_evaluate hm hc
  obtain ⟨-, hcheck, v, hv, flat, -, rfl⟩ := evaluate_eq_ok.mp hm
  obtain ⟨i, -, hi⟩ := capture_eq_ok.mp hc
  have hmem : c ∈ r.captures := List.mem_of_getElem? hi
  obtain ⟨qs, hholds, hflat, -⟩ := hr.exists_route hmem
  have hspans : u.spans = t.allSpans c.node.id := by
    have hu := hr.assemble_flat_of_result hv hmem hresult
    rw [hflat] at hu
    exact hholds.spans_assemble_flat hr.wellFormed hr.distinct (Trace.check_eq_ok_iff.mp hcheck) hu
  refine ⟨⟨u, hget, hspans⟩, fun path hpath => ?_⟩
  rw [Option.mem_def] at hpath
  simp only [Value.result, hpath] at hresult
  rw [← hspans, Value.spans_of_project hresult]

/-- Two loops around one capture each. -/
def twoLoops : Pattern :=
  .concat [(Pattern.exact [0x61]).capture.star, (Pattern.exact [0x62]).capture.star]

/-- A match of `aabb`, the first loop with frames and the second with a span list. -/
def mixedTrace : Trace :=
  [.iteration 1 [.span 2 ⟨0, 1⟩], .iteration 1 [.span 2 ⟨1, 2⟩], .span 5 ⟨2, 3⟩, .span 5 ⟨3, 4⟩]

theorem evaluate_keeps_spans_mixedTrace :
    ∃ r m c, compile twoLoops = .ok r ∧
      r.evaluate ⟨0, 4⟩ mixedTrace [0x61, 0x61, 0x62, 0x62] = .ok m ∧ r.capture 2 = .ok c ∧
      (∃ u, m.get 2 = .ok u ∧ u.spans = mixedTrace.allSpans c.node.id) ∧
      ∀ path ∈ c.path, (m.value.along path).flatMap Value.spans = mixedTrace.allSpans c.node.id :=
  ⟨_, _, _, rfl, rfl, rfl,
    @evaluate_keeps_spans _ [0x61, 0x61, 0x62, 0x62] mixedTrace ⟨0, 4⟩ _ twoLoops rfl _ rfl 2 rfl⟩

end Regex

end CaptureTree
