import CaptureTree.Proofs.Flattening
import CaptureTree.Proofs.Trace.Unframe

/-!
# Span lists mean what frames mean

An engine need not keep the iterations of a simple loop apart.  Let every iteration hold
one span for every capture of the body and nothing else, as is the case when the body has
no further choice inside it that records.  Then the engine may as well put all spans into
the frame around the loop, and `Regex.evaluate` returns the same match or refuses both
traces (`Regex.evaluate_unframe`).

It does so wherever the frame is: in the root or inside other iterations, in a branch or
beside one, with the loop hidden inside a capture or not.  The reason is that the two
traces look alike to whoever reads them along a shape (`Trace.Alike`), and that the check
of the trace accepts both or neither.
-/

namespace CaptureTree

namespace Regex

variable {r : Regex} {t u : Trace} {w : Bytes}

/-- Traces that look alike give all captures the same results. -/
theorem Compiled.flatten_eq_of_alike (h : r.Compiled) (halike : Trace.Alike r.pattern t u)
    (whole : Span) (v : Value) :
    Value.flatten whole r.shape v r.captures t = Value.flatten whole r.shape v r.captures u := by
  rw [Value.flatten, Value.flatten]
  refine congrArg (· >>= _) (mapM_congr_of_mem fun c hc => ?_)
  obtain ⟨qs, hholds, hflat, -⟩ := h.exists_route hc
  rw [Value.result, Value.result, hflat, halike.assemble_flat hholds]

/-- **Traces that look alike evaluate alike**, if the check accepts both. -/
theorem Compiled.evaluate_eq_of_alike (h : r.Compiled) (halike : Trace.Alike r.pattern t u)
    (ht : t.check r.pattern w.length = .ok ()) (hu : u.check r.pattern w.length = .ok ())
    (whole : Span) :
    r.evaluate whole t w = r.evaluate whole u w := by
  have hvalue : Value.assemble r.shape t = Value.assemble r.shape u := by
    rw [h.shape]
    exact halike.assemble_infer h.wellFormed
  simp only [evaluate, ht, hu, hvalue, h.flatten_eq_of_alike halike whole]

/-- **Evaluation fails with a contradiction only**: nothing is looked up that may not be
there, and nothing is read outside the input. -/
theorem Compiled.inconsistent_of_evaluate (h : r.Compiled) {whole : Span} {e : ReadError}
    (he : r.evaluate whole t w = .error e) : ∃ e', e = .inconsistent e' := by
  rw [evaluate] at he
  split at he
  · exact ⟨_, (Except.error.inj he).symm⟩
  · simp only [bind_eq_error, Inconsistency.whileReading, mapError_eq_error, mapError_eq_ok] at he
    rcases he with ⟨e', -, rfl⟩ | ⟨-, -, ⟨e', -, rfl⟩ | ⟨v, hv, hflat | ⟨flat, -, hpure⟩⟩⟩
    · exact ⟨e', rfl⟩
    · exact ⟨e', rfl⟩
    · rw [h.shape] at hv
      rw [h.captures, h.shape] at hflat
      obtain ⟨-, -, -, e', -, -, -, rfl, -⟩ :=
        (CaptureInfo.flatten_eq_error_iff h.wellFormed h.distinct hv).mp hflat
      exact ⟨e', rfl⟩
    · cases hpure

/-- What the check refuses is no match. -/
theorem Compiled.evaluate_of_misplaced (h : r.Compiled)
    (ht : t.check r.pattern w.length ≠ .ok ()) (whole : Span) :
    ∃ e, r.evaluate whole t w = .error (.inconsistent e) := by
  cases heval : r.evaluate whole t w with
  | ok m => exact absurd (evaluate_eq_ok.mp heval).2.1 ht
  | error e =>
    obtain ⟨e', rfl⟩ := h.inconsistent_of_evaluate heval
    exact ⟨e', rfl⟩

/-- **A loop may be handed over as span lists.**  Let a frame of a trace hold iterations of
a quantifier around captures, every one of them with exactly one span for every capture of
the body and nothing else, and let nothing of the body be recorded beside them.  No
quantifier or alternation in the body has captures.  If the iterations are thrown together
in this frame, evaluation returns the same match, or fails both times with a
contradiction. -/
theorem evaluate_unframe {p : Pattern} {r : Regex} (h : compile p = .ok r) {t f : Trace}
    {address : FrameAddress} (hf : t.frame? address = some f) {s q b : Located}
    (hscope : r.pattern.scope? address = some s) (hq : q ∈ s.subtrees)
    (hk : q.kind = .quantifier) (hcapture : q.hasCapture = true) (hb : q.body = some b)
    (hsimple : ∀ a : Located, a ∈ b.subtrees → a.kind = .quantifier ∨ a.kind = .alternation →
      a.hasCapture = false)
    (hframes : ∀ g ∈ f.iterations q.id, Trace.OneSpanEach b g) (hloose : f.touches b = false)
    (whole : Span) (w : Bytes) :
    ∃ t', Trace.mapFrame (fun f => .ok (f.unframe q.id)) address t = .ok t' ∧
      ((∃ m, r.evaluate whole t w = .ok m ∧ r.evaluate whole t' w = .ok m) ∨
        ∃ e e', r.evaluate whole t w = .error (.inconsistent e) ∧
          r.evaluate whole t' w = .error (.inconsistent e')) := by
  obtain ⟨hr, -⟩ := compiled_of_compile h
  obtain ⟨t', ht', hdiffer⟩ := Trace.exists_mapFrame (fun f => .ok (f.unframe q.id)) hf rfl
  refine ⟨t', ht', ?_⟩
  have hreach : ∀ s', Located.reach (some r.pattern) address = some s' →
      s'.WellFormed ∧ s'.Distinct ∧ q ∈ s'.subtrees := by
    intro s' hs'
    have hmem := Located.mem_subtrees_of_reach hs'
    obtain rfl : s = s' := Option.some.inj (hscope.symm.trans (hr.distinct.scope_of_reach hs'))
    exact ⟨hr.wellFormed.of_mem_subtrees hmem, hr.distinct.of_mem_subtrees hmem, hq⟩
  have hsplit : ∀ a : Located, a ∈ b.subtrees → Trace.blocksSplitting a = false := by
    intro a ha
    rw [Trace.blocksSplitting, Bool.and_eq_false_imp, Bool.or_eq_true, beq_iff_eq, beq_iff_eq]
    exact hsimple a ha
  have hcaptureb : b.hasCapture = true := by
    have hmem := Tree.mem_subtrees_trans hq (Located.mem_subtrees_of_scope hscope)
    rw [← (hr.wellFormed.of_mem_subtrees hmem).hasCapture_eq_body hk hb]
    exact hcapture
  have hplaced : t.Placed w.length (some r.pattern) ↔ t'.Placed w.length (some r.pattern) :=
    hdiffer.placed_iff (Trace.placed_unframe_iff (fun s hs => (hreach s hs).2) hk hb hcaptureb
      hframes)
  simp only [← Trace.check_eq_ok_iff] at hplaced
  by_cases ht : t.check r.pattern w.length = .ok ()
  · have halike : Trace.Alike r.pattern t t' :=
      hdiffer.alike hr.wellFormed hr.distinct (Trace.check_eq_ok_iff.mp ht) fun s hs _ =>
        Trace.alike_unframe (hreach s hs).1 (hreach s hs).2.1 (hreach s hs).2.2 hk hb hcapture
          hsplit hframes hloose
    have heval := hr.evaluate_eq_of_alike halike ht (hplaced.mp ht) whole
    rw [← heval]
    cases hresult : r.evaluate whole t w with
    | ok m => exact .inl ⟨m, rfl, rfl⟩
    | error e =>
      obtain ⟨e', rfl⟩ := hr.inconsistent_of_evaluate hresult
      exact .inr ⟨e', e', rfl, rfl⟩
  · obtain ⟨e, he⟩ := hr.evaluate_of_misplaced ht whole
    obtain ⟨e', he'⟩ := hr.evaluate_of_misplaced (mt hplaced.mpr ht) whole
    exact .inr ⟨e, e', he, he'⟩

/-- Pairs of captures in a loop that a capture hides, in a branch of an outer loop. -/
def hiddenPairLoop : Pattern :=
  (Pattern.alternation [(Pattern.concat [(Pattern.exact [0x61]).capture,
    (Pattern.exact [0x62]).capture]).star.capture, Pattern.exact [0x63]]).star

/-- Two rounds of the hidden loop, and a round of the other branch behind them. -/
def twoPairs : Trace :=
  [.iteration 0 [.choice 1 0, .iteration 3 [.span 5 ⟨0, 1⟩, .span 7 ⟨1, 2⟩],
      .iteration 3 [.span 5 ⟨2, 3⟩, .span 7 ⟨3, 4⟩], .span 2 ⟨0, 4⟩],
    .iteration 0 [.choice 1 1]]

/-- The same with the rounds of the hidden loop thrown together. -/
def twoPairsAsLists : Trace :=
  [.iteration 0 [.choice 1 0, .span 2 ⟨0, 4⟩, .span 5 ⟨0, 1⟩, .span 7 ⟨1, 2⟩, .span 5 ⟨2, 3⟩,
      .span 7 ⟨3, 4⟩],
    .iteration 0 [.choice 1 1]]

theorem evaluate_unframe_twoPairs :
    ∃ r m, compile hiddenPairLoop = .ok r ∧
      Trace.mapFrame (fun f => .ok (f.unframe 3)) [(0, 0)] twoPairs = .ok twoPairsAsLists ∧
      r.evaluate ⟨0, 5⟩ twoPairs [0x61, 0x62, 0x61, 0x62, 0x63] = .ok m ∧
      r.evaluate ⟨0, 5⟩ twoPairsAsLists [0x61, 0x62, 0x61, 0x62, 0x63] = .ok m := by
  obtain ⟨t', ht', hsame⟩ := evaluate_unframe (p := hiddenPairLoop) rfl
    (show twoPairs.frame? [(0, 0)] = some _ from rfl) rfl
    (List.mem_of_find?_eq_some (p := fun a : Located => a.id == 3) rfl) rfl rfl rfl
    (by decide) (by decide) rfl ⟨0, 5⟩ [0x61, 0x62, 0x61, 0x62, 0x63]
  obtain rfl : twoPairsAsLists = t' := Except.ok.inj ht'
  rcases hsame with ⟨m, hm, hm'⟩ | ⟨e, e', he, -⟩
  · exact ⟨_, m, rfl, rfl, hm, hm'⟩
  · cases he.symm.trans (show evaluate _ _ _ _ = .ok _ from rfl)

end Regex

end CaptureTree
