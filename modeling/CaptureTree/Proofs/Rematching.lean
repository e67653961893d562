import CaptureTree.Proofs.Matching.Captured

/-!
# Captured text matches again

Cut out the text of a span that a match has recorded, and match it with the captured
pattern alone: the match succeeds, and records what the first one had recorded for the
captured pattern, from the place of the span on.  Nothing that the pattern around the
capture did, in front of it or behind it or when going back, shows in what is recorded
inside.

The captured pattern was run in a preferred way (`Located.Captured`), and what that is
does not depend on the input around (`Located.WellFormed.exists_match?_of_preferred`).
-/

namespace CaptureTree

namespace Located

open Outcome

variable {p q : Located} {u w : Bytes} {whole s : Span} {t : Trace}

/-- What is matched is a word of the pattern. -/
theorem WellFormed.mem_language_of_match? (h : p.WellFormed)
    (hmatch : p.match? u = some (whole, t)) : u ∈ p.erase.language := by
  obtain ⟨o, ho, hend, -, -⟩ := h.exists_outcome_of_match? hmatch
  obtain ⟨v, hv, hprefix, hcursor⟩ :=
    (h.decides_language (.ofInput u) (Cursor.coherent_ofInput u) _).mp ⟨o, ho, hend⟩
  have hlen : u.length = v.length := Nat.add_left_cancel (congrArg Cursor.pos hcursor)
  obtain rfl : v = u := hprefix.eq_of_length hlen.symm
  exact hv

/-- What is recorded during a match lies inside it, in all frames. -/
theorem WellFormed.fits_of_mem_allSpans (h : p.WellFormed) (hd : p.Distinct)
    (hmatch : p.match? u = some (whole, t)) {n : NodeId} (hs : s ∈ t.allSpans n) :
    s.fits whole.stop = true := by
  obtain ⟨o, ho, -, rfl, rfl⟩ := h.exists_outcome_of_match? hmatch
  have hplaced := h.placed_outcomes hd (Cursor.coherent_ofInput u) ho
  have hsize : (Cursor.ofInput u).pos + (Cursor.ofInput u).left = u.length := Nat.zero_add _
  rw [hsize] at hplaced
  rw [Trace.allSpans_eq_flatMap] at hs
  obtain ⟨r, hr, hs⟩ := List.mem_flatMap.mp hs
  exact Trace.fits_of_mem_spansWithin (hplaced r hr) hs

/-- What matching and searching find is a preferred way at some place. -/
theorem exists_preferred (hfound : p.match? w = some (whole, t) ∨ p.search? w = some (whole, t)) :
    ∃ b ≤ w.length, ∃ o, Preferred p.outcomes ((Cursor.ofInput w).advance b) o ∧
      t = o.records := by
  rcases hfound with hfound | hfound
  · obtain ⟨o, ho, -, ht⟩ := exists_preferred_of_match? hfound
    exact ⟨0, Nat.zero_le _, o, ho, ht⟩
  · obtain ⟨b, hb, -, o, ho, -, ht⟩ := exists_first_of_search? hfound
    exact ⟨b, hb, o, preferred_of_head? ho, ht⟩

end Located

/-! ## Matching a captured text -/

/-- **A captured text matches again, with the same captures inside.**  Take any span of
any frame of what matching or searching has found.  It was recorded for a capture; the
text of the span, matched with what is captured, is matched from end to end; and moved to
the place of the span, the trace of that match is what the frame holds for the nodes below
the capture.  In particular the text is a word of what is captured, and all spans that
were recorded below the capture lie inside the span. -/
theorem captured_text_rematches {p : Pattern} (h : p.validate = .ok ()) {w : Bytes}
    {whole : Span} {t : Trace}
    (hfound : p.locate.match? w = some (whole, t) ∨ p.locate.search? w = some (whole, t))
    {address : FrameAddress} {f : Trace} (hf : t.frame? address = some f) {n : NodeId} {s : Span}
    (hs : s ∈ f.spans n) :
    ∃ a q : Located, p.locate.find n = some a ∧ a.kind = .capture ∧ a.children = [q] ∧
      s.start ≤ s.stop ∧ s.stop ≤ w.length ∧
      (∃ u t', s.bytes? w = some u ∧ q.match? u = some (⟨0, s.stop - s.start⟩, t') ∧
        t'.shift s.start = f.restrict q ∧ u ∈ q.erase.language) ∧
      ∀ m, ∀ s' ∈ (f.restrict q).allSpans m,
        s.start ≤ s'.start ∧ s'.start ≤ s'.stop ∧ s'.stop ≤ s.stop := by
  have hwell := Pattern.wellFormed_locate h
  have hd := p.distinct_locate
  obtain ⟨b, hb, o, ho, rfl⟩ := Located.exists_preferred hfound
  have hcoherent := (Cursor.coherent_ofInput w).advance b
  have hcaptured := (hwell.captured_of_preferred hd hcoherent ho).of_frame? hf
    (Trace.mem_spans.mp hs)
  obtain ⟨a, q, ha, rfl, hk, hq, k, hle, i, hi, rfl, hrecords⟩ := hcaptured
  have hsub : q ∈ p.locate.subtrees := Tree.mem_subtrees_trans
    (Located.mem_subtrees_of_mem_children (Located.mem_children_of_eq hq)) ha
  have hwellq := hwell.of_mem_subtrees hsub
  have hle : k ≤ w.length - b := hle
  rw [Cursor.advance_advance] at hi
  obtain ⟨hordered, hfits, u, t', hbytes, hmatch, hshift⟩ :=
    hwellq.exists_match?_of_preferred (by omega) hi
  have hstart : (((Cursor.ofInput w).advance b).advance k).pos = b + k := by
    show 0 + b + k = b + k
    omega
  rw [hstart]
  refine ⟨a, q, hd.find_id ha, hk, hq, hordered, hfits, ?_, fun m s' hs' => ?_⟩
  · exact ⟨u, t', hbytes, hmatch, hshift.trans hrecords.symm, hwellq.mem_language_of_match? hmatch⟩
  · rw [hrecords, ← hshift, Trace.shift, Trace.allSpans_mapSpans, List.mem_map] at hs'
    obtain ⟨s', hs', rfl⟩ := hs'
    have hinside := hwellq.fits_of_mem_allSpans (hd.of_mem_subtrees hsub) hmatch hs'
    rw [Span.fits, Bool.and_eq_true, decide_eq_true_eq, decide_eq_true_eq] at hinside
    simp only [Span.shift] at hinside ⊢
    omega

/-- A loop around a captured branch, where the last iteration has to take the second
branch so that a byte is left behind the loop. -/
def secondThoughts : Pattern :=
  .concat [(Pattern.alternation [(Pattern.exact [0x61]).capture,
    (Pattern.exact [0x61, 0x62]).capture]).capture.plus, .exact [0x62]]

theorem captured_text_rematches_secondThoughts :
    let w : Bytes := [0x61, 0x61, 0x62, 0x62]
    secondThoughts.validate = .ok () ∧ ∃ whole t f,
      secondThoughts.locate.match? w = some (whole, t) ∧ t.frame? [(1, 1)] = some f ∧
      ⟨1, 3⟩ ∈ f.spans 2 ∧
      ∃ a q : Located, secondThoughts.locate.find 2 = some a ∧ a.kind = .capture ∧
        a.children = [q] ∧ ∃ u t', Span.bytes? ⟨1, 3⟩ w = some u ∧
          q.match? u = some (⟨0, 2⟩, t') ∧ t'.shift 1 = f.restrict q ∧ u ∈ q.erase.language := by
  intro w
  have hrun : (secondThoughts.locate.match? w).map (fun found =>
      (found.2.frame? [(1, 1)]).map fun f => f.spans 2) = some (some [⟨1, 3⟩]) := by
    rw [Located.match?_eq_find?]
    decide +kernel
  obtain ⟨⟨whole, t⟩, ht, hframe⟩ := Option.map_eq_some_iff.mp hrun
  obtain ⟨f, hf, hspans⟩ := Option.map_eq_some_iff.mp hframe
  have hs : ⟨1, 3⟩ ∈ f.spans 2 := hspans ▸ List.mem_singleton_self _
  obtain ⟨a, q, ha, hk, hq, -, -, hagain, -⟩ :=
    captured_text_rematches (p := secondThoughts) rfl (.inl ht) hf hs
  exact ⟨rfl, whole, t, f, ht, hf, hs, a, q, ha, hk, hq, hagain⟩

end CaptureTree
