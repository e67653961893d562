import CaptureTree.Proofs.Flattening
import CaptureTree.Proofs.Matching.Preferred
import CaptureTree.Proofs.Naming
import CaptureTree.Proofs.Value.Shift

/-!
# Searching is leftmost

Searching and matching accept different ends, and run on different inputs once the match
is cut out.  Still a search finds what matching finds, at the first place where matching
finds anything at all.

* A place has an outcome exactly when some piece of the input that starts there is
  matched (`Located.WellFormed.outcomes_eq_nil_iff`), so a search stops at the first
  such place.
* The outcome that it takes there is the preferred one to its end, and so the one that
  matching the piece alone returns (`Located.WellFormed.exists_match?_of_preferred`).

Values follow, since reading a trace commutes with moving it
(`Regex.Compiled.evaluate_shift`).
-/

namespace CaptureTree

/-- The bytes of a span start where the span does. -/
theorem Span.prefix_of_bytes? {s : Span} {w u : Bytes} (h : s.bytes? w = some u) :
    u <+: w.drop s.start := by
  rw [bytes?] at h
  split at h
  · obtain rfl := Option.some.inj h
    exact List.take_prefix _ _
  · cases h

namespace Located

variable {p : Located} {w : Bytes}

/-- **A place has no outcome when no piece of the input from there on is matched.** -/
theorem WellFormed.outcomes_eq_nil_iff (h : p.WellFormed) {b : Nat} (hb : b ≤ w.length) :
    p.outcomes ((Cursor.ofInput w).advance b) = [] ↔ ∀ u, u <+: w.drop b → p.match? u = none := by
  constructor
  · intro hnil u hu
    refine Option.eq_none_iff_forall_ne_some.mpr fun found hmatch => ?_
    obtain ⟨o, ho, -, -, -⟩ := h.exists_outcome_of_match? hmatch
    -- the outcome is one of the longer input as well
    obtain ⟨behind, hsplit⟩ := hu
    have hwide := List.mem_map_of_mem (f := Outcome.widen b behind) ho
    rw [h.outcomes_widen _ (Cursor.coherent_ofInput u), Cursor.widen_ofInput hsplit.symm,
      hnil] at hwide
    exact absurd hwide List.not_mem_nil
  · intro hnone
    by_contra hne
    obtain ⟨o, os, hos⟩ := List.exists_cons_of_ne_nil hne
    have hpreferred := Outcome.preferred_of_head? (List.head?_eq_some_iff.mpr ⟨os, hos⟩)
    obtain ⟨-, -, u, t, hbytes, hmatch, -⟩ := h.exists_match?_of_preferred hb hpreferred
    rw [hnone u (Span.prefix_of_bytes? hbytes)] at hmatch
    cases hmatch

/-- **Searching finds nothing when no piece of the input is matched.** -/
theorem WellFormed.search?_eq_none_iff_infix (h : p.WellFormed) :
    p.search? w = none ↔ ∀ u, u <:+: w → p.match? u = none := by
  rw [search?_eq_none_iff]
  constructor
  · intro hnone u hu
    obtain ⟨rest, hprefix, hsuffix⟩ := List.infix_iff_prefix_suffix.mp hu
    have hdrop := List.suffix_iff_eq_drop.mp hsuffix
    exact (h.outcomes_eq_nil_iff (Nat.sub_le _ _)).mp (hnone _ (Nat.sub_le _ _)) u (hdrop ▸ hprefix)
  · intro hnone b hb
    refine (h.outcomes_eq_nil_iff hb).mpr fun u hu => hnone u ?_
    exact hu.isInfix.trans (List.drop_suffix b w).isInfix

/-- **What searching finds is the match of a piece**, moved to its place. -/
theorem WellFormed.exists_match?_of_search? (h : p.WellFormed) {s : Span} {t : Trace}
    (hfound : p.search? w = some (s, t)) :
    s.start ≤ s.stop ∧ s.stop ≤ w.length ∧
      (∀ a < s.start, ∀ u, u <+: w.drop a → p.match? u = none) ∧
      ∃ u t', s.bytes? w = some u ∧ p.match? u = some (⟨0, s.stop - s.start⟩, t') ∧
        t'.shift s.start = t := by
  obtain ⟨b, hb, hbefore, o, hhead, rfl, rfl⟩ := exists_first_of_search? hfound
  obtain ⟨hordered, hfits, hmatch⟩ :=
    h.exists_match?_of_preferred hb (Outcome.preferred_of_head? hhead)
  refine ⟨hordered, hfits, fun a ha => ?_, hmatch⟩
  exact (h.outcomes_eq_nil_iff (Nat.le_trans (Nat.le_of_lt ha) hb)).mp (hbefore a ha)

/-- Where the whole input is matched, searching starts in front of it. -/
theorem WellFormed.start_eq_zero_of_match? (h : p.WellFormed) {found : Span × Trace}
    (hmatch : p.match? w = some found) : ∃ s t, p.search? w = some (s, t) ∧ s.start = 0 := by
  cases hsearch : p.search? w with
  | none =>
    rw [h.search?_eq_none_iff_infix.mp hsearch w List.infix_rfl] at hmatch
    cases hmatch
  | some found =>
    refine ⟨found.1, found.2, rfl, Nat.eq_zero_of_not_pos fun hpos => ?_⟩
    obtain ⟨-, -, hbefore, -⟩ := h.exists_match?_of_search? hsearch
    rw [hbefore 0 hpos w List.prefix_rfl] at hmatch
    cases hmatch

end Located

/-! ## Values -/

namespace Regex

variable {r : Regex} {u w : Bytes} {t : Trace} {whole : Span}

/-- **Evaluating a trace that was moved** moves the results. -/
theorem Compiled.evaluate_shift (h : r.Compiled) {b : Nat} {m m' : Match}
    (hm' : r.evaluate whole t u = .ok m')
    (hm : r.evaluate (whole.shift b) (t.shift b) w = .ok m) :
    m.value = m'.value.shift b ∧ m.flat = m'.flat.map (Value.shift b) := by
  obtain ⟨-, -, v', hv', flat', hflat', rfl⟩ := evaluate_eq_ok.mp hm'
  obtain ⟨-, -, v, hv, flat, hflat, rfl⟩ := evaluate_eq_ok.mp hm
  rw [h.captures, h.shape] at hflat hflat'
  rw [h.shape] at hv hv'
  obtain ⟨rs', hrs', rfl⟩ :=
    (CaptureInfo.flatten_eq_ok_iff h.wellFormed h.distinct hv').mp hflat'
  obtain ⟨rs, hrs, rfl⟩ := (CaptureInfo.flatten_eq_ok_iff h.wellFormed h.distinct hv).mp hflat
  have hvalue : Value.assemble (.infer r.pattern) (t.shift b) = .ok (v'.shift b) := by
    rw [Trace.shift, Value.assemble_mapSpans, hv']
    rfl
  have hresults : ((CaptureInfo.table r.pattern (.infer r.pattern)).mapM fun c =>
      Value.assemble c.flat (t.shift b)) = .ok (rs'.map (Value.shift b)) := by
    have hstep := mapM_map_eq (g := fun c : CaptureInfo => c)
      (k := fun c => Value.assemble c.flat (t.shift b))
      (fun c => Value.assemble_mapSpans (Span.shift b) c.flat t)
      (CaptureInfo.table r.pattern (.infer r.pattern))
    rw [List.map_id'] at hstep
    rw [hstep, hrs']
    rfl
  refine ⟨Except.ok.inj (hv.symm.trans hvalue), ?_⟩
  obtain rfl : rs = rs'.map (Value.shift b) := Except.ok.inj (hrs.symm.trans hresults)
  show Value.leaf (some (whole.shift b)) :: _ = Value.shift b (.leaf (some whole)) :: _
  rw [Value.shift, Value.mapSpans_leaf]
  rfl

/-- **The match of what was found** gives the results, up to their place. -/
theorem Compiled.exists_match?_of_search? (h : r.Compiled) {s : Span}
    (hfound : r.pattern.search? w = some (s, t)) :
    ∃ u m m', s.bytes? w = some u ∧ r.search? w = .ok (some m) ∧ r.match? u = .ok (some m') ∧
      m.whole = s ∧ m.value = m'.value.shift s.start ∧
        m.flat = m'.flat.map (Value.shift s.start) := by
  obtain ⟨hordered, -, -, u, t', hbytes, hmatch, rfl⟩ :=
    h.wellFormed.exists_match?_of_search? hfound
  obtain ⟨m, hm⟩ := h.exists_evaluate (.inr hfound)
  obtain ⟨m', hm'⟩ := h.exists_evaluate (.inl hmatch)
  have hwhole : Span.shift s.start ⟨0, s.stop - s.start⟩ = s := by
    show Span.mk (s.start + 0) (s.start + (s.stop - s.start)) = s
    rw [Nat.add_zero, Nat.add_sub_cancel' hordered]
  have hresults := h.evaluate_shift (b := s.start) hm' (hwhole.symm ▸ hm)
  refine ⟨u, m, m', hbytes, ofFound_eq_some.mpr ⟨s, _, hfound, hm⟩,
    ofFound_eq_some.mpr ⟨_, t', hmatch, hm'⟩, ?_, hresults⟩
  obtain ⟨-, -, v, -, flat, -, rfl⟩ := evaluate_eq_ok.mp hm
  rfl

end Regex

/-! ## Searching and matching agree -/

/-- **Searching is leftmost, and agrees with matching.**  It finds nothing when no piece
of the input is matched.  What it finds starts at the first place where some piece is
matched, and is the match of the piece between its ends, moved to its place, with the
same value and the same results. -/
theorem search?_leftmost {p : Pattern} (h : p.validate = .ok ()) (w : Bytes) :
    (p.locate.search? w = none ↔ ∀ u, u <:+: w → p.locate.match? u = none) ∧
    (∀ s t, p.locate.search? w = some (s, t) →
      s.start ≤ s.stop ∧ s.stop ≤ w.length ∧
      (∀ a < s.start, ∀ u, u <+: w.drop a → p.locate.match? u = none) ∧
      ∃ u t', s.bytes? w = some u ∧ p.locate.match? u = some (⟨0, s.stop - s.start⟩, t') ∧
        t'.shift s.start = t) ∧
    ∃ r, Regex.compile p = .ok r ∧
      (p.locate.search? w = none → r.search? w = .ok none) ∧
      (∀ s t, p.locate.search? w = some (s, t) →
        ∃ u m m', s.bytes? w = some u ∧ r.search? w = .ok (some m) ∧
          r.match? u = .ok (some m') ∧ m.whole = s ∧ m.value = m'.value.shift s.start ∧
            m.flat = m'.flat.map (Value.shift s.start)) ∧
      ∀ m', r.match? w = .ok (some m') → ∃ m, r.search? w = .ok (some m) ∧ m.whole.start = 0 := by
  have hwell := Pattern.wellFormed_locate h
  obtain ⟨r, hr⟩ := Regex.exists_compile h
  obtain ⟨hcompiled, hpattern⟩ := Regex.compiled_of_compile hr
  refine ⟨hwell.search?_eq_none_iff_infix, fun s t => hwell.exists_match?_of_search?, r, hr,
    fun hnone => ?_, fun s t hfound => ?_, fun m' hm' => ?_⟩
  · rw [Regex.search?, hpattern, hnone]
    rfl
  · rw [← hpattern] at hfound
    exact hcompiled.exists_match?_of_search? hfound
  · obtain ⟨whole, t, hmatch, -⟩ := Regex.ofFound_eq_some.mp hm'
    obtain ⟨s, t, hsearch, hstart⟩ := hcompiled.wellFormed.start_eq_zero_of_match? hmatch
    obtain ⟨-, m, -, -, hm, -, rfl, -⟩ := hcompiled.exists_match?_of_search? hsearch
    exact ⟨m, hm, hstart⟩

/-- A branch that leaves work to a loop, or does some of it. -/
def branchAndLoop : Pattern :=
  .concat [.alternation [(Pattern.exact [0x61]).capture, (Pattern.exact [0x61, 0x62]).capture],
    (Pattern.exact [0x62]).capture.star]

theorem search?_leftmost_branchAndLoop :
    let w : Bytes := [0x78, 0x61, 0x62, 0x62, 0x7a]
    branchAndLoop.validate = .ok () ∧ ∃ t r u m m',
      branchAndLoop.locate.search? w = some (⟨1, 4⟩, t) ∧
      (∀ u, u <+: w → branchAndLoop.locate.match? u = none) ∧
      Regex.compile branchAndLoop = .ok r ∧ Span.bytes? ⟨1, 4⟩ w = some u ∧
      r.search? w = .ok (some m) ∧ r.match? u = .ok (some m') ∧ m.whole = ⟨1, 4⟩ ∧
      m.value = m'.value.shift 1 ∧ m.flat = m'.flat.map (Value.shift 1) := by
  intro w
  obtain ⟨-, hpiece, r, hr, -, hresults, -⟩ := search?_leftmost (p := branchAndLoop) rfl w
  have hspan : (branchAndLoop.locate.search? w).map Prod.fst = some ⟨1, 4⟩ := by
    rw [Located.search?_eq_findSome?]
    decide +kernel
  obtain ⟨⟨s, t⟩, ht, rfl⟩ := Option.map_eq_some_iff.mp hspan
  obtain ⟨-, -, hbefore, -⟩ := hpiece _ t ht
  obtain ⟨u, m, m', hu, hm, hm', hwhole, hvalue⟩ := hresults _ t ht
  exact ⟨rfl, t, r, u, m, m', ht, hbefore 0 Nat.zero_lt_one, hr, hu, hm, hm', hwhole, hvalue⟩

end CaptureTree
