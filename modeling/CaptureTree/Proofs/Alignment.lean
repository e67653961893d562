import CaptureTree.Proofs.Ancestors
import CaptureTree.Proofs.Evaluation
import CaptureTree.Proofs.Value.Entries

/-!
# Captures of one loop stay aligned

Two captures in the same loops have results that can be read side by side.  At every level
that they share their results have as many items as each other, and items at the same place
come from the same iteration.  A capture without a part in some iteration has an empty entry
there; the entries behind it do not move up (`Value.Aligned`).

It does not matter whether a result was cut out of the value or assembled from the trace, nor
whether the loops were recorded with frames or as span lists.  A result is always what the
flat shape of its capture reads from the trace, and how a loop is read depends on the loop
alone (`Trace.iteration_iff`).
-/

namespace CaptureTree

/-- **Are the results of two captures aligned**, down the outermost quantifiers `shared` that are
around both of them? -/
structure Value.Aligned (p : Located) (t : Trace) (shared : List Located) (c d : Located)
    (u v : Value) : Prop where
  /-- Entries with the same indices have equally many items. -/
  skeleton : ∀ is, is.length < shared.length → ∀ a b, entryAt is u = some a →
    entryAt is v = some b → SameItems a b
  /-- There are no entries other than those of iterations. -/
  entered : ∀ is, is.length ≤ shared.length → entryAt is u ≠ none ∨ entryAt is v ≠ none →
    ∃! f, t.Reaches shared is f
  /-- For every iteration there is an entry in both, read from its frame. -/
  read : ∀ is f, t.Reaches shared is f → ∃ a b, entryAt is u = some a ∧ entryAt is v = some b ∧
    EntryOf c ((p.quantifiersAround c.id).drop is.length) f a ∧
    EntryOf d ((p.quantifiersAround d.id).drop is.length) f b

/-- **Two captures of a loop are aligned**, in what their flat shapes read from a trace. -/
theorem Located.Holds.aligned {p c d : Located} {shared rest rest' : List Located} {t : Trace}
    {size : Nat} {u v : Value} (hc : p.Holds (shared ++ rest) c)
    (hd : p.Holds (shared ++ rest') d) (hwell : p.WellFormed) (hdistinct : p.Distinct)
    (ht : t.Placed size (some p)) (hu : Value.assemble (.flat (shared ++ rest) c) t = .ok u)
    (hv : Value.assemble (.flat (shared ++ rest') d) t = .ok v) :
    Value.Aligned p t shared c d u v := by
  have hleft : ∀ is f, t.Reaches shared is f → ∃ a, Value.entryAt is u = some a ∧
      Value.EntryOf c ((shared ++ rest).drop is.length) f a :=
    fun _ _ hf => hc.exists_entry hwell hdistinct ht hu hf
  have hright : ∀ is f, t.Reaches shared is f → ∃ b, Value.entryAt is v = some b ∧
      Value.EntryOf d ((shared ++ rest').drop is.length) f b :=
    fun _ _ hf => hd.exists_entry hwell hdistinct ht hv hf
  refine ⟨fun is his a b ha hb => ?_, fun is his hentry => ?_, fun is f hf => ?_⟩
  · obtain ⟨f, hf⟩ := hc.exists_reaches hwell hdistinct ht hu his.le ha
    obtain ⟨a', ha', hreada⟩ := hleft is f hf
    obtain ⟨b', hb', hreadb⟩ := hright is f hf
    obtain rfl := Option.some.inj (ha.symm.trans ha')
    obtain rfl := Option.some.inj (hb.symm.trans hb')
    -- the next quantifier is one of those that are shared
    rw [List.drop_append_of_le_length his.le, List.drop_eq_getElem_cons his] at hreada hreadb
    exact hreada.sameItems hreadb
  · obtain ⟨f, hf⟩ : ∃ f, t.Reaches shared is f := by
      rcases hentry with ha | hb
      · obtain ⟨a, ha⟩ := Option.ne_none_iff_exists'.mp ha
        exact hc.exists_reaches hwell hdistinct ht hu his ha
      · obtain ⟨b, hb⟩ := Option.ne_none_iff_exists'.mp hb
        exact hd.exists_reaches hwell hdistinct ht hv his hb
    exact ⟨f, hf, fun g hg => hg.unique hf⟩
  · obtain ⟨a, ha, hreada⟩ := hleft is f hf
    obtain ⟨b, hb, hreadb⟩ := hright is f hf
    refine ⟨a, b, ha, hb, ?_, ?_⟩
    · rwa [hc.quantifiersAround_eq hdistinct]
    · rwa [hd.quantifiersAround_eq hdistinct]

namespace Regex

variable {r : Regex}

/-- **Captures of one loop stay aligned.**  In a match that evaluation returns, the results of any
two captures are aligned down the outermost quantifiers that are around both: entries with the
same indices have equally many items and are read from the same iteration, in which a capture
without a part has an empty entry.  Matching and searching return such a match. -/
theorem evaluate_keeps_alignment {p : Pattern} (h : compile p = .ok r) (w : Bytes) :
    (∀ whole t m, r.evaluate whole t w = .ok m →
      ∀ j k c d, r.capture j = .ok c → r.capture k = .ok d →
        ∀ shared, shared <+: r.pattern.quantifiersAround c.node.id →
          shared <+: r.pattern.quantifiersAround d.node.id →
            ∃ u v, m.get j = .ok u ∧ m.get k = .ok v ∧
              Value.Aligned r.pattern t shared c.node d.node u v) ∧
      ∀ m, r.match? w = .ok (some m) ∨ r.search? w = .ok (some m) →
        ∃ whole t, r.evaluate whole t w = .ok m := by
  obtain ⟨hr, -⟩ := compiled_of_compile h
  refine ⟨fun whole t m hm j k c d hj hk shared hshared hshared' => ?_,
    fun m hm => exists_trace_of_found hm⟩
  obtain ⟨u, hgetu, hu⟩ := hr.exists_get hm hj
  obtain ⟨v, hgetv, hv⟩ := hr.exists_get hm hk
  obtain ⟨-, hcheck, -⟩ := evaluate_eq_ok.mp hm
  obtain ⟨i, -, hi⟩ := capture_eq_ok.mp hj
  obtain ⟨i', -, hi'⟩ := capture_eq_ok.mp hk
  obtain ⟨qs, hholds, hflat, -⟩ := hr.exists_route (List.mem_of_getElem? hi)
  obtain ⟨qs', hholds', hflat', -⟩ := hr.exists_route (List.mem_of_getElem? hi')
  rw [hholds.quantifiersAround_eq hr.distinct] at hshared
  rw [hholds'.quantifiersAround_eq hr.distinct] at hshared'
  obtain ⟨rest, rfl⟩ := hshared
  obtain ⟨rest', rfl⟩ := hshared'
  rw [hflat] at hu
  rw [hflat'] at hv
  exact ⟨u, v, hgetu, hgetv, hholds.aligned hholds' hr.wellFormed hr.distinct
    (Trace.check_eq_ok_iff.mp hcheck) hu hv⟩

/-- A loop around two alternatives: a capture, and a capture that hides another one. -/
def captureOrHidden : Pattern :=
  (Pattern.alternation [(Pattern.exact [0x61]).capture,
    (Pattern.exact [0x62]).capture.capture]).star

/-- A match of `ab`, one alternative in each round. -/
def captureThenHidden : Trace :=
  [.iteration 0 [.choice 1 0, .span 2 ⟨0, 1⟩],
    .iteration 0 [.choice 1 1, .span 5 ⟨1, 2⟩, .span 4 ⟨1, 2⟩]]

theorem evaluate_keeps_alignment_captureThenHidden :
    ∃ r m c d, compile captureOrHidden = .ok r ∧
      r.evaluate ⟨0, 2⟩ captureThenHidden [0x61, 0x62] = .ok m ∧
      r.capture 1 = .ok c ∧ r.capture 3 = .ok d ∧
      [r.pattern] <+: r.pattern.quantifiersAround c.node.id ∧
      [r.pattern] <+: r.pattern.quantifiersAround d.node.id ∧
      ∃ u v, m.get 1 = .ok u ∧ m.get 3 = .ok v ∧
        Value.Aligned r.pattern captureThenHidden [r.pattern] c.node d.node u v :=
  ⟨_, _, _, _, rfl, rfl, rfl, rfl, ⟨[], rfl⟩, ⟨[], rfl⟩,
    (evaluate_keeps_alignment (p := captureOrHidden) rfl [0x61, 0x62]).1 ⟨0, 2⟩ captureThenHidden _
      rfl 1 3 _ _ rfl rfl _ ⟨[], rfl⟩ ⟨[], rfl⟩⟩

end Regex

end CaptureTree
