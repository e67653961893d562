import CaptureTree.Proofs.Machine.Running

/-!
# Nothing is left of what was tried in vain

A machine has one trace and one stack of each kind.  It goes on as it prefers, and when that fails,
it takes back what it has changed and goes on at the place that it noted last.  What it ends with
should not tell that anything was taken back: it should be the first way in the order of
preference that is accepted, with the records of this way alone.

So it is (`Machine.trace_eq_first_outcome`).  The order is that of `PreferenceOrder`, in which
nothing is tried or taken back, and what the machine is compared with are the ways listed there.
-/

namespace CaptureTree

namespace Located

/-- The first way that reaches the end of the input. -/
def firstMatch (p : Located) (w : Bytes) : Option (Span × Trace) :=
  ((p.outcomes (.ofInput w)).find? fun o => o.cursor.pos == w.length).map fun o =>
    (⟨0, w.length⟩, o.records)

/-- The first way at the leftmost place that has one. -/
def firstFound (p : Located) (w : Bytes) : Option (Span × Trace) :=
  (List.range (w.length + 1)).findSome? fun b =>
    (p.outcomes ((Cursor.ofInput w).advance b)).head?.map fun o => (⟨b, o.cursor.pos⟩, o.records)

end Located

namespace Machine

/-- **A machine ends with the first way in order of preference.**  It always stops, after a number
of steps beyond which nothing changes, and never with a fault.  Matching ends with the first way
that reaches the end of the input, and searching with the first way at the leftmost place that has
one, and the tables hold the records of this way and nothing else; if there is no such way, they
hold nothing.  This is also what matching and searching return. -/
theorem trace_eq_first_outcome {p : Pattern} (h : p.validate = .ok ()) (w : Bytes) :
    PreferenceOrder Located.outcomes Located.rounds ∧
      Reports (traceMatch p.locate w) (p.locate.firstMatch w) ∧
      Reports (traceSearch p.locate w) (p.locate.firstFound w) ∧
      p.locate.match? w = p.locate.firstMatch w ∧ p.locate.search? w = p.locate.firstFound w := by
  obtain ⟨horder, hmatch, hsearch⟩ := match?_eq_first_outcome h w
  have hwell := Pattern.wellFormed_locate h
  have hreports := reports_traceMatch hwell p.distinct_locate w
  have hfound := reports_traceSearch hwell p.distinct_locate w
  rw [hmatch] at hreports
  rw [hsearch] at hfound
  exact ⟨horder, hreports, hfound, hmatch, hsearch⟩

/-- A loop around an alternation of captures, whose first branch is given up when
the second iteration finds that nothing is left. -/
def greedyBranches : Pattern :=
  (Pattern.alternation [(Pattern.exact [0x61, 0x61]).capture,
    (Pattern.exact [0x61]).capture]).repeated 2

/-- When the first branch is given up, it has recorded a choice and a span in a frame of its own. -/
theorem trace_eq_first_outcome_greedyBranches :
    let w : Bytes := [0x61, 0x61]
    greedyBranches.validate = .ok () ∧ ∃ root,
      Ends (traceMatch greedyBranches.locate w) (some ⟨0, 2⟩, root) ∧
      (root.iterations 0).map (fun f => (f.choices 1, f.spans 2, f.spans 4)) =
        [([1], [], [⟨0, 1⟩]), ([1], [], [⟨1, 2⟩])] := by
  intro w
  obtain ⟨-, ⟨root, hends, hroot⟩, -, -, -⟩ := trace_eq_first_outcome (p := greedyBranches) rfl w
  have hrun : (greedyBranches.locate.firstMatch w).map (fun found => (found.1,
      (found.2.iterations 0).map fun f => (f.choices 1, f.spans 2, f.spans 4))) =
      some (⟨0, 2⟩, [([1], [], [⟨0, 1⟩]), ([1], [], [⟨1, 2⟩])]) := by
    decide +kernel
  obtain ⟨⟨whole, t⟩, ht, hfound⟩ := Option.map_eq_some_iff.mp hrun
  obtain ⟨rfl, hrows⟩ := Prod.mk.inj hfound
  rw [ht] at hends hroot
  refine ⟨rfl, root, hends, Eq.trans ?_ hrows⟩
  -- the frames of the tables say what those of the trace say
  have hframes : List.Forall₂ Tables.ReadsAs (root.iterations 0) (t.iterations 0) :=
    hroot.iterations 0
  generalize root.iterations 0 = fs at hframes
  generalize t.iterations 0 = gs at hframes
  induction hframes with
  | nil => rfl
  | cons h _ ih => rw [List.map_cons, List.map_cons, h.choices, h.spans, h.spans, ih]

end Machine

end CaptureTree
