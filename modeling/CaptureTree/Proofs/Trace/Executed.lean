import CaptureTree.Proofs.WellFormed
import CaptureTree.Trace.Basic

/-!
# What one run through a pattern leaves in a frame

A reader of a frame looks at rows: the spans of a capture, the choices of an
alternation and the iterations of a quantifier.  `Trace.AgreeOn` says that two
frames have the same rows for the nodes of a pattern.

`Trace.Executed` describes the rows that one run through a pattern leaves.  A
capture has one span, an alternation has one choice and nothing in the branches
that were not taken, and a quantifier around a capture has iterations, as many as
its bounds allow, with a run through its body in the frame of each and nothing of
the body beside them.  Whatever else the frame holds does not matter, so runs
through parts of a pattern may share a frame.
-/

namespace CaptureTree

/-- Only an iteration of the quantifier has a frame for it. -/
theorem Record.frameOf?_eq_some {r : Record} {n : NodeId} {f : Trace} :
    r.frameOf? n = some f ↔ r = .iteration n f := by
  cases r with
  | span | choice => exact iff_of_false (fun h => by cases h) fun h => by cases h
  | iteration m g =>
    rw [Record.frameOf?]
    by_cases hm : m = n
    · rw [if_pos hm, hm, Option.some.injEq, Record.iteration.injEq, and_iff_right rfl]
    · rw [if_neg hm]
      exact iff_of_false (fun h => by cases h) fun h => hm (Record.iteration.inj h).1

/-- Only a span of the capture is read as one. -/
theorem Record.spanOf?_eq_some {r : Record} {n : NodeId} {s : Span} :
    r.spanOf? n = some s ↔ r = .span n s := by
  cases r with
  | choice | iteration => exact iff_of_false (fun h => by cases h) fun h => by cases h
  | span m s' =>
    rw [Record.spanOf?]
    by_cases hm : m = n
    · rw [if_pos hm, hm, Option.some.injEq, Record.span.injEq, and_iff_right rfl]
    · rw [if_neg hm]
      exact iff_of_false (fun h => by cases h) fun h => hm (Record.span.inj h).1

/-- Only a choice of the alternation is read as one. -/
theorem Record.choiceOf?_eq_some {r : Record} {n : NodeId} {i : Nat} :
    r.choiceOf? n = some i ↔ r = .choice n i := by
  cases r with
  | span | iteration => exact iff_of_false (fun h => by cases h) fun h => by cases h
  | choice m j =>
    rw [Record.choiceOf?]
    by_cases hm : m = n
    · rw [if_pos hm, hm, Option.some.injEq, Record.choice.injEq, and_iff_right rfl]
    · rw [if_neg hm]
      exact iff_of_false (fun h => by cases h) fun h => hm (Record.choice.inj h).1

namespace Trace

variable {p q : Located} {t u : Trace}

/-! ## Rows -/

/-- The iterations of a quantifier are those recorded for it. -/
theorem mem_iterations {n : NodeId} {f : Trace} : f ∈ t.iterations n ↔ .iteration n f ∈ t := by
  simp only [iterations, List.mem_filterMap, Record.frameOf?_eq_some, exists_eq_right]

/-- The spans of a capture are those recorded for it. -/
theorem mem_spans {n : NodeId} {s : Span} : s ∈ t.spans n ↔ .span n s ∈ t := by
  simp only [spans, List.mem_filterMap, Record.spanOf?_eq_some, exists_eq_right]

/-- The branches of an alternation are those recorded for it. -/
theorem mem_choices {n : NodeId} {i : Nat} : i ∈ t.choices n ↔ .choice n i ∈ t := by
  simp only [choices, List.mem_filterMap, Record.choiceOf?_eq_some, exists_eq_right]

/-- Rows are empty when no record is for their node. -/
theorem rows_eq_nil_iff {n : NodeId} :
    (t.spans n = [] ∧ t.choices n = [] ∧ t.iterations n = []) ↔ ∀ r ∈ t, r.node ≠ n := by
  simp only [spans, choices, iterations, List.filterMap_eq_nil_iff]
  constructor
  · rintro ⟨hspan, hchoice, hframe⟩ r hr rfl
    cases r with
    | span n s => simpa [Record.spanOf?, Record.node] using hspan _ hr
    | choice n i => simpa [Record.choiceOf?, Record.node] using hchoice _ hr
    | iteration n f => simpa [Record.frameOf?, Record.node] using hframe _ hr
  · intro h
    refine ⟨fun r hr => ?_, fun r hr => ?_, fun r hr => ?_⟩
    all_goals
      have hne := h r hr
      cases r <;> simp_all [Record.spanOf?, Record.choiceOf?, Record.frameOf?, Record.node]

/-- A record has no part in the rows of other nodes. -/
theorem rows_singleton {r : Record} {n : NodeId} (h : r.node ≠ n) :
    spans [r] n = [] ∧ choices [r] n = [] ∧ iterations [r] n = [] :=
  rows_eq_nil_iff.mpr fun r' hr' => by rwa [List.mem_singleton.mp hr']

/-- A pattern is untouched when the rows of all of its nodes are empty. -/
theorem touches_eq_false_iff_rows : t.touches p = false ↔
    ∀ n ∈ p.ids, t.spans n = [] ∧ t.choices n = [] ∧ t.iterations n = [] := by
  simp only [touches_eq_false_iff, rows_eq_nil_iff]
  constructor
  · rintro h n hn r hr rfl
    exact h r hr hn
  · intro h r hr hn
    exact h _ hn r hr rfl

/-- A frame with iterations of a quantifier is in touch with it. -/
theorem touches_of_iterations (hsome : t.iterations q.id ≠ []) : t.touches q = true := by
  rw [← Bool.not_eq_false, touches_eq_false_iff_rows]
  exact fun hrows => hsome (hrows q.id (Located.id_mem_ids_self q)).2.2

/-- What is untouched in the whole is untouched in every part. -/
theorem touches_eq_false_of_mem_subtrees (h : t.touches p = false) (hq : q ∈ p.subtrees) :
    t.touches q = false := by
  rw [touches_eq_false_iff] at h ⊢
  exact fun r hr hmem => h r hr (Located.ids_subset hq hmem)

/-- Do two frames have the same rows for all nodes of a pattern? -/
structure AgreeOn (p : Located) (t u : Trace) : Prop where
  spans : ∀ n ∈ p.ids, t.spans n = u.spans n
  choices : ∀ n ∈ p.ids, t.choices n = u.choices n
  iterations : ∀ n ∈ p.ids, t.iterations n = u.iterations n

namespace AgreeOn

theorem refl (p : Located) (t : Trace) : AgreeOn p t t :=
  ⟨fun _ _ => rfl, fun _ _ => rfl, fun _ _ => rfl⟩

theorem symm (h : AgreeOn p t u) : AgreeOn p u t where
  spans n hn := (h.spans n hn).symm
  choices n hn := (h.choices n hn).symm
  iterations n hn := (h.iterations n hn).symm

theorem mono (h : AgreeOn p t u) (hq : q ∈ p.subtrees) : AgreeOn q t u where
  spans n hn := h.spans n (Located.ids_subset hq hn)
  choices n hn := h.choices n (Located.ids_subset hq hn)
  iterations n hn := h.iterations n (Located.ids_subset hq hn)

theorem child (h : AgreeOn p t u) (hq : q ∈ p.children) : AgreeOn q t u :=
  h.mono (Located.mem_subtrees_of_mem_children hq)

theorem trans {v : Trace} (h : AgreeOn p t u) (h' : AgreeOn p u v) : AgreeOn p t v where
  spans n hn := (h.spans n hn).trans (h'.spans n hn)
  choices n hn := (h.choices n hn).trans (h'.choices n hn)
  iterations n hn := (h.iterations n hn).trans (h'.iterations n hn)

/-- Frames that agree on a pattern touch it alike. -/
theorem untouched (h : AgreeOn p t u) (ht : t.touches p = false) : u.touches p = false := by
  rw [touches_eq_false_iff_rows] at ht ⊢
  intro n hn
  rw [← h.spans n hn, ← h.choices n hn, ← h.iterations n hn]
  exact ht n hn

theorem touches_eq (h : AgreeOn p t u) : t.touches p = u.touches p := by
  rw [Bool.eq_iff_iff, ← Bool.not_eq_false, ← Bool.not_eq_false, not_iff_not]
  exact ⟨h.untouched, h.symm.untouched⟩

/-- Records of other nodes may come before. -/
theorem append_left (hu : u.touches p = false) : AgreeOn p t (u ++ t) where
  spans n hn := by
    rw [spans_append, (touches_eq_false_iff_rows.mp hu n hn).1, List.nil_append]
  choices n hn := by
    rw [choices_append, (touches_eq_false_iff_rows.mp hu n hn).2.1, List.nil_append]
  iterations n hn := by
    rw [iterations_append, (touches_eq_false_iff_rows.mp hu n hn).2.2, List.nil_append]

/-- Records of other nodes may come behind. -/
theorem append_right (hu : u.touches p = false) : AgreeOn p t (t ++ u) where
  spans n hn := by
    rw [spans_append, (touches_eq_false_iff_rows.mp hu n hn).1, List.append_nil]
  choices n hn := by
    rw [choices_append, (touches_eq_false_iff_rows.mp hu n hn).2.1, List.append_nil]
  iterations n hn := by
    rw [iterations_append, (touches_eq_false_iff_rows.mp hu n hn).2.2, List.append_nil]

end AgreeOn

/-! ## Runs -/

/-- **Does the frame hold what one run through the pattern records?** -/
inductive Executed : Located → Trace → Prop
  | literal {p : Located} {t : Trace} (kind : p.kind = .literal) (children : p.children = []) :
      Executed p t
  | capture {p q : Located} {t : Trace} {s : Span} (kind : p.kind = .capture)
      (children : p.children = [q]) (span : t.spans p.id = [s]) (inside : Executed q t) :
      Executed p t
  | group {p q : Located} {t : Trace} (kind : p.kind = .group) (children : p.children = [q])
      (inside : Executed q t) : Executed p t
  | concat {p : Located} {t : Trace} (kind : p.kind = .concat)
      (parts : ∀ q ∈ p.children, Executed q t) : Executed p t
  | alternation {p q : Located} {t : Trace} {i : Nat} (kind : p.kind = .alternation)
      (branch : p.children[i]? = some q)
      (chosen : p.hasCapture = true → t.choices p.id = [i]) (inside : Executed q t)
      (others : ∀ j b, p.children[j]? = some b → j ≠ i → t.touches b = false) : Executed p t
  | quantifier {p q : Located} {t : Trace} (kind : p.kind = .quantifier)
      (children : p.children = [q]) (loose : q.hasCapture = true → t.touches q = false)
      (count : q.hasCapture = true → p.bounds.Allow (t.iterations p.id).length)
      (inside : q.hasCapture = true → ∀ f ∈ t.iterations p.id, Executed q f) : Executed p t

end Trace

end CaptureTree
