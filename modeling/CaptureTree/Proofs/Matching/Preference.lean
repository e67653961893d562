import CaptureTree.Proofs.Matching.Language

/-!
# The preferred match

A pattern can match in many ways, and a search has to return one of them.  Which
one is said here by the order in which the ways are listed: `PreferenceOrder`
states, kind by kind, how the ways of a node are put together from those of its
children, and what each of them records in the current frame.

Matching the whole input returns the first way that reaches the end, with exactly its
records, and searching returns the first way of the leftmost place that has one.
Nothing of the ways that were tried before is left in the trace.
-/

namespace CaptureTree

/-- **How the ways to match are ordered.**  `ways p c` lists the ways of a pattern at
a place in the input, preferred ones first, and `rounds p n c` those of a
quantifier that has been round `n` times. -/
structure PreferenceOrder (ways : Located → Cursor → List Outcome)
    (rounds : Located → Nat → Cursor → List Outcome) : Prop where
  /-- A literal matches in one way or not at all. -/
  literal (p : Located) (c : Cursor) : p.kind = .literal →
    ways p c = (c.match? p.label.literal).toList.map .here
  /-- A capture adds its span to what is recorded inside it. -/
  capture (p q : Located) (c : Cursor) : p.kind = .capture → p.children = [q] →
    ways p c = (ways q c).map fun o =>
      ⟨o.cursor, o.records ++ [.span p.id ⟨c.pos, o.cursor.pos⟩]⟩
  /-- A group matches as what it groups. -/
  group (p q : Located) (c : Cursor) : p.kind = .group → p.children = [q] → ways p c = ways q c
  /-- A concatenation goes through the ways of its first part, and for each of
  them through those of the rest. -/
  concat (p : Located) (c : Cursor) : p.kind = .concat →
    ways p c = Outcome.inSequence (p.children.map ways) c
  /-- An alternation goes through the ways of its first branch, then those of the
  second, and so on, and puts down the branch if there is a capture below. -/
  alternation (p : Located) (c : Cursor) : p.kind = .alternation → p.children ≠ [] →
    ways p c = p.children.zipIdx.flatMap fun branch =>
      (ways branch.1 c).map (.after (if p.hasCapture then [.choice p.id branch.2] else []))
  /-- A quantifier begins with no rounds made. -/
  quantifier (p : Located) (c : Cursor) : p.kind = .quantifier → ways p c = rounds p 0 c
  /-- A full quantifier stops.  Any other goes round once more, in any way of its
  body unless that consumes nothing although no more rounds are required, and
  stops after these if no more are required.  A round gets a frame of its own if
  there is a capture in the body. -/
  round (p q : Located) (count : Nat) (c : Cursor) : p.kind = .quantifier → p.children = [q] →
    q.WellFormed → c.Coherent →
    rounds p count c =
      if p.bounds.isFull count then [.here c]
      else
        (((ways q c).filter fun o => !(o.cursor == c && p.bounds.min ≤ count)).flatMap fun o =>
          (rounds p (count + 1) o.cursor).map
            (.after (if q.hasCapture then [.iteration p.id o.records] else o.records))) ++
        if p.bounds.min ≤ count then [.here c] else []

theorem flatMap_ite_nil {α β : Type} (P : α → Bool) (f : α → List β) (xs : List α) :
    (xs.flatMap fun x => if P x then f x else []) = (xs.filter P).flatMap f := by
  induction xs with
  | nil => rfl
  | cons x xs ih =>
    rw [List.flatMap_cons, ih, List.filter_cons]
    cases P x with
    | true => rfl
    | false => rfl

namespace Located

/-- The ways of a quantifier that has been round `count` times. -/
def rounds (p : Located) (count : Nat) (c : Cursor) : List Outcome :=
  (Loop.ofNode p).rounds (Outcome.inSequence ((p.children.map outcomes).take 1)) count c

/-- Among the outcomes of a body, those that count are those that consume
something or are still required. -/
theorem WellFormed.counts_eq {q : Located} (h : q.WellFormed) (l : Loop) (count : Nat)
    {c : Cursor} (hc : c.Coherent) {o : Outcome} (ho : o ∈ q.outcomes c) :
    l.counts count c o.cursor = !(o.cursor == c && decide (l.bounds.min ≤ count)) := by
  obtain ⟨n, hn, hcursor⟩ := h.exists_advance hc ho
  have hleft : o.cursor.left = c.left - n := by rw [hcursor, Cursor.left_advance]
  have hidle : o.cursor = c ↔ n = 0 := by
    constructor
    · intro heq
      rw [heq] at hleft
      omega
    · rintro rfl
      rw [hcursor, Cursor.advance_zero]
  rw [Bool.eq_iff_iff, l.counts_iff]
  simp only [Bool.not_eq_true', Bool.and_eq_false_iff, beq_eq_false_iff_ne, decide_eq_false_iff_not,
    ne_eq, hidle]
  omega

/-- **The outcomes are listed in order of preference.** -/
theorem preferenceOrder_outcomes : PreferenceOrder outcomes rounds where
  literal _ c hk := outcomes_literal hk c
  capture _ _ c hk hc := outcomes_capture hk hc c
  group _ _ c hk hc := congrFun (outcomes_group hk hc) c
  concat _ c hk := congrFun (outcomes_concat hk) c
  alternation _ c hk hc := outcomes_alternation hk hc c
  quantifier p c hk := by
    rw [outcomes_eq, nodeOutcomes, hk]
    rfl
  round p q count c hk hc hq hcoh := by
    have hrounds : p.rounds = (Loop.ofNode p).rounds q.outcomes := by
      funext count c
      rw [rounds, inSequence_body hc]
    have hfilter : ((q.outcomes c).filter fun o => (Loop.ofNode p).counts count c o.cursor) =
        (q.outcomes c).filter fun o => !(o.cursor == c && p.bounds.min ≤ count) :=
      List.filter_congr fun o ho => hq.counts_eq (Loop.ofNode p) count hcoh ho
    rw [hrounds, Loop.rounds_eq, Loop.round, flatMap_ite_nil, hfilter]
    simp only [ofNode_entry hc, ofNode_bounds]
    rfl

/-- Searching tries one place after the other. -/
theorem searchFrom?_eq_findSome? (p : Located) (pos left : Nat) (rest : Bytes) :
    p.searchFrom? pos left rest = (List.range (rest.length + 1)).findSome? fun b =>
      p.matchFrom? (fun _ => true) (Cursor.advance ⟨pos, left, rest⟩ b) := by
  induction rest generalizing pos left with
  | nil =>
    rw [searchFrom?, List.length_nil, List.range_one, List.findSome?_singleton,
      Cursor.advance_zero]
  | cons b rest ih =>
    rw [searchFrom?, List.range_succ_eq_map, List.findSome?_cons, Cursor.advance_zero,
      List.findSome?_map, ih, List.length_cons]
    have hnext : ∀ n, Cursor.advance ⟨pos, left, b :: rest⟩ (n + 1) =
        Cursor.advance ⟨pos + 1, left - 1, rest⟩ n := by
      intro n
      rw [Nat.add_comm n 1, ← Cursor.advance_advance]
      rfl
    simp only [Function.comp_def, Nat.succ_eq_add_one, hnext]
    cases p.matchFrom? (fun _ => true) ⟨pos, left, b :: rest⟩ with
    | none => rfl
    | some found => rfl

/-- With every end accepted, the first outcome is taken. -/
theorem matchFrom?_eq_head? (p : Located) (c : Cursor) :
    p.matchFrom? (fun _ => true) c =
      (p.outcomes c).head?.map fun o => (⟨c.pos, o.cursor.pos⟩, o.records) := by
  rw [matchFrom?_eq_find?]
  cases p.outcomes c with
  | nil => rfl
  | cons o os => rfl

/-- **A search is the first outcome at the leftmost place that has one.** -/
theorem search?_eq_findSome? (p : Located) (w : Bytes) :
    p.search? w = (List.range (w.length + 1)).findSome? fun b =>
      (p.outcomes ((Cursor.ofInput w).advance b)).head?.map fun o =>
        (⟨b, o.cursor.pos⟩, o.records) := by
  rw [search?, searchFrom?_eq_findSome?]
  congr 1
  funext b
  have hpos : ((Cursor.ofInput w).advance b).pos = b := Nat.zero_add b
  exact (p.matchFrom?_eq_head? ((Cursor.ofInput w).advance b)).trans (by rw [hpos])

end Located

/-! ## The first way in order of preference -/

/-- **A match is the first way in order of preference.**  Matching returns the first
outcome that ends at the end of the input, and searching the first outcome of the
leftmost place that has one; the trace holds the records of that outcome and
nothing else. -/
theorem match?_eq_first_outcome {p : Pattern} (h : p.validate = .ok ()) (w : Bytes) :
    PreferenceOrder Located.outcomes Located.rounds ∧
      p.locate.match? w =
        ((p.locate.outcomes (.ofInput w)).find? fun o => o.cursor.pos == w.length).map
          (fun o => (⟨0, w.length⟩, o.records)) ∧
      p.locate.search? w = (List.range (w.length + 1)).findSome? fun b =>
        (p.locate.outcomes ((Cursor.ofInput w).advance b)).head?.map fun o =>
          (⟨b, o.cursor.pos⟩, o.records) := by
  refine ⟨Located.preferenceOrder_outcomes, ?_, p.locate.search?_eq_findSome? w⟩
  have hend : ∀ o ∈ p.locate.outcomes (.ofInput w),
      (o.cursor.left == 0) = (o.cursor.pos == w.length) := by
    intro o ho
    obtain ⟨n, hn, hcursor⟩ :=
      (Pattern.wellFormed_locate h).exists_advance (Cursor.coherent_ofInput w) ho
    have hleft : o.cursor.left = w.length - n := by rw [hcursor]; rfl
    have hpos : o.cursor.pos = n := by rw [hcursor]; exact Nat.zero_add n
    have hle : n ≤ w.length := hn
    rw [Bool.eq_iff_iff, beq_iff_eq, beq_iff_eq]
    omega
  rw [Located.match?_eq_find?, ← List.head?_filter, List.filter_congr hend, List.head?_filter]
  cases hfind : (p.locate.outcomes (.ofInput w)).find? fun o => o.cursor.pos == w.length with
  | none => rfl
  | some o =>
    have hpos := List.find?_some hfind
    rw [Option.map_some, Option.map_some, beq_iff_eq.mp hpos]

end CaptureTree
