import CaptureTree.Matching.Outcomes
import CaptureTree.Proofs.WellFormed

/-!
# Outcomes, kind by kind

`Located.outcomes` is one fold over the pattern, and the outcomes of a loop are
cut off after a number of iterations that is known to be large enough.  This
module gives the equations to work with instead.

* `Loop.rounds` are the outcomes of a loop without a bound: `Loop.rounds_eq` goes
  round once and refers to itself for the rest.
* `Located.outcomes_literal` and its companions say what the outcomes of each
  kind of node are, in terms of those of its children.

A loop is also described by the iterations of each of its outcomes.
`Outcome.Steps` chains outcomes one behind the other, and
`Loop.exists_iterations` says that an outcome of a loop is a chain of outcomes of
the body, in a number that the bounds allow.
-/

namespace CaptureTree

namespace Cursor

/-! ## Places in the input -/

/-- Is the number of bytes left counted right? -/
def Coherent (c : Cursor) : Prop := c.left = c.rest.length

theorem coherent_ofInput (input : Bytes) : (ofInput input).Coherent := rfl

@[simp] theorem advance_zero (c : Cursor) : c.advance 0 = c := rfl

theorem advance_advance (c : Cursor) (m n : Nat) :
    (c.advance m).advance n = c.advance (m + n) := by
  simp only [advance, Nat.add_assoc, Nat.sub_sub, List.drop_drop]

theorem Coherent.advance {c : Cursor} (h : c.Coherent) (n : Nat) : (c.advance n).Coherent := by
  rw [Coherent] at h ⊢
  rw [left_advance, h]
  exact List.length_drop.symm

end Cursor

namespace Outcome

@[simp] theorem here_cursor (c : Cursor) : (here c).cursor = c := rfl

@[simp] theorem here_records (c : Cursor) : (here c).records = [] := rfl

@[simp] theorem after_cursor (t : Trace) (o : Outcome) : (after t o).cursor = o.cursor := rfl

@[simp] theorem after_records (t : Trace) (o : Outcome) :
    (after t o).records = t ++ o.records := rfl

/-- A sequence of one part is the part. -/
theorem inSequence_singleton (f : Cursor → List Outcome) (c : Cursor) :
    inSequence [f] c = f c := by
  have hsame : ∀ o ∈ f c, (inSequence [] o.cursor).map (after o.records) = [o] := by
    intro o _
    simp [inSequence, after, here]
  rw [inSequence, List.flatMap_def, List.map_congr_left hsame, ← List.flatMap_def,
    List.flatMap_singleton']

/-! ## Chains of outcomes -/

/-- One outcome of each part, the next one from where the one before it ended. -/
inductive Steps : List (Cursor → List Outcome) → Cursor → List Outcome → Cursor → Prop
  | nil (c : Cursor) : Steps [] c [] c
  | cons {f : Cursor → List Outcome} {fs : List (Cursor → List Outcome)} {c d : Cursor}
      {o : Outcome} {os : List Outcome} (head : o ∈ f c) (tail : Steps fs o.cursor os d) :
      Steps (f :: fs) c (o :: os) d

/-- **An outcome of a sequence is a chain of outcomes of its parts**, and its
records are theirs. -/
theorem exists_steps {fs : List (Cursor → List Outcome)} {c : Cursor} {o : Outcome}
    (h : o ∈ inSequence fs c) :
    ∃ os, Steps fs c os o.cursor ∧ o.records = os.flatMap records := by
  induction fs generalizing c o with
  | nil =>
    rw [inSequence, List.mem_singleton] at h
    rw [h]
    exact ⟨[], .nil c, rfl⟩
  | cons f fs ih =>
    rw [inSequence, List.mem_flatMap] at h
    obtain ⟨first, hfirst, hrest⟩ := h
    obtain ⟨rest, hmem, rfl⟩ := List.mem_map.mp hrest
    obtain ⟨os, hsteps, hrecords⟩ := ih hmem
    refine ⟨first :: os, .cons hfirst hsteps, ?_⟩
    rw [after_records, hrecords, List.flatMap_cons]

/-- An outcome in a chain is one of a part. -/
theorem Steps.exists_mem {fs : List (Cursor → List Outcome)} {c d : Cursor} {os : List Outcome}
    (h : Steps fs c os d) {o : Outcome} (ho : o ∈ os) : ∃ f ∈ fs, ∃ e, o ∈ f e := by
  induction h with
  | nil => exact absurd ho List.not_mem_nil
  | @cons f fs c d first os hhead htail ih =>
    rcases List.mem_cons.mp ho with rfl | ho
    · exact ⟨f, List.mem_cons_self, c, hhead⟩
    · obtain ⟨g, hg, e, he⟩ := ih ho
      exact ⟨g, List.mem_cons_of_mem f hg, e, he⟩

/-- **Where a chain is cut**: outcome number `i` begins at cut `i` and ends at the next. -/
def cutAt : Cursor → List Outcome → Nat → Nat
  | c, [], _ => c.pos
  | c, _ :: _, 0 => c.pos
  | _, o :: os, i + 1 => cutAt o.cursor os i

theorem cutAt_zero (c : Cursor) (os : List Outcome) : cutAt c os 0 = c.pos := by
  cases os <;> rfl

theorem Steps.cutAt_length {fs : List (Cursor → List Outcome)} {c d : Cursor} {os : List Outcome}
    (h : Steps fs c os d) : cutAt c os os.length = d.pos := by
  induction h with
  | nil => rfl
  | cons _ _ ih => exact ih

theorem Steps.length_eq {fs : List (Cursor → List Outcome)} {c d : Cursor} {os : List Outcome}
    (h : Steps fs c os d) : os.length = fs.length := by
  induction h with
  | nil => rfl
  | cons _ _ ih => rw [List.length_cons, List.length_cons, ih]

end Outcome

namespace Loop

variable (l : Loop) (body : Cursor → List Outcome)

/-! ## Loops without a bound -/

theorem counts_iff {count : Nat} {c d : Cursor} :
    l.counts count c d = true ↔ d.left < c.left ∨ d.left = c.left ∧ count < l.bounds.min := by
  simp only [counts, Bool.or_eq_true, Bool.and_eq_true, decide_eq_true_eq, beq_iff_eq]

/-- An iteration that counts uses up some of the budget. -/
theorem budget_lt_of_counts {count : Nat} {c d : Cursor} (h : l.counts count c d = true) :
    l.budget (count + 1) d.left < l.budget count c.left := by
  rw [counts_iff] at h
  unfold budget
  omega

/-- The outcomes of going round once, or leaving, given those of going on after
the iteration. -/
def round (again : Nat → Cursor → List Outcome) (count : Nat) (c : Cursor) : List Outcome :=
  if l.bounds.isFull count then [.here c]
  else
    ((body c).flatMap fun o =>
      if l.counts count c o.cursor then
        (again (count + 1) o.cursor).map (.after (l.entry o.records))
      else []) ++
    if l.bounds.min ≤ count then [.here c] else []

/-- What comes after an iteration that does not count is never looked at. -/
theorem round_congr {again again' : Nat → Cursor → List Outcome} {count : Nat} {c : Cursor}
    (h : ∀ d, l.counts count c d = true → again (count + 1) d = again' (count + 1) d) :
    l.round body again count c = l.round body again' count c := by
  have hrest : ∀ o ∈ body c,
      (if l.counts count c o.cursor then
        (again (count + 1) o.cursor).map (Outcome.after (l.entry o.records)) else []) =
      if l.counts count c o.cursor then
        (again' (count + 1) o.cursor).map (Outcome.after (l.entry o.records)) else [] := by
    intro o _
    split
    · rename_i hcounts
      rw [h o.cursor hcounts]
    · rfl
  rw [round, List.flatMap_def, List.map_congr_left hrest, ← List.flatMap_def, round]

/-- An outcome of going round once leaves the loop here, or goes on after an
iteration that counts. -/
theorem mem_round {again : Nat → Cursor → List Outcome} {count : Nat} {c : Cursor}
    {o : Outcome} :
    o ∈ l.round body again count c ↔
      (o = .here c ∧ (l.bounds.isFull count = true ∨ l.bounds.min ≤ count)) ∨
      (l.bounds.isFull count = false ∧ ∃ first ∈ body c, l.counts count c first.cursor = true ∧
        ∃ rest ∈ again (count + 1) first.cursor, o = .after (l.entry first.records) rest) := by
  have hstay : ∀ first : Outcome, o ∈ (if l.counts count c first.cursor then
      (again (count + 1) first.cursor).map (Outcome.after (l.entry first.records)) else []) ↔
      l.counts count c first.cursor = true ∧
        ∃ rest ∈ again (count + 1) first.cursor, o = .after (l.entry first.records) rest := by
    intro first
    split
    · rename_i hcounts
      simp only [List.mem_map, hcounts, true_and, eq_comm]
    · rename_i hcounts
      simp only [List.not_mem_nil, hcounts, Bool.false_eq_true, false_and]
  have hleave : o ∈ (if l.bounds.min ≤ count then [Outcome.here c] else []) ↔
      o = .here c ∧ l.bounds.min ≤ count := by
    split
    · rename_i hmin
      simp only [List.mem_singleton, hmin, and_true]
    · rename_i hmin
      simp only [List.not_mem_nil, hmin, and_false]
  rw [round]
  cases l.bounds.isFull count with
  | true => simp
  | false =>
    simp only [Bool.false_eq_true, if_false, List.mem_append, List.mem_flatMap, hstay, hleave,
      false_or, true_and]
    exact Or.comm

/-- Going round once, with a bound on the number of iterations that is large
enough. -/
theorem outcomes_eq_round {m count : Nat} {c : Cursor} (hm : l.budget count c.left ≤ m) :
    l.outcomes body m count c = l.round body (l.outcomes body (m - 1)) count c := by
  cases m with
  | succ m => rfl
  | zero =>
    -- nothing is left that an iteration could consume, and none is required
    have hnone : ∀ d, l.counts count c d = true →
        l.outcomes body (0 - 1) (count + 1) d = [] := by
      intro d hcounts
      have hlt := l.budget_lt_of_counts hcounts
      omega
    have hcongr : l.round body (l.outcomes body (0 - 1)) count c =
        l.round body (fun _ _ => []) count c := l.round_congr body hnone
    rw [hcongr, round, outcomes]
    cases l.bounds.isFull count with
    | true => rfl
    | false => simp

/-- The bound does not matter, as long as it is large enough. -/
theorem outcomes_eq_of_budget_le {m m' count : Nat} {c : Cursor}
    (hm : l.budget count c.left ≤ m) (hm' : l.budget count c.left ≤ m') :
    l.outcomes body m count c = l.outcomes body m' count c := by
  induction m generalizing m' count c with
  | zero =>
    rw [outcomes_eq_round l body hm, outcomes_eq_round l body hm']
    refine round_congr l body fun d hcounts => ?_
    have hlt := l.budget_lt_of_counts hcounts
    omega
  | succ m ih =>
    rw [outcomes_eq_round l body hm, outcomes_eq_round l body hm']
    refine round_congr l body fun d hcounts => ?_
    have hlt := l.budget_lt_of_counts hcounts
    exact ih (by omega) (by omega)

/-- The outcomes of a loop after `count` iterations, however many more there
are. -/
def rounds (count : Nat) (c : Cursor) : List Outcome :=
  l.outcomes body (l.budget count c.left) count c

/-- **A loop goes round once more, or is left.** -/
theorem rounds_eq (count : Nat) (c : Cursor) :
    l.rounds body count c = l.round body (l.rounds body) count c := by
  rw [rounds, outcomes_eq_round l body (Nat.le_refl _)]
  refine round_congr l body fun d hcounts => ?_
  have hlt := l.budget_lt_of_counts hcounts
  exact outcomes_eq_of_budget_le l body (Nat.le_sub_one_of_lt hlt) (Nat.le_refl _)

/-- **The iterations of an outcome of a loop.**  They are a chain of outcomes of
the body, each leaving an entry.  There are as many of them as the bounds allow, and
those that were not required consumed something. -/
theorem exists_steps {count : Nat} {c : Cursor} {o : Outcome} (h : o ∈ l.rounds body count c) :
    ∃ os, Outcome.Steps (List.replicate os.length body) c os o.cursor ∧
      o.records = os.flatMap (fun i => l.entry i.records) ∧
      (∀ max ∈ l.bounds.max, count ≤ max → count + os.length ≤ max) ∧
      ((∀ max ∈ l.bounds.max, l.bounds.min ≤ max) → l.bounds.min ≤ count + os.length) ∧
      o.cursor.left ≤ c.left ∧
      count + os.length ≤ max count l.bounds.min + (c.left - o.cursor.left) := by
  -- by induction on the budget, which every iteration uses up some of
  induction hb : l.budget count c.left using Nat.strongRecOn generalizing count c o with
  | ind b ih =>
    rw [rounds_eq, mem_round] at h
    rcases h with ⟨rfl, hleave⟩ | ⟨hfull, first, hfirst, hcounts, rest, hrest, rfl⟩
    · refine ⟨[], .nil c, rfl, fun max _ hle => hle, fun hroom => ?_, Nat.le_refl _, ?_⟩
      · rcases hleave with hfull | hmin
        · obtain ⟨max, hmax, hle⟩ := l.bounds.isFull_iff.mp hfull
          exact Nat.le_trans (hroom max hmax) hle
        · exact hmin
      · exact Nat.le_add_right_of_le (Nat.le_max_left count l.bounds.min)
    · obtain ⟨os, hsteps, hrecords, hupper, hlower, hleft, hfew⟩ :=
        ih _ (hb ▸ l.budget_lt_of_counts hcounts) hrest rfl
      rw [counts_iff] at hcounts
      refine ⟨first :: os, .cons hfirst hsteps, ?_, fun max hmax _ => ?_, fun hroom => ?_, ?_, ?_⟩
      · rw [Outcome.after_records, hrecords, List.flatMap_cons]
      · have hlt : count < max := by
          refine Nat.lt_of_not_le fun hle => ?_
          rw [l.bounds.isFull_iff.mpr ⟨max, hmax, hle⟩] at hfull
          cases hfull
        have hrest := hupper max hmax hlt
        rw [List.length_cons]
        omega
      · have hrest := hlower hroom
        rw [List.length_cons]
        omega
      · rw [Outcome.after_cursor]
        omega
      · rw [List.length_cons, Outcome.after_cursor]
        omega

/-- The iterations of an outcome of a whole loop. -/
theorem exists_iterations (hroom : ∀ max ∈ l.bounds.max, l.bounds.min ≤ max) {c : Cursor}
    {o : Outcome} (h : o ∈ l.rounds body 0 c) :
    ∃ os, Outcome.Steps (List.replicate os.length body) c os o.cursor ∧
      o.records = os.flatMap (fun i => l.entry i.records) ∧ l.bounds.Allow os.length ∧
      os.length ≤ l.bounds.min + (c.left - o.cursor.left) := by
  obtain ⟨os, hsteps, hrecords, hupper, hlower, -, hfew⟩ := l.exists_steps body h
  rw [Nat.zero_add] at hlower hfew
  rw [Nat.zero_max] at hfew
  refine ⟨os, hsteps, hrecords, ⟨hlower hroom, fun max hmax => ?_⟩, hfew⟩
  have hle := hupper max hmax (Nat.zero_le max)
  rwa [Nat.zero_add] at hle

end Loop

namespace Located

/-! ## The outcomes of each kind of node -/

variable {p q : Located}

theorem outcomes_literal (hk : p.kind = .literal) (c : Cursor) :
    p.outcomes c = (c.match? p.label.literal).toList.map .here := by
  rw [outcomes_eq, nodeOutcomes, hk]

/-- The first child alone, where a node has only one. -/
theorem inSequence_body (hc : p.children = [q]) :
    Outcome.inSequence ((p.children.map outcomes).take 1) = q.outcomes := by
  funext c
  rw [hc]
  exact Outcome.inSequence_singleton q.outcomes c

theorem outcomes_capture (hk : p.kind = .capture) (hc : p.children = [q]) (c : Cursor) :
    p.outcomes c = (q.outcomes c).map fun o =>
      ⟨o.cursor, o.records ++ [.span p.id ⟨c.pos, o.cursor.pos⟩]⟩ := by
  rw [outcomes_eq, nodeOutcomes, hk, ← inSequence_body hc]

theorem outcomes_group (hk : p.kind = .group) (hc : p.children = [q]) :
    p.outcomes = q.outcomes := by
  funext c
  rw [outcomes_eq, nodeOutcomes, hk, ← inSequence_body hc]

theorem outcomes_concat (hk : p.kind = .concat) :
    p.outcomes = Outcome.inSequence (p.children.map outcomes) := by
  funext c
  rw [outcomes_eq, nodeOutcomes, hk]

/-- What taking branch `i` leaves in the frame. -/
def mark (p : Located) (i : Nat) : Trace :=
  if p.hasCapture then [.choice p.id i] else []

theorem eq_choice_of_mem_mark {i : Nat} {r : Record} (h : r ∈ p.mark i) : r = .choice p.id i := by
  rw [mark] at h
  split at h
  · exact List.mem_singleton.mp h
  · exact absurd h List.not_mem_nil

theorem outcomes_alternation (hk : p.kind = .alternation) (hc : p.children ≠ []) (c : Cursor) :
    p.outcomes c = p.children.zipIdx.flatMap fun b =>
      (outcomes b.1 c).map (.after (p.mark b.2)) := by
  have hne : (p.children.map outcomes).isEmpty = false := by simpa using hc
  rw [outcomes_eq, nodeOutcomes, hk]
  simp only [hne, Bool.false_eq_true, if_false, List.zipIdx_map, List.flatMap_map]
  rfl

theorem outcomes_quantifier (hk : p.kind = .quantifier) (hc : p.children = [q]) :
    p.outcomes = (Loop.ofNode p).rounds q.outcomes 0 := by
  funext c
  rw [outcomes_eq, nodeOutcomes, hk, ← inSequence_body hc]
  rfl

/-- An outcome of an alternation is one of a branch, with the branch put down in
front. -/
theorem mem_outcomes_alternation (hk : p.kind = .alternation) (hc : p.children ≠ []) {c : Cursor}
    {o : Outcome} : o ∈ p.outcomes c ↔
      ∃ i b, p.children[i]? = some b ∧ ∃ o' ∈ outcomes b c, o = .after (p.mark i) o' := by
  rw [outcomes_alternation hk hc, List.mem_flatMap]
  constructor
  · rintro ⟨⟨b, i⟩, hb, ho⟩
    obtain ⟨o', ho', rfl⟩ := List.mem_map.mp ho
    exact ⟨i, b, List.mem_zipIdx_iff_getElem?.mp hb, o', ho', rfl⟩
  · rintro ⟨i, b, hb, o', ho', rfl⟩
    exact ⟨(b, i), List.mem_zipIdx_iff_getElem?.mpr hb, List.mem_map.mpr ⟨o', ho', rfl⟩⟩

/-! ### Loops -/

theorem ofNode_bounds (q : Located) : (Loop.ofNode q).bounds = q.bounds := rfl

/-- Iterations get a frame where there is a capture to record. -/
theorem ofNode_entry (hc : p.children = [q]) (t : Trace) :
    (Loop.ofNode p).entry t = if q.hasCapture then [.iteration p.id t] else t := by
  have hbody : p.body = some q := by rw [body, hc, List.head?_cons]
  rw [Loop.entry, Loop.ofNode, hbody]
  rfl

end Located

end CaptureTree
