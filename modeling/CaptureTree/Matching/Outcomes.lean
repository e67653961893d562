import CaptureTree.Matching.Search

/-!
# Outcomes in order of preference

What a pattern can match at a place in the input is described here without a
search: `Located.outcomes` lists all ways to match, each with the place where it
ends and with what it records, the preferred ones first.

* A literal has one outcome or none.
* A sequence goes through the outcomes of its first part, and for each of them
  through those of the rest.
* An alternation has the outcomes of its first branch, then those of the second,
  and so on.
* A loop has, for every outcome of one more iteration that counts, the outcomes
  of going on from there; after these comes the outcome of leaving it, unless
  iterations are still required.

The search of `Attempt.first` finds the first acceptable outcome.  The reason is
that it treats a list of attempts as a list of alternatives (`first_append`), so
that an attempt may be replaced by any attempts with the same first success.
`first_visit` says that visiting a node comes to the same as taking its outcomes
one by one, and `matchFrom?_eq_find?` reads this for a whole pattern.
-/

namespace CaptureTree

/-- One way to match: the place behind it, and what it records in the current
frame, in order. -/
structure Outcome where
  cursor : Cursor
  records : Trace

namespace Outcome

/-- Nothing is consumed and nothing recorded. -/
def here (c : Cursor) : Outcome := ⟨c, []⟩

/-- The outcome with records made before it. -/
def after (records : Trace) (o : Outcome) : Outcome := ⟨o.cursor, records ++ o.records⟩

/-- The outcomes of doing one thing after another. -/
def inSequence : List (Cursor → List Outcome) → Cursor → List Outcome
  | [], c => [here c]
  | f :: fs, c => (f c).flatMap fun o => (inSequence fs o.cursor).map (after o.records)

end Outcome

namespace Loop

/-- What an iteration leaves in the frame around it. -/
def entry (l : Loop) (frame : Trace) : Trace :=
  if l.framed then [.iteration l.quantifier frame] else frame

/-- Does an iteration from `c` to `d` count, after `count` others?  It does if it
consumed something, or was still required. -/
def counts (l : Loop) (count : Nat) (c d : Cursor) : Bool :=
  d.left < c.left || d.left == c.left && count < l.bounds.min

/-- The outcomes of a loop after `count` iterations; there are at most `m` more
of them. -/
def outcomes (l : Loop) (body : Cursor → List Outcome) : Nat → Nat → Cursor → List Outcome
  | 0, count, c => if l.bounds.isFull count || l.bounds.min ≤ count then [.here c] else []
  | m + 1, count, c =>
    if l.bounds.isFull count then [.here c]
    else
      ((body c).flatMap fun o =>
        if l.counts count c o.cursor then
          (outcomes l body m (count + 1) o.cursor).map (.after (l.entry o.records))
        else []) ++
      if l.bounds.min ≤ count then [.here c] else []

end Loop

namespace Located

/-- The outcomes of a node, given those of its children. -/
def nodeOutcomes (p : Located) (parts : List (Cursor → List Outcome)) (c : Cursor) :
    List Outcome :=
  match p.kind with
  | .literal => (c.match? p.label.literal).toList.map .here
  | .capture =>
    (Outcome.inSequence (parts.take 1) c).map fun o =>
      ⟨o.cursor, o.records ++ [.span p.id ⟨c.pos, o.cursor.pos⟩]⟩
  | .group => Outcome.inSequence (parts.take 1) c
  | .concat => Outcome.inSequence parts c
  | .alternation =>
    if parts.isEmpty then [.here c]
    else
      parts.zipIdx.flatMap fun branch =>
        (branch.1 c).map (.after (if p.hasCapture then [.choice p.id branch.2] else []))
  | .quantifier =>
    let l := Loop.ofNode p
    l.outcomes (Outcome.inSequence (parts.take 1)) (l.budget 0 c.left) 0 c

/-- **All ways to match**, from a place in the input on, in order of
preference. -/
def outcomes (p : Located) : Cursor → List Outcome :=
  p.fold nodeOutcomes

theorem outcomes_eq (p : Located) : p.outcomes = p.nodeOutcomes (p.children.map outcomes) :=
  Tree.fold_eq _ p

end Located

/-! ## Attempts as alternatives -/

namespace Attempt

variable {accept : Cursor → Bool}

@[simp] theorem first_nil : first accept [] = none := by
  rw [first]

theorem first_done (c : Cursor) (records : List Record) (others : List Attempt) :
    first accept (⟨[], c, records⟩ :: others) =
      if accept c then some ⟨[], c, records⟩ else first accept others := by
  rw [first]

theorem first_task (task : Task) (rest : List Task) (c : Cursor) (records : List Record)
    (others : List Attempt) :
    first accept (⟨task :: rest, c, records⟩ :: others) =
      first accept (step task rest c records ++ others) := by
  rw [first]

/-- **A list of attempts is a list of alternatives.** -/
theorem first_append (as bs : List Attempt) :
    first accept (as ++ bs) = (first accept as).or (first accept bs) := by
  induction as using first.induct accept with
  | case1 => rw [List.nil_append, first_nil, Option.none_or]
  | case2 others c records h => rw [List.cons_append, first_done, first_done, if_pos h, if_pos h,
      Option.some_or]
  | case3 others c records h ih => rw [List.cons_append, first_done, first_done, if_neg h,
      if_neg h, ih]
  | case4 others task rest c records ih => rw [List.cons_append, first_task, first_task,
      ← List.append_assoc, ih]

/-- Doing the first task of an attempt leads to the same success. -/
theorem first_step (task : Task) (rest : List Task) (c : Cursor) (records : List Record) :
    first accept [⟨task :: rest, c, records⟩] = first accept (step task rest c records) := by
  rw [first_task, List.append_nil]

/-- Alternatives may be replaced one by one. -/
theorem first_flatMap_congr {α : Type} {f g : α → List Attempt} (xs : List α)
    (h : ∀ x ∈ xs, first accept (f x) = first accept (g x)) :
    first accept (xs.flatMap f) = first accept (xs.flatMap g) := by
  induction xs with
  | nil => rfl
  | cons x xs ih =>
    rw [List.flatMap_cons, List.flatMap_cons, first_append, first_append,
      h x List.mem_cons_self, ih fun y hy => h y (List.mem_cons_of_mem x hy)]

theorem first_map_eq_flatMap {α : Type} {f : α → Attempt} {g : α → List Attempt} (xs : List α)
    (h : ∀ x ∈ xs, first accept [f x] = first accept (g x)) :
    first accept (xs.map f) = first accept (xs.flatMap g) := by
  rw [List.map_eq_flatMap]
  exact first_flatMap_congr xs h

theorem first_map_congr {α : Type} {f g : α → Attempt} (xs : List α)
    (h : ∀ x ∈ xs, first accept [f x] = first accept [g x]) :
    first accept (xs.map f) = first accept (xs.map g) := by
  rw [first_map_eq_flatMap xs h, ← List.map_eq_flatMap]

/-! ## Outcomes as attempts -/

/-- The attempts that go on after outcomes. -/
def resume (rest : List Task) (records : List Record) (os : List Outcome) : List Attempt :=
  os.map fun o => ⟨rest, o.cursor, o.records.reverse ++ records⟩

theorem resume_append (rest : List Task) (records : List Record) (os os' : List Outcome) :
    resume rest records (os ++ os') = resume rest records os ++ resume rest records os' :=
  List.map_append

theorem resume_flatMap {α : Type} (rest : List Task) (records : List Record) (xs : List α)
    (f : α → List Outcome) :
    resume rest records (xs.flatMap f) = xs.flatMap fun x => resume rest records (f x) :=
  List.map_flatMap

theorem resume_here (rest : List Task) (records : List Record) (c : Cursor) :
    resume rest records [.here c] = [⟨rest, c, records⟩] := rfl

theorem resume_after (rest : List Task) (records : List Record) (made : Trace)
    (os : List Outcome) :
    resume rest records (os.map (.after made)) = resume rest (made.reverse ++ records) os := by
  simp only [resume, List.map_map]
  refine List.map_congr_left fun o _ => ?_
  simp only [Function.comp_apply, Outcome.after, List.reverse_append, List.append_assoc]

/-- Do the tasks `ts` come to the same as taking the outcomes `f` one by one? -/
def Yields (accept : Cursor → Bool) (ts : List Task) (f : Cursor → List Outcome) : Prop :=
  ∀ rest c records,
    first accept [⟨ts ++ rest, c, records⟩] = first accept (resume rest records (f c))

theorem yields_visits {ps : List Located} (h : ∀ p ∈ ps, Yields accept [.visit p] p.outcomes) :
    Yields accept (ps.map .visit) (Outcome.inSequence (ps.map Located.outcomes)) := by
  induction ps with
  | nil => intro rest c records; rfl
  | cons p ps ih =>
    intro rest c records
    have hrest := ih fun q hq => h q (List.mem_cons_of_mem p hq)
    have hp := h p List.mem_cons_self (ps.map .visit ++ rest) c records
    simp only [List.map_cons, List.cons_append, List.nil_append] at hp ⊢
    rw [hp, Outcome.inSequence, resume_flatMap, resume]
    refine first_map_eq_flatMap _ fun o _ => ?_
    rw [hrest, resume_after]

/-- What an iteration that has ended leads to. -/
theorem step_finish (l : Loop) (count : Nat) (rest : List Task) (c d : Cursor)
    (outer frame : List Record) :
    step (.finish l count c.left outer) rest d frame.reverse =
      if l.counts count c d then [⟨.turn l (count + 1) :: rest, d,
        (l.entry frame).reverse ++ outer⟩]
      else [] := by
  simp only [step, Loop.counts, Loop.entry, Bool.or_eq_true, Bool.and_eq_true, decide_eq_true_eq,
    beq_iff_eq, List.reverse_reverse]
  split
  · cases l.framed <;> rfl
  · rfl

/-- One more iteration, and then the rest, comes to the same as the outcomes of
the body that count, each followed by the rest. -/
theorem first_goOn {l : Loop} {body : Cursor → List Outcome}
    (hbody : Yields accept (l.body.toList.map .visit) body) (count : Nat) (rest : List Task)
    (c : Cursor) (records : List Record) :
    first accept [goOn l count rest c records] =
      first accept ((body c).flatMap fun o =>
        if l.counts count c o.cursor then
          [⟨.turn l (count + 1) :: rest, o.cursor, (l.entry o.records).reverse ++ records⟩]
        else []) := by
  rw [goOn, hbody, resume]
  refine first_map_eq_flatMap _ fun o _ => ?_
  rw [first_step, List.append_nil, step_finish]

/-- **Going round a loop** comes to the same as taking its outcomes one by one,
as long as the bound on the number of iterations is large enough. -/
theorem first_turn {l : Loop} {body : Cursor → List Outcome}
    (hbody : Yields accept (l.body.toList.map .visit) body) (rest : List Task) {m count : Nat}
    {c : Cursor} (records : List Record) (hm : l.budget count c.left ≤ m) :
    first accept [⟨.turn l count :: rest, c, records⟩] =
      first accept (resume rest records (l.outcomes body m count c)) := by
  induction m generalizing count c records with
  | zero =>
    -- no iteration is required, and no byte is left that one could consume
    have hnone : first accept [goOn l count rest c records] = none := by
      rw [first_goOn hbody, List.flatMap_eq_nil_iff.mpr, first_nil]
      intro o _
      refine if_neg ?_
      simp only [Loop.budget, Loop.counts, Bool.or_eq_true, Bool.and_eq_true, decide_eq_true_eq,
        beq_iff_eq] at hm ⊢
      omega
    have hmin : l.bounds.min ≤ count := by
      unfold Loop.budget at hm
      omega
    have houts : l.outcomes body 0 count c = [.here c] := by
      rw [Loop.outcomes, decide_eq_true hmin, Bool.or_true, if_pos rfl]
    rw [first_step, step, houts, resume_here]
    split
    · rfl
    · rw [if_neg (Nat.not_lt.mpr hmin), ← List.singleton_append, first_append, hnone,
        Option.none_or]
  | succ m ih =>
    have hgo : first accept [goOn l count rest c records] =
        first accept (resume rest records ((body c).flatMap fun o =>
          if l.counts count c o.cursor then
            (l.outcomes body m (count + 1) o.cursor).map (.after (l.entry o.records))
          else [])) := by
      rw [first_goOn hbody, resume_flatMap]
      refine first_flatMap_congr _ fun o _ => ?_
      split
      · rename_i hcounts
        rw [resume_after]
        refine ih _ ?_
        simp only [Loop.budget, Loop.counts, Bool.or_eq_true, Bool.and_eq_true,
          decide_eq_true_eq, beq_iff_eq] at hm hcounts ⊢
        omega
      · rfl
    rw [first_step, step, Loop.outcomes]
    split
    · rfl
    · rw [resume_append, first_append, ← hgo]
      by_cases hmin : l.bounds.min ≤ count
      · rw [if_neg (Nat.not_lt.mpr hmin), if_pos hmin, ← List.singleton_append, first_append,
          resume_here]
      · rw [if_pos (Nat.lt_of_not_le hmin), if_neg hmin]
        simp [resume]

/-- The body of a node, if it has one. -/
theorem yields_body {p : Located}
    (h : ∀ q ∈ p.children, Yields accept [.visit q] (Located.outcomes q)) :
    Yields accept (p.body.toList.map .visit)
      (Outcome.inSequence ((p.children.map Located.outcomes).take 1)) := by
  have hbody : p.body.toList = p.children.take 1 := by
    unfold Located.body
    cases p.children <;> rfl
  rw [hbody, ← List.map_take]
  exact yields_visits fun q hq => h q (List.mem_of_mem_take hq)

/-- **Visiting a node** comes to the same as taking its outcomes one by one. -/
theorem first_visit (p : Located) : Yields accept [.visit p] p.outcomes := by
  induction p using Located.induction with
  | node p ih =>
    have hbody := yields_body ih
    intro rest c records
    rw [List.singleton_append, first_step, step, visit, Located.outcomes_eq, Located.nodeOutcomes]
    cases p.kind with
    | literal =>
      simp only
      rw [resume, List.map_map]
      rfl
    | capture =>
      simp only
      rw [hbody, resume, resume, List.map_map]
      refine first_map_congr _ fun o _ => ?_
      rw [first_step, step]
      simp only [Function.comp_apply, List.reverse_append, List.reverse_cons, List.reverse_nil,
        List.nil_append, List.cons_append]
    | group => exact hbody rest c records
    | concat => exact yields_visits ih rest c records
    | alternation =>
      simp only [List.isEmpty_map]
      split
      · rfl
      · rw [resume_flatMap, List.zipIdx_map, List.flatMap_map]
        refine first_map_eq_flatMap _ fun branch hbranch => ?_
        have hbranch := ih branch.1 (List.fst_mem_of_mem_zipIdx hbranch)
        refine (hbranch rest c _).trans ?_
        rw [resume_after]
        cases p.hasCapture <;> rfl
    | quantifier =>
      simp only
      exact first_turn hbody rest records (Nat.le_refl _)

/-- Among attempts with nothing left to do the first acceptable one succeeds. -/
theorem first_resume_nil (os : List Outcome) :
    first accept (resume [] [] os) =
      (os.find? fun o => accept o.cursor).map fun o => ⟨[], o.cursor, o.records.reverse⟩ := by
  induction os with
  | nil => rw [resume, List.map_nil, first_nil, List.find?_nil, Option.map_none]
  | cons o os ih =>
    rw [resume, List.map_cons, first_done, List.append_nil, List.find?_cons]
    cases accept o.cursor with
    | true => rfl
    | false => exact ih

end Attempt

namespace Located

/-- **The search finds the first acceptable outcome.** -/
theorem matchFrom?_eq_find? (p : Located) (accept : Cursor → Bool) (c : Cursor) :
    p.matchFrom? accept c =
      ((p.outcomes c).find? fun o => accept o.cursor).map fun o =>
        (⟨c.pos, o.cursor.pos⟩, o.records) := by
  have hvisit : Attempt.first accept [⟨[.visit p], c, []⟩] = _ := Attempt.first_visit p [] c []
  rw [matchFrom?, hvisit, Attempt.first_resume_nil, Option.map_map]
  simp only [Function.comp_def, List.reverse_reverse]

end Located

end CaptureTree
