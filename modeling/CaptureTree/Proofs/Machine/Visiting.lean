import CaptureTree.Proofs.Ancestors
import CaptureTree.Proofs.Machine.Layout
import CaptureTree.Proofs.Machine.Threads
import CaptureTree.Proofs.Matching.Records

/-!
# The outcomes that a machine goes through

A machine that follows a thread through the instructions of a node comes to the end of them with
the first outcome of the node, and, whenever what follows fails, with the next one.  So the thread
before the instructions may be replaced by a list of threads behind them, one for each outcome.

`Finds` says which thread a list of threads comes to in the end, and `Comes` that one list may be
replaced by another, whatever else there is to go back to.  The main statement,
`Located.WellFormed.visits`, is proved from the inside out: a node comes to its outcomes if its
children come to theirs.  For loops there is a second induction inside, on the budget
(`comes_test`).

On the way it is also seen that counters agree with frames.  The loops that are open are those of
the quantifiers around the node of the next instruction.  `Counted` states of all of them that one
whose rounds get frames has counted the rounds that stand before the one that is open, and that
each of these frames belongs to one of these loops.  `Scene.Tallied` adds what is right in between:
at a test the counter is the number of iterations in the innermost frame.
-/

namespace CaptureTree

namespace Machine

/-! ## Counters -/

/-- **Are the rounds of the open loops counted right?**  All of them are inside a round.  Where
rounds get frames, the frame around holds as many iterations besides. -/
inductive Counted : List (Located × OpenLoop) → OpenFrames → Prop
  | outside : Counted [] []
  | silent {q : Located} {l : OpenLoop} {loops : List (Located × OpenLoop)} {around : OpenFrames}
      (capture : q.hasCapture = false) (outer : Counted loops around) :
      Counted ((q, l) :: loops) around
  | framed {q : Located} {l : OpenLoop} {loops : List (Located × OpenLoop)} {around : OpenFrames}
      {t : Trace} (capture : q.hasCapture = true) (count : (t.iterations q.id).length = l.count)
      (outer : Counted loops around) : Counted ((q, l) :: loops) ((t, q.id) :: around)

/-- The quantifiers around a node of a pattern, the innermost one first. -/
def enclosing (whole p : Located) : List Located := (whole.quantifiersAround p.id).reverse

namespace Scene

/-- **Is this a scene around a node?**  The loops of the quantifiers around it are open, and they
are counted right. -/
def Surrounds (a : Scene) (whole p : Located) : Prop :=
  a.loops.map Prod.fst = enclosing whole p ∧ Counted a.loops a.around

/-- Is the loop of this quantifier open and between two rounds, and counted right? -/
def Between (a : Scene) (whole q : Located) : Prop :=
  ∃ b l, a = loop b q l ∧ (q.hasCapture = true → (b.records.iterations q.id).length = l.count) ∧
    b.Surrounds whole q

/-- **Are the right loops open where an instruction is next, and counted right?** -/
def Tallied (a : Scene) (whole : Located) : Op → Prop
  | .test q _ => a.Between whole q
  | .beginRound q _ => a.Between whole q
  | .closeLoop q => a.Between whole q
  | .endRound q _ _ => a.loops.map Prod.fst = q :: enclosing whole q ∧ Counted a.loops a.around
  | .text p => a.Surrounds whole p
  | .byteClass p => a.Surrounds whole p
  | .openCapture p => a.Surrounds whole p
  | .closeCapture p => a.Surrounds whole p
  | .branch p _ _ _ => a.Surrounds whole p
  | .jump p _ => a.Surrounds whole p
  | .openLoop p => a.Surrounds whole p
  | .accept => a.loops = [] ∧ Counted a.loops a.around

/-- What is around a node that is no quantifier is around its children as well. -/
theorem Surrounds.child {a : Scene} {whole p q : Located} (h : a.Surrounds whole p)
    (hd : whole.Distinct) (hp : p ∈ whole.subtrees) (hk : p.kind ≠ .quantifier)
    (hq : q ∈ p.children) : a.Surrounds whole q := by
  refine ⟨?_, h.2⟩
  rw [enclosing, hd.quantifiersAround_child hp hq, if_neg hk, List.append_nil]
  exact h.1

/-- Is a node with captures new to the innermost frame? -/
def Fresh (a : Scene) (p : Located) : Prop := p.hasCapture = true → a.records.touches p = false

theorem Fresh.child {a : Scene} {p q : Located} (h : a.Fresh p) (hq : q ∈ p.children) :
    a.Fresh q := fun hcap =>
  Trace.touches_eq_false_of_mem_subtrees (h (Located.hasCapture_of_mem_children hq hcap))
    (Located.mem_subtrees_of_mem_children hq)

theorem Fresh.add {a : Scene} {p : Located} {t : Trace} (h : a.Fresh p)
    (ht : Trace.touches t p = false) : (a.add t).Fresh p := by
  intro hcap
  rw [Scene.add, Trace.touches_append, h hcap, ht]
  rfl

theorem iterations_add (a : Scene) {q : Located} {p : Located} (hc : q.children = [p])
    (hcap : p.hasCapture = true) (t : Trace) :
    ((a.add ((Loop.ofNode q).entry t)).records.iterations q.id).length =
      (a.records.iterations q.id).length + 1 := by
  rw [Located.ofNode_entry hc, if_pos hcap, Scene.add, Trace.iterations_append,
    Trace.iterations_iteration, if_pos rfl, List.length_append]
  rfl

end Scene

/-! ## Following threads -/

section

variable {code : Code} {anchored : Bool} {whole : Located}

/-- **What a list of threads comes to**: the first thread that reaches the end of the instructions
and is accepted there, if there is one.  On the way all loops are counted right. -/
inductive Finds (code : Code) (anchored : Bool) (whole : Located) :
    List Thread → Option Thread → Prop
  | exhausted : Finds code anchored whole [] none
  | accepted {σ : Thread} {rest : List Thread} (next : code[σ.pc]? = some .accept)
      (reached : anchored = true → σ.cursor.left = 0) (tallied : σ.scene.Tallied whole .accept) :
      Finds code anchored whole (σ :: rest) (some σ)
  | step {op : Op} {σ : Thread} {σs rest : List Thread} {found : Option Thread}
      (next : code[σ.pc]? = some op) (leads : Leads anchored op σ σs)
      (tallied : σ.scene.Tallied whole op) (after : Finds code anchored whole (σs ++ rest) found) :
      Finds code anchored whole (σ :: rest) found

/-- What there is to go back to may be replaced by what comes to the same. -/
theorem Finds.replace {xs ys zs : List Thread} {found : Option Thread}
    (h : Finds code anchored whole (xs ++ ys) found)
    (hys : ∀ found, Finds code anchored whole ys found → Finds code anchored whole zs found) :
    Finds code anchored whole (xs ++ zs) found := by
  -- while the threads in front last, the same steps are made
  generalize hthreads : xs ++ ys = threads at h
  induction h generalizing xs with
  | exhausted =>
    obtain ⟨rfl, rfl⟩ := List.append_eq_nil_iff.mp hthreads
    exact hys none .exhausted
  | @accepted σ rest hop hreached htallied =>
    cases xs with
    | nil =>
      obtain rfl : ys = σ :: rest := hthreads
      exact hys _ (.accepted hop hreached htallied)
    | cons x xs =>
      obtain ⟨rfl, -⟩ := List.cons.inj hthreads
      exact .accepted hop hreached htallied
  | @step op σ σs rest found hop hleads htallied hnext ih =>
    cases xs with
    | nil =>
      obtain rfl : ys = σ :: rest := hthreads
      exact hys _ (.step hop hleads htallied hnext)
    | cons x xs =>
      obtain ⟨rfl, rfl⟩ := List.cons.inj hthreads
      have hsame := ih (List.append_assoc σs xs ys)
      rw [List.append_assoc] at hsame
      exact .step hop hleads htallied hsame

/-- **May these threads be replaced by those**, whatever else there is to go back to? -/
def Comes (code : Code) (anchored : Bool) (whole : Located) (xs ys : List Thread) : Prop :=
  ∀ rest found, Finds code anchored whole (ys ++ rest) found →
    Finds code anchored whole (xs ++ rest) found

namespace Comes

variable {xs ys zs xs' ys' : List Thread}

theorem refl (xs : List Thread) : Comes code anchored whole xs xs := fun _ _ h => h

theorem trans (h : Comes code anchored whole xs ys) (h' : Comes code anchored whole ys zs) :
    Comes code anchored whole xs zs := fun rest found hzs => h rest found (h' rest found hzs)

theorem append (h : Comes code anchored whole xs ys) (h' : Comes code anchored whole xs' ys') :
    Comes code anchored whole (xs ++ xs') (ys ++ ys') := by
  intro rest found hys
  rw [List.append_assoc] at hys ⊢
  exact (h _ _ hys).replace (h' rest)

theorem cons {σ : Thread} (h : Comes code anchored whole [σ] ys)
    (h' : Comes code anchored whole xs' ys') :
    Comes code anchored whole (σ :: xs') (ys ++ ys') := h.append h'

theorem flatMap {α : Type} {f g : α → List Thread} {as : List α}
    (h : ∀ a ∈ as, Comes code anchored whole (f a) (g a)) :
    Comes code anchored whole (as.flatMap f) (as.flatMap g) := by
  induction as with
  | nil => exact refl []
  | cons a as ih =>
    rw [List.flatMap_cons, List.flatMap_cons]
    obtain ⟨ha, has⟩ := List.forall_mem_cons.mp h
    exact ha.append (ih has)

/-- An instruction is performed. -/
theorem step {op : Op} {σ : Thread} {σs : List Thread} (hop : code[σ.pc]? = some op)
    (hleads : Leads anchored op σ σs) (htallied : σ.scene.Tallied whole op) :
    Comes code anchored whole [σ] σs := fun _ _ h => .step hop hleads htallied h

end Comes

/-! ## Outcomes as threads -/

/-- The threads that go on at a place after some outcomes. -/
def resume (pc : Nat) (a : Scene) (os : List Outcome) : List Thread :=
  os.map fun o => ⟨pc, o.cursor, a.add o.records⟩

theorem resume_here (pc : Nat) (a : Scene) (c : Cursor) :
    resume pc a [.here c] = [⟨pc, c, a⟩] := by
  rw [resume, List.map_singleton, Outcome.here_records, Scene.add_nil, Outcome.here_cursor]

theorem resume_after (pc : Nat) (a : Scene) (t : Trace) (os : List Outcome) :
    resume pc a (os.map (.after t)) = resume pc (a.add t) os := by
  simp only [resume, List.map_map]
  refine List.map_congr_left fun o _ => ?_
  rw [Function.comp_apply, Outcome.after_cursor, Outcome.after_records, Scene.add_add]

/-- Outcomes may be gone on from one by one. -/
theorem comes_resume {pc : Nat} {a : Scene} {os : List Outcome} {f : Outcome → List Thread}
    (h : ∀ o ∈ os, Comes code anchored whole [⟨pc, o.cursor, a.add o.records⟩] (f o)) :
    Comes code anchored whole (resume pc a os) (os.flatMap f) := by
  rw [resume, List.map_eq_flatMap]
  exact .flatMap h

/-- Each of them may be gone on from by one thread. -/
theorem comes_resume_map {pc : Nat} {a : Scene} {os : List Outcome} {f : Outcome → Thread}
    (h : ∀ o ∈ os, Comes code anchored whole [⟨pc, o.cursor, a.add o.records⟩] [f o]) :
    Comes code anchored whole (resume pc a os) (os.map f) := by
  rw [List.map_eq_flatMap]
  exact comes_resume h

theorem resume_append (pc : Nat) (a : Scene) (os os' : List Outcome) :
    resume pc a (os ++ os') = resume pc a os ++ resume pc a os' :=
  List.map_append

theorem resume_flatMap {α : Type} (pc : Nat) (a : Scene) (f : α → List Outcome) (as : List α) :
    resume pc a (as.flatMap f) = as.flatMap fun x => resume pc a (f x) :=
  List.map_flatMap

/-- **Does the code of a node come to its outcomes?** -/
def Visits (code : Code) (anchored : Bool) (whole p : Located) : Prop :=
  ∀ place c a, code.Holds place (p.code place) → c.Coherent → a.Surrounds whole p →
    a.Fresh p → Comes code anchored whole [⟨place, c, a⟩]
      (resume (place + (p.code place).length) a (p.outcomes c))

/-! ## Nodes without a loop -/

variable {p q : Located}

theorem visits_literal (hk : p.kind = .literal) : Visits code anchored whole p := by
  intro place c a hholds hc haround hfresh
  rw [Located.code_literal hk] at hholds ⊢
  have hleads : Leads anchored _ ⟨place, c, a⟩ _ := .literal p place c a
  rw [Located.outcomes_literal hk]
  have hresume : resume (place + 1) a ((c.match? p.label.literal).toList.map .here) =
      (c.match? p.label.literal).toList.map fun d => ⟨place + 1, d, a⟩ := by
    rw [resume, List.map_map]
    refine List.map_congr_left fun d _ => ?_
    rw [Function.comp_apply, Outcome.here_records, Scene.add_nil, Outcome.here_cursor]
  rw [List.length_singleton, hresume]
  refine .step hholds.head hleads ?_
  cases p.label.literal.isClass <;> exact haround

theorem Visits.capture (hq : Visits code anchored whole q) (hd : whole.Distinct)
    (hp : p ∈ whole.subtrees) (hk : p.kind = .capture) (hc : p.children = [q]) :
    Visits code anchored whole p := by
  intro place c a hholds hcoherent haround hfresh
  have hmem := Located.mem_children_of_eq hc
  rw [Located.code_capture hk hc] at hholds ⊢
  have hopen : Comes code anchored whole [⟨place, c, a⟩] [⟨place + 1, c, a.capture c.pos⟩] :=
    .step hholds.head (.openCapture p place c a) haround
  have hinside := hq (place + 1) c (a.capture c.pos) hholds.tail.left hcoherent
    (haround.child hd hp (by rw [hk]; decide) hmem) (hfresh.child hmem)
  refine hopen.trans (hinside.trans ?_)
  rw [Located.outcomes_capture hk hc, resume.eq_def _ a, List.map_map]
  refine comes_resume_map fun o _ => ?_
  have hclose : Leads anchored _ _ _ := .closeCapture p c.pos
    (place + 1 + (q.code (place + 1)).length) o.cursor (a.add o.records)
  rw [Scene.add_add] at hclose
  refine (Comes.step hholds.tail.right.head hclose haround).trans ?_
  rw [Function.comp_apply, List.length_cons, List.length_append, List.length_singleton]
  have hend : place + 1 + (q.code (place + 1)).length + 1 =
      place + ((q.code (place + 1)).length + 1 + 1) := by omega
  rw [hend]
  exact .refl _

theorem comes_inSequence {qs : List Located} (h : ∀ q ∈ qs, Visits code anchored whole q)
    (hdisjoint : qs.Pairwise fun q q' : Located => List.Disjoint q.ids q'.ids)
    (hwell : ∀ q ∈ qs, Located.WellFormed q) (hdistinct : ∀ q ∈ qs, Located.Distinct q)
    {place : Nat} {c : Cursor} {a : Scene}
    (hholds : code.Holds place (Block.inSequence (qs.map Located.code) place))
    (hc : c.Coherent) (haround : ∀ q ∈ qs, a.Surrounds whole q) (hfresh : ∀ q ∈ qs, a.Fresh q) :
    Comes code anchored whole [⟨place, c, a⟩]
      (resume (place + (Block.inSequence (qs.map Located.code) place).length) a
        (Outcome.inSequence (qs.map Located.outcomes) c)) := by
  induction qs generalizing place c a with
  | nil =>
    show Comes code anchored whole _ (resume place a [.here c])
    rw [resume_here]
    exact .refl _
  | cons q qs ih =>
    obtain ⟨hq, hqs⟩ := List.forall_mem_cons.mp h
    obtain ⟨hwellq, hwells⟩ := List.forall_mem_cons.mp hwell
    obtain ⟨hdistinctq, hdistincts⟩ := List.forall_mem_cons.mp hdistinct
    obtain ⟨haroundq, harounds⟩ := List.forall_mem_cons.mp haround
    obtain ⟨hfreshq, hfreshs⟩ := List.forall_mem_cons.mp hfresh
    rw [List.pairwise_cons] at hdisjoint
    rw [List.map_cons, Block.inSequence] at hholds ⊢
    refine (hq place c a hholds.left hc haroundq hfreshq).trans ?_
    rw [List.map_cons, Outcome.inSequence, resume_flatMap, List.length_append, ← Nat.add_assoc]
    refine comes_resume fun o ho => ?_
    rw [resume_after]
    refine ih hqs hdisjoint.2 hwells hdistincts hholds.right
      (hwellq.coherent_cursor hc ho).1 harounds fun q' hq' => ?_
    -- what the first part has recorded is for nodes of its own
    exact (hfreshs q' hq').add (hwellq.untouched hdistinctq hc ho (hdisjoint.1 q' hq'))

theorem comes_branches {qs : List Located} (h : ∀ q ∈ qs, Visits code anchored whole q)
    (hne : qs ≠ []) {finish index place : Nat} {c : Cursor} {a : Scene}
    (hholds : code.Holds place (Block.branches p finish index (qs.map Located.code) place))
    (hc : c.Coherent) (haround : a.Surrounds whole p) (hinside : ∀ q ∈ qs, a.Surrounds whole q)
    (hfresh : ∀ q ∈ qs, ∀ i, (a.add (p.mark i)).Fresh q) :
    Comes code anchored whole [⟨place, c, a⟩]
      (resume finish a ((qs.zipIdx index).flatMap fun b =>
        (Located.outcomes b.1 c).map (.after (p.mark b.2)))) := by
  induction qs generalizing place index with
  | nil => exact absurd rfl hne
  | cons q qs ih =>
    obtain ⟨hq, hqs⟩ := List.forall_mem_cons.mp h
    obtain ⟨hinsideq, hinsides⟩ := List.forall_mem_cons.mp hinside
    obtain ⟨hfreshq, hfreshs⟩ := List.forall_mem_cons.mp hfresh
    rw [List.map_cons, Block.branches] at hholds
    refine (Comes.step hholds.head (.branch p index _ place c a) haround).trans ?_
    rw [List.zipIdx_cons, List.flatMap_cons, resume_append]
    refine Comes.cons ?_ ?_
    · -- every outcome of the branch goes on behind the alternation
      have hbranch := hq (place + 1) c (a.add (p.mark index)) hholds.tail.left hc hinsideq
        (hfreshq index)
      refine hbranch.trans ?_
      rw [resume_after]
      exact comes_resume_map fun o _ =>
        .step hholds.tail.right.head (.jump p finish _ o.cursor _) haround
    · cases qs with
      | nil => exact .refl []
      | cons q' qs =>
        have hnext : place + 1 + (q.code (place + 1)).length + 1 =
            place + (q.code (place + 1)).length + 2 := by omega
        exact ih hqs (List.cons_ne_nil q' qs) (hnext ▸ hholds.tail.right.tail) hinsides
          hfreshs

theorem visits_alternation (h : ∀ q ∈ p.children, Visits code anchored whole q)
    (hd : whole.Distinct) (hp : p ∈ whole.subtrees) (hk : p.kind = .alternation)
    (hne : p.children ≠ []) : Visits code anchored whole p := by
  intro place c a hholds hc haround hfresh
  rw [Located.code_alternation hk] at hholds
  rw [Located.outcomes_alternation hk hne]
  refine comes_branches h hne hholds hc haround
    (fun _ hq => haround.child hd hp (by rw [hk]; decide) hq) fun q hq i =>
      (hfresh.child hq).add ?_
  refine (hd.of_mem_subtrees hp).untouched_child hq fun r hr => ?_
  rw [Located.eq_choice_of_mem_mark hr]
  rfl

/-! ## Loops -/

/-- A round that does not count is one that ends where it began, and is not required. -/
theorem idle_iff (hq : q.WellFormed) (l : Loop) {count : Nat} {c : Cursor} (hc : c.Coherent)
    {o : Outcome} (ho : o ∈ q.outcomes c) :
    (o.cursor.pos = c.pos ∧ l.bounds.min ≤ count) ↔ ¬ l.counts count c o.cursor = true := by
  obtain ⟨n, hn, hcursor⟩ := hq.exists_advance hc ho
  have hpos : o.cursor.pos = c.pos + n := by rw [hcursor]; rfl
  have hleft : o.cursor.left = c.left - n := by rw [hcursor, Cursor.left_advance]
  rw [l.counts_iff]
  omega

variable {place : Nat} {c : Cursor} {a : Scene} {l : OpenLoop}

/-- Inside a round the loop counts among the open ones. -/
theorem counted_round (hc : p.children = [q]) (hcap : p.hasCapture = q.hasCapture)
    (haround : a.Surrounds whole p)
    (hcount : p.hasCapture = true → (a.records.iterations p.id).length = l.count) (start : Nat) :
    ((a.round p).loop p { l with start }).loops.map Prod.fst = p :: enclosing whole p ∧
      Counted ((a.round p).loop p { l with start }).loops
        ((a.round p).loop p { l with start }).around := by
  obtain ⟨hloops, hcounted⟩ := haround
  rw [← hloops, Scene.round, Located.body_eq_some hc, Option.any_some, ← hcap]
  cases hp : p.hasCapture with
  | false => exact ⟨rfl, .silent hp hcounted⟩
  | true => exact ⟨rfl, .framed hp (hcount hp) hcounted⟩

/-- Around the body of a quantifier there is the quantifier, and what is around this. -/
theorem enclosing_body (hd : whole.Distinct) (hp : p ∈ whole.subtrees) (hk : p.kind = .quantifier)
    (hc : p.children = [q]) : enclosing whole q = p :: enclosing whole p := by
  rw [enclosing, hd.quantifiersAround_child hp (Located.mem_children_of_eq hc), if_pos hk,
    List.reverse_append]
  rfl

variable {exit : Nat}

/-- **One more round**: the body comes to its outcomes, and those that count come to the test
again. -/
theorem comes_round (hq : Visits code anchored whole q) (hwell : q.WellFormed)
    (hc : p.children = [q]) (hcap : p.hasCapture = q.hasCapture)
    (hbody : enclosing whole q = p :: enclosing whole p) (hloops : code.Loops p q place exit)
    (hcoherent : c.Coherent) (haround : a.Surrounds whole p)
    (hcount : p.hasCapture = true → (a.records.iterations p.id).length = l.count)
    (hagain : ∀ o ∈ q.outcomes c, (Loop.ofNode p).counts l.count c o.cursor = true →
      Comes code anchored whole
        [⟨place + 1, o.cursor, (a.add ((Loop.ofNode p).entry o.records)).loop p
          { count := l.count + 1, start := c.pos }⟩]
        (resume (exit + 1) (a.add ((Loop.ofNode p).entry o.records))
          ((Loop.ofNode p).rounds q.outcomes (l.count + 1) o.cursor))) :
    Comes code anchored whole [⟨place + 2, c, a.loop p l⟩]
      (resume (exit + 1) a ((q.outcomes c).flatMap fun o =>
        if (Loop.ofNode p).counts l.count c o.cursor then
          ((Loop.ofNode p).rounds q.outcomes (l.count + 1) o.cursor).map
            (.after ((Loop.ofNode p).entry o.records))
        else [])) := by
  have hbegin : Comes code anchored whole [⟨place + 2, c, a.loop p l⟩] _ :=
    .step hloops.beginRound (.beginRound p (place + 2) c a l) ⟨a, l, rfl, hcount, haround⟩
  have hinside := counted_round hc hcap haround hcount c.pos
  have hfresh : ((a.round p).loop p { l with start := c.pos }).Fresh q := by
    intro hq
    rw [Scene.round, Located.body_eq_some hc, Option.any_some, if_pos hq]
    rfl
  refine hbegin.trans ((hq (place + 3) c _ hloops.body hcoherent ⟨?_, hinside.2⟩ hfresh).trans ?_)
  · rw [hbody]
    exact hinside.1
  rw [resume_flatMap]
  refine comes_resume fun o ho => ?_
  have hidle : _ ↔ ¬ (Loop.ofNode p).counts l.count c o.cursor = true :=
    idle_iff hwell (Loop.ofNode p) hcoherent ho
  rw [Located.ofNode_bounds] at hidle
  have hleads : Leads anchored _ _ _ := .endRound p (place + 1)
    (place + 3 + (q.code (place + 3)).length) o.cursor a { l with start := c.pos } o.records
  simp only [hidle] at hleads
  refine (Comes.step hloops.endRound hleads hinside).trans ?_
  by_cases hcounts : (Loop.ofNode p).counts l.count c o.cursor = true
  · rw [if_neg (not_not.mpr hcounts), if_pos hcounts, resume_after]
    exact hagain o ho hcounts
  · rw [if_pos hcounts, if_neg hcounts]
    exact .refl []

/-- **From the test of a loop on**, a machine comes to the outcomes of the rounds that are left. -/
theorem comes_test (hq : Visits code anchored whole q) (hwell : q.WellFormed)
    (hc : p.children = [q]) (hcap : p.hasCapture = q.hasCapture)
    (hbody : enclosing whole q = p :: enclosing whole p) (hloops : code.Loops p q place exit)
    (hcoherent : c.Coherent) (haround : a.Surrounds whole p)
    (hcount : p.hasCapture = true → (a.records.iterations p.id).length = l.count) :
    Comes code anchored whole [⟨place + 1, c, a.loop p l⟩]
      (resume (exit + 1) a ((Loop.ofNode p).rounds q.outcomes l.count c)) := by
  -- by induction on the budget, which every round that counts uses up some of
  induction hb : (Loop.ofNode p).budget l.count c.left using Nat.strongRecOn
    generalizing c a l with
  | ind b ih =>
    have hbetween : (a.loop p l).Between whole p := ⟨a, l, rfl, hcount, haround⟩
    have hleave : Comes code anchored whole [⟨exit, c, a.loop p l⟩]
        (resume (exit + 1) a [.here c]) := by
      rw [resume_here]
      exact .step hloops.closeLoop (.closeLoop p exit c a l) hbetween
    refine (Comes.step hloops.test (.test p exit (place + 1) c a l) hbetween).trans ?_
    rw [Loop.rounds_eq, Loop.round, Located.ofNode_bounds]
    by_cases hfull : p.bounds.isFull l.count = true
    · rw [if_pos hfull, if_pos hfull]
      exact hleave
    · rw [if_neg hfull, if_neg hfull, resume_append]
      refine Comes.cons ?_ ?_
      · refine comes_round hq hwell hc hcap hbody hloops hcoherent haround hcount
          fun o ho hcounts => ?_
        have hlt := (Loop.ofNode p).budget_lt_of_counts hcounts
        refine ih _ (hb ▸ hlt) (hwell.coherent_cursor hcoherent ho).1 haround (fun hp => ?_) rfl
        rw [a.iterations_add hc (hcap ▸ hp), hcount hp]
      · by_cases hmin : p.bounds.min ≤ l.count
        · rw [if_pos hmin, if_pos hmin]
          exact hleave
        · rw [if_neg hmin, if_neg hmin]
          exact .refl []

theorem Visits.quantifier (hq : Visits code anchored whole q) (hwell : q.WellFormed)
    (hd : whole.Distinct) (hp : p ∈ whole.subtrees) (hk : p.kind = .quantifier)
    (hc : p.children = [q]) : Visits code anchored whole p := by
  intro place c a hholds hcoherent haround hfresh
  obtain ⟨exit, hloops, hlength⟩ := hholds.exists_loops hk hc
  have hcap : p.hasCapture = q.hasCapture := Located.hasCapture_body (by rw [hk]; decide) hc
  refine (Comes.step hloops.openLoop (.openLoop p place c a) haround).trans ?_
  rw [Located.outcomes_quantifier hk hc, hlength]
  refine comes_test hq hwell hc hcap (enclosing_body hd hp hk hc) hloops hcoherent haround
    fun hcap => ?_
  have hnone : a.records.iterations p.id = [] := by
    by_contra hsome
    rw [Scene.Fresh, Trace.touches_of_iterations hsome] at hfresh
    cases hfresh hcap
  rw [hnone]
  rfl

/-! ## The whole pattern -/

/-- **The code of a node comes to its outcomes**, wherever the node stands in a pattern. -/
theorem visits (hd : whole.Distinct) (h : p.WellFormed) (hp : p ∈ whole.subtrees) :
    Visits code anchored whole p := by
  have inside {q r : Located} (hq : q ∈ whole.subtrees) (hr : r ∈ q.children) :
      r ∈ whole.subtrees :=
    Tree.mem_subtrees_trans (Located.mem_subtrees_of_mem_children hr) hq
  induction h with
  | literal hk => exact visits_literal hk
  | capture hk hc _ ih =>
    exact (ih (inside hp (Located.mem_children_of_eq hc))).capture hd hp hk hc
  | group hk hc _ ih =>
    intro place c a hholds hcoherent haround hfresh
    have hmem := Located.mem_children_of_eq hc
    rw [Located.code_group hk hc] at hholds ⊢
    rw [Located.outcomes_group hk hc]
    exact ih (inside hp hmem) place c a hholds hcoherent
      (haround.child hd hp (by rw [hk]; decide) hmem) (hfresh.child hmem)
  | concat hk hwell ih =>
    intro place c a hholds hcoherent haround hfresh
    have hdp := hd.of_mem_subtrees hp
    rw [Located.code_concat hk] at hholds ⊢
    rw [Located.outcomes_concat hk]
    exact comes_inSequence (fun q hq => ih q hq (inside hp hq)) hdp.pairwise_children hwell
      (fun _ hq => hdp.child hq) hholds hcoherent
      (fun _ hq => haround.child hd hp (by rw [hk]; decide) hq) fun _ hq => hfresh.child hq
  | alternation hk hne _ ih =>
    exact visits_alternation (fun q hq => ih q hq (inside hp hq)) hd hp hk hne
  | quantifier hk hc _ hwell ih =>
    exact (ih (inside hp (Located.mem_children_of_eq hc))).quantifier hwell hd hp hk hc

end

end Machine

end CaptureTree
