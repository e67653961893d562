import CaptureTree.Proofs.Machine.Visiting
import CaptureTree.Proofs.Matching.Preference
import Mathlib.Logic.Relation

/-!
# What a machine ends with

The steps of a machine are those of its threads (`Machine.Follows.step`), and the threads come to
the outcomes of the pattern (`Machine.visits`).  So a machine stops, and without a fault: at the
first outcome that is accepted, with the records of this outcome in its tables and nothing else, or
with empty tables if there is none (`Machine.exists_run`).  This is read for one place in the input
(`Machine.reports_traceFrom`), for the whole input, and for a search, and both come to what the
search without a machine comes to (`Machine.reports_traceMatch`, `Machine.reports_traceSearch`).

`Machine.keepsCount` says what holds on the way, in every state that a machine comes to.
-/

namespace CaptureTree

open Relation

namespace Machine

variable {code : Code} {anchored : Bool} {whole : Located} {m : Machine} {σ : Thread}
  {rest : List Thread} {found : Option Thread}

/-! ## Runs -/

/-- **Does a run end with this result**, if it is given steps enough?  More steps than it needs make
no difference. -/
def Ends {α : Type} (run : Nat → Option (Except Fault α)) (result : α) : Prop :=
  ∃ least, ∀ steps, least ≤ steps → run steps = some (.ok result)

/-- There is one result only. -/
theorem Ends.unique {α : Type} {run : Nat → Option (Except Fault α)} {x y : α} (h : Ends run x)
    (h' : Ends run y) : x = y := by
  obtain ⟨least, hrun⟩ := h
  obtain ⟨least', hrun'⟩ := h'
  have hx := hrun (max least least') (Nat.le_max_left _ _)
  rw [hrun' _ (Nat.le_max_right _ _), Option.some.injEq, Except.ok.injEq] at hx
  exact hx.symm

theorem ends_of_stopped {finish : Option Cursor} {root : Tables}
    (hstep : m.step code anchored = .ok (.stopped finish root)) :
    Ends (m.run code anchored) (finish, root) := by
  refine ⟨1, fun steps hsteps => ?_⟩
  obtain ⟨steps, rfl⟩ := Nat.exists_eq_add_of_le' hsteps
  rw [run, hstep]

theorem Ends.of_running {m' : Machine} {ending : Option Cursor × Tables}
    (hstep : m.step code anchored = .ok (.running m')) (h : Ends (m'.run code anchored) ending) :
    Ends (m.run code anchored) ending := by
  obtain ⟨least, hrun⟩ := h
  refine ⟨least + 1, fun steps hsteps => ?_⟩
  obtain ⟨steps, rfl⟩ := Nat.exists_eq_add_of_le' (Nat.le_trans (Nat.le_add_left 1 least) hsteps)
  rw [run, hstep]
  exact hrun steps (Nat.le_of_succ_le_succ hsteps)

/-- **A machine stops**, without a fault, at the thread that is found, and has recorded what this
one has recorded.  If none is found, there is nothing left in its tables. -/
theorem exists_run (h : Finds code anchored whole (σ :: rest) found) (hm : m.Follows σ rest) :
    ∃ root, Ends (m.run code anchored) (found.map Thread.cursor, root) ∧
      root.ReadsAs (found.elim [] fun σ => OpenFrames.plug σ.scene.around σ.scene.records) := by
  generalize hthreads : σ :: rest = threads at h
  induction h generalizing m σ rest with
  | exhausted => cases hthreads
  | accepted hop hreached =>
    obtain ⟨rfl, rfl⟩ := List.cons.inj hthreads
    exact ⟨m.state.root, ends_of_stopped (hm.step_accept hop hreached), hm.shows.root⟩
  | @step op σ' σs rest' found hop hleads _ hafter ih =>
    obtain ⟨rfl, rfl⟩ := List.cons.inj hthreads
    obtain ⟨g, hstep, hg⟩ := hm.step hop hleads
    generalize hnext : σs ++ rest = next at hg
    cases hg with
    | running hm' =>
      obtain ⟨root, hends, hroot⟩ := ih hm' hnext.symm
      exact ⟨root, hends.of_running hstep, hroot⟩
    | stopped hroot =>
      rw [hnext] at hafter
      cases hafter
      exact ⟨_, ends_of_stopped hstep, hroot⟩

/-- A machine takes this step. -/
def Goes (code : Code) (anchored : Bool) (m m' : Machine) : Prop :=
  m.step code anchored = .ok (.running m')

/-- **Every state that a machine comes to** is at an instruction, and shows a scene in which the
loops are counted right there. -/
theorem exists_tallied (h : Finds code anchored whole (σ :: rest) found) (hm : m.Follows σ rest)
    {m' : Machine} (hreach : ReflTransGen (Goes code anchored) m m') :
    ∃ op a, code[m'.pc]? = some op ∧ m'.state.Shows a ∧ a.Tallied whole op := by
  generalize hthreads : σ :: rest = threads at h
  induction h generalizing m σ rest with
  | exhausted => cases hthreads
  | accepted hop hreached htallied =>
    obtain ⟨rfl, rfl⟩ := List.cons.inj hthreads
    rcases ReflTransGen.cases_head hreach with rfl | ⟨m₁, hstep, -⟩
    · exact ⟨_, _, hm.pc ▸ hop, hm.shows, htallied⟩
    · rw [Goes, hm.step_accept hop hreached] at hstep
      cases hstep
  | @step op σ' σs rest' found hop hleads htallied _ ih =>
    obtain ⟨rfl, rfl⟩ := List.cons.inj hthreads
    rcases ReflTransGen.cases_head hreach with rfl | ⟨m₁, hstep, hreach⟩
    · exact ⟨_, _, hm.pc ▸ hop, hm.shows, htallied⟩
    · obtain ⟨g, hstep', hg⟩ := hm.step hop hleads
      rw [Goes, hstep', Except.ok.injEq] at hstep
      subst hstep
      generalize hnext : σs ++ rest = next at hg
      cases hg with
      | running hm' => exact ih hm' hreach hnext.symm

/-! ## Counters and frames -/

/-- **Do the counters of the open loops agree with the open frames?**  An open frame belongs to an
open loop, and its number is what this loop has counted; it is the last iteration in the frame
around it.  Loops without a capture have no frames. -/
inductive Tally (root : Tables) : List Located → List OpenLoop → List FrameAddress → Prop
  | outside : Tally root [] [] [[]]
  | silent {q : Located} {qs : List Located} {l : OpenLoop} {ls : List OpenLoop}
      {frames : List FrameAddress} (capture : q.hasCapture = false)
      (outer : Tally root qs ls frames) : Tally root (q :: qs) (l :: ls) frames
  | framed {q : Located} {qs : List Located} {l : OpenLoop} {ls : List OpenLoop}
      {frame : FrameAddress} {frames : List FrameAddress} {f : Tables}
      (capture : q.hasCapture = true) (around : root.frame? frame = some f)
      (count : (f.iterations q.id).length = l.count + 1)
      (outer : Tally root qs ls (frame :: frames)) :
      Tally root (q :: qs) (l :: ls) ((frame ++ [(q.id, l.count)]) :: frame :: frames)

namespace State

/-- Are these the quantifiers whose loops are open, the innermost one first, each of them inside a
round? -/
def Inside (s : State) (qs : List Located) : Prop := Tally s.root qs s.loops s.frames

/-- Is the loop of this quantifier open and between two rounds?  Its counter is the number of
iterations in the innermost frame. -/
def Between (s : State) (whole q : Located) : Prop :=
  ∃ l ls, s.loops = l :: ls ∧ Tally s.root (enclosing whole q) ls s.frames ∧
    (q.hasCapture = true → ∃ frame frames f, s.frames = frame :: frames ∧
      s.root.frame? frame = some f ∧ (f.iterations q.id).length = l.count)

/-- **Do counters agree with frames where an instruction is next?**  The loops that are open are
those of the quantifiers around its node. -/
def KeepsCount (s : State) (whole : Located) : Op → Prop
  | .test q _ => s.Between whole q
  | .beginRound q _ => s.Between whole q
  | .closeLoop q => s.Between whole q
  | .endRound q _ _ => s.Inside (q :: enclosing whole q)
  | .text p => s.Inside (enclosing whole p)
  | .byteClass p => s.Inside (enclosing whole p)
  | .openCapture p => s.Inside (enclosing whole p)
  | .closeCapture p => s.Inside (enclosing whole p)
  | .branch p _ _ _ => s.Inside (enclosing whole p)
  | .jump p _ => s.Inside (enclosing whole p)
  | .openLoop p => s.Inside (enclosing whole p)
  | .accept => s.Inside []

end State

theorem Counted.tally {loops : List (Located × OpenLoop)} {around : OpenFrames} {root : Tables}
    {t : Trace} (h : Counted loops around) (hroot : root.ReadsAs (OpenFrames.plug around t)) :
    Tally root (loops.map Prod.fst) (loops.map Prod.snd) (OpenFrames.addresses around) := by
  induction h generalizing t with
  | outside => exact .outside
  | silent hcap _ ih => exact .silent hcap (ih hroot)
  | @framed q l loops around t' hcap hcount _ ih =>
    have hroot : root.ReadsAs (OpenFrames.plug around (t' ++ [.iteration q.id t])) := hroot
    obtain ⟨f, hf, hreads⟩ := hroot.exists_frame?
    obtain ⟨rest, hrest⟩ := OpenFrames.addresses_eq around
    have hlength : (f.iterations q.id).length = l.count + 1 := by
      rw [(hreads.iterations q.id).length_eq, Trace.iterations_append,
        Trace.iterations_iteration, if_pos rfl, List.length_append, hcount]
      rfl
    have houter := ih hroot
    rw [OpenFrames.addresses, OpenFrames.address, hcount, hrest]
    rw [hrest] at houter
    exact .framed hcap hf hlength houter

/-- A state that shows a scene in which the loops are counted right has counted right. -/
theorem State.Shows.keepsCount {s : State} {a : Scene} {op : Op} (hs : s.Shows a)
    (ha : a.Tallied whole op) : s.KeepsCount whole op := by
  have hinside : ∀ qs, a.loops.map Prod.fst = qs → Counted a.loops a.around → s.Inside qs := by
    rintro qs rfl hcounted
    have htally := hcounted.tally hs.root
    rwa [← hs.loops, ← hs.frames] at htally
  have hbetween : ∀ q, a.Between whole q → s.Between whole q := by
    rintro q ⟨b, l, rfl, hcount, hloops, hcounted⟩
    have htally := hcounted.tally hs.root
    rw [hloops] at htally
    refine ⟨l, b.loops.map Prod.snd, hs.loops, hs.frames ▸ htally, fun hcap => ?_⟩
    obtain ⟨f, hf, hreads⟩ := hs.root.exists_frame?
    obtain ⟨frames, hframes⟩ := hs.exists_frames
    exact ⟨_, frames, f, hframes, hf, (hreads.iterations q.id).length_eq.trans (hcount hcap)⟩
  cases op with
  | test q | beginRound q | closeLoop q => exact hbetween q ha
  | accept => exact hinside [] (by rw [ha.1]; rfl) ha.2
  | endRound | text | byteClass | openCapture | closeCapture | branch | jump | openLoop =>
    exact hinside _ ha.1 ha.2

/-! ## Patterns -/

variable {p : Located} {c : Cursor}

/-- Is an end accepted? -/
def accepts (anchored : Bool) (c : Cursor) : Bool := !anchored || c.left == 0

theorem finds_resume {pc : Nat} {a : Scene} (hop : code[pc]? = some .accept)
    (htallied : a.Tallied whole .accept) (os : List Outcome) :
    Finds code anchored whole (resume pc a os)
      ((os.find? fun o => accepts anchored o.cursor).map fun o =>
        ⟨pc, o.cursor, a.add o.records⟩) := by
  induction os with
  | nil => exact .exhausted
  | cons o os ih =>
    rw [resume, List.map_cons, List.find?_cons]
    cases haccept : accepts anchored o.cursor with
    | true =>
      refine .accepted hop (fun hanchored => ?_) htallied
      rw [accepts, hanchored] at haccept
      exact beq_iff_eq.mp haccept
    | false =>
      rw [accepts, Bool.or_eq_false_iff, Bool.not_eq_false', beq_eq_false_iff_ne] at haccept
      exact .step hop (.refuse pc o.cursor _ haccept.1 haccept.2) htallied ih

/-- **The threads of a program** come to the first outcome that is accepted. -/
theorem finds_program (hwell : p.WellFormed) (hd : p.Distinct) (hc : c.Coherent) :
    Finds p.program anchored p [⟨0, c, .blank⟩]
      (((p.outcomes c).find? fun o => accepts anchored o.cursor).map fun o =>
        ⟨(p.code 0).length, o.cursor, Scene.blank.add o.records⟩) := by
  have hholds : p.program.Holds 0 (p.code 0) := ⟨[], [.accept], p.program_eq, rfl⟩
  have haccept : p.program[(p.code 0).length]? = some .accept := by
    rw [p.program_eq, List.getElem?_append_right (Nat.le_refl _), Nat.sub_self]
    rfl
  have hvisits : Visits p.program anchored p p := visits hd hwell (Tree.mem_subtrees_self p)
  have haround : Scene.blank.Surrounds p p :=
    ⟨by rw [enclosing, hd.quantifiersAround_self]; rfl, .outside⟩
  have hcomes := hvisits 0 c .blank hholds hc haround fun _ => rfl
  rw [Nat.zero_add] at hcomes
  refine hcomes [] _ ?_
  rw [List.append_nil]
  exact finds_resume haccept ⟨rfl, .outside⟩ (p.outcomes c)

/-- **Does this run end with this match**, and leave a trace that says what that of the match says?
If there is no match, the trace says nothing. -/
def Reports (run : Nat → Option (Except Fault (Option Span × Tables)))
    (found : Option (Span × Trace)) : Prop :=
  ∃ root, Ends run (found.map Prod.fst, root) ∧ root.ReadsAs (found.elim [] Prod.snd)

/-- If it ends with a match, this is the match. -/
theorem Reports.exists_trace {run : Nat → Option (Except Fault (Option Span × Tables))}
    {found : Option (Span × Trace)} (h : Reports run found) {whole : Span} {root : Tables}
    (hends : Ends run (some whole, root)) : ∃ t, found = some (whole, t) ∧ root.ReadsAs t := by
  obtain ⟨root', hends', hroot⟩ := h
  obtain ⟨hwhole, rfl⟩ := Prod.mk.inj (hends.unique hends')
  obtain ⟨⟨whole', t⟩, rfl, rfl⟩ := Option.map_eq_some_iff.mp hwhole.symm
  exact ⟨t, rfl, hroot⟩

theorem reports_traceFrom (hwell : p.WellFormed) (hd : p.Distinct) (hc : c.Coherent) :
    Reports (traceFrom p.program anchored c) (p.matchFrom? (accepts anchored) c) := by
  obtain ⟨root, ⟨least, hrun⟩, hroot⟩ := exists_run (finds_program hwell hd hc) (.start c)
  rw [p.matchFrom?_eq_find?]
  refine ⟨root, ⟨least, fun steps hsteps => ?_⟩, ?_⟩
  · rw [traceFrom, hrun steps hsteps]
    cases (p.outcomes c).find? fun o => accepts anchored o.cursor <;> rfl
  · cases hfind : (p.outcomes c).find? fun o => accepts anchored o.cursor with
    | none =>
      rw [hfind] at hroot
      exact hroot
    | some o =>
      rw [hfind] at hroot
      exact hroot

/-- **The machine matches what the search matches.** -/
theorem reports_traceMatch (hwell : p.WellFormed) (hd : p.Distinct) (w : Bytes) :
    Reports (traceMatch p w) (p.match? w) :=
  reports_traceFrom hwell hd (Cursor.coherent_ofInput w)

/-- A match that is found at the first place is the one that is searched. -/
theorem Reports.traceSearchFrom {pos left : Nat} {rest : Bytes} {found : Span × Trace}
    (h : Reports (traceFrom code false ⟨pos, left, rest⟩) (some found)) :
    Reports (traceSearchFrom code pos left rest) (some found) := by
  obtain ⟨root, ⟨least, hrun⟩, hroot⟩ := h
  refine ⟨root, ⟨least, fun steps hsteps => ?_⟩, hroot⟩
  cases rest <;> rw [Machine.traceSearchFrom, hrun steps hsteps] <;> rfl

theorem reports_traceSearchFrom (hwell : p.WellFormed) (hd : p.Distinct) {pos left : Nat}
    {rest : Bytes} (hleft : left = rest.length) :
    Reports (traceSearchFrom p.program pos left rest) (p.searchFrom? pos left rest) := by
  induction rest generalizing pos left with
  | nil =>
    have hhere : Reports (traceFrom p.program false ⟨pos, left, []⟩)
        (p.matchFrom? (fun _ => true) ⟨pos, left, []⟩) := reports_traceFrom hwell hd hleft
    rw [Located.searchFrom?]
    cases hfound : p.matchFrom? (fun _ => true) ⟨pos, left, []⟩ with
    | none =>
      rw [hfound] at hhere
      obtain ⟨root, ⟨least, hrun⟩, -⟩ := hhere
      refine ⟨.empty, ⟨least, fun steps hsteps => ?_⟩, .empty⟩
      rw [Machine.traceSearchFrom, hrun steps hsteps]
      rfl
    | some found => exact (hfound ▸ hhere).traceSearchFrom
  | cons b rest ih =>
    have hhere : Reports (traceFrom p.program false ⟨pos, left, b :: rest⟩)
        (p.matchFrom? (fun _ => true) ⟨pos, left, b :: rest⟩) := reports_traceFrom hwell hd hleft
    rw [Located.searchFrom?]
    cases hfound : p.matchFrom? (fun _ => true) ⟨pos, left, b :: rest⟩ with
    | none =>
      rw [hfound] at hhere
      obtain ⟨root, ⟨least, hrun⟩, -⟩ := hhere
      -- the attempts that are left may take more steps than this one
      have hleft : left - 1 = rest.length := by rw [hleft]; rfl
      have hafter : Reports (traceSearchFrom p.program (pos + 1) (left - 1) rest) _ := ih hleft
      obtain ⟨root', ⟨least', hrun'⟩, hroot'⟩ := hafter
      refine ⟨root', ⟨max least least', fun steps hsteps => ?_⟩, hroot'⟩
      rw [Machine.traceSearchFrom, hrun steps (Nat.le_trans (Nat.le_max_left _ _) hsteps)]
      exact hrun' steps (Nat.le_trans (Nat.le_max_right _ _) hsteps)
    | some found => exact (hfound ▸ hhere).traceSearchFrom

/-- **The machine finds what the search finds.** -/
theorem reports_traceSearch (hwell : p.WellFormed) (hd : p.Distinct) (w : Bytes) :
    Reports (traceSearch p w) (p.search? w) :=
  reports_traceSearchFrom hwell hd rfl

/-- **Counters and frames agree in every state that a machine comes to.**  The loops that are open
there are those of the quantifiers around the node of the next instruction. -/
theorem keepsCount (hwell : p.WellFormed) (hd : p.Distinct) (hc : c.Coherent)
    (hreach : ReflTransGen (Goes p.program anchored) (start c) m) :
    ∃ op, p.program[m.pc]? = some op ∧ m.state.KeepsCount p op := by
  obtain ⟨op, a, hop, hshows, htallied⟩ :=
    exists_tallied (finds_program hwell hd hc) (.start c) hreach
  exact ⟨op, hop, hshows.keepsCount htallied⟩

end Machine

end CaptureTree
