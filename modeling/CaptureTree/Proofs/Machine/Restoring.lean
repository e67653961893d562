import CaptureTree.Matching.Machine
import CaptureTree.Proofs.Machine.Recording

/-!
# Taking back what a machine has changed

What the state of a machine stands for is a `Scene`: the records of the open frames, the places
where open captures began, and the open loops.  `State.Shows` relates the two.  The tables may have
empty rows that the records know nothing of, and their rows may stand in any order, since rows from
which everything was dropped stay where they are.  So a state that is restored need not be the same
as before, but it shows the same scene.

Every change that a machine makes has an entry for the log that undoes it: after the change a new
scene is shown, and undoing the entry leads from this one back (`Undo.Restores`, with one lemma for
each kind of entry).  Entries that stand one behind the other lead back one after the other
(`Rewinds`), which is what rewinding a log does (`Rewinds.exists_rewind`).
-/

namespace CaptureTree

namespace Machine

/-- What the state of a machine stands for. -/
structure Scene where
  /-- The open frames around the innermost one. -/
  around : OpenFrames
  /-- What is recorded in the innermost frame. -/
  records : Trace
  /-- Where the open captures began, the innermost one first. -/
  starts : List Nat
  /-- The open loops, the innermost one first, each with its quantifier. -/
  loops : List (Located × OpenLoop)

namespace Scene

/-- What the machine starts from. -/
def blank : Scene := ⟨[], [], [], []⟩

/-- The scene with something more recorded in the innermost frame. -/
def add (a : Scene) (t : Trace) : Scene := { a with records := a.records ++ t }

@[simp] theorem add_nil (a : Scene) : a.add [] = a := by
  rw [add, List.append_nil]

theorem add_add (a : Scene) (t u : Trace) : (a.add t).add u = a.add (t ++ u) := by
  rw [add, add, add, List.append_assoc]

/-- The scene inside a new iteration of a quantifier. -/
def inside (a : Scene) (q : NodeId) : Scene :=
  { a with around := (a.records, q) :: a.around, records := [] }

end Scene

variable {a b c : Scene} {s : State}

/-- **Does a state stand for a scene?** -/
structure State.Shows (s : State) (a : Scene) : Prop where
  root : s.root.ReadsAs (OpenFrames.plug a.around a.records)
  frames : s.frames = OpenFrames.addresses a.around
  starts : s.starts = a.starts
  loops : s.loops = a.loops.map Prod.snd

namespace State.Shows

theorem blank : State.Shows {} .blank := ⟨.empty, rfl, rfl, rfl⟩

/-- The innermost frame is on top of its stack. -/
theorem exists_frames (h : s.Shows a) :
    ∃ frames, s.frames = OpenFrames.address a.around :: frames := by
  rw [h.frames]
  exact OpenFrames.addresses_eq a.around

/-- **A record may be added.** -/
theorem exists_change (h : s.Shows a) (c : Change) :
    ∃ s', s.change (OpenFrames.address a.around) c = .ok s' ∧ s'.Shows (a.add [c.entry]) := by
  obtain ⟨root, happly, hreads⟩ := h.root.exists_applyAt c
  refine ⟨{ s with root }, ?_, hreads, h.frames, h.starts, h.loops⟩
  rw [State.change, happly]
  rfl

/-- **The last record may be dropped.** -/
theorem exists_retract {r : Record} (h : s.Shows (a.add [r])) :
    ∃ s', s.retract (OpenFrames.address a.around) r.kind r.node = .ok s' ∧ s'.Shows a := by
  obtain ⟨root, hretract, hreads⟩ := h.root.exists_retractAt
  refine ⟨{ s with root }, ?_, hreads, h.frames, h.starts, h.loops⟩
  have hretract : s.root.retractAt (OpenFrames.address a.around) r.kind r.node = .ok root :=
    hretract
  rw [State.retract, hretract]
  rfl

/-- **An iteration may be begun.**  It gets the number that the iterations before it leave free. -/
theorem exists_enter (h : s.Shows a) (n : NodeId) :
    ∃ s', s.enter (OpenFrames.address a.around) n = .ok s' ∧ s'.Shows (a.inside n) := by
  obtain ⟨f, hf, hreads⟩ := h.root.exists_frame?
  obtain ⟨s', hchange, hshows⟩ := h.exists_change (.iterate n)
  have hcount : (f.iterations n).length = (a.records.iterations n).length :=
    (hreads.iterations n).length_eq
  have hframes : s'.frames = OpenFrames.addresses a.around := hshows.frames
  refine ⟨{ s' with frames := OpenFrames.addresses (a.inside n).around }, ?_, hshows.root, rfl,
    hshows.starts, hshows.loops⟩
  rw [State.enter, hf]
  simp only [Option.elim_some]
  refine bind_eq_ok.mpr ⟨f, rfl, bind_eq_ok.mpr ⟨s', hchange, ?_⟩⟩
  rw [hcount, hframes]
  rfl

theorem setStarts (h : s.Shows a) (starts : List Nat) :
    State.Shows { s with starts } { a with starts } :=
  ⟨h.root, h.frames, rfl, h.loops⟩

theorem setLoops (h : s.Shows a) (loops : List (Located × OpenLoop)) :
    State.Shows { s with loops := loops.map Prod.snd } { a with loops } :=
  ⟨h.root, h.frames, h.starts, rfl⟩

end State.Shows

/-! ## Entries of the log -/

/-- **Does undoing an entry lead from one scene to another?** -/
def Undo.Restores (u : Undo) (a b : Scene) : Prop :=
  ∀ s : State, s.Shows a → ∃ s', s.undo u = .ok s' ∧ s'.Shows b

namespace Undo.Restores

theorem record (a : Scene) (n : NodeId) (span : Span) :
    Undo.Restores (.record (OpenFrames.address a.around) n) (a.add [.span n span]) a :=
  fun _ h => h.exists_retract

theorem choose (a : Scene) (n : NodeId) (i : Nat) :
    Undo.Restores (.choose (OpenFrames.address a.around) n) (a.add [.choice n i]) a :=
  fun _ h => h.exists_retract

/-- An iteration in which nothing is left is dropped from the frame around it. -/
theorem iterate (a : Scene) (n : NodeId) :
    Undo.Restores (.iterate (OpenFrames.address a.around) n) (a.inside n) a := by
  intro s h
  have hout : State.Shows { s with frames := OpenFrames.addresses a.around }
      (a.add [.iteration n []]) := ⟨h.root, rfl, h.starts, h.loops⟩
  obtain ⟨s', hretract, hshows⟩ := hout.exists_retract
  refine ⟨s', ?_, hshows⟩
  have hframes : s.frames = OpenFrames.address (a.inside n).around ::
    OpenFrames.addresses a.around := h.frames
  rw [State.undo, hframes]
  exact hretract

/-- A frame that was closed is open again. -/
theorem popFrame (a : Scene) (n : NodeId) (t : Trace) :
    Undo.Restores (.popFrame (OpenFrames.address (a.inside n).around))
      (a.add [.iteration n t]) ((a.inside n).add t) := by
  intro s h
  refine ⟨_, rfl, ⟨?_, ?_, h.starts, h.loops⟩⟩
  · exact h.root
  · show _ :: s.frames = _
    rw [h.frames]
    rfl

theorem pushStart (a : Scene) (start : Nat) :
    Undo.Restores .pushStart { a with starts := start :: a.starts } a := by
  intro s h
  refine ⟨{ s with starts := a.starts }, ?_, h.setStarts a.starts⟩
  rw [State.undo, h.starts]
  rfl

theorem popStart (a : Scene) (start : Nat) :
    Undo.Restores (.popStart start) a { a with starts := start :: a.starts } := by
  intro s h
  refine ⟨{ s with starts := start :: a.starts }, ?_, h.setStarts _⟩
  rw [State.undo, h.starts]

theorem pushLoop (a : Scene) (q : Located) (loop : OpenLoop) :
    Undo.Restores .pushLoop { a with loops := (q, loop) :: a.loops } a := by
  intro s h
  refine ⟨{ s with loops := a.loops.map Prod.snd }, ?_, h.setLoops a.loops⟩
  rw [State.undo, h.loops]
  rfl

theorem popLoop (a : Scene) (q : Located) (loop : OpenLoop) :
    Undo.Restores (.popLoop loop) a { a with loops := (q, loop) :: a.loops } := by
  intro s h
  refine ⟨{ s with loops := loop :: a.loops.map Prod.snd }, ?_, h.setLoops ((q, loop) :: a.loops)⟩
  rw [State.undo, h.loops]

/-- The counter of a loop is what it was. -/
theorem setLoop (a : Scene) (q : Located) (loop loop' : OpenLoop) :
    Undo.Restores (.setLoop loop) { a with loops := (q, loop') :: a.loops }
      { a with loops := (q, loop) :: a.loops } := by
  intro s h
  refine ⟨{ s with loops := loop :: a.loops.map Prod.snd }, ?_, h.setLoops ((q, loop) :: a.loops)⟩
  rw [State.undo, h.loops]
  rfl

end Undo.Restores

/-! ## Logs -/

/-- **Does undoing some entries, one after the other, lead from one scene to another?** -/
inductive Rewinds : List Undo → Scene → Scene → Prop
  | nil (a : Scene) : Rewinds [] a a
  | cons {a b c : Scene} {u : Undo} {us : List Undo} (head : u.Restores a b)
      (tail : Rewinds us b c) : Rewinds (u :: us) a c

namespace Rewinds

theorem single {u : Undo} (h : u.Restores a b) : Rewinds [u] a b := .cons h (.nil b)

theorem append {us us' : List Undo} (h : Rewinds us a b) (h' : Rewinds us' b c) :
    Rewinds (us ++ us') a c := by
  induction h with
  | nil => exact h'
  | cons head _ ih => exact .cons head (ih h')

/-- **Rewinding a log undoes what was put on top of it.** -/
theorem exists_rewind {us : List Undo} (h : Rewinds us a b) (hs : s.Shows a) (log : List Undo) :
    ∃ s', s.rewind log.length (us ++ log) = .ok (s', log) ∧ s'.Shows b := by
  induction h generalizing s with
  | nil a =>
    refine ⟨s, ?_, hs⟩
    cases log with
    | nil => rfl
    | cons u log =>
      rw [List.nil_append, State.rewind, if_neg]
      simp
  | @cons a b c u us head tail ih =>
    obtain ⟨s₁, hundo, hs₁⟩ := head s hs
    obtain ⟨s', hrewind, hs'⟩ := ih hs₁
    refine ⟨s', ?_, hs'⟩
    rw [List.cons_append, State.rewind, if_pos (by simp), hundo]
    exact hrewind

end Rewinds

end Machine

end CaptureTree
