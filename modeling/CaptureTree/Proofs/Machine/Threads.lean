import CaptureTree.Proofs.Machine.Restoring
import CaptureTree.Proofs.Matching.Outcomes

/-!
# Threads

A `Thread` is what a machine would be if nothing had to be restored: the place of the next
instruction, a cursor, and a scene that is its own.  A machine stands for a list of threads, the one
that it follows and those that it can go back to.  Of these it has noted no more than where they go
on and how long the log was, and `Backlog` says that this is enough: undoing what is above in the
log shows their scenes again.

`Leads` says what an instruction makes of a thread, namely the threads that take its place, none if
the instruction fails.  `exec_of_leads` is the account of the single instructions, with one case
each, and `Follows.step` the simulation that rests on it: **a step of a machine does to its list of
threads what the instruction does to the first of them**, whether the machine goes on, goes back or
stops.
-/

namespace CaptureTree

namespace Machine

namespace Scene

/-- The scene inside a capture that began at position `start`. -/
def capture (a : Scene) (start : Nat) : Scene := { a with starts := start :: a.starts }

/-- The scene inside the loop of a quantifier. -/
def loop (a : Scene) (q : Located) (l : OpenLoop) : Scene := { a with loops := (q, l) :: a.loops }

/-- The scene in which a round of a quantifier begins. -/
def round (a : Scene) (q : Located) : Scene :=
  if q.body.any Located.hasCapture then a.inside q.id else a

end Scene

/-- One way of running through the instructions, with a scene of its own. -/
structure Thread where
  pc : Nat
  cursor : Cursor
  scene : Scene

/-- **What an instruction makes of a thread**: the threads that take its place, in order of
preference. -/
inductive Leads (anchored : Bool) : Op → Thread → List Thread → Prop
  | literal (p : Located) (pc : Nat) (c : Cursor) (a : Scene) :
      Leads anchored (if p.label.literal.isClass then .byteClass p else .text p) ⟨pc, c, a⟩
        ((c.match? p.label.literal).toList.map fun d => ⟨pc + 1, d, a⟩)
  | openCapture (p : Located) (pc : Nat) (c : Cursor) (a : Scene) :
      Leads anchored (.openCapture p) ⟨pc, c, a⟩ [⟨pc + 1, c, a.capture c.pos⟩]
  | closeCapture (p : Located) (start pc : Nat) (c : Cursor) (a : Scene) :
      Leads anchored (.closeCapture p) ⟨pc, c, a.capture start⟩
        [⟨pc + 1, c, a.add [.span p.id ⟨start, c.pos⟩]⟩]
  | branch (p : Located) (i : Nat) (next : Option Nat) (pc : Nat) (c : Cursor) (a : Scene) :
      Leads anchored (.branch p i next p.hasCapture) ⟨pc, c, a⟩
        (⟨pc + 1, c, a.add (p.mark i)⟩ :: next.toList.map fun pc => ⟨pc, c, a⟩)
  | jump (p : Located) (target pc : Nat) (c : Cursor) (a : Scene) :
      Leads anchored (.jump p target) ⟨pc, c, a⟩ [⟨target, c, a⟩]
  | openLoop (p : Located) (pc : Nat) (c : Cursor) (a : Scene) :
      Leads anchored (.openLoop p) ⟨pc, c, a⟩ [⟨pc + 1, c, a.loop p {}⟩]
  | test (p : Located) (exit pc : Nat) (c : Cursor) (a : Scene) (l : OpenLoop) :
      Leads anchored (.test p exit) ⟨pc, c, a.loop p l⟩
        (if p.bounds.isFull l.count then [⟨exit, c, a.loop p l⟩]
        else ⟨pc + 1, c, a.loop p l⟩ ::
          if p.bounds.min ≤ l.count then [⟨exit, c, a.loop p l⟩] else [])
  | beginRound (p : Located) (pc : Nat) (c : Cursor) (a : Scene) (l : OpenLoop) :
      Leads anchored (.beginRound p (p.body.any Located.hasCapture)) ⟨pc, c, a.loop p l⟩
        [⟨pc + 1, c, (a.round p).loop p { l with start := c.pos }⟩]
  | endRound (p : Located) (head pc : Nat) (c : Cursor) (a : Scene) (l : OpenLoop) (t : Trace) :
      Leads anchored (.endRound p head (p.body.any Located.hasCapture))
        ⟨pc, c, ((a.round p).add t).loop p l⟩
        (if c.pos = l.start ∧ p.bounds.min ≤ l.count then []
        else [⟨head, c,
          (a.add ((Loop.ofNode p).entry t)).loop p { l with count := l.count + 1 }⟩])
  | closeLoop (p : Located) (pc : Nat) (c : Cursor) (a : Scene) (l : OpenLoop) :
      Leads anchored (.closeLoop p) ⟨pc, c, a.loop p l⟩ [⟨pc + 1, c, a⟩]
  /-- The end of the input has not been reached. -/
  | refuse (pc : Nat) (c : Cursor) (a : Scene) (hanchored : anchored = true)
      (hleft : c.left ≠ 0) : Leads anchored .accept ⟨pc, c, a⟩ []

/-! ## Single instructions -/

/-- **Is this the effect of an instruction** that makes these threads of a thread?  The first of
them is gone on with, and from its scene the changes lead back to the scene of the others. -/
inductive Effect.Carries (σ : Thread) : Effect → List Thread → Prop
  | fail : Carries σ .fail []
  | go {pc : Nat} {c : Cursor} {s : State} {a : Scene} {undos : List Undo} {instead : Option Nat}
      (shows : s.Shows a) (rewinds : Rewinds undos a σ.scene) :
      Carries σ (.go pc c s undos instead)
        (⟨pc, c, a⟩ :: instead.toList.map fun pc => ⟨pc, σ.cursor, σ.scene⟩)

/-- Most instructions leave nothing to go back to. -/
theorem Effect.Carries.one {σ : Thread} {pc : Nat} {c : Cursor} {s : State} {a : Scene}
    {undos : List Undo} (hs : s.Shows a) (hundos : Rewinds undos a σ.scene) :
    Effect.Carries σ (.go pc c s undos none) [⟨pc, c, a⟩] :=
  .go hs hundos

theorem exec_of_literal {anchored : Bool} {p : Located} {pc : Nat} {c : Cursor} {s : State}
    {a : Scene} (hs : s.Shows a) :
    ∃ e, exec anchored pc c s (if p.label.literal.isClass then .byteClass p else .text p) = .ok e ∧
      e.Carries ⟨pc, c, a⟩ ((c.match? p.label.literal).toList.map fun d => ⟨pc + 1, d, a⟩) := by
  rw [Cursor.match?]
  cases p.label.literal.isClass with
  | false =>
    rw [if_neg Bool.false_ne_true, if_neg Bool.false_ne_true]
    simp only [exec]
    split
    · exact ⟨_, rfl, .one hs (.nil a)⟩
    · exact ⟨_, rfl, .fail⟩
  | true =>
    rw [if_pos rfl, if_pos rfl]
    simp only [exec]
    cases c.rest with
    | nil => exact ⟨_, rfl, .fail⟩
    | cons b rest =>
      simp only
      split
      · exact ⟨_, rfl, .one hs (.nil a)⟩
      · exact ⟨_, rfl, .fail⟩

theorem exec_of_closeCapture {anchored : Bool} {p : Located} {start pc : Nat} {c : Cursor}
    {s : State} {a : Scene} (hs : s.Shows (a.capture start)) :
    ∃ e, exec anchored pc c s (.closeCapture p) = .ok e ∧
      e.Carries ⟨pc, c, a.capture start⟩ [⟨pc + 1, c, a.add [.span p.id ⟨start, c.pos⟩]⟩] := by
  have hstarts : s.starts = start :: a.starts := hs.starts
  have hclosed := hs.setStarts a.starts
  obtain ⟨frames, hframes⟩ := hclosed.exists_frames
  obtain ⟨s', hchange, hs'⟩ := hclosed.exists_change (.record p.id ⟨start, c.pos⟩)
  have hdrop := Undo.Restores.record a p.id ⟨start, c.pos⟩
  refine ⟨_, ?_, .one hs' (.cons hdrop (.single (.popStart a start)))⟩
  simp only [exec, hstarts]
  refine bind_eq_ok.mpr ⟨_, rfl, ?_⟩
  exact bind_eq_ok.mpr ⟨_, congrArg pop hframes, bind_eq_ok.mpr ⟨s', hchange, rfl⟩⟩

theorem exec_of_branch {anchored : Bool} {p : Located} {i pc : Nat} {next : Option Nat}
    {c : Cursor} {s : State} {a : Scene} (hs : s.Shows a) :
    ∃ e, exec anchored pc c s (.branch p i next p.hasCapture) = .ok e ∧
      e.Carries ⟨pc, c, a⟩
        (⟨pc + 1, c, a.add (p.mark i)⟩ :: next.toList.map fun pc => ⟨pc, c, a⟩) := by
  rw [Located.mark]
  cases p.hasCapture with
  | false =>
    rw [if_neg Bool.false_ne_true, Scene.add_nil]
    exact ⟨_, rfl, .go hs (.nil a)⟩
  | true =>
    obtain ⟨frames, hframes⟩ := hs.exists_frames
    obtain ⟨s', hchange, hs'⟩ := hs.exists_change (.choose p.id i)
    refine ⟨_, ?_, .go hs' (.single (.choose a p.id i))⟩
    simp only [exec, if_true, hframes]
    exact bind_eq_ok.mpr ⟨_, rfl, bind_eq_ok.mpr ⟨s', hchange, rfl⟩⟩

theorem exec_of_test {anchored : Bool} {p : Located} {exit pc : Nat} {c : Cursor} {s : State}
    {a : Scene} {l : OpenLoop} (hs : s.Shows (a.loop p l)) :
    ∃ e, exec anchored pc c s (.test p exit) = .ok e ∧
      e.Carries ⟨pc, c, a.loop p l⟩
        (if p.bounds.isFull l.count then [⟨exit, c, a.loop p l⟩]
        else ⟨pc + 1, c, a.loop p l⟩ ::
          if p.bounds.min ≤ l.count then [⟨exit, c, a.loop p l⟩] else []) := by
  have hloops : s.loops = l :: a.loops.map Prod.snd := hs.loops
  simp only [exec, hloops]
  by_cases hfull : p.bounds.isFull l.count = true
  · rw [if_pos hfull]
    exact ⟨_, bind_eq_ok.mpr ⟨_, rfl, if_pos hfull⟩, .one hs (.nil _)⟩
  · rw [if_neg hfull]
    refine ⟨_, bind_eq_ok.mpr ⟨_, rfl, if_neg hfull⟩, ?_⟩
    by_cases hmin : p.bounds.min ≤ l.count
    · rw [if_pos hmin, if_pos hmin]
      exact .go hs (.nil _)
    · rw [if_neg hmin, if_neg hmin]
      exact .one hs (.nil _)

theorem exec_of_beginRound {anchored : Bool} {p : Located} {pc : Nat} {c : Cursor} {s : State}
    {a : Scene} {l : OpenLoop} (hs : s.Shows (a.loop p l)) :
    ∃ e, exec anchored pc c s (.beginRound p (p.body.any Located.hasCapture)) = .ok e ∧
      e.Carries ⟨pc, c, a.loop p l⟩
        [⟨pc + 1, c, (a.round p).loop p { l with start := c.pos }⟩] := by
  have hloops : s.loops = l :: a.loops.map Prod.snd := hs.loops
  have hset := hs.setLoops ((p, { l with start := c.pos }) :: a.loops)
  have hback := Undo.Restores.setLoop a p l { l with start := c.pos }
  rw [Scene.round]
  cases p.body.any Located.hasCapture with
  | false =>
    refine ⟨_, ?_, .one hset (.single hback)⟩
    simp only [exec, hloops]
    rfl
  | true =>
    obtain ⟨frames, hframes⟩ := hset.exists_frames
    obtain ⟨s', henter, hs'⟩ := hset.exists_enter p.id
    have hdrop := Undo.Restores.iterate (a.loop p { l with start := c.pos }) p.id
    refine ⟨_, ?_, .one hs' (.cons hdrop (.single hback))⟩
    simp only [exec, hloops]
    refine bind_eq_ok.mpr ⟨_, rfl, ?_⟩
    simp only [if_true]
    exact bind_eq_ok.mpr ⟨_, congrArg pop hframes, bind_eq_ok.mpr ⟨s', henter, rfl⟩⟩

theorem exec_of_endRound {anchored : Bool} {p : Located} {head pc : Nat} {c : Cursor} {s : State}
    {a : Scene} {l : OpenLoop} {t : Trace} (hs : s.Shows (((a.round p).add t).loop p l)) :
    ∃ e, exec anchored pc c s (.endRound p head (p.body.any Located.hasCapture)) = .ok e ∧
      e.Carries ⟨pc, c, ((a.round p).add t).loop p l⟩
        (if c.pos = l.start ∧ p.bounds.min ≤ l.count then []
        else [⟨head, c,
          (a.add ((Loop.ofNode p).entry t)).loop p { l with count := l.count + 1 }⟩]) := by
  have hloops : s.loops = l :: a.loops.map Prod.snd := by
    rw [hs.loops, Scene.round]
    split <;> rfl
  simp only [exec, hloops]
  by_cases hidle : c.pos = l.start ∧ p.bounds.min ≤ l.count
  · rw [if_pos hidle]
    exact ⟨.fail, bind_eq_ok.mpr ⟨_, rfl, if_pos hidle⟩, .fail⟩
  · rw [if_neg hidle]
    -- the frame of the round is closed first, and then the round is counted
    have hcounted : ∀ {s : State} {b : Scene}, s.Shows (b.loop p l) →
        State.Shows { s with loops := { l with count := l.count + 1 } :: b.loops.map Prod.snd }
          (b.loop p { l with count := l.count + 1 }) :=
      fun {_ b} h => h.setLoops ((p, { l with count := l.count + 1 }) :: b.loops)
    have hback := fun b : Scene => Undo.Restores.setLoop b p l { l with count := l.count + 1 }
    rw [Scene.round] at hs ⊢
    rw [Loop.entry, Loop.ofNode]
    cases hcap : p.body.any Located.hasCapture with
    | false =>
      simp only [hcap, Bool.false_eq_true, if_false] at hs ⊢
      refine ⟨_, ?_, .one (hcounted hs) (.single (hback (a.add t)))⟩
      exact bind_eq_ok.mpr ⟨_, rfl, if_neg hidle⟩
    | true =>
      simp only [hcap, if_true] at hs ⊢
      have hclosed : State.Shows { s with frames := OpenFrames.addresses a.around }
          ((a.add [.iteration p.id t]).loop p l) := ⟨hs.root, rfl, hs.starts, hs.loops⟩
      have hopen := Undo.Restores.popFrame (a.loop p l) p.id t
      have hframes : s.frames =
          OpenFrames.address (a.inside p.id).around :: OpenFrames.addresses a.around := hs.frames
      refine ⟨_, ?_, .one (hcounted hclosed)
        (.cons (hback (a.add [.iteration p.id t])) (.single hopen))⟩
      refine bind_eq_ok.mpr ⟨_, rfl, (if_neg hidle).trans ?_⟩
      simp only [hframes]
      rfl

/-- **An instruction has the effect that it should have.** -/
theorem exec_of_leads {anchored : Bool} {op : Op} {σ : Thread} {σs : List Thread} {s : State}
    (h : Leads anchored op σ σs) (hs : s.Shows σ.scene) :
    ∃ e, exec anchored σ.pc σ.cursor s op = .ok e ∧ e.Carries σ σs := by
  cases h with
  | literal => exact exec_of_literal hs
  | openCapture p pc c a =>
    refine ⟨_, rfl, ?_⟩
    have hstarts : s.starts = a.starts := hs.starts
    rw [hstarts]
    exact .one (hs.setStarts (c.pos :: a.starts)) (.single (.pushStart a c.pos))
  | closeCapture => exact exec_of_closeCapture hs
  | branch => exact exec_of_branch hs
  | jump p target pc c a => exact ⟨_, rfl, .one hs (.nil a)⟩
  | openLoop p pc c a =>
    refine ⟨_, rfl, ?_⟩
    have hloops : s.loops = a.loops.map Prod.snd := hs.loops
    rw [hloops]
    exact .one (hs.setLoops ((p, {}) :: a.loops)) (.single (.pushLoop a p {}))
  | test => exact exec_of_test hs
  | beginRound => exact exec_of_beginRound hs
  | endRound => exact exec_of_endRound hs
  | closeLoop p pc c a l =>
    have hloops : s.loops = l :: a.loops.map Prod.snd := hs.loops
    refine ⟨_, ?_, .one (hs.setLoops a.loops) (.single (.popLoop a p l))⟩
    simp only [exec, hloops]
    rfl
  | refuse pc c a hanchored hleft =>
    refine ⟨_, ?_, .fail⟩
    simp [exec, hanchored, hleft]

/-! ## Steps -/

/-- **What a machine has kept of the threads that it can go back to.**  The log leads from the scene
of the thread that it follows to the one where it went on from the thread before, and so on, and in
the end to the scene that it started from. -/
inductive Backlog : Scene → List Undo → List Retry → List Thread → Prop
  | empty {a : Scene} {log : List Undo} (rewinds : Rewinds log a .blank) : Backlog a log [] []
  | noted {a : Scene} {undos log : List Undo} {retry : List Retry} {σ : Thread}
      {rest : List Thread} (rewinds : Rewinds undos a σ.scene)
      (older : Backlog σ.scene log retry rest) :
      Backlog a (undos ++ log) (⟨σ.pc, σ.cursor, log.length⟩ :: retry) (σ :: rest)

/-- More changes may be put on top of the log. -/
theorem Backlog.push {a b : Scene} {undos log : List Undo} {retry : List Retry}
    {rest : List Thread} (h : Backlog b log retry rest) (hundos : Rewinds undos a b) :
    Backlog a (undos ++ log) retry rest := by
  cases h with
  | empty rewinds => exact .empty (hundos.append rewinds)
  | noted rewinds older =>
    rw [← List.append_assoc]
    exact .noted (hundos.append rewinds) older

/-- **Does a machine follow a thread**, with others to go back to? -/
structure Follows (m : Machine) (σ : Thread) (rest : List Thread) : Prop where
  pc : m.pc = σ.pc
  cursor : m.cursor = σ.cursor
  shows : m.state.Shows σ.scene
  backlog : Backlog σ.scene m.log m.retry rest

/-- **Has a machine come this far with its threads?**  It follows the first of them, or has stopped
because there is none, and then nothing is left in its trace. -/
inductive Progress.Follows : Progress → List Thread → Prop
  | running {m : Machine} {σ : Thread} {rest : List Thread} (h : m.Follows σ rest) :
      Follows (.running m) (σ :: rest)
  | stopped {root : Tables} (h : root.ReadsAs []) : Follows (.stopped none root) []

namespace Follows

variable {code : Code} {anchored : Bool} {m : Machine} {σ : Thread} {σs rest : List Thread}
  {op : Op}

theorem start (c : Cursor) : (Machine.start c).Follows ⟨0, c, .blank⟩ [] :=
  ⟨rfl, rfl, .blank, .empty (.nil _)⟩

/-- **A step of a machine does to its threads what the instruction does to the first of them.** -/
theorem step (h : m.Follows σ rest) (hop : code[σ.pc]? = some op)
    (hleads : Leads anchored op σ σs) :
    ∃ g, m.step code anchored = .ok g ∧ g.Follows (σs ++ rest) := by
  obtain ⟨pc, cursor, state, log, retry⟩ := m
  obtain ⟨hpc, hcursor, hshows, hbacklog⟩ := h
  simp only at hpc hcursor hshows hbacklog
  subst hpc hcursor
  obtain ⟨e, hexec, hcarries⟩ := exec_of_leads hleads hshows
  simp only [Machine.step, hop, hexec]
  cases hcarries with
  | fail =>
    cases hbacklog with
    | empty rewinds =>
      obtain ⟨s', hrewind, hs'⟩ := rewinds.exists_rewind hshows []
      rw [List.append_nil] at hrewind
      exact ⟨_, bind_eq_ok.mpr ⟨_, rfl, bind_eq_ok.mpr ⟨_, hrewind, rfl⟩⟩, .stopped hs'.root⟩
    | @noted _ undos log retry σ' rest rewinds older =>
      obtain ⟨s', hrewind, hs'⟩ := rewinds.exists_rewind hshows log
      exact ⟨_, bind_eq_ok.mpr ⟨_, rfl, bind_eq_ok.mpr ⟨_, hrewind, rfl⟩⟩,
        .running ⟨rfl, rfl, hs', older⟩⟩
  | @go pc' c' s' a undos instead shows rewinds =>
    refine ⟨_, rfl, .running ⟨rfl, rfl, shows, ?_⟩⟩
    cases instead with
    | none => exact hbacklog.push rewinds
    | some pc =>
      let other : Thread := ⟨pc, σ.cursor, σ.scene⟩
      have hnoted : Backlog a (undos ++ log) (⟨other.pc, other.cursor, log.length⟩ :: retry)
        (other :: rest) := .noted rewinds hbacklog
      exact hnoted

/-- **A machine that has come to the end** stops there, and leaves what is recorded. -/
theorem step_accept (h : m.Follows σ rest) (hop : code[σ.pc]? = some .accept)
    (haccept : anchored = true → σ.cursor.left = 0) :
    m.step code anchored = .ok (.stopped (some σ.cursor) m.state.root) := by
  have hexec : exec anchored σ.pc σ.cursor m.state .accept = .ok .accept := by
    cases anchored with
    | false => rfl
    | true => simp [exec, haccept rfl]
  rw [Machine.step, h.pc, h.cursor, hop]
  simp only [hexec]
  rfl

end Follows

end Machine

end CaptureTree
