import CaptureTree.Proofs.Machine.Running
import CaptureTree.Proofs.Places

/-!
# Loops keep to their bounds

A quantifier says how often its body has to match, and how often it may match at most.  The search
counts the rounds of every loop that is open; loops stand inside loops, and an attempt that fails
goes back to an older count.  What is left in the end can be counted again, since every round
leaves a frame in the trace and an item in the value.  `Bounds.Honours` says that these numbers
are right: not below the minimum, not above the maximum, and not above the minimum by more than
the number of bytes matched, since a round that is not required has to consume a byte.

Both counts rest on the positions of runs (`Trace.RunBetween`, `Trace.RunInside`).

* A frame holds either no iteration of a quantifier or those of one run through it
  (`Trace.RunInside.honours`), and it is itself the frame of a run through its scope
  (`Trace.RunInside.exists_scope`).
* The slots of the value are read at places where a run was recorded
  (`Trace.RunInside.inherited`), and a list has one item for each iteration.
-/

namespace CaptureTree

open Relation

/-- **Does a loop that goes round `k` times keep to the bounds**, on a match of `size` bytes? -/
structure Bounds.Honours (b : Bounds) (size k : Nat) : Prop where
  least : b.min ≤ k
  most : ∀ max ∈ b.max, k ≤ max
  /-- Every round beyond the required ones consumed a byte. -/
  few : k ≤ b.min + size

theorem Bounds.Honours.mono {b : Bounds} {size size' k : Nat} (h : b.Honours size k)
    (hsize : size ≤ size') : b.Honours size' k :=
  ⟨h.least, h.most, Nat.le_trans h.few (Nat.add_le_add_left hsize b.min)⟩

/-! ## Frames -/

namespace Trace

open Located

variable {p q : Located} {a b size : Nat} {t f : Trace}

namespace RunBetween

/-- A run through a loop around a capture has recorded its rounds, as many as the bounds allow. -/
theorem of_quantifier (h : RunBetween p a b t) (hk : p.kind = .quantifier)
    (hcap : p.hasCapture = true) :
    (∀ slot, t.frames slot p = .ok (t.iterations p.id)) ∧
      p.bounds.Honours (b - a) (t.iterations p.id).length := by
  cases h with
  | loop _ hc _ hloose hallow hfew =>
    exact ⟨fun _ => frames_of_untouched (untouched_of_body (body_eq_some hc) hloose),
      hallow.1, hallow.2, hfew⟩
  | silent _ hc hnone =>
    rw [hasCapture_body (by rw [hk]; decide) hc, hnone] at hcap
    cases hcap
  | literal hk' | capture hk' | group hk' | concat hk' | alternation hk' =>
    rw [hk'] at hk
    cases hk

end RunBetween

namespace RunInside

/-- **The frame of a run holds no iteration of a quantifier, or as many as its bounds allow.** -/
theorem honours (h : RunInside a b p t) (hq : q ∈ p.subtrees) (hk : q.kind = .quantifier)
    (hcap : q.hasCapture = true) :
    t.iterations q.id = [] ∨ q.bounds.Honours (b - a) (t.iterations q.id).length := by
  by_cases hsome : t.iterations q.id = []
  · exact .inl hsome
  · obtain ⟨a', b', hrun, ha, hb⟩ := h.part hq (touches_of_iterations hsome)
    exact .inr ((hrun.of_quantifier hk hcap).2.mono (by omega))

/-- The frame of an iteration is that of a run through the body of a quantifier. -/
theorem exists_body (h : RunInside a b p t) (ht : t.Placed size (some p)) {n : NodeId}
    (hf : f ∈ t.iterations n) : ∃ s ∈ p.subtrees, RunInside a b s f ∧ f.Placed size (some s) := by
  have hrecord := ht _ (mem_iterations.mp hf)
  cases hrecord with
  | @iteration _ _ _ q hfind hk hinside =>
    obtain ⟨hq, rfl⟩ := mem_subtrees_of_find (p := p) hfind
    have hrun := h.part hq (touches_of_iterations (List.ne_nil_of_mem hf))
    obtain ⟨s, hc, hround⟩ := hrun.round hk hf
    rw [body_eq_some hc] at hinside
    have hs : s ∈ q.subtrees := mem_subtrees_of_mem_children (mem_children_of_eq hc)
    exact ⟨s, Tree.mem_subtrees_trans hs hq, hround, hinside⟩

/-- **Every frame of a run is the frame of a run through a part of the pattern**, its scope. -/
theorem exists_scope (h : RunInside a b p t) (ht : t.Placed size (some p))
    {address : FrameAddress} (hf : t.frame? address = some f) :
    ∃ s ∈ p.subtrees, RunInside a b s f ∧ f.Placed size (some s) := by
  induction address generalizing p t with
  | nil =>
    obtain rfl := Option.some.inj hf
    exact ⟨p, Tree.mem_subtrees_self p, h, ht⟩
  | cons entry address ih =>
    obtain ⟨g, hg, hf⟩ := Option.bind_eq_some_iff.mp hf
    obtain ⟨s, hs, hrun, hplaced⟩ := h.exists_body ht (List.mem_of_getElem? hg)
    obtain ⟨s', hs', hrun', hplaced'⟩ := ih hrun hplaced hf
    exact ⟨s', Tree.mem_subtrees_trans hs' hs, hrun', hplaced'⟩

/-- In every frame of a run all loops keep to their bounds. -/
theorem honours_frame (h : RunInside a b p t) (hd : p.Distinct) (ht : t.Placed size (some p))
    {address : FrameAddress} (hf : t.frame? address = some f) (hq : q ∈ p.subtrees)
    (hk : q.kind = .quantifier) (hcap : q.hasCapture = true) :
    f.iterations q.id = [] ∨ q.bounds.Honours (b - a) (f.iterations q.id).length := by
  obtain ⟨s, hs, hrun, hplaced⟩ := h.exists_scope ht hf
  by_cases hinside : q ∈ s.subtrees
  · exact hrun.honours hinside hk hcap
  · -- the frame holds records for nodes of its scope only
    left
    by_contra hsome
    obtain ⟨g, hg⟩ := List.exists_mem_of_ne_nil _ hsome
    obtain ⟨x, hx, hid⟩ := mem_ids.mp (hplaced _ (mem_iterations.mp hg)).node_mem_ids
    exact hinside (hd.eq_of_id_eq (Tree.mem_subtrees_trans hx hs) hq hid ▸ hx)

/-- Where assembly enters a child, there was a run through the child. -/
theorem enters (h : RunInside a b p t) (hcap : p.hasCapture = true) (henter : t.Enters p q f) :
    RunInside a b q f := by
  cases henter with
  | part hk hq => exact h.child hq (.inr (.inl hk))
  | branch hk htaken hq =>
    obtain ⟨a', b', hrun, ha, hb⟩ := h
    cases hrun with
    | alternation _ hi hchosen hinside hothers =>
      have hlive := Executed.liveBranches_eq hi (hchosen hcap) hothers
      rw [(branchTaken_eq_ok.mp htaken).2] at hlive
      obtain rfl := (List.cons.inj hlive).1
      obtain rfl := Option.some.inj (hq.symm.trans hi)
      exact hinside.inside.mono ha hb
    | literal hk' | capture hk' | group hk' | concat hk' | loop hk' | silent hk' =>
      rw [hk'] at hk
      cases hk
  | round hk hc hframes hf =>
    obtain ⟨a', b', hrun, ha, hb⟩ := h
    rw [(hrun.of_quantifier hk hcap).1] at hframes
    obtain rfl := Except.ok.inj hframes
    obtain ⟨q', hc', hround⟩ := (hrun.inside.mono ha hb).round hk hf
    rw [hc] at hc'
    exact (List.cons.inj hc').1 ▸ hround

/-- **Assembly goes from run to run.** -/
theorem inherited (a b : Nat) : Place.Inherited (RunInside a b) where
  inside hk hq h := h.child hq (hk.imp_right .inl)
  entered hcap henter h := h.enters hcap henter

end RunInside

end Trace

/-! ## Lists -/

/-- **A list that is read from the frame of a run has as many items as the bounds allow.** -/
theorem Place.honours_of_runInside {x : Place} {a b : Nat} {q : Located} {s : Shape} {v : Value}
    (h : x.Satisfies (Trace.RunInside a b)) (hx : x.shape = .repeated q s)
    (hv : x.assemble = .ok v) : q.bounds.Honours (b - a) v.children.length := by
  obtain ⟨o, -, hcap, ⟨a', b', hrun, ha, hb⟩, hstems⟩ :=
    h.exists_origin (Trace.RunInside.inherited a b) (by simp [hx])
  rw [hx] at hstems
  cases hstems with
  | repeated hk =>
    obtain ⟨hframes, hhonours⟩ := hrun.of_quantifier hk hcap
    rw [assemble, hx] at hv
    obtain ⟨fs, hfs, vs, hall, rfl⟩ := Value.assemble_repeated_eq_ok.mp hv
    rw [hframes] at hfs
    obtain rfl := Except.ok.inj hfs
    show q.bounds.Honours (b - a) vs.length
    rw [← hall.length_eq]
    exact hhonours.mono (by omega)

namespace Regex

/-- **Loops keep to their bounds.**  In what matching and searching return every list has at least
as many items as its quantifier requires and at most as many as it allows, and no more than it
requires and there are bytes in the match.  So it is in every frame of the trace that they find,
with the iterations of every quantifier around a capture, be it hidden inside another capture or
not, unless the frame holds no iteration of it at all. -/
theorem loops_honour_bounds {p : Pattern} {r : Regex} (h : compile p = .ok r) (w : Bytes) :
    (∀ m, r.match? w = .ok (some m) ∨ r.search? w = .ok (some m) →
      ∀ v q s, ReflTransGen View.Step m.root v → v.shape = .repeated q s →
        q.bounds.Honours m.whole.size v.value.children.length) ∧
      ∀ whole t, r.pattern.match? w = some (whole, t) ∨ r.pattern.search? w = some (whole, t) →
        ∀ address f, t.frame? address = some f →
          ∀ q : Located, q ∈ r.pattern.subtrees → q.kind = .quantifier → q.hasCapture = true →
            f.iterations q.id = [] ∨ q.bounds.Honours whole.size (f.iterations q.id).length := by
  obtain ⟨hr, -⟩ := compiled_of_compile h
  have hsize : ∀ s : Span, s.start ≤ s.stop → s.size = s.stop - s.start := fun s hs => if_pos hs
  constructor
  · intro m hm v q s hwalk hshape
    obtain ⟨t, hfound, heval⟩ := exists_found hm
    have hrun := hr.runBetween hfound
    obtain ⟨hroot, hvalue⟩ := assemble_of_evaluate heval
    obtain ⟨f, hreach, hf⟩ := View.exists_place hwalk (hroot.symm ▸ hvalue)
    rw [hroot] at hreach
    have hwithin : Place.Satisfies (Trace.RunInside _ _) ⟨r.shape, t⟩ :=
      ⟨r.pattern, hr.wellFormed, hr.shape, hrun.inside⟩
    rw [hsize _ hrun.le]
    exact Place.honours_of_runInside
      (hwithin.of_reaches (Trace.RunInside.inherited _ _) hreach) hshape hf
  · intro whole t hfound address f hf q hq hk hcap
    have hrun := hr.runBetween hfound
    rw [hsize _ hrun.le]
    exact hrun.inside.honours_frame hr.distinct (hr.placed hfound) hf hq hk hcap

/-- **Counters and frames keep to the bounds.**  A machine counts the rounds of all open loops on
one stack, and a counter that is out of step with the frames in its tables would let a loop stop
too early or too late.  In every state that a machine comes to, on whatever way it came back there,
the loops that are open are those of the quantifiers around the node of the next instruction, and
their counters agree with the frames.  So the bounds hold of what it ends with: in every frame of its
tables, a quantifier around a capture, be it hidden inside another capture or not, has either no
iteration or as many as its bounds allow, and no more than it requires and there are bytes in the
match.  And so they hold of the lists in what matching and searching return. -/
theorem counters_honour_bounds {p : Pattern} {r : Regex} (h : compile p = .ok r) (w : Bytes) :
    (∀ anchored b m, ReflTransGen (Machine.Goes r.pattern.program anchored)
        (.start ((Cursor.ofInput w).advance b)) m →
      ∃ op, r.pattern.program[m.pc]? = some op ∧ m.state.KeepsCount r.pattern op) ∧
      (∀ whole root, Machine.Ends (Machine.traceMatch r.pattern w) (some whole, root) ∨
          Machine.Ends (Machine.traceSearch r.pattern w) (some whole, root) →
        ∀ address f, root.frame? address = some f →
          ∀ q : Located, q ∈ r.pattern.subtrees → q.kind = .quantifier → q.hasCapture = true →
            f.iterations q.id = [] ∨ q.bounds.Honours whole.size (f.iterations q.id).length) ∧
      (Machine.Reports (Machine.traceMatch r.pattern w) (r.pattern.match? w) ∧
        Machine.Reports (Machine.traceSearch r.pattern w) (r.pattern.search? w)) ∧
      ∀ m, r.match? w = .ok (some m) ∨ r.search? w = .ok (some m) →
        ∀ v q s, ReflTransGen View.Step m.root v → v.shape = .repeated q s →
          q.bounds.Honours m.whole.size v.value.children.length := by
  obtain ⟨hr, -⟩ := compiled_of_compile h
  obtain ⟨hlists, hframes⟩ := loops_honour_bounds h w
  have hmatch := Machine.reports_traceMatch hr.wellFormed hr.distinct w
  have hsearch := Machine.reports_traceSearch hr.wellFormed hr.distinct w
  refine ⟨fun _ b _ hreach => Machine.keepsCount hr.wellFormed hr.distinct
    ((Cursor.coherent_ofInput w).advance b) hreach, ?_, ⟨hmatch, hsearch⟩, hlists⟩
  intro whole root hending address f hf q hq hk hcap
  -- the machine ends with a trace that is found without it
  obtain ⟨t, hfound, hreads⟩ : ∃ t, (r.pattern.match? w = some (whole, t) ∨
      r.pattern.search? w = some (whole, t)) ∧ root.ReadsAs t := by
    rcases hending with hending | hending
    · obtain ⟨t, ht, hreads⟩ := hmatch.exists_trace hending
      exact ⟨t, .inl ht, hreads⟩
    · obtain ⟨t, ht, hreads⟩ := hsearch.exists_trace hending
      exact ⟨t, .inr ht, hreads⟩
  obtain ⟨g, hg, hsame⟩ := hreads.exists_frame hf
  have hlength : (f.iterations q.id).length = (g.iterations q.id).length :=
    (hsame.iterations q.id).length_eq
  have hhonours := hframes whole t hfound address g hg q hq hk hcap
  rw [← List.length_eq_zero_iff, ← hlength] at hhonours
  rwa [← List.length_eq_zero_iff]

/-- A loop that has to go round twice, the second time without consuming anything, and a loop
that is hidden inside a capture. -/
def requiredAndHidden : Pattern :=
  .concat [(Pattern.exact [0x61]).optional.capture.repeated 2 (some 3),
    (Pattern.exact [0x62]).capture.plus.capture]

theorem counters_honour_bounds_requiredAndHidden :
    let w : Bytes := [0x61, 0x62, 0x62]
    ∃ r root, compile requiredAndHidden = .ok r ∧
      Machine.Ends (Machine.traceMatch r.pattern w) (some ⟨0, 3⟩, root) ∧
      (root.iterations 1).length = 2 ∧ (root.iterations 6).length = 2 ∧
      ∀ q : Located, q ∈ r.pattern.subtrees → q.kind = .quantifier → q.hasCapture = true →
        root.iterations q.id = [] ∨ q.bounds.Honours 3 (root.iterations q.id).length := by
  intro w
  have hrun : (requiredAndHidden.locate.match? w).map (fun found =>
      (found.1, (found.2.iterations 1).length, (found.2.iterations 6).length)) =
      some (⟨0, 3⟩, 2, 2) := by
    rw [Located.match?_eq_find?]
    decide +kernel
  obtain ⟨⟨whole, t⟩, ht, hcounts⟩ := Option.map_eq_some_iff.mp hrun
  obtain ⟨rfl, hcounts⟩ := Prod.mk.inj hcounts
  obtain ⟨hfirst, hsecond⟩ := Prod.mk.inj hcounts
  obtain ⟨r, hr⟩ : ∃ r, compile requiredAndHidden = .ok r := ⟨_, rfl⟩
  obtain ⟨-, hpattern⟩ := compiled_of_compile hr
  rw [← hpattern] at ht
  obtain ⟨-, hbounds, ⟨⟨root, hending, hreads⟩, -⟩, -⟩ := counters_honour_bounds hr w
  rw [ht] at hending hreads
  have hlength : ∀ n, (root.iterations n).length = (t.iterations n).length :=
    fun n => (hreads.iterations n).length_eq
  exact ⟨r, root, hr, hending, (hlength 1).trans hfirst, (hlength 6).trans hsecond,
    hbounds ⟨0, 3⟩ root (.inl hending) [] root rfl⟩

end Regex

end CaptureTree
