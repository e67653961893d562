import CaptureTree.Proofs.Ancestors
import CaptureTree.Proofs.Trace.Placement
import CaptureTree.Proofs.Value.Alike

/-!
# Traces with more records than necessary

An engine may record more than captures need: which branch an alternation without captures
took, and how often a quantifier without captures went round.  `Trace.Enriched` says that one
trace comes from another by adding such records, in any of its frames and in any number.

They may not be added just anywhere.  `Trace.OpenAt` excludes two kinds of places: the body of a
loop with captures, whose records belong into the frames of the loop, and the branches of an
alternation in the value that were not taken.

To a reader who looks at nodes with captures an enriched frame is hardly different.  All spans,
and the choices of alternations with captures, are the same.  The iterations of quantifiers with
captures are enriched in turn (`Enriched.frames`), and the branches taken are still those
(`Enriched.branchTaken`).
-/

namespace CaptureTree

open Located

/-! ## Records of nodes without captures -/

/-- **Is the record one of a node without captures**, in order in this scope?  The frame of an
iteration holds such records only. -/
inductive Record.CaptureFree : Located → Record → Prop
  | choice {p a : Located} {n : NodeId} {i : Nat} (node : p.find n = some a)
      (kind : a.kind = .alternation) (none : a.hasCapture = false)
      (branch : i < a.children.length) : CaptureFree p (.choice n i)
  | iteration {p q b : Located} {n : NodeId} {f : Trace} (node : p.find n = some q)
      (kind : q.kind = .quantifier) (none : q.hasCapture = false) (body : q.body = some b)
      (inside : ∀ r ∈ f, CaptureFree b r) : CaptureFree p (.iteration n f)

namespace Record.CaptureFree

variable {p a : Located} {r : Record}

theorem placed (h : CaptureFree p r) (size : Nat) : Record.Placed size (some p) r := by
  induction h with
  | choice hnode hk _ hbranch => exact .choice hnode hk hbranch
  | iteration hnode hk _ hbody _ ih =>
    refine .iteration hnode hk fun r hr => ?_
    rw [hbody]
    exact ih r hr

theorem spans_eq_nil (h : CaptureFree p r) (n : NodeId) : Trace.spans [r] n = [] := by
  cases h <;> rfl

/-- It is not a record of a node with captures. -/
theorem node_ne (h : CaptureFree p r) (hd : p.Distinct) (ha : a ∈ p.subtrees)
    (hcap : a.hasCapture = true) : r.node ≠ a.id := by
  intro hid
  obtain ⟨b, hfind, hnone⟩ : ∃ b, p.find r.node = some b ∧ b.hasCapture = false := by
    cases h with
    | choice hnode _ hnone _ | iteration hnode _ hnone _ _ => exact ⟨_, hnode, hnone⟩
  rw [hid, hd.find_id ha] at hfind
  obtain rfl := Option.some.inj hfind
  rw [hcap] at hnone
  cases hnone

end Record.CaptureFree

namespace Trace

variable {root p a q b : Located} {f t u : Trace} {n : NodeId} {size i : Nat}

/-! ## Reading a record in front of others -/

theorem touches_cons (r : Record) (t : Trace) (p : Located) :
    touches (r :: t) p = true ↔ r.node ∈ p.ids ∨ t.touches p = true := by
  simp only [touches, List.any_cons, Bool.or_eq_true, List.contains_iff_mem]

theorem spans_cons (r : Record) (t : Trace) (n : NodeId) :
    spans (r :: t) n = spans [r] n ++ t.spans n :=
  spans_append [r] t n

theorem choices_cons (r : Record) (t : Trace) (n : NodeId) :
    choices (r :: t) n = choices [r] n ++ t.choices n :=
  choices_append [r] t n

theorem iterations_cons (r : Record) (t : Trace) (n : NodeId) :
    iterations (r :: t) n = iterations [r] n ++ t.iterations n :=
  iterations_append [r] t n

/-! ## Enriched frames -/

/-- Is position `n` in a branch that was not taken, of an alternation that took one? -/
def passedOver (f : Trace) (a : Located) (n : NodeId) : Bool :=
  match f.liveBranches a with
  | [i] => a.children.zipIdx.any fun entry => entry.2 != i && (ids entry.1).contains n
  | _ => false

theorem eq_of_passedOver_eq_false (h : t.passedOver a n = false) (hlive : t.liveBranches a = [i])
    {j : Nat} (hb : a.children[j]? = some b) (hn : n ∈ b.ids) : j = i := by
  rw [passedOver, hlive] at h
  have hother := List.any_eq_false.mp h (b, j) (List.mem_zipIdx_iff_getElem?.mpr hb)
  simpa [hn] using hother

/-- **May something be added at position `n`** to a frame with scope `p`?  The position is in no
loop with captures, and in no branch that was not taken of an alternation with a slot in the
value. -/
structure OpenAt (root p : Located) (f : Trace) (n : NodeId) : Prop where
  loops : ∀ a ∈ p.ancestors n, a.kind = .quantifier → a.hasCapture = false
  branches : ∀ a ∈ p.ancestors n, a.kind = .alternation → a.hasCapture = true →
    root.isHidden a.id = false → f.passedOver a n = false

instance (root p : Located) (f : Trace) (n : NodeId) : Decidable (OpenAt root p f n) :=
  decidable_of_iff
    ((∀ a ∈ p.ancestors n, a.kind = .quantifier → a.hasCapture = false) ∧
      ∀ a ∈ p.ancestors n, a.kind = .alternation → a.hasCapture = true →
        root.isHidden a.id = false → f.passedOver a n = false)
    ⟨fun h => ⟨h.1, h.2⟩, fun h => ⟨h.loops, h.branches⟩⟩

/-- **Does a list of records come from another one by adding records of nodes without
captures?**  They belong to the frame `f`, whose scope is `p`; the frames of iterations may be
enriched as well. -/
inductive Enriched (root : Located) : Located → Trace → Trace → Trace → Prop
  | nil {p : Located} {f : Trace} : Enriched root p f [] []
  | keep {p : Located} {f t u : Trace} (r : Record) (rest : Enriched root p f t u) :
      Enriched root p f (r :: t) (r :: u)
  | inside {p q b : Located} {f g g' t u : Trace} {n : NodeId} (node : p.find n = some q)
      (body : q.body = some b) (frame : Enriched root b g g g') (rest : Enriched root p f t u) :
      Enriched root p f (.iteration n g :: t) (.iteration n g' :: u)
  | add {p : Located} {f t u : Trace} {r : Record} (free : r.CaptureFree p)
      (place : OpenAt root p f r.node) (rest : Enriched root p f t u) :
      Enriched root p f t (r :: u)

namespace Enriched

theorem refl (root p : Located) (f t : Trace) : Enriched root p f t t := by
  induction t with
  | nil => exact .nil
  | cons r t ih => exact .keep r ih

/-- What was added is in its place. -/
theorem placed (h : Enriched root p f t u) (ht : t.Placed size (some p)) :
    u.Placed size (some p) := by
  induction h with
  | nil => exact ht
  | keep r _ ih =>
    obtain ⟨hr, ht⟩ := List.forall_mem_cons.mp ht
    exact List.forall_mem_cons.mpr ⟨hr, ih ht⟩
  | @inside p q b f g g' t u n hnode hbody _ _ ihframe ih =>
    obtain ⟨hr, ht⟩ := List.forall_mem_cons.mp ht
    refine List.forall_mem_cons.mpr ⟨?_, ih ht⟩
    cases hr with
    | @iteration _ _ _ a hfind hk hinside =>
      obtain rfl : q = a := Option.some.inj (hnode.symm.trans hfind)
      rw [hbody] at hinside
      refine .iteration hfind hk fun r hr => ?_
      rw [hbody]
      exact ihframe hinside r hr
  | add hfree _ _ ih => exact List.forall_mem_cons.mpr ⟨hfree.placed size, ih ht⟩

/-! ## Rows of nodes with captures -/

/-- All spans are the same. -/
theorem spans_eq (h : Enriched root p f t u) (n : NodeId) : u.spans n = t.spans n := by
  induction h with
  | nil => rfl
  | @keep _ _ t u r _ ih => rw [spans_cons r u, spans_cons r t, ih]
  | @inside _ _ _ _ _ _ t u _ _ _ _ _ _ ih =>
    rw [spans_cons _ u, spans_cons _ t, ih]
    rfl
  | add hfree _ _ ih => rw [spans_cons, hfree.spans_eq_nil, List.nil_append, ih]

/-- The choices of a node with captures are the same. -/
theorem choices_eq (h : Enriched root p f t u) (hd : p.Distinct) (ha : a ∈ p.subtrees)
    (hcap : a.hasCapture = true) : u.choices a.id = t.choices a.id := by
  induction h with
  | nil => rfl
  | @keep _ _ t u r _ ih => rw [choices_cons r u, choices_cons r t, ih hd ha]
  | @inside _ _ _ _ _ _ t u _ _ _ _ _ _ ih =>
    rw [choices_cons _ u, choices_cons _ t, ih hd ha]
    rfl
  | add hfree _ _ ih =>
    rw [choices_cons, (rows_singleton (hfree.node_ne hd ha hcap)).2.1, List.nil_append, ih hd ha]

/-- **The iterations of a quantifier with captures are enriched one by one.** -/
theorem iterations (h : Enriched root p f t u) (hd : p.Distinct) (hq : q ∈ p.subtrees)
    (hcap : q.hasCapture = true) (hb : q.body = some b) :
    List.Forall₂ (fun g g' => Enriched root b g g g') (t.iterations q.id) (u.iterations q.id) := by
  induction h with
  | nil => exact .nil
  | @keep _ _ t u r _ ih =>
    rw [iterations_cons r t, iterations_cons r u]
    exact List.rel_append (List.forall₂_same.mpr fun g _ => .refl root b g g) (ih hd hq)
  | @inside p q' b' f g g' t u n hnode hbody hframe _ _ ih =>
    rw [iterations_cons _ t, iterations_cons _ u]
    refine List.rel_append ?_ (ih hd hq)
    by_cases hn : n = q.id
    · rw [hn, hd.find_id hq] at hnode
      obtain rfl := Option.some.inj hnode
      obtain rfl := Option.some.inj (hb.symm.trans hbody)
      rw [hn]
      have hrow : ∀ g, Trace.iterations [.iteration q.id g] q.id = [g] := by
        intro g
        rw [Trace.iterations, List.filterMap_cons_some (Record.frameOf?_eq_some.mpr rfl)]
        rfl
      rw [hrow, hrow]
      exact .cons hframe .nil
    · rw [(rows_singleton (r := .iteration n g) hn).2.2,
        (rows_singleton (r := .iteration n g') hn).2.2]
      exact .nil
  | add hfree _ _ ih =>
    rw [iterations_cons, (rows_singleton (hfree.node_ne hd hq hcap)).2.2, List.nil_append]
    exact ih hd hq

/-! ## What is touched -/

/-- What was touched still is. -/
theorem touches_mono (h : Enriched root p f t u) (ht : t.touches a = true) :
    u.touches a = true := by
  induction h with
  | nil => exact ht
  | keep r _ ih =>
    rw [touches_cons] at ht ⊢
    exact ht.imp_right ih
  | inside _ _ _ _ _ ih =>
    rw [touches_cons] at ht ⊢
    exact ht.imp_right ih
  | add _ _ _ ih =>
    rw [touches_cons]
    exact .inr (ih ht)

/-- What is touched was touched before, or is where something may be added. -/
theorem touches_cases (h : Enriched root p f t u) (hu : u.touches a = true) :
    t.touches a = true ∨ ∃ n ∈ a.ids, OpenAt root p f n := by
  induction h with
  | nil => exact .inl hu
  | keep r _ ih | inside _ _ _ _ _ ih =>
    rw [touches_cons] at hu
    rcases hu with hnode | hu
    · exact .inl ((touches_cons _ _ _).mpr (.inl hnode))
    · exact (ih hu).imp_left fun ht => (touches_cons _ _ _).mpr (.inr ht)
  | add _ hplace _ ih =>
    rw [touches_cons] at hu
    rcases hu with hnode | hu
    · exact .inr ⟨_, hnode, hplace⟩
    · exact ih hu

/-- **Nothing was added in the body of a loop with captures.** -/
theorem touches_body (h : Enriched root p f t u) (hq : q ∈ p.subtrees) (hk : q.kind = .quantifier)
    (hcap : q.hasCapture = true) (hb : b ∈ q.children) : u.touches b = t.touches b := by
  rw [Bool.eq_iff_iff]
  refine ⟨fun hu => ?_, h.touches_mono⟩
  rcases h.touches_cases hu with ht | ⟨n, hn, hopen⟩
  · exact ht
  · rw [hopen.loops q (mem_ancestors.mpr ⟨hq, b, hb, hn⟩) hk] at hcap
    cases hcap

/-- **The branch taken is still the one**, in an alternation with a slot in the value. -/
theorem branchTaken (h : Enriched root p t t u) (hd : p.Distinct) (ha : a ∈ p.subtrees)
    (hk : a.kind = .alternation) (hcap : a.hasCapture = true)
    (hvisible : root.isHidden a.id = false) {slot : SlotTitle}
    (hi : t.branchTaken slot a = .ok i) : u.branchTaken slot a = .ok i := by
  obtain ⟨hmany, hlive⟩ := branchTaken_eq_ok.mp hi
  have hchosen := h.choices_eq hd ha hcap
  have hsame : ∀ j, j ∈ u.liveBranches a ↔ j ∈ t.liveBranches a := by
    intro j
    rw [mem_liveBranches, mem_liveBranches, hchosen]
    refine exists_congr fun b => and_congr_right fun hb => ?_
    refine ⟨fun hlive' => ?_, fun hlive' => hlive'.imp_right h.touches_mono⟩
    rcases hlive' with hchoice | hu
    · exact .inl hchoice
    · rcases h.touches_cases hu with ht | ⟨n, hn, hopen⟩
      · exact .inr ht
      · -- what was added is in the branch that was taken
        have hanc : a ∈ p.ancestors n := mem_ancestors.mpr ⟨ha, b, List.mem_of_getElem? hb, hn⟩
        obtain rfl : j = i :=
          eq_of_passedOver_eq_false (hopen.branches a hanc hk hcap hvisible) hlive hb hn
        have hmem : j ∈ t.liveBranches a := by
          rw [hlive]
          exact List.mem_singleton_self j
        obtain ⟨b', hb', htaken⟩ := mem_liveBranches.mp hmem
        obtain rfl := Option.some.inj (hb.symm.trans hb')
        exact htaken
  refine branchTaken_eq_ok.mpr ⟨by rwa [hchosen], liveBranches_eq_singleton fun j => ?_⟩
  rw [hsame j, hlive, List.mem_singleton]

/-- **Every iteration has its counterpart**, whichever way the iterations were recorded. -/
theorem frames (h : Enriched root p f t u) (hd : p.Distinct) (hq : q ∈ p.subtrees)
    (hk : q.kind = .quantifier) (hcap : q.hasCapture = true) (hb : q.body = some b)
    {slot : SlotTitle} {fs : List Trace} (hframes : t.frames slot q = .ok fs) :
    ∃ gs, u.frames slot q = .ok gs ∧
      List.Forall₂ (fun g g' => Enriched root b g g g') fs gs := by
  have hiterations := h.iterations hd hq hcap hb
  have hbody : u.touches b = t.touches b := h.touches_body hq hk hcap (List.mem_of_head? hb)
  cases ht : t.touches b with
  | false =>
    rw [frames_of_untouched (untouched_of_body hb ht), Except.ok.injEq] at hframes
    rw [← hframes]
    exact ⟨_, frames_of_untouched (untouched_of_body hb (hbody.trans ht)), hiterations⟩
  | true =>
    have hsame : u.frames slot q = t.frames slot q := by
      rw [frames_of_touched hb ht] at hframes
      split at hframes
      · rename_i hempty
        rw [List.isEmpty_iff.mp hempty, List.forall₂_nil_left_iff] at hiterations
        refine frames_congr slot (hiterations.trans (List.isEmpty_iff.mp hempty).symm) ?_
        intro b' hb'
        obtain rfl := Option.some.inj (hb.symm.trans hb')
        exact ⟨hbody, fun c _ => h.spans_eq c.id⟩
      · cases hframes
    exact ⟨fs, hsame.trans hframes, List.forall₂_same.mpr fun g _ => .refl root b g g⟩

end Enriched

end Trace

end CaptureTree
