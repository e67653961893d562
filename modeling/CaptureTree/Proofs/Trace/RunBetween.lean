import CaptureTree.Proofs.Trace.Executed

/-!
# Where a run begins and where it ends

`Trace.Executed` describes the rows that one run through a pattern leaves, but not where in the
input they were made.  `Trace.RunBetween` does: the run begins at one position and ends at
another.

* The span of a capture lies between these two.
* A sequence is cut at positions that its parts have in common, each part beginning where the
  one before it ends; and so is a loop by its iterations.
* A loop does not go round more often than its minimum requires, unless every further round
  consumes a byte.

Positions only move forward (`RunBetween.le`), and like any run this one is known by its rows
(`RunBetween.congr`).  What a frame holds for a part of the pattern was recorded in a run through
this part, between the same two positions (`RunInside.part`).
-/

namespace CaptureTree

namespace Trace

open Located

/-- **Does the frame hold what one run through the pattern records, from position `a` to position
`b`?** -/
inductive RunBetween : Located → Nat → Nat → Trace → Prop
  | literal {p : Located} {a b : Nat} {t : Trace} (kind : p.kind = .literal)
      (children : p.children = []) (ordered : a ≤ b) : RunBetween p a b t
  | capture {p q : Located} {a b : Nat} {t : Trace} (kind : p.kind = .capture)
      (children : p.children = [q]) (span : t.spans p.id = [⟨a, b⟩])
      (inside : RunBetween q a b t) : RunBetween p a b t
  | group {p q : Located} {a b : Nat} {t : Trace} (kind : p.kind = .group)
      (children : p.children = [q]) (inside : RunBetween q a b t) : RunBetween p a b t
  | concat {p : Located} {a b : Nat} {t : Trace} {cut : Nat → Nat} (kind : p.kind = .concat)
      (first : cut 0 = a) (last : cut p.children.length = b)
      (parts : ∀ i q, p.children[i]? = some q → RunBetween q (cut i) (cut (i + 1)) t) :
      RunBetween p a b t
  | alternation {p q : Located} {a b : Nat} {t : Trace} {i : Nat} (kind : p.kind = .alternation)
      (branch : p.children[i]? = some q) (chosen : p.hasCapture = true → t.choices p.id = [i])
      (inside : RunBetween q a b t)
      (others : ∀ j b, p.children[j]? = some b → j ≠ i → t.touches b = false) :
      RunBetween p a b t
  /-- Every round of a loop around a capture has a frame. -/
  | loop {p q : Located} {a b : Nat} {t : Trace} {cut : Nat → Nat} (kind : p.kind = .quantifier)
      (children : p.children = [q]) (capture : q.hasCapture = true)
      (loose : t.touches q = false) (allowed : p.bounds.Allow (t.iterations p.id).length)
      (few : (t.iterations p.id).length ≤ p.bounds.min + (b - a))
      (first : cut 0 = a) (last : cut (t.iterations p.id).length = b)
      (rounds : ∀ i f, (t.iterations p.id)[i]? = some f → RunBetween q (cut i) (cut (i + 1)) f) :
      RunBetween p a b t
  /-- The rounds of any other loop are not recorded. -/
  | silent {p q : Located} {a b : Nat} {t : Trace} (kind : p.kind = .quantifier)
      (children : p.children = [q]) (capture : q.hasCapture = false)
      (untouched : t.touches p = false) (ordered : a ≤ b) : RunBetween p a b t

/-- Cuts that do not go back from one to the next do not go back at all. -/
theorem cut_le {cut : Nat → Nat} {n : Nat} (h : ∀ i < n, cut i ≤ cut (i + 1)) {i j : Nat}
    (hij : i ≤ j) (hj : j ≤ n) : cut i ≤ cut j := by
  induction hij with
  | refl => exact Nat.le_refl _
  | @step j _ ih => exact Nat.le_trans (ih (by omega)) (h j (by omega))

namespace RunBetween

variable {p q : Located} {a b : Nat} {t u : Trace}

/-- **Positions only move forward.** -/
theorem le (h : RunBetween p a b t) : a ≤ b := by
  induction h with
  | literal _ _ hle | silent _ _ _ _ hle => exact hle
  | capture _ _ _ _ ih | group _ _ _ ih | alternation _ _ _ _ _ ih => exact ih
  | @concat p a b t cut _ hfirst hlast _ ih =>
    rw [← hfirst, ← hlast]
    refine cut_le (fun i hi => ?_) (Nat.zero_le _) (Nat.le_refl _)
    exact ih i _ (List.getElem?_eq_getElem hi)
  | @loop p q a b t cut _ _ _ _ _ _ hfirst hlast _ ih =>
    rw [← hfirst, ← hlast]
    refine cut_le (fun i hi => ?_) (Nat.zero_le _) (Nat.le_refl _)
    exact ih i _ (List.getElem?_eq_getElem hi)

/-- The parts of a sequence lie between its ends, and so do the rounds of a loop. -/
theorem cut_between {α : Type} {cut : Nat → Nat} {xs : List α} {q : α → Located} {t : α → Trace}
    (h : ∀ i x, xs[i]? = some x → RunBetween (q x) (cut i) (cut (i + 1)) (t x)) {i : Nat} {x : α}
    (hx : xs[i]? = some x) : cut 0 ≤ cut i ∧ cut (i + 1) ≤ cut xs.length := by
  have hstep : ∀ i < xs.length, cut i ≤ cut (i + 1) := fun i hi =>
    (h i _ (List.getElem?_eq_getElem hi)).le
  obtain ⟨hi, -⟩ := List.getElem?_eq_some_iff.mp hx
  exact ⟨cut_le hstep (Nat.zero_le i) (Nat.le_of_lt hi), cut_le hstep hi (Nat.le_refl _)⟩

/-- **A run is known by its rows alone.** -/
theorem congr (h : RunBetween p a b t) (hagree : AgreeOn p t u) : RunBetween p a b u := by
  induction h generalizing u with
  | literal hk hc hle => exact .literal hk hc hle
  | @capture p q a b t hk hc hspan _ ih =>
    refine .capture hk hc ?_ (ih (hagree.child (mem_children_of_eq hc)))
    rw [← hagree.spans p.id (id_mem_ids_self p), hspan]
  | @group p q a b t hk hc _ ih => exact .group hk hc (ih (hagree.child (mem_children_of_eq hc)))
  | concat hk hfirst hlast _ ih =>
    exact .concat hk hfirst hlast fun i q hq => ih i q hq (hagree.child (List.mem_of_getElem? hq))
  | @alternation p q a b t i hk hb hchosen _ hothers ih =>
    refine .alternation hk hb (fun hcap => ?_) (ih (hagree.child (List.mem_of_getElem? hb)))
      fun j b hj hne => (hagree.child (List.mem_of_getElem? hj)).untouched (hothers j b hj hne)
    rw [← hagree.choices p.id (id_mem_ids_self p), hchosen hcap]
  | @loop p q a b t cut hk hc hcap hloose hallow hfew hfirst hlast hrounds _ =>
    have hrows := hagree.iterations p.id (id_mem_ids_self p)
    rw [hrows] at hallow hfew hlast hrounds
    exact .loop hk hc hcap ((hagree.child (mem_children_of_eq hc)).untouched hloose) hallow hfew
      hfirst hlast hrounds
  | silent hk hc hcap huntouched hle => exact .silent hk hc hcap (hagree.untouched huntouched) hle

/-- **It is a run.** -/
theorem executed (h : RunBetween p a b t) : Executed p t := by
  induction h with
  | literal hk hc _ => exact .literal hk hc
  | capture hk hc hspan _ ih => exact .capture hk hc hspan ih
  | group hk hc _ ih => exact .group hk hc ih
  | concat hk _ _ _ ih =>
    refine .concat hk fun q hq => ?_
    obtain ⟨i, hi⟩ := List.mem_iff_getElem?.mp hq
    exact ih i q hi
  | alternation hk hb hchosen _ hothers ih => exact .alternation hk hb hchosen ih hothers
  | loop hk hc _ hloose hallow _ _ _ _ ih =>
    refine .quantifier hk hc (fun _ => hloose) (fun _ => hallow) fun _ f hf => ?_
    obtain ⟨i, hi⟩ := List.mem_iff_getElem?.mp hf
    exact ih i f hi
  | silent hk hc hcap _ _ =>
    -- the body records nothing, so nothing is asked of it
    have hnone : ∀ {P : Prop}, _ → P := fun h => absurd h (ne_true_of_eq_false hcap)
    exact .quantifier hk hc hnone hnone hnone

end RunBetween

/-! ## Runs inside a run -/

/-- **Does the frame hold what one run through the pattern records**, one that does not leave what
lies between positions `a` and `b`? -/
def RunInside (a b : Nat) (p : Located) (t : Trace) : Prop :=
  ∃ a' b', RunBetween p a' b' t ∧ a ≤ a' ∧ b' ≤ b

variable {p q : Located} {a b a' b' : Nat} {t : Trace}

theorem RunBetween.inside (h : RunBetween p a b t) : RunInside a b p t :=
  ⟨a, b, h, Nat.le_refl a, Nat.le_refl b⟩

namespace RunInside

theorem mono (h : RunInside a' b' p t) (ha : a ≤ a') (hb : b' ≤ b) : RunInside a b p t := by
  obtain ⟨a'', b'', hrun, ha', hb'⟩ := h
  exact ⟨a'', b'', hrun, by omega, by omega⟩

/-- A run through a node holds one through each child, unless the frame holds nothing for the
child.  A group or a sequence holds them in any case. -/
theorem child (h : RunInside a b p t) (hq : q ∈ p.children)
    (htouch : p.kind = .group ∨ p.kind = .concat ∨ t.touches q = true) : RunInside a b q t := by
  obtain ⟨a', b', hrun, ha, hb⟩ := h
  refine mono ?_ ha hb
  cases hrun with
  | literal _ hc _ =>
    rw [hc] at hq
    exact absurd hq List.not_mem_nil
  | capture _ hc _ hinside | group _ hc hinside =>
    rw [hc, List.mem_singleton] at hq
    exact hq ▸ hinside.inside
  | concat _ hfirst hlast hparts =>
    obtain ⟨i, hi⟩ := List.mem_iff_getElem?.mp hq
    obtain ⟨hafter, hbefore⟩ := RunBetween.cut_between hparts hi
    exact (hparts i q hi).inside.mono (hfirst ▸ hafter) (hlast ▸ hbefore)
  | @alternation _ x _ _ _ i hk hb _ hinside hothers =>
    obtain ⟨j, hj⟩ := List.mem_iff_getElem?.mp hq
    by_cases hji : j = i
    · subst hji
      obtain rfl := Option.some.inj (hj.symm.trans hb)
      exact hinside.inside
    · simp [hk, hothers j q hj hji] at htouch
  | loop hk hc _ hloose =>
    rw [hc, List.mem_singleton] at hq
    subst hq
    simp [hk, hloose] at htouch
  | silent hk _ _ hnone _ =>
    simp [hk, touches_eq_false_of_mem_subtrees hnone (mem_subtrees_of_mem_children hq)] at htouch

/-- **What a frame holds for a part of the pattern was recorded in one run through the part.** -/
theorem part (h : RunInside a b p t) (hq : q ∈ p.subtrees) (htouch : t.touches q = true) :
    RunInside a b q t := by
  induction p using Located.induction with
  | node p ih =>
    rcases mem_subtrees.mp hq with rfl | ⟨y, hy, hq⟩
    · exact h
    · have hy' : t.touches y = true := by
        by_contra hnone
        rw [touches_eq_false_of_mem_subtrees (Bool.not_eq_true _ ▸ hnone) hq] at htouch
        cases htouch
      exact ih y hy (h.child hy (.inr (.inr hy'))) hq

/-- The rounds that a frame holds of a loop are runs through its body. -/
theorem round (h : RunInside a b p t) (hk : p.kind = .quantifier) {f : Trace}
    (hf : f ∈ t.iterations p.id) : ∃ q, p.children = [q] ∧ RunInside a b q f := by
  obtain ⟨a', b', hrun, ha, hb⟩ := h
  cases hrun with
  | loop _ hc _ _ _ _ hfirst hlast hrounds =>
    obtain ⟨i, hi⟩ := List.mem_iff_getElem?.mp hf
    obtain ⟨hafter, hbefore⟩ := RunBetween.cut_between hrounds hi
    rw [hfirst] at hafter
    rw [hlast] at hbefore
    exact ⟨_, hc, (hrounds i f hi).inside.mono (by omega) (by omega)⟩
  | silent _ _ _ hnone _ =>
    rw [touches_of_iterations (List.ne_nil_of_mem hf)] at hnone
    cases hnone
  | literal hk' | capture hk' | group hk' | concat hk' | alternation hk' =>
    rw [hk'] at hk
    cases hk

end RunInside

end Trace

end CaptureTree
