import CaptureTree.Proofs.Places
import CaptureTree.Proofs.SpanLists
import CaptureTree.Proofs.Value.Entries

/-!
# Sums are exclusive

A sum takes one branch.  An engine may say which one by recording a choice, or leave it to be seen
from what is recorded inside a branch, and in a trace that is not its own it may do both and
contradict itself.  Two statements say that nothing recorded is dropped silently.

* If evaluation returns a match, every sum in it was read from a frame that holds nothing inside
  the branches that were not taken, and no other choice (`Trace.Exclusive`).
* If assembly gets to a sum in a frame that is in conflict about it (`Trace.Conflicted`), evaluation
  fails with a contradiction.

The one thing that the reader of a sum does not see is a choice of a branch that does not exist.
The check of the trace refuses it, and the frame of every place is in its place in a part of the
pattern around the alternation (`Trace.InScope`).
-/

namespace CaptureTree

open Relation

/-! ## Frames that agree on a branch -/

namespace Trace

variable {a b o p q s : Located} {t f : Trace} {i size : Nat} {slot : SlotTitle}

/-- Does the frame hold nothing for the nodes of a pattern, neither span nor choice nor
iteration? -/
def HoldsNothing (f : Trace) (b : Located) : Prop :=
  ∀ n ∈ b.ids, f.spans n = [] ∧ f.choices n = [] ∧ f.iterations n = []

theorem holdsNothing_iff : f.HoldsNothing b ↔ f.touches b = false :=
  touches_eq_false_iff_rows.symm

/-- **Does everything that a frame records of an alternation belong to one branch?** -/
structure Exclusive (f : Trace) (a : Located) (i : Nat) : Prop where
  chosen : ∀ j ∈ f.choices a.id, j = i
  others : ∀ j b, a.children[j]? = some b → j ≠ i → f.HoldsNothing b

/-- **Does a frame contradict itself about an alternation**, or say nothing about it? -/
inductive Conflicted (f : Trace) (a : Located) : Prop
  | manyChoices (many : 1 < (f.choices a.id).length)
  | noBranch (unchosen : ∀ j b, a.children[j]? = some b → j ∉ f.choices a.id)
      (unused : ∀ b ∈ a.children, f.HoldsNothing b)
  | twoBranches {i j : Nat} {b c : Located} (first : a.children[i]? = some b)
      (second : a.children[j]? = some c) (different : i ≠ j) (used : ¬ f.HoldsNothing b)
      (used' : ¬ f.HoldsNothing c)
  | choiceBeside {i j : Nat} {c : Located} (chosen : i ∈ f.choices a.id)
      (other : a.children[j]? = some c) (different : i ≠ j) (used : ¬ f.HoldsNothing c)

/-- The branch that is read is the only one in use, if all choices are of existing branches. -/
theorem exclusive_of_branchTaken (h : f.branchTaken slot a = .ok i)
    (hchoices : ∀ j ∈ f.choices a.id, j < a.children.length) : f.Exclusive a i where
  chosen j hj := by
    have hlive : j ∈ f.liveBranches a :=
      mem_liveBranches.mpr ⟨_, List.getElem?_eq_getElem (hchoices j hj), .inl hj⟩
    rw [(branchTaken_eq_ok.mp h).2] at hlive
    exact List.mem_singleton.mp hlive
  others j b hb hij := holdsNothing_iff.mpr (untouched_of_branchTaken h hb hij)

/-- **A frame in conflict has no branch to be read.** -/
theorem not_conflicted_of_branchTaken (h : f.branchTaken slot a = .ok i)
    (hchoices : ∀ j ∈ f.choices a.id, j < a.children.length) : ¬ f.Conflicted a := by
  have hexclusive := exclusive_of_branchTaken h hchoices
  have hused : ∀ {j b}, a.children[j]? = some b → ¬ f.HoldsNothing b → j = i := by
    intro j b hb hsome
    by_contra hij
    exact hsome (hexclusive.others j b hb hij)
  obtain ⟨hone, hlive⟩ := branchTaken_eq_ok.mp h
  intro hconflict
  cases hconflict with
  | manyChoices hmany => omega
  | noBranch hunchosen hunused =>
    obtain ⟨b, hb, hlive⟩ := mem_liveBranches.mp (hlive ▸ List.mem_singleton_self i)
    rcases hlive with hchosen | htouch
    · exact hunchosen i b hb hchosen
    · rw [holdsNothing_iff.mp (hunused b (List.mem_of_getElem? hb))] at htouch
      cases htouch
  | twoBranches hb hc hij hfirst hsecond =>
    exact hij ((hused hb hfirst).trans (hused hc hsecond).symm)
  | choiceBeside hchosen hc hij hsecond =>
    exact hij ((hexclusive.chosen _ hchosen).trans (hused hc hsecond).symm)

/-! ## Frames in their place -/

/-- Choices that are in their place are of existing branches. -/
theorem Placed.lt_of_mem_choices (hf : f.Placed size (some s)) (hd : s.Distinct)
    (ha : a ∈ s.subtrees) {j : Nat} (hj : j ∈ f.choices a.id) : j < a.children.length := by
  have hrecord := hf _ (mem_choices.mp hj)
  cases hrecord with
  | choice hfind _ hbranch =>
    obtain rfl := Option.some.inj ((hd.find_id ha).symm.trans hfind)
    exact hbranch

/-- **Is a frame in its place in a part of the pattern, one around the node?** -/
def InScope (size : Nat) (p q : Located) (t : Trace) : Prop :=
  ∃ s ∈ p.subtrees, q ∈ s.subtrees ∧ t.Placed size (some s)

/-- Where assembly enters a child, the frame is in its place in a part around the child. -/
theorem InScope.enters (h : t.InScope size p o) (hd : p.Distinct) (henter : t.Enters o q f) :
    f.InScope size p q := by
  obtain ⟨s, hs, ho, ht⟩ := h
  have hq : q ∈ s.subtrees :=
    Tree.mem_subtrees_trans (Located.mem_subtrees_of_mem_children henter.mem_children) ho
  cases henter with
  | part | branch => exact ⟨s, hs, hq, ht⟩
  | round _ hc hframes hf =>
    have hds := hd.of_mem_subtrees hs
    have hbody := Located.body_eq_some hc
    refine ⟨q, Tree.mem_subtrees_trans hq hs, Tree.mem_subtrees_self q, ?_⟩
    rcases frames_eq_ok hframes with ⟨-, rfl⟩ | ⟨b, hb, -, hsplit⟩
    · have hrecord := ht _ (mem_iterations.mp hf)
      exact hrecord.inside hds ho hbody (Record.frameOf?_eq_some.mpr rfl)
    · obtain rfl := Option.some.inj (hbody.symm.trans hb)
      obtain ⟨-, k, -, rfl⟩ := splitSpans_eq_ok hsplit
      obtain ⟨i, -, rfl⟩ := List.mem_map.mp hf
      exact placed_splitFrame ht (hds.of_mem_subtrees hq) i

/-- **Assembly goes from part to part.** -/
theorem inherited_inScope (hd : p.Distinct) (size : Nat) :
    Place.Inherited fun q t => t.InScope size p q where
  inside _ hq h := by
    obtain ⟨s, hs, hg, ht⟩ := h
    exact ⟨s, hs, Tree.mem_subtrees_trans (Located.mem_subtrees_of_mem_children hq) hg, ht⟩
  entered _ henter h := h.enters hd henter

end Trace

/-- **A sum that is read is exclusive**: its frame agrees on the branch. -/
theorem Place.exclusive_of_inScope {x : Place} {p a : Located} {size : Nat} {ss : List Shape}
    {v : Value} (h : x.Satisfies fun q t => t.InScope size p q) (hd : p.Distinct)
    (hx : x.shape = .sum a ss) (hv : x.assemble = .ok v) :
    x.frame.Exclusive a v.selected ∧ ¬ x.frame.Conflicted a := by
  obtain ⟨o, -, -, ⟨s, hs, ho, ht⟩, hstems⟩ :=
    h.exists_origin (Trace.inherited_inScope hd size) (by simp [hx])
  rw [hx] at hstems
  cases hstems with
  | sum =>
    have hchoices : ∀ j ∈ x.frame.choices a.id, j < a.children.length :=
      fun j => ht.lt_of_mem_choices (hd.of_mem_subtrees hs) ho
    rw [assemble, hx] at hv
    obtain ⟨i, hi, -, -, u, -, rfl⟩ := Value.assemble_sum_eq_ok.mp hv
    exact ⟨Trace.exclusive_of_branchTaken hi hchoices,
      Trace.not_conflicted_of_branchTaken hi hchoices⟩

/-! ## Matches -/

/-- **Is this what a view shows, read from this frame?**  Assembly gets there from the shape and
the trace. -/
structure View.ReadFrom (shape : Shape) (t f : Trace) (v : View) : Prop where
  reached : Place.Reaches ⟨shape, t⟩ ⟨v.shape, f⟩
  value : Value.assemble v.shape f = .ok v.value

namespace Regex

/-- **Sums are exclusive.**  Whatever trace is evaluated: in the value of a match every sum was read
from a frame, and the frame records no other choice for the alternation than the branch that was
taken, and nothing for any node inside the other branches.  And if assembly gets to a sum in a
frame with more than one choice, without a branch in use, or with records that belong to two
branches, evaluation fails with a contradiction. -/
theorem sums_exclusive {p : Pattern} {r : Regex} (h : compile p = .ok r) (whole : Span) (t : Trace)
    (w : Bytes) :
    (∀ m, r.evaluate whole t w = .ok m → ∀ v, ReflTransGen View.Step m.root v →
      (∃ f, v.ReadFrom r.shape t f) ∧
        ∀ f, v.ReadFrom r.shape t f → ∀ a ss, v.shape = .sum a ss →
          f.Exclusive a v.value.selected) ∧
      (t.check r.pattern w.length = .ok () → ∀ a ss f,
        Place.Reaches ⟨r.shape, t⟩ ⟨.sum a ss, f⟩ → f.Conflicted a →
          ∃ e, r.evaluate whole t w = .error (.inconsistent e)) := by
  obtain ⟨hr, -⟩ := compiled_of_compile h
  have hscope : t.check r.pattern w.length = .ok () → ∀ x, Place.Reaches ⟨r.shape, t⟩ x →
      x.Satisfies fun q t => t.InScope w.length r.pattern q := by
    intro hcheck x hreach
    have hself := Tree.mem_subtrees_self r.pattern
    have hroot : Place.Satisfies (fun q t => t.InScope w.length r.pattern q) ⟨r.shape, t⟩ :=
      ⟨r.pattern, hr.wellFormed, hr.shape, r.pattern, hself, hself, Trace.check_eq_ok_iff.mp hcheck⟩
    exact hroot.of_reaches (Trace.inherited_inScope hr.distinct w.length) hreach
  constructor
  · intro m hm v hwalk
    obtain ⟨hroot, hvalue⟩ := assemble_of_evaluate hm
    constructor
    · obtain ⟨f, hreach, hf⟩ := View.exists_place hwalk (hroot.symm ▸ hvalue)
      exact ⟨f, hroot ▸ hreach, hf⟩
    · intro f hread a ss hshape
      have hplace := hscope (evaluate_eq_ok.mp hm).2.1 _ hread.reached
      exact (Place.exclusive_of_inScope hplace hr.distinct hshape hread.value).1
  · intro hcheck a ss f hreach hconflict
    cases heval : r.evaluate whole t w with
    | ok m =>
      obtain ⟨v, hv⟩ := hreach.exists_assemble (assemble_of_evaluate heval).2
      have hplace := hscope hcheck _ hreach
      exact absurd hconflict (Place.exclusive_of_inScope hplace hr.distinct rfl hv).2
    | error e =>
      obtain ⟨e', rfl⟩ := hr.inconsistent_of_evaluate heval
      exact ⟨e', rfl⟩

/-- A loop around two branches, the second of which has branches inside it. -/
def branchInBranch : Pattern :=
  (Pattern.alternation [(Pattern.exact [0x61]).capture,
    .concat [.alternation [(Pattern.exact [0x62]).capture, (Pattern.exact [0x63]).capture],
      (Pattern.exact [0x64]).capture]]).star

/-- An iteration in the second branch, which has to be seen from what is recorded inside it. -/
def secondBranch : Trace := [.choice 5 1, .span 8 ⟨1, 2⟩, .span 10 ⟨2, 3⟩]

/-- An iteration in the first branch, with a choice inside the second. -/
def bothBranches : Trace := [.choice 1 0, .span 2 ⟨0, 1⟩, .choice 5 1]

theorem sums_exclusive_branchInBranch :
    let w : Bytes := [0x61, 0x63, 0x64]
    let good : Trace := [.iteration 0 [.choice 1 0, .span 2 ⟨0, 1⟩], .iteration 0 secondBranch]
    let bad : Trace := [.iteration 0 bothBranches]
    ∃ r m a, compile branchInBranch = .ok r ∧ r.pattern.find 1 = some a ∧
      r.evaluate ⟨0, 3⟩ good w = .ok m ∧ secondBranch.Exclusive a 1 ∧
      bad.check r.pattern w.length = .ok () ∧ bothBranches.Conflicted a ∧
      ∃ e, r.evaluate ⟨0, 3⟩ bad w = .error (.inconsistent e) := by
  intro w good bad
  have hgood := (sums_exclusive (p := branchInBranch) rfl ⟨0, 3⟩ good w).1 _ rfl _
    (.single (.item (.inr rfl) rfl (show 1 < 2 by decide) rfl))
  have hbad := (sums_exclusive (p := branchInBranch) rfl ⟨0, 3⟩ bad w).2 rfl _ _ bothBranches
    (.single (.item rfl (List.mem_singleton_self _)))
  refine ⟨_, _, _, rfl, rfl, rfl, hgood.2 secondBranch ⟨.single (.item rfl ?_), rfl⟩ _ _ rfl, rfl,
    ?conflict, hbad ?conflict⟩
  · exact List.mem_cons_of_mem _ (List.mem_singleton_self _)
  case conflict =>
    refine .choiceBeside (j := 1) (List.mem_singleton_self 0) rfl (by decide) fun hnothing => ?_
    exact absurd (hnothing 5 (by decide)).2.1 (by decide)

end Regex

end CaptureTree
