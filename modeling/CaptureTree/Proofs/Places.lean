import CaptureTree.Proofs.Legibility
import CaptureTree.Proofs.Shape.Origins

/-!
# From slot to slot, and from frame to frame

A value is assembled slot by slot, and each slot is read from one frame: the members of a product
and the branch of a sum from the frame of the slot around them, and what is inside a loop from
the frame of an iteration.  A `Place` is a slot together with its frame, and `Place.Step` leads to
the places from which the next slots are read.

* Where assembly succeeds, it succeeds at every place that it gets to
  (`Place.Reaches.exists_assemble`).
* Whoever walks through the value with the accessors of its views walks through these places
  (`View.exists_place`).

In terms of the pattern a step enters a part of a sequence, the branch that an alternation took,
or an iteration of a quantifier (`Trace.Enters`, `Place.Step.exists_enters`).  What passes on in
this way from node to node and from frame to frame (`Place.Inherited`) is true at every place that
assembly gets to, if it is true at the first (`Place.Satisfies.of_reaches`).
-/

namespace CaptureTree

open Relation

/-- **A slot of a shape, and the frame from which its value is read.** -/
structure Place where
  shape : Shape
  frame : Trace

namespace Place

/-- The value that is read at a place. -/
def assemble (x : Place) : Except Inconsistency Value :=
  Value.assemble x.shape x.frame

/-- **One step into a slot**, as assembly goes. -/
inductive Step : Place → Place → Prop
  | member {o : Located} {ss : List Shape} {s : Shape} {t : Trace} (member : s ∈ ss) :
      Step ⟨.product o ss, t⟩ ⟨s, t⟩
  | branch {a : Located} {ss : List Shape} {s : Shape} {t : Trace} {i : Nat}
      (taken : t.branchTaken (Shape.sum a ss).title a = .ok i) (branch : ss[i]? = some s) :
      Step ⟨.sum a ss, t⟩ ⟨s, t⟩
  | item {q : Located} {s : Shape} {t f : Trace} {fs : List Trace}
      (frames : t.frames (Shape.repeated q s).title q = .ok fs) (frame : f ∈ fs) :
      Step ⟨.repeated q s, t⟩ ⟨s, f⟩
  | inner {q : Located} {s : Shape} {t f : Trace}
      (frames : t.frames (Shape.opt q s).title q = .ok [f]) : Step ⟨.opt q s, t⟩ ⟨s, f⟩

/-- Does assembly get from one place to another? -/
abbrev Reaches : Place → Place → Prop := ReflTransGen Step

variable {x y : Place} {v : Value}

/-! ## Assembly -/

/-- Where a value is assembled, one is assembled at the next places. -/
theorem Step.exists_assemble (h : Step x y) (hv : x.assemble = .ok v) :
    ∃ u ∈ v.children, y.assemble = .ok u := by
  cases h with
  | member hs =>
    obtain ⟨vs, hall, rfl⟩ := Value.assemble_product_eq_ok.mp hv
    obtain ⟨i, hi⟩ := List.mem_iff_getElem?.mp hs
    obtain ⟨u, hu, hassemble⟩ := exists_getElem?_of_forall₂ hall hi
    exact ⟨u, List.mem_of_getElem? hu, hassemble⟩
  | branch htaken hbranch =>
    obtain ⟨i, hi, s, hs, u, hu, rfl⟩ := Value.assemble_sum_eq_ok.mp hv
    obtain rfl := Except.ok.inj (hi.symm.trans htaken)
    obtain rfl := Option.some.inj (hs.symm.trans hbranch)
    exact ⟨u, List.mem_singleton_self u, hu⟩
  | item hframes hf =>
    obtain ⟨fs, hfs, vs, hall, rfl⟩ := Value.assemble_repeated_eq_ok.mp hv
    obtain rfl := Except.ok.inj (hfs.symm.trans hframes)
    obtain ⟨i, hi⟩ := List.mem_iff_getElem?.mp hf
    obtain ⟨u, hu, hassemble⟩ := exists_getElem?_of_forall₂ hall hi
    exact ⟨u, List.mem_of_getElem? hu, hassemble⟩
  | inner hframes =>
    obtain ⟨fs, hfs, -, vs, hall, rfl⟩ := Value.assemble_opt_eq_ok.mp hv
    obtain rfl := Except.ok.inj (hfs.symm.trans hframes)
    obtain ⟨u, hu, hassemble⟩ := exists_getElem?_of_forall₂ hall (i := 0) rfl
    exact ⟨u, List.mem_of_getElem? hu, hassemble⟩

/-- **Where a value is assembled, one is assembled at every place that is reached.** -/
theorem Reaches.exists_assemble (h : Reaches x y) (hv : x.assemble = .ok v) :
    ∃ u, y.assemble = .ok u := by
  induction h with
  | refl => exact ⟨v, hv⟩
  | tail _ hstep ih =>
    obtain ⟨u, hu⟩ := ih
    obtain ⟨w, -, hw⟩ := hstep.exists_assemble hu
    exact ⟨w, hw⟩

end Place

namespace View

variable {v w : View} {t : Trace}

/-- A step between views is one between the places from which they are read. -/
theorem Step.exists_place (h : v.Step w) (hv : Value.assemble v.shape t = .ok v.value) :
    ∃ f, Place.Step ⟨v.shape, t⟩ ⟨w.shape, f⟩ ∧ Value.assemble w.shape f = .ok w.value := by
  obtain ⟨shape, value, input⟩ := v
  cases h with
  | @item n i hk hsize hi hitem =>
    cases shape with
    | product o ss =>
      obtain ⟨vs, hall, rfl⟩ := Value.assemble_product_eq_ok.mp hv
      have hi' : i < ss.length := Except.ok.inj hsize ▸ hi
      have hs : ss[i]? = some ss[i] := List.getElem?_eq_getElem hi'
      obtain ⟨u, hu, hassemble⟩ := exists_getElem?_of_forall₂ hall hs
      have hu' : (Value.product vs).children[i]? = some u := hu
      simp only [View.item, hs, hu', Except.ok.injEq] at hitem
      subst hitem
      exact ⟨t, .member (List.mem_of_getElem? hs), hassemble⟩
    | repeated q s =>
      obtain ⟨fs, hfs, vs, hall, rfl⟩ := Value.assemble_repeated_eq_ok.mp hv
      have hi' : i < vs.length := Except.ok.inj hsize ▸ hi
      have hu : (Value.repeated vs).children[i]? = some vs[i] := List.getElem?_eq_getElem hi'
      simp only [View.item, hu, Except.ok.injEq] at hitem
      subst hitem
      obtain ⟨f, hf, hassemble⟩ := exists_mem_of_forall₂ hall (List.getElem_mem hi')
      exact ⟨f, .item hfs hf, hassemble⟩
    | empty | leaf | sum | opt => rcases hk with hk | hk <;> cases hk
  | @branch c hk hchoice hinner =>
    cases shape with
    | sum a ss =>
      obtain ⟨i, hi, s, hs, u, hu, rfl⟩ := Value.assemble_sum_eq_ok.mp hv
      obtain rfl := Except.ok.inj hchoice
      simp only [Choice.inner, Choice.taken, Value.sum, Value.kind, Value.selected,
        Tree.label_node, Tree.children_node, hs] at hinner
      obtain rfl := Except.ok.inj hinner
      exact ⟨t, .branch hi hs, hu⟩
    | empty | leaf | product | repeated | opt => cases hk
  | inner hk hpresent hinner =>
    cases shape with
    | opt q s =>
      obtain ⟨fs, hfs, hone, vs, hall, rfl⟩ := Value.assemble_opt_eq_ok.mp hv
      cases hall with
      | nil => cases Except.ok.inj hpresent
      | @cons f u fs vs hassemble hall =>
        rw [List.length_cons] at hone
        obtain rfl := List.eq_nil_of_length_eq_zero (by omega : fs.length = 0)
        obtain rfl := List.forall₂_nil_left_iff.mp hall
        obtain rfl := Except.ok.inj hinner
        exact ⟨f, .inner hfs, hassemble⟩
    | empty | leaf | product | sum | repeated => cases hk

/-- **A walk between views is one between the places from which they are read.** -/
theorem exists_place (h : ReflTransGen Step v w) (hv : Value.assemble v.shape t = .ok v.value) :
    ∃ f, Place.Reaches ⟨v.shape, t⟩ ⟨w.shape, f⟩ ∧ Value.assemble w.shape f = .ok w.value := by
  induction h with
  | refl => exact ⟨t, .refl, hv⟩
  | tail _ hstep ih =>
    obtain ⟨f, hreach, hf⟩ := ih
    obtain ⟨g, hg, hvalue⟩ := hstep.exists_place hf
    exact ⟨g, hreach.tail hg, hvalue⟩

end View

/-! ## Places in the pattern -/

/-- **From a node to one of its children, and from one frame to the next**: to a part of a
sequence, to the branch that an alternation took, or to an iteration of a quantifier. -/
inductive Trace.Enters (t : Trace) : Located → Located → Trace → Prop
  | part {o q : Located} (kind : o.kind = .concat) (child : q ∈ o.children) : Enters t o q t
  | branch {o q : Located} {slot : SlotTitle} {i : Nat} (kind : o.kind = .alternation)
      (taken : t.branchTaken slot o = .ok i) (child : o.children[i]? = some q) : Enters t o q t
  | round {o q : Located} {f : Trace} {slot : SlotTitle} {fs : List Trace}
      (kind : o.kind = .quantifier) (children : o.children = [q])
      (frames : t.frames slot o = .ok fs) (frame : f ∈ fs) : Enters t o q f

theorem Trace.Enters.mem_children {t f : Trace} {o q : Located} (h : t.Enters o q f) :
    q ∈ o.children := by
  cases h with
  | part _ hq => exact hq
  | branch _ _ hq => exact List.mem_of_getElem? hq
  | round _ hc => exact Located.mem_children_of_eq hc

namespace Place

variable {x y : Place} {Q : Located → Trace → Prop}

/-- **A step of assembly, seen in the pattern**: it enters a child of the node that the slot stems
from, and leads to the shape of this child. -/
theorem Step.exists_enters (h : Step x y) {o : Located} (hstems : Shape.Stems o x.shape) :
    ∃ q, x.frame.Enters o q y.frame ∧ y.shape = .infer q := by
  cases h with
  | member hs =>
    cases hstems with
    | product hk =>
      obtain ⟨q, hq, rfl⟩ := List.mem_map.mp (List.mem_of_mem_filter hs)
      exact ⟨q, .part hk hq, rfl⟩
  | branch htaken hbranch =>
    cases hstems with
    | sum hk =>
      rw [List.getElem?_map, Option.map_eq_some_iff] at hbranch
      obtain ⟨q, hq, rfl⟩ := hbranch
      exact ⟨q, .branch hk htaken hq, rfl⟩
  | item hframes hf =>
    cases hstems with
    | repeated hk hc => exact ⟨_, .round hk hc hframes hf, rfl⟩
  | inner hframes =>
    cases hstems with
    | opt hk hc => exact ⟨_, .round hk hc hframes (List.mem_singleton_self _), rfl⟩

/-- **Does a statement about nodes and frames pass on as assembly goes?**  It passes from groups
and sequences to what they contain, which is read from the same frame, and from a node with
captures to the child that is entered. -/
structure Inherited (Q : Located → Trace → Prop) : Prop where
  inside : ∀ {g q : Located} {t : Trace}, g.kind = .group ∨ g.kind = .concat →
    q ∈ g.children → Q g t → Q q t
  entered : ∀ {o q : Located} {t f : Trace}, o.hasCapture = true → t.Enters o q f →
    Q o t → Q q f

/-- Is the slot the shape of a node of which the statement is true, with the frame of the place? -/
def Satisfies (Q : Located → Trace → Prop) (x : Place) : Prop :=
  ∃ p : Located, p.WellFormed ∧ x.shape = .infer p ∧ Q p x.frame

/-- What is true of the node of a slot is true of the node that the slot stems from. -/
theorem Satisfies.exists_origin (h : x.Satisfies Q) (hQ : Inherited Q) (hne : x.shape ≠ .empty) :
    ∃ o : Located, o.WellFormed ∧ o.hasCapture = true ∧ Q o x.frame ∧ Shape.Stems o x.shape := by
  obtain ⟨p, hwell, hx, hp⟩ := h
  rw [hx] at hne ⊢
  exact hwell.exists_origin (fun _ _ => hQ.inside) hp hne

theorem Satisfies.of_step (h : x.Satisfies Q) (hQ : Inherited Q) (hstep : Step x y) :
    y.Satisfies Q := by
  have hne : x.shape ≠ .empty := by
    cases hstep <;> simp
  obtain ⟨o, ho, hcap, hpo, hstems⟩ := h.exists_origin hQ hne
  obtain ⟨q, henter, hy⟩ := hstep.exists_enters hstems
  exact ⟨q, ho.child henter.mem_children, hy, hQ.entered hcap henter hpo⟩

/-- **What passes on is true at every place that is reached.** -/
theorem Satisfies.of_reaches (h : x.Satisfies Q) (hQ : Inherited Q) (hreach : Reaches x y) :
    y.Satisfies Q := by
  induction hreach with
  | refl => exact h
  | tail _ hstep ih => exact ih.of_step hQ hstep

end Place

end CaptureTree
