import CaptureTree.Captures
import CaptureTree.Proofs.Positions

/-!
# Captures inside quantifiers

A capture is repeated by every quantifier around it, and these quantifiers decide
where its spans are recorded and what its result looks like.  `Located.Holds` is
the relation between a pattern, a capture in it, and the quantifiers on the way
down to the capture.

* `Located.mem_capturesIn` says that the table of captures lists this relation.
* `Located.Holds.mem_of_quantifier` says that the list of quantifiers is complete:
  a quantifier whose body has the position of the capture stands in it.
* `Located.Holds.unique` says that the list is determined by the capture.
-/

namespace CaptureTree

namespace Located

/-- **Does a pattern hold a capture, inside these quantifiers?**  The first of the
quantifiers is the outermost one. -/
inductive Holds : Located → List Located → Located → Prop
  | here {p : Located} (capture : p.isCapture = true) : Holds p [] p
  | through {p q c : Located} {qs : List Located} (kind : p.kind ≠ .quantifier)
      (child : q ∈ p.children) (inside : Holds q qs c) : Holds p qs c
  | around {p q c : Located} {qs : List Located} (kind : p.kind = .quantifier)
      (child : q ∈ p.children) (inside : Holds q qs c) : Holds p (p :: qs) c

/-! ## The table of captures -/

theorem capturesInAll_eq (outer : List Located) (ps : List Located) :
    capturesInAll outer ps = ps.flatMap (capturesIn outer) := by
  induction ps with
  | nil => rfl
  | cons p ps ih => rw [capturesInAll, ih, List.flatMap_cons]

theorem capturesIn_eq (outer : List Located) (p : Located) :
    p.capturesIn outer =
      (if p.isCapture then [(p, outer)] else []) ++
        p.children.flatMap (capturesIn (if p.kind = .quantifier then outer ++ [p] else outer)) := by
  cases p
  rw [capturesIn, capturesInAll_eq]
  rfl

/-- **The table of captures lists what a pattern holds.** -/
theorem mem_capturesIn {p c : Located} {outer around : List Located} :
    (c, around) ∈ p.capturesIn outer ↔ ∃ qs, around = outer ++ qs ∧ p.Holds qs c := by
  induction p using Located.induction generalizing outer with
  | node p ih =>
    rw [capturesIn_eq, List.mem_append, List.mem_flatMap]
    constructor
    · rintro (hroot | ⟨q, hq, hmem⟩)
      · split at hroot
        · rename_i hcapture
          obtain ⟨rfl, rfl⟩ := Prod.mk.inj (List.mem_singleton.mp hroot)
          exact ⟨[], (List.append_nil _).symm, .here hcapture⟩
        · exact absurd hroot List.not_mem_nil
      · obtain ⟨qs, rfl, hinside⟩ := (ih q hq).mp hmem
        by_cases hk : p.kind = .quantifier
        · refine ⟨p :: qs, ?_, .around hk hq hinside⟩
          rw [if_pos hk, List.append_assoc, List.singleton_append]
        · refine ⟨qs, ?_, .through hk hq hinside⟩
          rw [if_neg hk]
    · rintro ⟨qs, rfl, hholds⟩
      cases hholds with
      | here hcapture =>
        left
        rw [if_pos hcapture, List.append_nil]
        exact List.mem_singleton_self (_, outer)
      | @through _ q _ _ hk hq hinside =>
        right
        refine ⟨q, hq, (ih q hq).mpr ⟨qs, ?_, hinside⟩⟩
        rw [if_neg hk]
      | @around _ q _ qs hk hq hinside =>
        right
        refine ⟨q, hq, (ih q hq).mpr ⟨qs, ?_, hinside⟩⟩
        rw [if_pos hk, List.append_assoc, List.singleton_append]

theorem captures_eq (p : Located) :
    p.captures = (if p.isCapture then [p] else []) ++ p.children.flatMap captures := by
  rw [captures, Tree.subtrees_eq, List.filter_cons, List.filter_flatMap]
  split
  · rfl
  · rfl

/-- The table lists the captures in pre-order. -/
theorem map_fst_capturesIn (outer : List Located) (p : Located) :
    (p.capturesIn outer).map Prod.fst = p.captures := by
  induction p using Located.induction generalizing outer with
  | node p ih =>
    rw [capturesIn_eq, captures_eq, List.map_append, List.map_flatMap]
    refine congrArg₂ List.append ?_ (List.flatMap_congr fun q hq => ih q hq _)
    split
    · rfl
    · rfl

/-- Quantifiers around a pattern are around all of its captures. -/
theorem capturesIn_outer (outer : List Located) (p : Located) :
    p.capturesIn outer = (p.capturesIn []).map fun e => (e.1, outer ++ e.2) := by
  induction p using Located.induction generalizing outer with
  | node p ih =>
    rw [capturesIn_eq, capturesIn_eq, List.map_append, List.map_flatMap]
    refine congrArg₂ List.append ?_ (List.flatMap_congr fun q hq => ?_)
    · split
      · rw [List.map_singleton, List.append_nil]
      · rfl
    · split
      · rw [ih q hq, ih q hq ([] ++ [p]), List.map_map]
        simp only [Function.comp_def, List.nil_append, List.append_assoc]
      · exact ih q hq outer

theorem capturesIn_capture {p q : Located} (hk : p.kind = .capture) (hc : p.children = [q]) :
    p.capturesIn [] = (p, []) :: q.capturesIn [] := by
  have hcapture : p.isCapture = true := beq_iff_eq.mpr hk
  rw [capturesIn_eq, if_pos hcapture, if_neg (by rw [hk]; decide), hc, List.flatMap_singleton]
  rfl

/-- A node that is no capture and no quantifier has the captures of its children. -/
theorem capturesIn_inner {p : Located} (hk : p.kind ≠ .capture) (hk' : p.kind ≠ .quantifier) :
    p.capturesIn [] = p.children.flatMap (capturesIn []) := by
  have hcapture : p.isCapture = false := beq_false_of_ne hk
  rw [capturesIn_eq, hcapture, if_neg hk']
  rfl

theorem capturesIn_quantifier {p : Located} (hk : p.kind = .quantifier) :
    p.capturesIn [] =
      (p.children.flatMap (capturesIn [])).map fun e => (e.1, p :: e.2) := by
  have hcapture : p.isCapture = false := beq_false_of_ne (by rw [hk]; decide)
  rw [capturesIn_eq, hcapture, if_pos hk, List.map_flatMap]
  exact List.flatMap_congr fun q _ => capturesIn_outer [p] q

/-- The captures have different positions. -/
theorem Distinct.nodup_capturesIn {p : Located} (hd : p.Distinct) :
    ((p.capturesIn []).map fun e => e.1.id).Nodup := by
  have hids : ((p.capturesIn []).map fun e => e.1.id) = p.captures.map id := by
    rw [← map_fst_capturesIn [] p, List.map_map]
    rfl
  rw [hids]
  exact (List.filter_sublist.map id).nodup hd

/-- Captures in different places have different positions. -/
theorem Distinct.place_unique {p : Located} (hd : p.Distinct) {i j : Nat}
    {e e' : Located × List Located} (hi : (p.capturesIn [])[i]? = some e)
    (hj : (p.capturesIn [])[j]? = some e') (hsame : e.1.id = e'.1.id) : i = j := by
  have hlt := (List.getElem?_eq_some_iff.mp hi).1
  refine (List.getElem?_inj ?_ hd.nodup_capturesIn).mp ?_
  · rwa [List.length_map]
  · rw [List.getElem?_map, List.getElem?_map, hi, hj, Option.map_some, Option.map_some, hsame]

/-! ## What is held, and by what -/

namespace Holds

variable {p q c : Located} {qs qs' : List Located}

theorem isCapture (h : p.Holds qs c) : c.isCapture = true := by
  induction h with
  | here hcapture => exact hcapture
  | through _ _ _ ih | around _ _ _ ih => exact ih

theorem capture_mem_subtrees (h : p.Holds qs c) : c ∈ p.subtrees := by
  induction h with
  | here => exact Tree.mem_subtrees_self _
  | through _ hq _ ih | around _ hq _ ih => exact Tree.mem_subtrees_of_mem_children hq ih

theorem mem_captures (h : p.Holds qs c) : c ∈ p.captures :=
  List.mem_filter.mpr ⟨h.capture_mem_subtrees, h.isCapture⟩

theorem id_mem_ids (h : p.Holds qs c) : c.id ∈ p.ids :=
  Located.id_mem_ids h.capture_mem_subtrees

theorem hasCapture (h : p.Holds qs c) : p.hasCapture = true :=
  List.any_eq_true.mpr ⟨c, h.capture_mem_subtrees, h.isCapture⟩

/-- In a quantifier a capture is inside that quantifier first of all. -/
theorem of_quantifier (h : p.Holds qs c) (hk : p.kind = .quantifier) :
    ∃ q ∈ p.children, ∃ rest, qs = p :: rest ∧ Holds q rest c := by
  cases h with
  | here hcapture =>
    rw [Located.isCapture, hk] at hcapture
    exact absurd hcapture (by decide)
  | through hk' => exact absurd hk hk'
  | around _ hq hinside => exact ⟨_, hq, _, rfl, hinside⟩

/-- In a capture there are the capture itself, and those in its children. -/
theorem of_capture (h : p.Holds qs c) (hk : p.kind = .capture) :
    (qs = [] ∧ c = p) ∨ ∃ q ∈ p.children, Holds q qs c := by
  cases h with
  | here => exact .inl ⟨rfl, rfl⟩
  | through _ hq hinside => exact .inr ⟨_, hq, hinside⟩
  | around hk' =>
    rw [hk] at hk'
    cases hk'

/-- In any other node there are those in its children. -/
theorem of_inner (h : p.Holds qs c) (hk : p.kind ≠ .capture) (hk' : p.kind ≠ .quantifier) :
    ∃ q ∈ p.children, Holds q qs c := by
  cases h with
  | here hcapture => exact absurd (beq_iff_eq.mp hcapture) hk
  | through _ hq hinside => exact ⟨_, hq, hinside⟩
  | around hquant => exact absurd hquant hk'

/-- The outermost quantifier is part of the pattern, and its body holds the
capture inside the others. -/
theorem of_cons (h : p.Holds (q :: qs) c) :
    q ∈ p.subtrees ∧ q.kind = .quantifier ∧ ∃ b ∈ q.children, Holds b qs c := by
  generalize hqs : q :: qs = all at h
  induction h with
  | here => cases hqs
  | through _ hchild _ ih =>
    obtain ⟨hmem, hk, hbody⟩ := ih hqs
    exact ⟨Tree.mem_subtrees_of_mem_children hchild hmem, hk, hbody⟩
  | around hk hchild hinside =>
    obtain ⟨rfl, rfl⟩ := List.cons.inj hqs
    exact ⟨Tree.mem_subtrees_self q, hk, _, hchild, hinside⟩

/-- Every quantifier of the list is part of the pattern, and has the capture
inside it. -/
theorem mem_subtrees_of_mem (h : p.Holds qs c) (hq : q ∈ qs) :
    q ∈ p.subtrees ∧ q.kind = .quantifier := by
  induction h with
  | here => exact absurd hq List.not_mem_nil
  | through _ hchild _ ih =>
    obtain ⟨hmem, hk⟩ := ih hq
    exact ⟨Tree.mem_subtrees_of_mem_children hchild hmem, hk⟩
  | @around p _ _ _ hk hchild _ ih =>
    rcases List.mem_cons.mp hq with rfl | hq
    · exact ⟨Tree.mem_subtrees_self q, hk⟩
    · obtain ⟨hmem, hk⟩ := ih hq
      exact ⟨Tree.mem_subtrees_of_mem_children hchild hmem, hk⟩

/-- **The list of quantifiers is complete.** -/
theorem mem_of_quantifier (h : p.Holds qs c) (hd : p.Distinct) (hq : q ∈ p.subtrees)
    (hk : q.kind = .quantifier) {b : Located} (hb : b ∈ q.children) (hc : c.id ∈ b.ids) :
    q ∈ qs := by
  have hid : c.id ∈ q.ids := ids_subset (mem_subtrees_of_mem_children hb) hc
  induction h with
  | @here p hcapture =>
    -- the capture is the root, and the root's position is not below the root
    rcases mem_subtrees.mp hq with rfl | ⟨a, ha, hq⟩
    · exact absurd hc (hd.id_notMem_ids hb)
    · exact absurd (ids_subset hq hid) (hd.id_notMem_ids ha)
  | @through p a c qs hkind ha hinside ih =>
    rcases mem_subtrees.mp hq with rfl | ⟨a', ha', hq⟩
    · exact absurd hk hkind
    · obtain rfl := hd.child_eq ha ha' hinside.id_mem_ids (ids_subset hq hid)
      exact ih (hd.child ha) hq hc hid
  | @around p a c qs hkind ha hinside ih =>
    rcases mem_subtrees.mp hq with rfl | ⟨a', ha', hq⟩
    · exact List.mem_cons_self
    · obtain rfl := hd.child_eq ha ha' hinside.id_mem_ids (ids_subset hq hid)
      exact List.mem_cons_of_mem p (ih (hd.child ha) hq hc hid)

/-- A root that is a capture is inside no quantifier. -/
theorem eq_nil_of_root (h : p.Holds qs p) (hd : p.Distinct) : qs = [] := by
  cases h with
  | here => rfl
  | through _ hq hinside | around _ hq hinside =>
    exact absurd hinside.id_mem_ids (hd.id_notMem_ids hq)

/-- **The quantifiers around a capture are determined by it.** -/
theorem unique (h : p.Holds qs c) (h' : p.Holds qs' c) (hd : p.Distinct) : qs = qs' := by
  induction h generalizing qs' with
  | here => exact (h'.eq_nil_of_root hd).symm
  | @through p a c qs hkind ha hinside ih =>
    cases h' with
    | here => exact absurd hinside.id_mem_ids (hd.id_notMem_ids ha)
    | through _ ha' hinside' =>
      obtain rfl := hd.child_eq ha ha' hinside.id_mem_ids hinside'.id_mem_ids
      exact ih hinside' (hd.child ha)
    | around hkind' => exact absurd hkind' hkind
  | @around p a c qs hkind ha hinside ih =>
    cases h' with
    | here => exact absurd hinside.id_mem_ids (hd.id_notMem_ids ha)
    | through hkind' => exact absurd hkind hkind'
    | around _ ha' hinside' =>
      obtain rfl := hd.child_eq ha ha' hinside.id_mem_ids hinside'.id_mem_ids
      rw [ih hinside' (hd.child ha)]

end Holds

end Located

end CaptureTree
