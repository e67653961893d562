import CaptureTree.Proofs.Ancestors
import CaptureTree.Proofs.Trace.Frames
import CaptureTree.Proofs.Trace.Padded

/-!
# What the check of a trace accepts

The check goes through the frames of a trace from the outside in, and looks up every node in the
part of the pattern that the frame belongs to, which gets smaller from frame to frame.  Here the
same is said of all records at once, wherever they are.

Going to a frame means to go into iterations of one quantifier after the other.
`Located.Chain` says that these quantifiers stand inside each other: the first in the pattern, and
every other one in the body of the one before it.  The body of the last one is the scope of the
frame.

* `Trace.Placed.chain`: in an accepted trace the iterations around a frame are those of a chain.
* `Trace.placed_of_inChains`: a trace is accepted if this is so around every record, and the record
  is for a node of the scope, of the right kind (`Record.FitsIn`).
* `Located.Chain.sublist_quantifiersAround`: the quantifiers of a chain are around every node of
  its scope, in the same order, so that there are never more of them than the pattern nests
  (`Located.Chain.length_le_loopDepth`).

The rows of a frame that is kept in tables may have been emptied.  They have no records, so they
have no part in this.
-/

namespace CaptureTree

namespace Located

variable {p q s : Located} {qs : List Located}

/-! ## Quantifiers inside each other -/

/-- **Do these quantifiers stand inside each other**, the first in the pattern and every other one
in the body of the one before it?  The scope is the body of the last one, and the pattern itself
if there is none. -/
inductive Chain : Located → List Located → Located → Prop
  | nil {p : Located} : Chain p [] p
  | cons {p q b s : Located} {qs : List Located} (inside : q ∈ p.subtrees)
      (kind : q.kind = .quantifier) (body : q.body = some b) (rest : Chain b qs s) :
      Chain p (q :: qs) s

/-- How many quantifiers stand inside each other at most. -/
def loopDepth (p : Located) : Nat :=
  p.fold fun (q : Located) depths => depths.foldr max 0 + if q.kind = .quantifier then 1 else 0

theorem loopDepth_eq (p : Located) : p.loopDepth =
    (p.children.map loopDepth).foldr max 0 + if p.kind = .quantifier then 1 else 0 :=
  Tree.fold_eq _ p

theorem le_foldr_max {ns : List Nat} {n : Nat} (hn : n ∈ ns) : n ≤ ns.foldr max 0 := by
  induction ns with
  | nil => exact absurd hn List.not_mem_nil
  | cons m ns ih =>
    rw [List.foldr_cons]
    rcases List.mem_cons.mp hn with rfl | hn
    · exact Nat.le_max_left _ _
    · exact Nat.le_trans (ih hn) (Nat.le_max_right _ _)

theorem loopDepth_add_le (hq : q ∈ p.children) :
    q.loopDepth + (if p.kind = .quantifier then 1 else 0) ≤ p.loopDepth := by
  rw [loopDepth_eq p]
  exact Nat.add_le_add_right (le_foldr_max (List.mem_map_of_mem hq)) _

theorem loopDepth_le_of_mem_subtrees (hq : q ∈ p.subtrees) : q.loopDepth ≤ p.loopDepth := by
  induction p using Located.induction with
  | node p ih =>
    rcases mem_subtrees.mp hq with rfl | ⟨r, hr, hq⟩
    · exact Nat.le_refl _
    · have hchild := loopDepth_add_le hr
      have hinside := ih r hr hq
      omega

namespace Chain

/-- The scope of a chain is a part of the pattern. -/
theorem mem_subtrees (h : p.Chain qs s) : s ∈ p.subtrees := by
  induction h with
  | nil => exact Tree.mem_subtrees_self _
  | cons hq _ hbody _ ih =>
    exact Tree.mem_subtrees_trans ih
      (Tree.mem_subtrees_trans (mem_subtrees_of_mem_children (List.mem_of_head? hbody)) hq)

/-- **The quantifiers of a chain are around every node of the scope**, the outermost first. -/
theorem sublist_quantifiersAround (h : p.Chain qs s) (hd : p.Distinct) {n : NodeId}
    (hn : n ∈ s.ids) : qs.Sublist (p.quantifiersAround n) := by
  induction h with
  | nil => exact List.nil_sublist _
  | @cons p q b s qs hq hk hbody hrest ih =>
    have hb : b ∈ q.children := List.mem_of_head? hbody
    have hnb : n ∈ b.ids := ids_subset hrest.mem_subtrees hn
    have hdq := hd.of_mem_subtrees hq
    have hsplit : p.quantifiersAround n = p.quantifiersAround q.id ++ q.quantifiersAround n := by
      rw [quantifiersAround, hd.ancestors_of_mem_subtrees hq (ids_subset_of_mem_children hb hnb),
        List.filter_append]
      rfl
    rw [hsplit, hdq.quantifiersAround_of_mem_child hb hnb, if_pos hk]
    exact ((ih (hdq.child hb) hn).cons_cons q).trans (List.sublist_append_right _ _)

/-- **A chain has no more quantifiers than the pattern nests.** -/
theorem length_le_loopDepth (h : p.Chain qs s) : qs.length ≤ p.loopDepth := by
  induction h with
  | nil => exact Nat.zero_le _
  | @cons p q b s qs hq hk hbody _ ih =>
    have hbody := loopDepth_add_le (List.mem_of_head? hbody)
    have hinside := loopDepth_le_of_mem_subtrees hq
    rw [if_pos hk] at hbody
    rw [List.length_cons]
    omega

end Chain

end Located

/-! ## Records in a scope -/

/-- **Is a record for a node of the scope**, one of a kind that has such records?  A span has to be
in order and inside the input, a choice has to be that of a branch. -/
def Record.FitsIn (size : Nat) (s : Located) : Record → Prop
  | .span n sp => ∃ a ∈ s.subtrees, Located.id a = n ∧ Located.kind a = .capture ∧
      sp.start ≤ sp.stop ∧ sp.stop ≤ size
  | .choice n i => ∃ a ∈ s.subtrees, Located.id a = n ∧ Located.kind a = .alternation ∧
      i < a.children.length
  | .iteration n _ => ∃ a ∈ s.subtrees, Located.id a = n ∧ Located.kind a = .quantifier

/-- A record in its place is for a node of its scope. -/
theorem Record.Placed.fitsIn {size : Nat} {p : Located} {r : Record}
    (h : Record.Placed size (some p) r) : r.FitsIn size p := by
  cases h with
  | span hnode hkind hfits =>
    obtain ⟨ha, hid⟩ := Located.mem_subtrees_of_find (p := p) hnode
    exact ⟨_, ha, hid, hkind, Span.fits_iff.mp hfits⟩
  | choice hnode hkind hbranch =>
    obtain ⟨ha, hid⟩ := Located.mem_subtrees_of_find (p := p) hnode
    exact ⟨_, ha, hid, hkind, hbranch⟩
  | iteration hnode hkind =>
    obtain ⟨ha, hid⟩ := Located.mem_subtrees_of_find (p := p) hnode
    exact ⟨_, ha, hid, hkind⟩

namespace Trace

open Located

variable {p s : Located} {t f : Trace} {size : Nat} {address : FrameAddress}

/-- **In an accepted trace the iterations around a frame are those of a chain**, and everything in
the frame is in its place in the scope. -/
theorem Placed.chain (h : t.Placed size (some p)) (hwell : p.WellFormed)
    (hf : t.frame? address = some f) :
    ∃ qs s, p.Chain qs s ∧ qs.map Located.id = address.map Prod.fst ∧ f.Placed size (some s) := by
  induction address generalizing t p with
  | nil =>
    obtain rfl : t = f := Option.some.inj hf
    exact ⟨[], p, .nil, rfl, h⟩
  | cons entry address ih =>
    obtain ⟨n, i⟩ := entry
    obtain ⟨g, hg, hframe⟩ := Option.bind_eq_some_iff.mp hf
    have hrecord := h _ (mem_iterations.mp (List.mem_of_getElem? hg))
    obtain ⟨q, hnode, hk, hinside⟩ := placed_iteration_iff.mp hrecord
    obtain ⟨hq, rfl⟩ := mem_subtrees_of_find (p := p) hnode
    obtain ⟨b, hc, hb, -⟩ := (hwell.of_mem_subtrees hq).of_quantifier hk
    have hbody := body_eq_some hc
    rw [hbody] at hinside
    obtain ⟨qs, s, hchain, hids, hplaced⟩ := ih hinside hb hframe
    refine ⟨q :: qs, s, .cons hq hk hbody hchain, ?_, hplaced⟩
    rw [List.map_cons, hids, List.map_cons]

/-- **Is every record of the trace, wherever it is, in the scope of a chain?**  The chain is that
of the iterations around the record, and the record is for a node of the scope. -/
def InChains (size : Nat) (p : Located) (t : Trace) : Prop :=
  ∀ address f, t.frame? address = some f → ∀ r ∈ f, ∃ qs s, p.Chain qs s ∧
    qs.map Located.id = address.map Prod.fst ∧ r.FitsIn size s

/-- What holds of all records of a trace holds of those in one of its iterations, with the
quantifier taken off the chain. -/
theorem InChains.inside (h : t.InChains size p) (hd : p.Distinct) {q b : Located}
    (hq : q ∈ p.subtrees) (hbody : q.body = some b) (hf : .iteration q.id f ∈ t) :
    f.InChains size b := by
  obtain ⟨i, hi⟩ := List.mem_iff_getElem?.mp (mem_iterations.mpr hf)
  intro address g hg r hr
  have hframe : t.frame? ((q.id, i) :: address) = some g := by
    rw [frame?, hi]
    exact hg
  obtain ⟨qs, s, hchain, hids, hfits⟩ := h _ g hframe r hr
  cases hchain with
  | nil => cases hids
  | @cons _ q' b' _ qs hq' _ hbody' hrest =>
    obtain ⟨hid, hrestIds⟩ := List.cons.inj hids
    obtain rfl := hd.eq_of_id_eq hq' hq hid
    obtain rfl := Option.some.inj (hbody'.symm.trans hbody)
    exact ⟨qs, s, hrest, hrestIds, hfits⟩

/-- The records of the outermost frame are for nodes of the pattern. -/
theorem InChains.fitsIn (h : t.InChains size p) {r : Record} (hr : r ∈ t) : r.FitsIn size p := by
  obtain ⟨qs, s, hchain, hids, hfits⟩ := h [] t rfl r hr
  cases hchain with
  | nil => exact hfits
  | cons => cases hids

/-- **Records in the scopes of chains are in their place.** -/
theorem placed_of_inChains {r : Record} (hwell : p.WellFormed) (hd : p.Distinct)
    (h : t.InChains size p) (hr : r ∈ t) : Record.Placed size (some p) r := by
  -- going into an iteration makes the trace and the pattern smaller together
  induction r using Record.induction generalizing p t with
  | span n sp =>
    obtain ⟨a, ha, rfl, hk, hfits⟩ := h.fitsIn hr
    exact .span (hd.find_id ha) hk (Span.fits_iff.mpr hfits)
  | choice n i =>
    obtain ⟨a, ha, rfl, hk, hbranch⟩ := h.fitsIn hr
    exact .choice (hd.find_id ha) hk hbranch
  | iteration n f ih =>
    obtain ⟨q, hq, rfl, hk⟩ := h.fitsIn hr
    obtain ⟨b, hc, hb, -⟩ := (hwell.of_mem_subtrees hq).of_quantifier hk
    have hbody := body_eq_some hc
    have hdb := (hd.of_mem_subtrees hq).child (mem_children_of_eq hc)
    refine .iteration (hd.find_id hq) hk fun r' hr' => ?_
    rw [hbody]
    exact ih r' hr' hb hdb (h.inside hd hq hbody hr) hr'

/-- **The check accepts exactly the traces whose records are in the scopes of chains.** -/
theorem check_eq_ok_iff_inChains (hwell : p.WellFormed) (hd : p.Distinct) :
    t.check p size = .ok () ↔ t.InChains size p := by
  rw [check_eq_ok_iff]
  constructor
  · intro h address f hf r hr
    obtain ⟨qs, s, hchain, hids, hplaced⟩ := h.chain hwell hf
    exact ⟨qs, s, hchain, hids, (hplaced r hr).fitsIn⟩
  · exact fun h r hr => placed_of_inChains hwell hd h hr

/-- **The check accepts exactly the well-placed traces.**  For a pattern that validation accepts:

* a trace is accepted if and only if every record in it, wherever it is, is for a node of the right
  kind in the scope of its frame, and the iterations around it are those of quantifiers that stand
  inside each other;
* in an accepted trace the quantifiers of the iterations around a record are around its node in
  the pattern, in the same order, and frames are not nested deeper than quantifiers;
* a trace that is kept in tables is judged by its records, whatever rows have been emptied, and
  recording something anywhere and taking it back does not change the verdict. -/
theorem check_accepts_exactly {p : Pattern} (h : p.validate = .ok ()) (size : Nat) :
    (∀ t : Trace, t.check p.locate size = .ok () ↔ t.InChains size p.locate) ∧
      (∀ t : Trace, t.check p.locate size = .ok () → ∀ address f, t.frame? address = some f →
        address.length ≤ p.locate.loopDepth ∧ ∀ r ∈ f, (address.map Prod.fst).Sublist
          ((p.locate.quantifiersAround r.node).map Located.id)) ∧
      (∀ t : Tables, t.check size (some p.locate) = t.records.check p.locate size) ∧
      ∀ (t t' : Tables) address c, t.applyAt address c = .ok t' →
        ∃ t'', t'.retractAt address c.entry.kind c.entry.node = .ok t'' ∧
          t''.check size (some p.locate) = t.check size (some p.locate) := by
  have hwell := Pattern.wellFormed_locate h
  have hd := p.distinct_locate
  refine ⟨fun t => check_eq_ok_iff_inChains hwell hd, ?_, Tables.check_eq, ?_⟩
  · intro t ht address f hf
    obtain ⟨qs, s, hchain, hids, hplaced⟩ := (check_eq_ok_iff.mp ht).chain hwell hf
    rw [← hids]
    constructor
    · have hlength := congrArg List.length hids
      rw [List.length_map, List.length_map] at hlength
      exact hlength ▸ hchain.length_le_loopDepth
    · intro r hr
      exact (hchain.sublist_quantifiersAround hd (hplaced r hr).node_mem_ids).map Located.id
  · intro t t' address c happly
    obtain ⟨t'', hretract, hrecords⟩ := Tables.exists_retractAt happly
    refine ⟨t'', hretract, ?_⟩
    rw [Tables.check_eq, Tables.check_eq, hrecords]

/-- A loop in a loop. -/
def loopInLoop : Pattern := (Pattern.exact [0x61]).capture.plus.star

/-- An iteration of the outer loop with two of the inner one. -/
def twoInnerRounds : Trace :=
  [.iteration 0 [.iteration 1 [.span 2 ⟨0, 1⟩], .iteration 1 [.span 2 ⟨1, 2⟩]]]

/-- An iteration of the inner loop around one of the outer loop. -/
def insideOut : Trace := [.iteration 1 [.iteration 0 []]]

/-- The two inner rounds, kept in tables. -/
def keptRounds : Tables :=
  .frame [] [] [(0, [.frame [] []
    [(1, [.frame [(2, [⟨0, 1⟩])] [] [], .frame [(2, [⟨1, 2⟩])] [] []])]])]

theorem check_accepts_exactly_loopInLoop :
    loopInLoop.validate = .ok () ∧ twoInnerRounds.InChains 2 loopInLoop.locate ∧
      ¬ insideOut.InChains 2 loopInLoop.locate ∧ loopInLoop.locate.loopDepth = 2 ∧
      keptRounds.check 2 (some loopInLoop.locate) =
        twoInnerRounds.check loopInLoop.locate 2 ∧
      -- a span that does not belong to the frame is recorded there, and taken back
      ∃ t' t'', keptRounds.applyAt [(0, 0)] (.record 9 ⟨5, 3⟩) = .ok t' ∧
        t'.check 2 (some loopInLoop.locate) = .error (.outsideFrame .span) ∧
        t'.retractAt [(0, 0)] .span 9 = .ok t'' ∧ t'' ≠ keptRounds ∧
        t''.check 2 (some loopInLoop.locate) = .ok () := by
  have hall := check_accepts_exactly (p := loopInLoop) rfl 2
  obtain ⟨t'', hretract, hcheck⟩ := hall.2.2.2 keptRounds _ [(0, 0)] (.record 9 ⟨5, 3⟩) rfl
  refine ⟨rfl, (hall.1 twoInnerRounds).mp rfl, fun hchains => ?_, rfl, hall.2.2.1 keptRounds,
    _, t'', rfl, rfl, hretract, fun hsame => ?_, hcheck⟩
  · cases (hall.1 insideOut).mpr hchains
  · rw [hsame] at hretract
    cases hretract

end Trace

end CaptureTree
