import CaptureTree.Proofs.Trace.Spans
import CaptureTree.Proofs.Value.Projection

/-!
# The spans of a value

`Value.spans` reads the spans of a value from left to right.  Assembling a flat
result neither loses a span nor reads one twice, and keeps their order:
`Located.Holds.spans_assemble_flat` says that its spans are all spans that the trace
holds for the capture, wherever they are recorded.

The proof goes down the quantifiers around the capture.  At each of them the
iterations come from one of two places.

* They were recorded.  Then the body has no loose records, so the frame holds no span
  of the capture itself, and no frames of the inner quantifiers either.
* They are split off span lists.  Then no other quantifier is between this one and
  the capture, and the frame holds all spans of the capture.

Projection keeps the spans too (`Value.spans_of_project`): it takes those at the
positions that `Value.along` collects on its path.
-/

namespace CaptureTree

namespace Value

variable {q c : Located} {qs : List Located} {t : Trace} {v w : Value}

/-- The span of a leaf that took part in the match. -/
def leafSpan (v : Value) : Option Span :=
  if v.kind = .leaf then v.span else none

/-- **The spans of all leaves**, from left to right. -/
def spans (v : Value) : List Span :=
  v.subtrees.filterMap leafSpan

/-- The values at the positions that a path leads to.  There are several of them
below a list, and none below a branch that was not taken. -/
def along : SlotPath → Value → List Value
  | [], v => [v]
  | .member i :: path, v => v.children[i]?.toList.flatMap (along path)
  | .branch i :: path, v =>
    if v.selected = i then v.children[0]?.toList.flatMap (along path) else []
  | .each :: path, v => v.children.flatMap (along path)
  | .inner :: path, v =>
    if v.present then v.children[0]?.toList.flatMap (along path) else []

/-! ## Reading spans piece by piece -/

theorem spans_eq (v : Value) : v.spans = (leafSpan v).toList ++ v.children.flatMap spans := by
  have hroot : v.spans = (v :: v.children.flatMap Tree.subtrees).filterMap leafSpan := by
    rw [spans, Tree.subtrees_eq]
  rw [hroot, List.filterMap_cons, List.filterMap_flatMap]
  cases leafSpan v with
  | none => rfl
  | some s => rfl

theorem spans_leaf (s : Option Span) : (leaf s).spans = s.toList := by
  rw [spans_eq]
  exact List.append_nil _

/-- The spans of a child are spans of the value. -/
theorem mem_spans_of_mem_children (hw : w ∈ v.children) {s : Span}
    (hs : s ∈ w.spans) : s ∈ v.spans := by
  rw [spans_eq]
  exact List.mem_append_right _ (List.mem_flatMap.mpr ⟨w, hw, hs⟩)

/-- The span of a leaf is a span of the value. -/
theorem mem_spans_of_leaf (hk : v.kind = .leaf) {s : Span}
    (hs : v.span = some s) : s ∈ v.spans := by
  rw [spans_eq, leafSpan, if_pos hk, hs]
  exact List.mem_cons_self

/-- Slots of quantifiers have no spans of their own. -/
theorem spans_ofItems (q : Located) (vs : List Value) :
    (ofItems q vs).spans = vs.flatMap spans := by
  have hnone : leafSpan (ofItems q vs) = none := by
    show (if (if q.bounds.isOptional then SlotKind.opt else .repeated) = .leaf then none else none)
      = none
    rw [ite_self]
  rw [spans_eq, hnone]
  rfl

theorem spans_absentAlong (path : SlotPath) : (absentAlong path).spans = [] := by
  induction path with
  | nil => rfl
  | cons step path ih =>
    cases step with
    | member | branch => exact ih
    | each | inner => rfl

/-! ## Projection -/

/-- **Projection keeps the spans on its path.** -/
theorem spans_of_project {path : SlotPath} {s : Shape} (h : project path s v = .ok w) :
    w.spans = (along path v).flatMap spans := by
  induction path generalizing s v w with
  | nil =>
    rw [project, bind_unit_eq_ok, pure_eq_ok] at h
    rw [h.2, along, List.flatMap_singleton]
  | cons step path ih =>
    cases step with
    | member i =>
      simp only [project, bind_eq_ok, child_eq_ok] at h
      obtain ⟨-, -, s', -, u, hu, h⟩ := h
      rw [along, hu, Option.toList_some, List.flatMap_singleton]
      exact ih h
    | branch i =>
      rw [project, bind_unit_eq_ok] at h
      obtain ⟨-, h⟩ := h
      rw [along]
      split at h
      · rename_i htaken
        simp only [bind_eq_ok, child_eq_ok] at h
        obtain ⟨s', -, u, hu, h⟩ := h
        rw [if_pos htaken, hu, Option.toList_some, List.flatMap_singleton]
        exact ih h
      · rename_i hother
        rw [pure_eq_ok] at h
        rw [if_neg hother, ← h, spans_absentAlong, List.flatMap_nil]
    | each =>
      simp only [project, bind_eq_ok, pure_eq_ok, mapM_eq_ok] at h
      obtain ⟨-, -, ws, hall, rfl⟩ := h
      rw [spans_eq, along, List.flatMap_assoc]
      refine (flatMap_eq_of_forall₂ hall fun v w hw => ?_).symm
      obtain ⟨s', -, hproject⟩ := hw
      exact (ih hproject).symm
    | inner =>
      rw [project, bind_unit_eq_ok] at h
      obtain ⟨-, h⟩ := h
      rw [along]
      split at h
      · rename_i hpresent
        simp only [bind_eq_ok, pure_eq_ok, firstUnchecked_eq_ok] at h
        obtain ⟨s', -, u, hu, w', hw', rfl⟩ := h
        rw [if_pos hpresent, hu, Option.toList_some, List.flatMap_singleton, spans_eq]
        show w'.spans ++ [] = _
        rw [List.append_nil]
        exact ih hw'
      · rename_i habsent
        rw [pure_eq_ok] at h
        rw [if_neg habsent, ← h]
        rfl

end Value

/-! ## Span lists split into iterations -/

namespace Trace

variable {n m : NodeId} {rows : List (NodeId × List Span)}

theorem spans_splitFrame_cons (others : List Span) (i : Nat) :
    (splitFrame ((m, others) :: rows) i).spans n =
      (if m = n then others[i]?.toList else []) ++ (splitFrame rows i).spans n := by
  cases hi : others[i]? with
  | none =>
    have hframe : splitFrame ((m, others) :: rows) i = splitFrame rows i :=
      List.filterMap_cons_none (by simp only [hi, Option.map_none])
    rw [hframe, Option.toList_none, ite_self, List.nil_append]
  | some s =>
    have hframe : splitFrame ((m, others) :: rows) i = .span m s :: splitFrame rows i :=
      List.filterMap_cons_some (by simp only [hi, Option.map_some])
    rw [hframe, Trace.spans, List.filterMap_cons, Record.spanOf?]
    by_cases hmn : m = n
    · rw [if_pos hmn, if_pos hmn]
      rfl
    · rw [if_neg hmn, if_neg hmn]
      rfl

/-- **Iteration `i` of a split loop** has span `i` of every capture. -/
theorem spans_splitFrame (hkeys : (rows.map (·.1)).Nodup) {spans : List Span}
    (hrow : (n, spans) ∈ rows) (i : Nat) : (splitFrame rows i).spans n = spans[i]?.toList := by
  have hnone : ∀ rows : List (NodeId × List Span), n ∉ rows.map (·.1) →
      (splitFrame rows i).spans n = [] := by
    intro rows hn
    induction rows with
    | nil => rfl
    | cons row rows ih =>
      rw [List.map_cons, List.mem_cons, not_or] at hn
      rw [spans_splitFrame_cons, if_neg (Ne.symm hn.1), ih hn.2]
      rfl
  induction rows with
  | nil => exact absurd hrow List.not_mem_nil
  | cons row rows ih =>
    rw [List.map_cons, List.nodup_cons] at hkeys
    rw [spans_splitFrame_cons]
    rcases List.mem_cons.mp hrow with rfl | hrow
    · rw [if_pos rfl, hnone rows hkeys.1, List.append_nil]
    · have hne : row.1 ≠ n := by
        intro heq
        refine hkeys.1 ?_
        rw [heq]
        exact List.mem_map.mpr ⟨(n, spans), hrow, rfl⟩
      rw [if_neg hne, ih hkeys.2 hrow, List.nil_append]

/-- The span lists of all captures of a pattern. -/
def captureRows (b : Located) (t : Trace) : List (NodeId × List Span) :=
  b.captures.map fun c => (c.id, t.spans c.id)

theorem mem_captureRows {b c : Located} (t : Trace) (hc : c ∈ b.captures) :
    (c.id, t.spans c.id) ∈ captureRows b t :=
  List.mem_map.mpr ⟨c, hc, rfl⟩

/-- Every capture has one span list. -/
theorem nodup_captureRows {b : Located} (hd : b.Distinct) (t : Trace) :
    ((captureRows b t).map (·.1)).Nodup := by
  rw [captureRows, List.map_map]
  have hsub : (b.captures.map Located.id).Sublist b.ids := List.filter_sublist.map Located.id
  exact hsub.nodup hd

/-- A list is put together again from its entries. -/
theorem flatMap_range_getElem? {α : Type} (xs : List α) :
    ((List.range xs.length).flatMap fun i => xs[i]?.toList) = xs := by
  induction xs with
  | nil => rfl
  | cons x xs ih =>
    rw [List.length_cons, List.range_succ_eq_map, List.flatMap_cons, List.flatMap_map]
    exact congrArg (x :: ·) ih

/-- **A loop can be split** if nothing in its body keeps it from being split, and all
captures of the body have equally many spans. -/
theorem splitSpans_eq_ok {slot : SlotTitle} {b : Located} {t : Trace} {fs : List Trace}
    (h : splitSpans slot b t = .ok fs) :
    (∀ a ∈ b.subtrees, blocksSplitting a = false) ∧
      ∃ k, (∀ c ∈ b.captures, (t.spans c.id).length = k) ∧
        fs = (List.range k).map (splitFrame (captureRows b t)) := by
  rw [splitSpans] at h
  split at h
  · cases h
  · rename_i hblock
    refine ⟨fun a ha => ?_, ?_⟩
    · exact Bool.eq_false_iff.mpr (List.find?_eq_none.mp hblock a ha)
    · simp only at h
      split at h
      · cases h
      · rename_i heven
        refine ⟨_, fun c hc => ?_, (Except.ok.inj h).symm⟩
        have hrow := List.find?_eq_none.mp heven _ (mem_captureRows t hc)
        simpa using hrow

/-- There are as many iterations as every capture has spans. -/
theorem splitSpans_of_even {slot : SlotTitle} {b : Located} {t : Trace} {k : Nat}
    (hsplit : ∀ a ∈ b.subtrees, blocksSplitting a = false) (hcapture : b.captures ≠ [])
    (heven : ∀ c ∈ b.captures, (t.spans c.id).length = k) :
    splitSpans slot b t = .ok ((List.range k).map (splitFrame (captureRows b t))) := by
  have hnone : b.subtrees.find? blocksSplitting = none :=
    List.find?_eq_none.mpr fun a ha => Bool.eq_false_iff.mp (hsplit a ha)
  obtain ⟨c, cs, hcs⟩ := List.exists_cons_of_ne_nil hcapture
  have hfirst : (((captureRows b t).head?.map fun row => row.2.length).getD 0) = k := by
    rw [captureRows, hcs]
    exact heven c (hcs ▸ List.mem_cons_self)
  have hrows : ((captureRows b t).find? fun row => row.2.length != k) = none := by
    refine List.find?_eq_none.mpr fun row hrow => ?_
    obtain ⟨c, hc, rfl⟩ := List.mem_map.mp hrow
    simp [heven c hc]
  rw [captureRows] at hfirst hrows ⊢
  simp only [splitSpans, hnone, hfirst, hrows]

end Trace

/-! ## Assembly -/

namespace Located

namespace Holds

variable {p q c : Located} {qs : List Located} {t : Trace} {size : Nat}

/-- A quantifier around a capture keeps the loop around it from being split. -/
theorem eq_nil_of_not_blocksSplitting (h : p.Holds qs c)
    (hsplit : ∀ a ∈ p.subtrees, Trace.blocksSplitting a = false) : qs = [] := by
  cases qs with
  | nil => rfl
  | cons q qs =>
    obtain ⟨hq, hk, b, hb, hinside⟩ := h.of_cons
    have hcap : q.hasCapture = true := hasCapture_of_mem_children hb hinside.hasCapture
    have hblocks : Trace.blocksSplitting q = true := by
      rw [Trace.blocksSplitting, hk, hcap]
      rfl
    rw [hsplit q hq] at hblocks
    cases hblocks

/-- **What is inside a loop with recorded frames is read from these frames.**  The
frame around them holds no span of the capture, and no iteration of a loop further
in. -/
theorem allSpans_eq_iterations (h : p.Holds (q :: qs) c) (hd : p.Distinct)
    (ht : t.Placed size (some p)) {b : Located} (hb : b ∈ q.children) (hinside : Holds b qs c)
    (hloose : t.touches b = false) :
    t.allSpans c.id = (t.iterations q.id).flatMap fun f => f.allSpans c.id := by
  have hrows := Trace.touches_eq_false_iff.mp hloose
  refine Trace.allSpans_eq_iterations ?_ fun m f hmem hmq => ?_
  · exact (Trace.touches_eq_false_iff_rows.mp hloose c.id hinside.id_mem_ids).1
  · by_contra hspans
    obtain ⟨a, ha, hid⟩ := h.mem_of_spansWithin hd (ht _ hmem) hspans
    rcases List.mem_cons.mp ha with rfl | ha
    · exact hmq hid.symm
    · obtain ⟨hsub, -⟩ := hinside.mem_subtrees_of_mem ha
      exact hrows _ hmem (hid ▸ Located.id_mem_ids hsub)

/-- **What is inside a loop with split span lists is read in full.**  No other
quantifier is between the loop and the capture, so all its spans stand in the frame
that was split. -/
theorem allSpans_eq_split (h : p.Holds [q] c) (hd : p.Distinct) (ht : t.Placed size (some p))
    (hnone : t.iterations q.id = []) {b : Located} (hdb : b.Distinct) (hinside : b.Holds [] c)
    {slot : SlotTitle} {fs : List Trace} (hsplit : Trace.splitSpans slot b t = .ok fs) :
    t.allSpans c.id = fs.flatMap fun f => f.spans c.id := by
  have hall : t.allSpans c.id = t.spans c.id := by
    refine Trace.allSpans_eq_spans fun m f hmem => ?_
    by_contra hspans
    obtain ⟨a, ha, rfl⟩ := h.mem_of_spansWithin hd (ht _ hmem) hspans
    rw [List.mem_singleton.mp ha] at hmem
    have hframe : f ∈ t.iterations q.id := by
      refine List.mem_filterMap.mpr ⟨_, hmem, ?_⟩
      rw [Record.frameOf?, if_pos rfl]
    rw [hnone] at hframe
    exact absurd hframe List.not_mem_nil
  obtain ⟨-, k, hk, rfl⟩ := Trace.splitSpans_eq_ok hsplit
  have hc : c ∈ b.captures := hinside.mem_captures
  have hframes : ∀ i, (Trace.splitFrame (Trace.captureRows b t) i).spans c.id =
      (t.spans c.id)[i]?.toList :=
    Trace.spans_splitFrame (Trace.nodup_captureRows hdb t) (Trace.mem_captureRows t hc)
  rw [hall, List.flatMap_map, ← hk c hc]
  simp only [hframes]
  exact (Trace.flatMap_range_getElem? (t.spans c.id)).symm

/-- The spans of a leaf are those of the frame. -/
theorem spans_assemble_leaf {v : Value} (hv : Value.assemble (.leaf (some c)) t = .ok v) :
    v.spans = t.spans c.id := by
  obtain ⟨hone, rfl⟩ := Value.assemble_leaf_eq_ok.mp hv
  rw [Value.spans_leaf]
  cases hspans : t.spans c.id with
  | nil => rfl
  | cons s rest =>
    rw [hspans, List.length_cons] at hone
    rw [List.eq_nil_of_length_eq_zero (by omega : rest.length = 0)]
    rfl

/-- The outermost quantifier is part of the pattern, and repeats one well-formed pattern that
holds the capture inside the others. -/
theorem exists_body (h : p.Holds (q :: qs) c) (hwell : p.WellFormed) (hd : p.Distinct) :
    ∃ b : Located, q ∈ p.subtrees ∧ b ∈ q.children ∧ q.body = some b ∧ b.Holds qs c ∧
      b.WellFormed ∧ b.Distinct := by
  obtain ⟨hq, hk, b, hb, hinside⟩ := h.of_cons
  obtain ⟨b', hchildren, hbody, -⟩ := (hwell.of_mem_subtrees hq).of_quantifier hk
  obtain rfl : b = b' := by
    rw [hchildren, List.mem_singleton] at hb
    exact hb
  exact ⟨b, hq, hb, body_eq_some hchildren, hinside, hbody, (hd.of_mem_subtrees hq).child hb⟩

/-- **Assembling a flat result keeps all spans.**  They are the spans that the trace
holds for the capture, in the order in which they were recorded. -/
theorem spans_assemble_flat (h : p.Holds qs c) (hwell : p.WellFormed) (hd : p.Distinct)
    (ht : t.Placed size (some p)) {v : Value} (hv : Value.assemble (.flat qs c) t = .ok v) :
    v.spans = t.allSpans c.id := by
  induction qs generalizing p t v with
  | nil =>
    rw [spans_assemble_leaf hv]
    refine (Trace.allSpans_eq_spans fun m f hmem => ?_).symm
    by_contra hspans
    obtain ⟨a, ha, -⟩ := h.mem_of_spansWithin hd (ht _ hmem) hspans
    exact absurd ha List.not_mem_nil
  | cons q qs ih =>
    obtain ⟨b, hq, hb, hqbody, hinside, hbody, hdb⟩ := h.exists_body hwell hd
    obtain ⟨fs, hframes, -, vs, hall, rfl⟩ := Value.assemble_loop_eq_ok.mp hv
    rw [Value.spans_ofItems]
    rcases Trace.frames_eq_ok hframes with ⟨hloose, rfl⟩ | ⟨b', hb', hnone, hsplit⟩
    · rw [h.allSpans_eq_iterations hd ht hb hinside (hloose b hqbody)]
      -- what stands in a frame of the quantifier is in its place in the body
      have hplaced : ∀ f ∈ t.iterations q.id, Trace.Placed size (some b) f := by
        intro f hf
        obtain ⟨r, hr, hframe⟩ := List.mem_filterMap.mp hf
        exact (ht r hr).inside hd hq hqbody hframe
      refine (flatMap_eq_of_forall₂ ((List.forall₂_and_left _ _).mpr ⟨hplaced, hall⟩) ?_).symm
      rintro f v ⟨hf, hv⟩
      exact (ih hinside hbody hdb hf hv).symm
    · obtain rfl : b = b' := Option.some.inj (hqbody.symm.trans hb')
      obtain rfl := hinside.eq_nil_of_not_blocksSplitting (Trace.splitSpans_eq_ok hsplit).1
      rw [h.allSpans_eq_split hd ht hnone hdb hinside hsplit]
      exact (flatMap_eq_of_forall₂ hall fun f v hv => (spans_assemble_leaf hv).symm).symm

end Holds

end Located

end CaptureTree
