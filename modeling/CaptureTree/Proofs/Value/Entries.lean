import CaptureTree.Proofs.Value.Spans

/-!
# Results, entry by entry

The result of a capture is a list of lists with one level per quantifier around the
capture.  An entry of it is found by indices (`Value.entryAt`), and it comes from a frame
of the trace that is found by the same indices: at every level the index is the number of
an iteration (`Trace.Reaches`).

Neither the frames nor how many of them there are depends on the capture.  An iteration is
one that was recorded, or one position in all the span lists of a loop without frames
(`Trace.Iteration`), and reading a loop for whatever capture yields just these
(`Trace.iteration_iff`).  So the entries of a result are exactly those whose indices reach
a frame, and each of them is what that frame says of the capture
(`Located.Holds.exists_entry`, `Located.Holds.exists_reaches`).
-/

namespace CaptureTree

namespace Trace

variable {q b : Located} {qs : List Located} {is : List Nat} {t f g : Trace} {i : Nat}

/-! ## Iterations and their frames -/

/-- **Is this the frame of iteration `i` of a quantifier?**  It is the one that was recorded,
if nothing of the body is recorded beside the frames, and otherwise it has span `i` of every
capture in the body. -/
inductive Iteration (q : Located) (t : Trace) (i : Nat) (f : Trace) : Prop
  | recorded (loose : ∀ b ∈ q.body, t.touches b = false)
      (frame : (t.iterations q.id)[i]? = some f) : Iteration q t i f
  | split {b : Located} (body : q.body = some b) (loose : t.touches b = true)
      (unframed : t.iterations q.id = []) (position : ∀ c ∈ b.captures, i < (t.spans c.id).length)
      (frame : f = splitFrame (captureRows b t) i) : Iteration q t i f

/-- An iteration has one frame. -/
theorem Iteration.unique (h : Iteration q t i f) (h' : Iteration q t i g) : f = g := by
  cases h with
  | recorded hloose hf =>
    cases h' with
    | recorded _ hg => exact Option.some.inj (hf.symm.trans hg)
    | split hb ht =>
      rw [hloose _ hb] at ht
      cases ht
  | split hb ht _ _ hf =>
    cases h' with
    | recorded hloose =>
      rw [hloose _ hb] at ht
      cases ht
    | split hb' _ _ _ hg =>
      obtain rfl := Option.some.inj (hb.symm.trans hb')
      rw [hf, hg]

/-- **Reading a loop yields its iterations**, whatever it is read for. -/
theorem iteration_iff {slot : SlotTitle} {fs : List Trace} (hframes : t.frames slot q = .ok fs)
    (hb : q.body = some b) (hcaptures : b.captures ≠ []) :
    Iteration q t i f ↔ fs[i]? = some f := by
  cases ht : t.touches b with
  | false =>
    have hloose := untouched_of_body hb ht
    rw [frames_of_untouched hloose, Except.ok.injEq] at hframes
    rw [← hframes]
    constructor
    · rintro (⟨-, hf⟩ | ⟨hb', ht', -, -, -⟩)
      · exact hf
      · rw [hloose _ hb'] at ht'
        cases ht'
    · exact .recorded hloose
  | true =>
    rw [frames_of_touched hb ht] at hframes
    split at hframes
    · rename_i hempty
      obtain ⟨-, k, heven, rfl⟩ := splitSpans_eq_ok hframes
      rw [List.getElem?_map, Option.map_eq_some_iff]
      constructor
      · rintro (⟨hloose, -⟩ | ⟨hb', -, -, hposition, rfl⟩)
        · rw [hloose b hb] at ht
          cases ht
        · obtain rfl := Option.some.inj (hb.symm.trans hb')
          obtain ⟨c, hc⟩ := List.exists_mem_of_ne_nil _ hcaptures
          exact ⟨i, List.getElem?_range (heven c hc ▸ hposition c hc), rfl⟩
      · rintro ⟨j, hj, rfl⟩
        obtain ⟨hlt, rfl⟩ := List.getElem?_eq_some_iff.mp hj
        rw [List.getElem_range]
        rw [List.length_range] at hlt
        refine .split hb ht (List.isEmpty_iff.mp hempty) (fun c hc => ?_) rfl
        rw [heven c hc]
        exact hlt
    · cases hframes

/-- **Do these indices lead to a frame**, going into one iteration of each of the
quantifiers?  There may be fewer indices than quantifiers. -/
inductive Reaches : List Located → List Nat → Trace → Trace → Prop
  | here {qs : List Located} {t : Trace} : Reaches qs [] t t
  | inside {q : Located} {qs : List Located} {i : Nat} {is : List Nat} {t f g : Trace}
      (iteration : Iteration q t i f) (deeper : Reaches qs is f g) : Reaches (q :: qs) (i :: is) t g

/-- Indices lead to one frame at most. -/
theorem Reaches.unique (h : Reaches qs is t f) (h' : Reaches qs is t g) : f = g := by
  induction h with
  | here =>
    cases h'
    rfl
  | inside hiteration _ ih =>
    cases h' with
    | inside hiteration' hdeeper' =>
      obtain rfl := hiteration.unique hiteration'
      exact ih hdeeper'

/-- A frame that was split off span lists is in order. -/
theorem placed_splitFrame {p : Located} {size : Nat} (ht : t.Placed size (some p))
    (hd : b.Distinct) (i : Nat) :
    (splitFrame (captureRows b t) i).Placed size (some b) := by
  intro r hr
  obtain ⟨row, hrow, hspan⟩ := List.mem_filterMap.mp hr
  obtain ⟨c, hc, rfl⟩ := List.mem_map.mp hrow
  obtain ⟨s, hs, rfl⟩ := Option.map_eq_some_iff.mp hspan
  obtain ⟨hmem, hcapture⟩ := List.mem_filter.mp hc
  have hplaced := ht _ (mem_spans.mp (List.mem_of_getElem? hs))
  cases hplaced with
  | span _ _ hfits => exact .span (hd.find_id hmem) (beq_iff_eq.mp hcapture) hfits

end Trace

/-! ## Entries -/

namespace Value

variable {c d q : Located} {qs qs' : List Located} {f : Trace} {a b : Value}

/-- The entry of a result at a list of indices, the first of them for the outermost level. -/
def entryAt : List Nat → Value → Option Value
  | [], v => some v
  | i :: is, v => v.children[i]?.bind (entryAt is)

/-- **Is a value what a frame says of a capture**, inside these quantifiers?  It is read from the
frame, it has the spans that the frame holds for the capture, and if there are none in the frame
itself and no iterations either, it is the empty result. -/
structure EntryOf (c : Located) (qs : List Located) (f : Trace) (a : Value) : Prop where
  read : assemble (.flat qs c) f = .ok a
  spans : a.spans = f.allSpans c.id
  absent : f.spans c.id = [] → (∀ q ∈ qs, f.iterations q.id = []) → a = absentFlat qs

/-- Do two entries have the same number of items, or are they both there or both left out? -/
structure SameItems (a b : Value) : Prop where
  kind : a.kind = b.kind
  items : a.children.length = b.children.length
  present : a.present = b.present

/-- **What one frame says of two captures of a loop** has the same items. -/
theorem EntryOf.sameItems (ha : EntryOf c (q :: qs) f a) (hb : EntryOf d (q :: qs') f b) :
    SameItems a b := by
  obtain ⟨fs, hframes, -, vs, hvs, rfl⟩ := assemble_loop_eq_ok.mp ha.read
  obtain ⟨fs', hframes', -, ws, hws, rfl⟩ := assemble_loop_eq_ok.mp hb.read
  obtain rfl : fs = fs' := Except.ok.inj (hframes.symm.trans hframes')
  have hlength : vs.length = ws.length := hvs.length_eq.symm.trans hws.length_eq
  refine ⟨rfl, hlength, ?_⟩
  show (q.bounds.isOptional && !vs.isEmpty) = (q.bounds.isOptional && !ws.isEmpty)
  rw [isEmpty_eq_of_length_eq hlength]

end Value

namespace Located

namespace Holds

variable {p q c : Located} {qs shared rest : List Located} {is : List Nat} {t f : Trace}
  {size : Nat} {u a : Value}

/-- Where no span of a capture is recorded, and no iteration either, the result is empty. -/
theorem assemble_flat_of_unrecorded (h : p.Holds qs c) (hwell : p.WellFormed) (hd : p.Distinct)
    (hu : Value.assemble (.flat qs c) t = .ok u) (hspans : t.spans c.id = [])
    (hiterations : ∀ q ∈ qs, t.iterations q.id = []) : u = Value.absentFlat qs := by
  cases qs with
  | nil =>
    obtain ⟨-, rfl⟩ := Value.assemble_leaf_eq_ok.mp hu
    rw [hspans]
    rfl
  | cons q qs =>
    obtain ⟨b, -, -, hqbody, hinside, -, -⟩ := h.exists_body hwell hd
    obtain ⟨fs, hframes, -, vs, hall, rfl⟩ := Value.assemble_loop_eq_ok.mp hu
    obtain rfl : fs = [] := by
      rcases Trace.frames_eq_ok hframes with ⟨-, rfl⟩ | ⟨b', hb', -, hsplit⟩
      · exact hiterations q List.mem_cons_self
      · obtain rfl := Option.some.inj (hqbody.symm.trans hb')
        obtain ⟨-, k, heven, rfl⟩ := Trace.splitSpans_eq_ok hsplit
        have hnone : k = 0 := by rw [← heven c hinside.mem_captures, hspans, List.length_nil]
        rw [hnone, List.range_zero, List.map_nil]
    obtain rfl := List.forall₂_nil_left_iff.mp hall
    rfl

/-- What is read from a frame is what the frame says of the capture. -/
theorem entryOf (h : p.Holds qs c) (hwell : p.WellFormed) (hd : p.Distinct)
    (ht : t.Placed size (some p)) (hu : Value.assemble (.flat qs c) t = .ok u) :
    Value.EntryOf c qs t u :=
  ⟨hu, h.spans_assemble_flat hwell hd ht hu, h.assemble_flat_of_unrecorded hwell hd hu⟩

/-- Every iteration of the outermost quantifier has an item, read from its frame, and every
item is that of an iteration. -/
theorem exists_item (h : p.Holds (q :: qs) c) (hwell : p.WellFormed) (hd : p.Distinct)
    (hu : Value.assemble (.flat (q :: qs) c) t = .ok u) (i : Nat) :
    (∀ f, Trace.Iteration q t i f →
        ∃ v, u.children[i]? = some v ∧ Value.assemble (.flat qs c) f = .ok v) ∧
      ∀ v, u.children[i]? = some v →
        ∃ f, Trace.Iteration q t i f ∧ Value.assemble (.flat qs c) f = .ok v := by
  obtain ⟨b, -, -, hqbody, hinside, -, -⟩ := h.exists_body hwell hd
  obtain ⟨fs, hframes, -, vs, hall, rfl⟩ := Value.assemble_loop_eq_ok.mp hu
  have hiteration : ∀ f, Trace.Iteration q t i f ↔ fs[i]? = some f :=
    fun f => Trace.iteration_iff hframes hqbody (List.ne_nil_of_mem hinside.mem_captures)
  constructor
  · intro f hf
    exact exists_getElem?_of_forall₂ hall ((hiteration f).mp hf)
  · intro v hv
    obtain ⟨f, hf, hread⟩ := exists_getElem?_of_forall₂ hall.flip hv
    exact ⟨f, (hiteration f).mpr hf, hread⟩

/-- The frame of an iteration is in order in the body. -/
theorem exists_body_placed (h : p.Holds (q :: qs) c) (hwell : p.WellFormed) (hd : p.Distinct)
    (ht : t.Placed size (some p)) {i : Nat} (hf : Trace.Iteration q t i f) :
    ∃ b : Located, b.Holds qs c ∧ b.WellFormed ∧ b.Distinct ∧ f.Placed size (some b) := by
  obtain ⟨b, hq, -, hqbody, hinside, hbody, hdb⟩ := h.exists_body hwell hd
  refine ⟨b, hinside, hbody, hdb, ?_⟩
  cases hf with
  | recorded _ hf =>
    obtain ⟨r, hr, hframe⟩ := List.mem_filterMap.mp (List.mem_of_getElem? hf)
    exact (ht r hr).inside hd hq hqbody hframe
  | split hb _ _ _ hf =>
    obtain rfl := Option.some.inj (hqbody.symm.trans hb)
    rw [hf]
    exact Trace.placed_splitFrame ht hdb i

/-- **Every frame inside the outer quantifiers has an entry**, and the entry is what it says of
the capture. -/
theorem exists_entry (h : p.Holds (shared ++ rest) c) (hwell : p.WellFormed) (hd : p.Distinct)
    (ht : t.Placed size (some p)) (hu : Value.assemble (.flat (shared ++ rest) c) t = .ok u)
    (hf : Trace.Reaches shared is t f) :
    ∃ a, Value.entryAt is u = some a ∧ Value.EntryOf c ((shared ++ rest).drop is.length) f a := by
  induction hf generalizing p u with
  | here => exact ⟨u, rfl, h.entryOf hwell hd ht hu⟩
  | @inside q shared i is t f g hiteration _ ih =>
    obtain ⟨b, hinside, hbody, hdb, hplaced⟩ := h.exists_body_placed hwell hd ht hiteration
    obtain ⟨v, hv, hread⟩ := (h.exists_item hwell hd hu i).1 f hiteration
    obtain ⟨a, ha, hentry⟩ := ih hinside hbody hdb hplaced hread
    refine ⟨a, ?_, hentry⟩
    rw [Value.entryAt, hv, Option.bind_some, ha]

/-- **Every entry inside the outer quantifiers has a frame.** -/
theorem exists_reaches (h : p.Holds (shared ++ rest) c) (hwell : p.WellFormed) (hd : p.Distinct)
    (ht : t.Placed size (some p)) (hu : Value.assemble (.flat (shared ++ rest) c) t = .ok u)
    (his : is.length ≤ shared.length) (ha : Value.entryAt is u = some a) :
    ∃ f, Trace.Reaches shared is t f := by
  induction is generalizing p t u shared with
  | nil => exact ⟨t, .here⟩
  | cons i is ih =>
    cases shared with
    | nil => exact absurd his (Nat.not_succ_le_zero _)
    | cons q shared =>
      rw [Value.entryAt, Option.bind_eq_some_iff] at ha
      obtain ⟨v, hv, ha⟩ := ha
      obtain ⟨f, hiteration, hread⟩ := (h.exists_item hwell hd hu i).2 v hv
      obtain ⟨b, hinside, hbody, hdb, hplaced⟩ := h.exists_body_placed hwell hd ht hiteration
      obtain ⟨g, hg⟩ := ih hinside hbody hdb hplaced hread (Nat.le_of_succ_le_succ his) ha
      exact ⟨g, .inside hiteration hg⟩

end Holds

end Located

end CaptureTree
