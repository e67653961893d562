import CaptureTree.Proofs.Trace.Restrict
import CaptureTree.Proofs.Value.Spans

/-!
# Values that conform to a shape

A value conforms to a shape if the two can be walked together: their kinds agree at every
slot, a product has one value per member, a sum has one value and it is one of the branch
that it names, and a slot that may be left out has one value at most, and says so if it has
one (`Value.Conforms`).

Whatever `Value.assemble` returns conforms to the shape along which it was read
(`Value.conforms_of_assemble`), and every span in it was recorded somewhere in the trace,
so that it fits the input if all spans of the trace do
(`Value.fits_of_mem_spans_assemble`).
-/

namespace CaptureTree

namespace Value

variable {s : Shape} {v : Value} {t : Trace} {size : Nat}

/-- **Has the value the form that the shape describes?** -/
inductive Conforms : Shape → Value → Prop
  | empty {v : Value} (kind : v.kind = .empty) (children : v.children = []) : Conforms .empty v
  | leaf {o : Option Located} {v : Value} (kind : v.kind = .leaf) (children : v.children = []) :
      Conforms (.leaf o) v
  | product {o : Located} {ss : List Shape} {v : Value} (kind : v.kind = .product)
      (length : ss.length = v.children.length)
      (members : ∀ pair ∈ ss.zip v.children, Conforms pair.1 pair.2) : Conforms (.product o ss) v
  | sum {o : Located} {ss : List Shape} {s : Shape} {v w : Value} (kind : v.kind = .sum)
      (branch : ss[v.selected]? = some s) (children : v.children = [w]) (inside : Conforms s w) :
      Conforms (.sum o ss) v
  | repeated {o : Located} {s : Shape} {v : Value} (kind : v.kind = .repeated)
      (items : ∀ w ∈ v.children, Conforms s w) : Conforms (.repeated o s) v
  | opt {o : Located} {s : Shape} {v : Value} (kind : v.kind = .opt)
      (once : v.children.length ≤ 1) (present : v.present = !v.children.isEmpty)
      (inner : ∀ w ∈ v.children, Conforms s w) : Conforms (.opt o s) v

/-- What says of itself that it is there can be read without a check, if it says so because it
is. -/
theorem exists_firstUnchecked_of_present (hflag : v.present = !v.children.isEmpty)
    (hpresent : v.present = true) : ∃ w ∈ v.children, firstUnchecked v.children = .ok w := by
  rw [hflag] at hpresent
  cases hchildren : v.children with
  | nil =>
    rw [hchildren] at hpresent
    cases hpresent
  | cons w ws => exact ⟨w, List.mem_cons_self, rfl⟩

/-- **Assembling returns a value of the shape**, whatever the trace. -/
theorem conforms_of_assemble (h : assemble s t = .ok v) : Conforms s v := by
  induction s generalizing t v with
  | empty =>
    obtain rfl : empty = v := Except.ok.inj h
    exact .empty rfl rfl
  | leaf o =>
    obtain ⟨-, rfl⟩ := assembleLeaf_eq_ok.mp h
    exact .leaf rfl rfl
  | product o ss ih =>
    obtain ⟨vs, hall, rfl⟩ := assemble_product_eq_ok.mp h
    obtain ⟨hlength, hmembers⟩ := List.forall₂_iff_zip.mp hall
    refine .product rfl hlength fun pair hpair => ?_
    exact ih pair.1 (List.of_mem_zip hpair).1 (hmembers hpair)
  | sum o ss ih =>
    obtain ⟨i, -, s, hs, w, hw, rfl⟩ := assemble_sum_eq_ok.mp h
    exact .sum rfl hs rfl (ih s (List.mem_of_getElem? hs) hw)
  | repeated o s ih =>
    obtain ⟨fs, -, vs, hall, rfl⟩ := assemble_repeated_eq_ok.mp h
    refine .repeated rfl fun w hw => ?_
    obtain ⟨f, -, hf⟩ := exists_mem_of_forall₂ hall hw
    exact ih hf
  | opt o s ih =>
    obtain ⟨fs, -, hone, vs, hall, rfl⟩ := assemble_opt_eq_ok.mp h
    refine .opt rfl (hall.length_eq ▸ hone) rfl fun w hw => ?_
    obtain ⟨f, -, hf⟩ := exists_mem_of_forall₂ hall hw
    exact ih hf

end Value

/-! ## Spans that fit -/

namespace Trace

variable {t f : Trace} {size : Nat}

/-- Do all spans fit an input of `size` bytes, wherever in the trace they are recorded? -/
def SpansFit (size : Nat) (t : Trace) : Prop :=
  ∀ n, ∀ s ∈ t.allSpans n, s.fits size = true

/-- In a trace that is in order all spans fit. -/
theorem Placed.spansFit {scope : Option Located} (h : t.Placed size scope) : t.SpansFit size := by
  intro n s hs
  rw [allSpans_eq_flatMap] at hs
  obtain ⟨r, hr, hs⟩ := List.mem_flatMap.mp hs
  exact fits_of_mem_spansWithin (h r hr) hs

namespace SpansFit

/-- The spans of the frame itself fit. -/
theorem fits (h : t.SpansFit size) {n : NodeId} {s : Span} (hs : s ∈ t.spans n) :
    s.fits size = true := by
  refine h n s ?_
  rw [allSpans_eq_flatMap]
  refine List.mem_flatMap.mpr ⟨.span n s, mem_spans.mp hs, ?_⟩
  rw [Record.spansWithin, if_pos rfl]
  exact List.mem_singleton_self s

/-- The spans inside an iteration fit. -/
theorem of_mem_iterations (h : t.SpansFit size) {n : NodeId} (hf : f ∈ t.iterations n) :
    f.SpansFit size := by
  intro m s hs
  refine h m s ?_
  rw [allSpans_eq_flatMap]
  exact List.mem_flatMap.mpr ⟨.iteration n f, mem_iterations.mp hf, hs⟩

/-- The spans of an iteration that was split off fit. -/
theorem splitFrame (h : t.SpansFit size) (b : Located) (i : Nat) :
    (Trace.splitFrame (captureRows b t) i).SpansFit size := by
  intro n s hs
  rw [allSpans_eq_flatMap] at hs
  obtain ⟨r, hr, hs⟩ := List.mem_flatMap.mp hs
  obtain ⟨row, hrow, hspan⟩ := List.mem_filterMap.mp hr
  obtain ⟨c, -, rfl⟩ := List.mem_map.mp hrow
  obtain ⟨s', hs', rfl⟩ := Option.map_eq_some_iff.mp hspan
  rw [Record.spansWithin] at hs
  split at hs
  · rw [List.mem_singleton.mp hs]
    exact h.fits (List.mem_of_getElem? hs')
  · exact absurd hs List.not_mem_nil

/-- **The spans of every frame of a quantifier fit**, recorded or split off. -/
theorem of_mem_frames (h : t.SpansFit size) {slot : SlotTitle} {q : Located} {fs : List Trace}
    (hframes : t.frames slot q = .ok fs) (hf : f ∈ fs) : f.SpansFit size := by
  rcases frames_eq_ok hframes with ⟨-, rfl⟩ | ⟨b, -, -, hsplit⟩
  · exact h.of_mem_iterations hf
  · obtain ⟨-, k, -, rfl⟩ := splitSpans_eq_ok hsplit
    obtain ⟨i, -, rfl⟩ := List.mem_map.mp hf
    exact h.splitFrame b i

end SpansFit

end Trace

namespace Value

variable {s : Shape} {v : Value} {t : Trace} {size : Nat}

/-- **Assembling reads no span that does not fit.** -/
theorem fits_of_mem_spans_assemble (ht : t.SpansFit size) (h : assemble s t = .ok v) {sp : Span}
    (hsp : sp ∈ v.spans) : sp.fits size = true := by
  induction s generalizing t v with
  | empty =>
    obtain rfl : empty = v := Except.ok.inj h
    exact absurd hsp List.not_mem_nil
  | leaf o =>
    obtain ⟨-, rfl⟩ := assembleLeaf_eq_ok.mp h
    rw [spans_leaf, Option.mem_toList] at hsp
    cases o with
    | none => cases hsp
    | some c => exact ht.fits (List.mem_of_head? hsp)
  | product o ss ih =>
    obtain ⟨vs, hall, rfl⟩ := assemble_product_eq_ok.mp h
    rw [spans_eq] at hsp
    obtain ⟨w, hw, hsp⟩ := List.mem_flatMap.mp hsp
    obtain ⟨s, hs, hread⟩ := exists_mem_of_forall₂ hall hw
    exact ih s hs ht hread hsp
  | sum o ss ih =>
    obtain ⟨i, -, s, hs, w, hw, rfl⟩ := assemble_sum_eq_ok.mp h
    rw [spans_eq] at hsp
    obtain ⟨w', hw', hin⟩ := List.mem_flatMap.mp hsp
    obtain rfl := List.mem_singleton.mp hw'
    exact ih s (List.mem_of_getElem? hs) ht hw hin
  | repeated o s ih =>
    obtain ⟨fs, hframes, vs, hall, rfl⟩ := assemble_repeated_eq_ok.mp h
    rw [spans_eq] at hsp
    obtain ⟨w, hw, hsp⟩ := List.mem_flatMap.mp hsp
    obtain ⟨f, hf, hread⟩ := exists_mem_of_forall₂ hall hw
    exact ih (ht.of_mem_frames hframes hf) hread hsp
  | opt o s ih =>
    obtain ⟨fs, hframes, -, vs, hall, rfl⟩ := assemble_opt_eq_ok.mp h
    rw [spans_eq] at hsp
    obtain ⟨w, hw, hsp⟩ := List.mem_flatMap.mp hsp
    obtain ⟨f, hf, hread⟩ := exists_mem_of_forall₂ hall hw
    exact ih (ht.of_mem_frames hframes hf) hread hsp

end Value

end CaptureTree
