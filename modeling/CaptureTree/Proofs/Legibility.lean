import CaptureTree.Proofs.Evaluation
import CaptureTree.Proofs.Value.Conforms
import Mathlib.Logic.Relation

/-!
# Every result can be read in full

The accessors of a view look at the shape and trust the value, so a value that does not
belong to the shape, or a span outside the input, would make them fail.  Neither can be
met in a match.  All views of a match are *sound* (`View.Sound`): the value conforms to
the shape, and all spans in it fit the input.

A sound view answers to all accessors of its kind (`View.Sound.legible`), and every view
that they lead to is sound again (`View.Sound.of_step`).  So a walk through the result
never fails, in whatever order it visits the slots (`Regex.evaluate_legible`).
-/

namespace CaptureTree

namespace View

open Relation

variable {v w : View}

/-! ## Walking through a slot -/

/-- **One step into a slot**, by the accessors of its kind. -/
inductive Step : View → View → Prop
  | item {v w : View} {n i : Nat} (kind : v.shape.kind = .product ∨ v.shape.kind = .repeated)
      (size : v.size = .ok n) (index : i < n) (item : v.item i = .ok w) : Step v w
  | branch {v w : View} {c : Choice} (kind : v.shape.kind = .sum) (choice : v.choice = .ok c)
      (inner : c.inner = .ok w) : Step v w
  | inner {v w : View} (kind : v.shape.kind = .opt) (present : v.present = .ok true)
      (inner : v.inner = .ok w) : Step v w

/-- **Do all accessors of the slot's kind answer**, and with what they promise? -/
structure Legible (v : View) : Prop where
  /-- The span of a leaf is in order and inside the input, and its bytes are those of the
  input between its ends. -/
  leaf : v.shape.kind = .leaf → ∃ s, v.span = .ok s ∧
    v.bytes = .ok (s.map fun s => (v.input.drop s.start).take (s.stop - s.start)) ∧
    ∀ s' ∈ s, s'.start ≤ s'.stop ∧ s'.stop ≤ v.input.length
  /-- There are as many members, or items, as the slot says. -/
  items : v.shape.kind = .product ∨ v.shape.kind = .repeated →
    ∃ n, v.size = .ok n ∧ ∀ i < n, ∃ w, v.item i = .ok w
  /-- One of the branches was taken, and only this one has a slot. -/
  branches : v.shape.kind = .sum → ∃ c i w, v.choice = .ok c ∧ v.size = .ok c.size ∧
    c.index = .ok i ∧ i < c.size ∧ c.inner = .ok w ∧
    ∃ options, c.options = .ok options ∧ options.length = c.size ∧
      ∀ j < c.size, options[j]? = some (if j = i then some w else none)
  /-- A slot that is present has an inside. -/
  inner : v.shape.kind = .opt →
    ∃ b, v.present = .ok b ∧ (b = true → ∃ w, v.inner = .ok w)

/-! ## Sound views -/

/-- **Does the value belong to the shape**, and do its spans fit the input? -/
structure Sound (v : View) : Prop where
  conforms : Value.Conforms v.shape v.value
  fits : ∀ s ∈ v.value.spans, s.fits v.input.length = true

end View

/-- A span that fits covers the bytes between its ends. -/
theorem Span.bytes?_of_fits {s : Span} {input : Bytes} (h : s.fits input.length = true) :
    s.bytes? input = some ((input.drop s.start).take (s.stop - s.start)) := by
  obtain ⟨hordered, hinside⟩ := fits_iff.mp h
  rw [bytes?, if_pos (Nat.le_trans hordered hinside), size, if_pos hordered]

namespace View

open Relation

namespace Sound

variable {v w : View}

/-- A slot inside a sound view is sound, if its value conforms. -/
theorem of_child {s : Shape} {e : Value} (h : v.Sound) (he : e ∈ v.value.children)
    (hconforms : Value.Conforms s e) : Sound { shape := s, value := e, input := v.input } where
  conforms := hconforms
  fits sp hsp := h.fits sp (Value.mem_spans_of_mem_children he hsp)

/-- The span of a leaf fits, and its bytes are there. -/
theorem span_and_bytes (h : v.Sound) (hk : v.shape.kind = .leaf) :
    ∃ s, v.span = .ok s ∧
      v.bytes = .ok (s.map fun s => (v.input.drop s.start).take (s.stop - s.start)) ∧
      ∀ s' ∈ s, s'.fits v.input.length = true := by
  obtain ⟨shape, value, input⟩ := v
  have hconforms : Value.Conforms shape value := h.conforms
  cases hconforms with
  | leaf hkind =>
    have hfits : ∀ s ∈ value.span, s.fits input.length = true := fun s hs =>
      h.fits s (Value.mem_spans_of_leaf hkind hs)
    refine ⟨value.span, rfl, ?_, hfits⟩
    cases hs : value.span with
    | none =>
      simp only [bytes, span, hs]
      rfl
    | some s =>
      simp only [bytes, span, hs, bind, Except.bind, Span.bytes?_of_fits (hfits s hs)]
      rfl
  | empty | product | sum | repeated | opt => cases hk

/-- There is a sound slot at every number below the size. -/
theorem exists_item (h : v.Sound) (hk : v.shape.kind = .product ∨ v.shape.kind = .repeated) :
    ∃ n, v.size = .ok n ∧ ∀ i < n, ∃ w : View, v.item i = .ok w ∧ w.Sound ∧ w.input = v.input := by
  obtain ⟨shape, value, input⟩ := v
  have hconforms : Value.Conforms shape value := h.conforms
  cases hconforms with
  | @product o ss _ _ hlength hmembers =>
    refine ⟨ss.length, rfl, fun i hi => ?_⟩
    have hi' : i < value.children.length := hlength ▸ hi
    refine ⟨{ shape := ss[i], value := value.children[i], input }, ?_,
      h.of_child (List.getElem_mem hi') (hmembers (ss[i], value.children[i]) ?_), rfl⟩
    · simp only [item, List.getElem?_eq_getElem hi, List.getElem?_eq_getElem hi']
    · refine List.mem_iff_getElem.mpr ⟨i, ?_, List.getElem_zip⟩
      rw [List.length_zip]
      exact Nat.lt_min.mpr ⟨hi, hi'⟩
  | @repeated o s _ _ hitems =>
    refine ⟨value.children.length, rfl, fun i hi => ?_⟩
    refine ⟨{ shape := s, value := value.children[i], input }, ?_,
      h.of_child (List.getElem_mem hi) (hitems _ (List.getElem_mem hi)), rfl⟩
    simp only [item, List.getElem?_eq_getElem hi]
  | empty | leaf | sum | opt => rcases hk with hk | hk <;> cases hk

/-- A sum took one of its branches, and the slot of this branch is sound. -/
theorem exists_branch (h : v.Sound) (hk : v.shape.kind = .sum) :
    ∃ c i, ∃ w : View, v.choice = .ok c ∧ v.size = .ok c.size ∧ c.taken = .ok (i, w) ∧
      i < c.size ∧ w.Sound ∧ w.input = v.input := by
  obtain ⟨shape, value, input⟩ := v
  have hconforms : Value.Conforms shape value := h.conforms
  cases hconforms with
  | @sum o ss s _ e hkind hbranch hchildren hinside =>
    have hlt : value.selected < ss.length := (List.getElem?_eq_some_iff.mp hbranch).1
    refine ⟨{ branches := ss, value, input }, value.selected, { shape := s, value := e, input },
      rfl, rfl, ?_, hlt, h.of_child (hchildren ▸ List.mem_singleton_self e) hinside, rfl⟩
    simp only [Choice.taken, hkind, hchildren, hbranch]
  | empty | leaf | product | repeated | opt => cases hk

/-- A slot that is present has a sound inside. -/
theorem exists_inner (h : v.Sound) (hk : v.shape.kind = .opt) :
    ∃ b, v.present = .ok b ∧
      (b = true → ∃ w : View, v.inner = .ok w ∧ w.Sound ∧ w.input = v.input) := by
  obtain ⟨shape, value, input⟩ := v
  have hconforms : Value.Conforms shape value := h.conforms
  cases hconforms with
  | @opt o s _ hkind hone hflag hinner =>
    refine ⟨value.present, rfl, fun hpresent => ?_⟩
    obtain ⟨e, he, hfirst⟩ := Value.exists_firstUnchecked_of_present hflag hpresent
    refine ⟨{ shape := s, value := e, input }, ?_, h.of_child he (hinner e he), rfl⟩
    simp only [inner, hpresent, hfirst, if_true]
    rfl
  | empty | leaf | product | sum | repeated => cases hk

/-- **A sound view is legible.** -/
theorem legible (h : v.Sound) : v.Legible where
  leaf hk := by
    obtain ⟨s, hs, hbytes, hfits⟩ := h.span_and_bytes hk
    exact ⟨s, hs, hbytes, fun s' hs' => Span.fits_iff.mp (hfits s' hs')⟩
  items hk := by
    obtain ⟨n, hn, hitems⟩ := h.exists_item hk
    refine ⟨n, hn, fun i hi => ?_⟩
    obtain ⟨w, hw, -⟩ := hitems i hi
    exact ⟨w, hw⟩
  branches hk := by
    obtain ⟨c, i, w, hc, hsize, htaken, hi, -⟩ := h.exists_branch hk
    refine ⟨c, i, w, hc, hsize, ?_, hi, ?_,
      (List.range c.size).map fun j => if j = i then some w else none, ?_, ?_, fun j hj => ?_⟩
    · rw [Choice.index, htaken]
      rfl
    · rw [Choice.inner, htaken]
      rfl
    · rw [Choice.options, htaken]
      rfl
    · rw [List.length_map, List.length_range]
    · rw [List.getElem?_map, List.getElem?_range hj]
      rfl
  inner hk := by
    obtain ⟨b, hb, hinner⟩ := h.exists_inner hk
    refine ⟨b, hb, fun hpresent => ?_⟩
    obtain ⟨w, hw, -⟩ := hinner hpresent
    exact ⟨w, hw⟩

/-- **From a sound view every step leads to a sound view** of the same input. -/
theorem of_step (h : v.Sound) (hstep : v.Step w) : w.Sound ∧ w.input = v.input := by
  cases hstep with
  | @item n i hk hsize hi hitem =>
    obtain ⟨n', hsize', hitems⟩ := h.exists_item hk
    obtain rfl : n' = n := Except.ok.inj (hsize'.symm.trans hsize)
    obtain ⟨w', hw', hsound⟩ := hitems i hi
    obtain rfl : w' = w := Except.ok.inj (hw'.symm.trans hitem)
    exact hsound
  | @branch c hk hchoice hinner =>
    obtain ⟨c', i, w', hchoice', -, htaken, -, hsound⟩ := h.exists_branch hk
    obtain rfl : c' = c := Except.ok.inj (hchoice'.symm.trans hchoice)
    rw [Choice.inner, htaken] at hinner
    obtain rfl : w' = w := Except.ok.inj hinner
    exact hsound
  | inner hk hpresent hinner =>
    obtain ⟨b, hb, hinside⟩ := h.exists_inner hk
    obtain rfl : b = true := Except.ok.inj (hb.symm.trans hpresent)
    obtain ⟨w', hw', hsound⟩ := hinside rfl
    obtain rfl : w' = w := Except.ok.inj (hw'.symm.trans hinner)
    exact hsound

/-- A walk from a sound view stays among sound views of the same input. -/
theorem of_walk (h : v.Sound) (hwalk : ReflTransGen Step v w) :
    w.Sound ∧ w.input = v.input := by
  induction hwalk with
  | refl => exact ⟨h, rfl⟩
  | tail _ hstep ih =>
    obtain ⟨hsound, hinput⟩ := ih.1.of_step hstep
    exact ⟨hsound, hinput.trans ih.2⟩

end Sound

end View

/-! ## Reading a slot as a whole -/

namespace Reading

variable {input : Bytes} {s : Shape} {v : Value}

/-- The members of a product are read one by one. -/
theorem exists_ofMembers {ss : List Shape} {vs : List Value} (hlength : ss.length = vs.length)
    (h : ∀ pair ∈ ss.zip vs, ∃ x, ofSlot input pair.1 pair.2 = .ok x) :
    ∃ xs, ofMembers input ss vs = .ok xs := by
  induction ss generalizing vs with
  | nil => exact ⟨[], rfl⟩
  | cons s ss ih =>
    cases vs with
    | nil => cases hlength
    | cons v vs =>
      rw [List.zip_cons_cons] at h
      obtain ⟨⟨x, hx⟩, htail⟩ := List.forall_mem_cons.mp h
      obtain ⟨xs, hxs⟩ := ih (Nat.succ.inj hlength) htail
      refine ⟨x :: xs, ?_⟩
      rw [ofMembers, hx, hxs]
      rfl

/-- A sum is read in the branch that was taken. -/
theorem ofBranch_eq {ss : List Shape} {i : Nat} (h : ss[i]? = some s) :
    ofBranch input ss i v = ofSlot input s v := by
  induction ss generalizing i with
  | nil => cases h
  | cons s' ss ih =>
    cases i with
    | zero =>
      obtain rfl : s' = s := Option.some.inj h
      rfl
    | succ i => exact ih h

/-- **A value that conforms can be read as a whole**, if its spans fit. -/
theorem exists_ofSlot (h : Value.Conforms s v)
    (hfits : ∀ sp ∈ v.spans, sp.fits input.length = true) : ∃ x, ofSlot input s v = .ok x := by
  induction h with
  | empty => exact ⟨_, rfl⟩
  | @leaf o v hkind hchildren =>
    have hsound : View.Sound { shape := .leaf o, value := v, input } :=
      ⟨.leaf hkind hchildren, hfits⟩
    obtain ⟨sp, hspan, hbytes, -⟩ := hsound.span_and_bytes rfl
    refine ⟨leaf (Shape.leaf o).label sp (sp.map fun s => (input.drop s.start).take
      (s.stop - s.start)), ?_⟩
    simp only [ofSlot, hspan, hbytes]
    rfl
  | @product o ss v _ hlength _ ih =>
    obtain ⟨xs, hxs⟩ := exists_ofMembers hlength fun pair hpair =>
      ih pair hpair fun sp hsp =>
        hfits sp (Value.mem_spans_of_mem_children (List.of_mem_zip hpair).2 hsp)
    refine ⟨product xs, ?_⟩
    rw [ofSlot, hxs]
    rfl
  | @sum o ss s v e hkind hbranch hchildren _ ih =>
    have he : e ∈ v.children := hchildren ▸ List.mem_singleton_self e
    obtain ⟨x, hx⟩ := ih fun sp hsp => hfits sp (Value.mem_spans_of_mem_children he hsp)
    refine ⟨sum v.selected x, ?_⟩
    simp only [ofSlot, Choice.taken, hkind, hchildren, hbranch, bind, Except.bind,
      ofBranch_eq hbranch, hx]
    rfl
  | @repeated o s v _ _ ih =>
    obtain ⟨xs, hxs⟩ := exists_forall₂_of_forall fun e he =>
      ih e he fun sp hsp => hfits sp (Value.mem_spans_of_mem_children he hsp)
    refine ⟨repeated xs, ?_⟩
    rw [ofSlot, mapM_eq_ok.mpr hxs]
    rfl
  | @opt o s v _ _ hflag _ ih =>
    rw [ofSlot]
    split
    · rename_i hpresent
      obtain ⟨e, he, hfirst⟩ := Value.exists_firstUnchecked_of_present hflag hpresent
      obtain ⟨x, hx⟩ := ih e he fun sp hsp => hfits sp (Value.mem_spans_of_mem_children he hsp)
      refine ⟨opt (some x), ?_⟩
      rw [hfirst]
      show (ofSlot input s e >>= fun x => pure (opt (some x))) = _
      rw [hx]
      rfl
    · exact ⟨_, rfl⟩

end Reading

/-! ## The views of a match -/

/-- **Can everything be read from a view of this input**, as a whole and step by step? -/
structure View.ReadsIn (input : Bytes) (v : View) : Prop where
  whole : ∃ x, v.read = .ok x
  stepwise : ∀ w, Relation.ReflTransGen View.Step v w → w.Legible ∧ w.input = input

theorem View.Sound.readsIn {v : View} (h : v.Sound) : v.ReadsIn v.input where
  whole := Reading.exists_ofSlot h.conforms h.fits
  stepwise _ hwalk := ⟨(h.of_walk hwalk).1.legible, (h.of_walk hwalk).2⟩

namespace Regex

variable {r : Regex} {w : Bytes} {t : Trace} {whole : Span} {c : CaptureInfo}

/-- The view of the whole value is sound. -/
theorem sound_root {m : Match} (hm : r.evaluate whole t w = .ok m) :
    m.root.Sound ∧ m.root.input = w := by
  obtain ⟨-, hcheck, v, hv, flat, -, rfl⟩ := evaluate_eq_ok.mp hm
  have hspans := (Trace.check_eq_ok_iff.mp hcheck).spansFit
  exact ⟨⟨Value.conforms_of_assemble hv, fun s hs =>
    Value.fits_of_mem_spans_assemble hspans hv hs⟩, rfl⟩

/-- The view of the whole match is sound. -/
theorem sound_view_zero {m : Match} (hm : r.evaluate whole t w = .ok m) :
    ∃ v, m.view 0 = .ok v ∧ v.Sound ∧ v.input = w := by
  have hget := (whole_of_evaluate hm).2
  obtain ⟨hwhole, -, v, -, flat, -, rfl⟩ := evaluate_eq_ok.mp hm
  refine ⟨{ shape := .leaf none, value := .leaf (some whole), input := w }, ?_,
    ⟨.leaf rfl rfl, fun s hs => ?_⟩, rfl⟩
  · simp only [Match.view, Match.shape, hget]
    rfl
  · rw [Value.spans_leaf, Option.toList_some, List.mem_singleton] at hs
    rw [hs]
    exact hwhole

/-- The view of the result of a capture is sound. -/
theorem Compiled.sound_view_succ (h : r.Compiled) {m : Match} (hm : r.evaluate whole t w = .ok m)
    {i : Nat} (hc : r.captures[i]? = some c) :
    ∃ v, m.view (i + 1) = .ok v ∧ v.Sound ∧ v.input = w := by
  obtain ⟨u, hget, hu⟩ := h.exists_get hm (capture_eq_ok.mpr ⟨i, rfl, hc⟩)
  obtain ⟨-, hcheck, v, -, flat, -, rfl⟩ := evaluate_eq_ok.mp hm
  have hspans := (Trace.check_eq_ok_iff.mp hcheck).spansFit
  refine ⟨{ shape := c.flat, value := u, input := w }, ?_,
    ⟨Value.conforms_of_assemble hu, fun s hs =>
      Value.fits_of_mem_spans_assemble hspans hu hs⟩, rfl⟩
  simp only [Match.view, Match.shape, hget, hc]
  rfl

/-- **Every result can be read in full.**  A match that evaluation returns has one result
more than there are captures, the first being the whole match.  The view of the value and
the view of every result answer to all accessors of their kind, and so do the views to
which these lead; what they say of spans, bytes and branches is right.  Matching and
searching return such a match. -/
theorem evaluate_legible {p : Pattern} {r : Regex} (h : compile p = .ok r) (w : Bytes) :
    (∀ whole t m, r.evaluate whole t w = .ok m →
      m.size = r.captures.length + 1 ∧ m.get 0 = .ok (.leaf (some whole)) ∧
        m.root.ReadsIn w ∧
        ∀ k ≤ r.captures.length, ∃ v, m.view k = .ok v ∧ v.ReadsIn w) ∧
      ∀ m, r.match? w = .ok (some m) ∨ r.search? w = .ok (some m) →
        ∃ whole t, r.evaluate whole t w = .ok m := by
  obtain ⟨hr, -⟩ := compiled_of_compile h
  constructor
  · intro whole t m hm
    refine ⟨size_of_evaluate hm, (whole_of_evaluate hm).2, ?_, fun k hk => ?_⟩
    · obtain ⟨hsound, rfl⟩ := sound_root hm
      exact hsound.readsIn
    · cases k with
      | zero =>
        obtain ⟨v, hv, hsound, rfl⟩ := sound_view_zero hm
        exact ⟨v, hv, hsound.readsIn⟩
      | succ i =>
        obtain ⟨v, hv, hsound, rfl⟩ := hr.sound_view_succ hm (List.getElem?_eq_getElem hk)
        exact ⟨v, hv, hsound.readsIn⟩
  · exact fun m hm => exists_trace_of_found hm

/-- A loop around a capture, or a pair of captures of which the first may be left out. -/
def loopOrPair : Pattern :=
  .alternation [(Pattern.exact [0x61]).capture.plus,
    .concat [(Pattern.exact [0x62]).capture.optional, (Pattern.exact [0x63]).capture]]

theorem evaluate_legible_loopOrPair :
    ∃ r m, compile loopOrPair = .ok r ∧
      r.evaluate ⟨0, 1⟩ [.choice 0 1, .span 8 ⟨0, 1⟩] [0x63] = .ok m ∧
      m.size = r.captures.length + 1 ∧ m.get 0 = .ok (.leaf (some ⟨0, 1⟩)) ∧
      m.root.ReadsIn [0x63] ∧
      ∀ k ≤ r.captures.length, ∃ v, m.view k = .ok v ∧ v.ReadsIn [0x63] :=
  ⟨_, _, rfl, rfl, (evaluate_legible (p := loopOrPair) rfl [0x63]).1 ⟨0, 1⟩
    [.choice 0 1, .span 8 ⟨0, 1⟩] _ rfl⟩

end Regex

end CaptureTree
