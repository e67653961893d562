import CaptureTree.Proofs.Evaluation
import CaptureTree.Proofs.Value.Spans

/-!
# The spans of a match stand in order

Whoever reads the value of a match from left to right meets the captured spans in the order of
the input, none of them overlapping the next, and all of them inside the match
(`Regex.spans_in_order`).

This is a statement about two orders.  The search makes its records while it moves through the
input, and takes some of them back; the value is put together along the shape, which leaves out
parts without captures and the branches that were not taken, and reads every iteration from a
frame of its own.  Both follow the order of the pattern, and the positions at which a run is cut
(`Trace.RunBetween`) hold them together: the spans of a part lie between the ends of its run
(`Trace.RunBetween.inOrder`).
-/

namespace CaptureTree

/-! ## Spans one behind the other -/

/-- **Do the spans stand one behind the other**, from position `a` to position `b`? -/
def Span.InOrder : Nat → List Span → Nat → Prop
  | a, [], b => a ≤ b
  | a, s :: ss, b => a ≤ s.start ∧ s.start ≤ s.stop ∧ InOrder s.stop ss b

namespace Span

variable {a b c : Nat} {ss ss' : List Span}

instance instDecidableInOrder :
    (a : Nat) → (ss : List Span) → (b : Nat) → Decidable (InOrder a ss b)
  | a, [], b => inferInstanceAs (Decidable (a ≤ b))
  | a, s :: ss, b =>
    have := instDecidableInOrder s.stop ss b
    inferInstanceAs (Decidable (a ≤ s.start ∧ s.start ≤ s.stop ∧ InOrder s.stop ss b))

/-- Spans that overlap do not stand in order. -/
example : ¬ InOrder 0 [⟨1, 3⟩, ⟨2, 4⟩] 4 := by decide

theorem inOrder_singleton (h : a ≤ b) : InOrder a [⟨a, b⟩] b :=
  ⟨Nat.le_refl a, h, Nat.le_refl b⟩

/-- Spans may stand behind others that have ended. -/
theorem InOrder.append (h : InOrder a ss b) (h' : InOrder b ss' c) : InOrder a (ss ++ ss') c := by
  induction ss generalizing a with
  | nil =>
    cases ss' with
    | nil => exact Nat.le_trans h h'
    | cons s ss' => exact ⟨Nat.le_trans h h'.1, h'.2⟩
  | cons s ss ih => exact ⟨h.1, h.2.1, ih h.2.2⟩

/-- **Pieces between cuts** make one list of spans in order. -/
theorem inOrder_flatMap {α : Type} {cut : Nat → Nat} {f : α → List Span} {xs : List α}
    (h : ∀ i x, xs[i]? = some x → InOrder (cut i) (f x) (cut (i + 1))) :
    InOrder (cut 0) (xs.flatMap f) (cut xs.length) := by
  induction xs generalizing cut with
  | nil => exact Nat.le_refl (cut 0)
  | cons x xs ih =>
    rw [List.flatMap_cons]
    have hrest : InOrder (cut 1) (xs.flatMap f) (cut (xs.length + 1)) :=
      @ih (fun i => cut (i + 1)) fun i y hy => h (i + 1) y hy
    exact (h 0 x rfl).append hrest

end Span

/-! ## Spans of values -/

namespace Value

variable {p : Located} {s : Shape} {ss : List Shape} {t : Trace} {v : Value}

/-- The spans of a sum are those of the branch. -/
theorem spans_sum (i : Nat) (v : Value) : (sum i v).spans = v.spans := by
  rw [spans_eq]
  exact List.append_nil v.spans

/-- The spans of a product are those of its members, one after the other. -/
theorem spans_product (vs : List Value) : (product vs).spans = vs.flatMap spans := by
  rw [spans_eq]
  rfl

/-- Parts without captures add no spans. -/
theorem exists_forall₂_of_filter {vs : List Value}
    (h : List.Forall₂ (fun s v => assemble s t = .ok v) (ss.filter (!·.isEmpty)) vs) :
    ∃ us, List.Forall₂ (fun s v => assemble s t = .ok v) ss us ∧
      vs.flatMap spans = us.flatMap spans := by
  induction ss generalizing vs with
  | nil => exact ⟨vs, h, rfl⟩
  | cons s ss ih =>
    cases hs : s.isEmpty with
    | true =>
      rw [List.filter_cons_of_neg (by rw [hs]; decide)] at h
      obtain ⟨us, hall, hspans⟩ := ih h
      rw [Shape.isEmpty_iff] at hs
      subst hs
      exact ⟨empty :: us, .cons rfl hall, hspans⟩
    | false =>
      rw [List.filter_cons_of_pos (by rw [hs]; decide)] at h
      cases h with
      | cons hhead htail =>
        obtain ⟨us, hall, hspans⟩ := ih htail
        exact ⟨_ :: us, .cons hhead hall, by rw [List.flatMap_cons, List.flatMap_cons, hspans]⟩

/-- **The spans of a sequence are those of its parts**, one part after the other. -/
theorem exists_spans_sequence (hv : assemble (.sequence p ss) t = .ok v) :
    ∃ us, List.Forall₂ (fun s v => assemble s t = .ok v) ss us ∧
      v.spans = us.flatMap spans := by
  rcases Shape.sequence_kept p ss with ⟨hkept, hseq⟩ | ⟨s, hkept, hseq⟩ | hseq
  · rw [hseq] at hv
    obtain rfl := Except.ok.inj hv
    have hnone : List.Forall₂ (fun s v => assemble s t = .ok v) (ss.filter (!·.isEmpty)) [] := by
      rw [hkept]
      exact .nil
    exact exists_forall₂_of_filter hnone
  · rw [hseq] at hv
    have hone : List.Forall₂ (fun s v => assemble s t = .ok v) (ss.filter (!·.isEmpty)) [v] := by
      rw [hkept]
      exact .cons hv .nil
    obtain ⟨us, hall, hspans⟩ := exists_forall₂_of_filter hone
    exact ⟨us, hall, by rw [← hspans, List.flatMap_singleton]⟩
  · rw [hseq] at hv
    obtain ⟨vs, hall, rfl⟩ := assemble_product_eq_ok.mp hv
    rw [spans_product]
    exact exists_forall₂_of_filter hall

end Value

/-! ## Runs -/

namespace Trace.RunBetween

open Located

variable {p : Located} {a b : Nat} {t : Trace} {v : Value}

/-- **The spans that are read from a run stand in order**, between the ends of the run. -/
theorem inOrder (h : RunBetween p a b t) (hwell : p.WellFormed)
    (hv : Value.assemble (.infer p) t = .ok v) : Span.InOrder a v.spans b := by
  induction h generalizing v with
  | literal hk _ hle =>
    rw [Shape.infer_literal hk] at hv
    obtain rfl := Except.ok.inj hv
    exact hle
  | @capture p q a b t hk hc hspan hinside =>
    rw [Shape.infer_capture hk, Value.assemble_leaf_of_span hspan] at hv
    obtain rfl := Except.ok.inj hv
    rw [Value.spans_leaf]
    exact Span.inOrder_singleton hinside.le
  | @group p q a b t hk hc _ ih =>
    rw [Shape.infer_group hk hc] at hv
    exact ih (hwell.child (mem_children_of_eq hc)) hv
  | @concat p a b t cut hk hfirst hlast hparts ih =>
    rw [Shape.infer_concat hk] at hv
    obtain ⟨us, hall, hspans⟩ := Value.exists_spans_sequence hv
    rw [List.forall₂_map_left_iff] at hall
    rw [hspans, ← hfirst, ← hlast, hall.length_eq]
    refine Span.inOrder_flatMap fun i u hu => ?_
    obtain ⟨q, hq, hu⟩ := exists_getElem?_of_forall₂ hall.flip hu
    exact ih i q hq (hwell.child (List.mem_of_getElem? hq)) hu
  | @alternation p q a b t i hk hb hchosen hinside hothers ih =>
    have hshape := Shape.infer_alternation hk
    split at hshape
    · rw [hshape] at hv
      obtain rfl := Except.ok.inj hv
      exact hinside.le
    · have hcap : p.hasCapture = true := by
        refine hwell.hasCapture_of_infer fun hempty => ?_
        rw [hempty] at hshape
        cases hshape
      have hq := hwell.child (List.mem_of_getElem? hb)
      obtain ⟨u, hu⟩ := hinside.executed.exists_assemble_infer hq
      rw [hshape, Value.assemble_sum_of_branch hb (hchosen hcap) hothers hu] at hv
      obtain rfl := Except.ok.inj hv
      rw [Value.spans_sum]
      exact ih hq hu
  | @loop p q a b t cut hk hc hcap hloose _ _ hfirst hlast _ ih =>
    have hq := hwell.child (mem_children_of_eq hc)
    have hinside : ¬ (Shape.infer q).isEmpty = true :=
      fun hempty => hq.infer_ne_empty hcap (Shape.isEmpty_iff.mp hempty)
    rw [Shape.infer_quantifier hk hc, if_neg hinside] at hv
    obtain ⟨fs, hfs, -, vs, hall, rfl⟩ := Value.assemble_loop_eq_ok.mp hv
    rw [frames_of_untouched (untouched_of_body (body_eq_some hc) hloose)] at hfs
    obtain rfl := Except.ok.inj hfs
    rw [Value.spans_ofItems, ← hfirst, ← hlast, hall.length_eq]
    refine Span.inOrder_flatMap fun i u hu => ?_
    obtain ⟨f, hf, hu⟩ := exists_getElem?_of_forall₂ hall.flip hu
    exact ih i f hf hq hu
  | silent hk hc hcap _ hle =>
    have hnone := hasCapture_body (by rw [hk]; decide) hc
    rw [hwell.infer_eq_empty (hnone.trans hcap)] at hv
    obtain rfl := Except.ok.inj hv
    exact hle

end Trace.RunBetween

/-! ## Matches -/

namespace Regex

/-- **The spans of a match stand in order.**  From left to right every span of the value that
matching or searching returns begins where the one before it has ended, or further on, and all of
them lie between the ends of the match. -/
theorem spans_in_order {p : Pattern} {r : Regex} (h : compile p = .ok r) {w : Bytes} {m : Match}
    (hm : r.match? w = .ok (some m) ∨ r.search? w = .ok (some m)) :
    Span.InOrder m.whole.start m.value.spans m.whole.stop := by
  obtain ⟨hr, -⟩ := compiled_of_compile h
  obtain ⟨t, hfound, heval⟩ := exists_found hm
  obtain ⟨-, hvalue⟩ := assemble_of_evaluate heval
  rw [hr.shape] at hvalue
  exact (hr.runBetween hfound).inOrder hr.wellFormed hvalue

/-- A loop around two branches, the last iteration of which has to be taken back and made again in
the second branch. -/
def takenBack : Pattern :=
  .concat [(Pattern.alternation [(Pattern.exact [0x61]).capture,
    (Pattern.exact [0x61, 0x62]).capture]).plus, (Pattern.exact [0x62]).capture.optional,
    (Pattern.exact [0x63]).capture]

theorem spans_in_order_takenBack :
    let w : Bytes := [0x78, 0x61, 0x61, 0x62, 0x62, 0x63]
    ∃ r m, compile takenBack = .ok r ∧ r.search? w = .ok (some m) ∧
      m.value.spans = [⟨1, 2⟩, ⟨2, 4⟩, ⟨4, 5⟩, ⟨5, 6⟩] ∧
      Span.InOrder m.whole.start m.value.spans m.whole.stop := by
  intro w
  obtain ⟨r, hr⟩ : ∃ r, compile takenBack = .ok r := ⟨_, rfl⟩
  obtain ⟨hcompiled, hpattern⟩ := compiled_of_compile hr
  have hrun : (takenBack.locate.search? w).map (fun found =>
      (Value.assemble (.infer takenBack.locate) found.2).map Value.spans) =
        some (.ok [⟨1, 2⟩, ⟨2, 4⟩, ⟨4, 5⟩, ⟨5, 6⟩]) := by
    rw [Located.search?_eq_findSome?]
    decide +kernel
  obtain ⟨⟨whole, t⟩, ht, hspans⟩ := Option.map_eq_some_iff.mp hrun
  rw [← hpattern] at ht hspans
  obtain ⟨m, hm⟩ := hcompiled.exists_evaluate (.inr ht)
  have hmatch : r.search? w = .ok (some m) := ofFound_eq_some.mpr ⟨whole, t, ht, hm⟩
  have hvalue := (assemble_of_evaluate hm).2
  rw [hcompiled.shape] at hvalue
  rw [hvalue] at hspans
  exact ⟨r, m, hr, hmatch, Except.ok.inj hspans, spans_in_order hr (.inr hmatch)⟩

end Regex

end CaptureTree
