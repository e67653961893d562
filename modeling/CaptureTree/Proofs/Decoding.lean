import CaptureTree.Proofs.Flattening
import CaptureTree.Proofs.Naming
import CaptureTree.Proofs.Value.Encoding

/-!
# Every value is read back from the trace that spells it

A value that conforms to the shape of a pattern is what assembling makes of its encoding
(`Value.Along.exists_assemble`).  This also holds where the encoding shares its frame with
other records, as long as the rows of the pattern are those of the encoding, and so it can
be proved by induction on the pattern.

The encoding of a value whose spans fit is in order (`Value.Along.placed`), and captures
that other captures hide have results as well, since nothing is recorded for them
(`Value.Along.exists_assemble_flat`).  So evaluation accepts the encoding, and returns a
match with this value (`Regex.decode_encode`).
-/

namespace CaptureTree

open Located

/-! ## Equal values -/

namespace Tree

/-- Lists of trees agree if the trees do one by one. -/
theorem agreeAll_iff {α : Type} {r : α → α → Bool} {ts us : List (Tree α)} :
    agreeAll r ts us = true ↔ List.Forall₂ (fun t u => agree r t u = true) ts us := by
  induction ts generalizing us with
  | nil => cases us <;> simp [agreeAll]
  | cons t ts ih => cases us <;> simp [agreeAll, ih]

end Tree

namespace Value

variable {p q c : Located} {qs : List Located} {s : Shape} {v w : Value} {t : Trace}
  {size : Nat}

/-- **Values are equal** if they agree in kind and in the field that this kind uses, and
their children are equal one by one. -/
theorem same_iff : same v w = true ↔ v.kind = w.kind ∧ (v.kind = .leaf → v.span = w.span) ∧
    (v.kind = .sum → v.selected = w.selected) ∧ (v.kind = .opt → v.present = w.present) ∧
    List.Forall₂ (fun v w => same v w = true) v.children w.children := by
  obtain ⟨a, vs⟩ := v
  obtain ⟨b, ws⟩ := w
  show Tree.agree sameDatum (.node a vs) (.node b ws) = true ↔ a.kind = b.kind ∧
    (a.kind = .leaf → a.span = b.span) ∧ (a.kind = .sum → a.selected = b.selected) ∧
    (a.kind = .opt → a.present = b.present) ∧
    List.Forall₂ (fun v w => same v w = true) vs ws
  simp only [Tree.agree, Tree.agreeAll_iff, sameDatum, Bool.and_eq_true, Bool.or_eq_true,
    beq_iff_eq, bne_iff_ne, ← imp_iff_not_or, and_assoc]
  rfl

/-- Slots that are neither leaves nor sums hold nothing beside their children, and those that may
be left out say whether there are any. -/
theorem same_of_children (hkind : v.kind = w.kind) (hleaf : v.kind ≠ .leaf) (hsum : v.kind ≠ .sum)
    (hopt : v.kind = .opt → v.present = w.present)
    (h : List.Forall₂ (fun v w => same v w = true) v.children w.children) : same v w = true :=
  same_iff.mpr ⟨hkind, fun hk => absurd hk hleaf, fun hk => absurd hk hsum, hopt, h⟩

theorem kind_ofItems_ne (q : Located) (vs : List Value) :
    (ofItems q vs).kind ≠ .leaf ∧ (ofItems q vs).kind ≠ .sum := by
  show (if q.bounds.isOptional then SlotKind.opt else .repeated) ≠ .leaf ∧
    (if q.bounds.isOptional then SlotKind.opt else .repeated) ≠ .sum
  cases q.bounds.isOptional <;> decide

/-- The slot of a quantifier says whether there are items if it may be left out. -/
theorem present_ofItems {vs : List Value} (h : (ofItems q vs).kind = .opt) :
    q.bounds.isOptional = true ∧ (ofItems q vs).present = !vs.isEmpty := by
  have hkind : (if q.bounds.isOptional then SlotKind.opt else .repeated) = .opt := h
  show _ ∧ (q.bounds.isOptional && !vs.isEmpty) = !vs.isEmpty
  split at hkind
  · rename_i ho
    exact ⟨ho, by rw [ho, Bool.true_and]⟩
  · cases hkind

/-! ## Reading back -/

/-- **Assembling reads a value back from its encoding**, whatever else the frame holds. -/
theorem Along.exists_assemble (h : Along p v) (hwell : p.WellFormed) (hd : p.Distinct)
    (hagree : Trace.AgreeOn p (encode (.infer p) v) t) :
    ∃ v', assemble (.infer p) t = .ok v' ∧ same v' v = true := by
  induction h generalizing t with
  | @bare p v hnone hkind hinside =>
    rw [hwell.infer_eq_empty hnone]
    refine ⟨empty, rfl, same_of_children hkind.symm SlotKind.noConfusion SlotKind.noConfusion
      SlotKind.noConfusion ?_⟩
    rw [hinside]
    exact .nil
  | @capture p q v hk hc hleaf hinside =>
    rw [Shape.infer_capture hk] at hagree ⊢
    obtain ⟨hspans, -⟩ := rows_of_leaf hd hagree
    refine ⟨leaf v.span, assemble_leaf_eq_ok.mpr ?_, same_iff.mpr ⟨hleaf.symm, ?_, ?_, ?_, ?_⟩⟩
    · rw [hspans]
      cases v.span with
      | none => exact ⟨Nat.zero_le 1, rfl⟩
      | some sp => exact ⟨Nat.le_refl 1, rfl⟩
    · exact fun _ => rfl
    · exact fun h => SlotKind.noConfusion h
    · exact fun h => SlotKind.noConfusion h
    · rw [hinside]
      exact .nil
  | @group p q v hk hc _ ih =>
    rw [Shape.infer_group hk hc] at hagree ⊢
    have hq := mem_children_of_eq hc
    exact ih (hwell.child hq) (hd.child hq) (hagree.child hq)
  | @only p q v hk hq _ hshape _ ih =>
    rw [hshape] at hagree ⊢
    exact ih (hwell.child hq) (hd.child hq) (hagree.child hq)
  | @product p v hk hshape hkind hlength hmembers ih =>
    rw [hshape, encode] at hagree
    have hparts : List.Forall₂ (fun q w => ∃ w', assemble (.infer q) t = .ok w' ∧ same w' w = true)
        (p.children.filter hasCapture) v.children := by
      refine List.forall₂_iff_zip.mpr ⟨hlength, fun {q w} hpair => ?_⟩
      have hq := List.mem_of_mem_filter (List.of_mem_zip hpair).1
      exact ih (q, w) hpair (hwell.child hq) (hd.child hq)
        (agreeOn_of_product hwell hd hmembers hagree _ hpair)
    obtain ⟨vs, hread, hsame⟩ := exists_forall₂ (fun q w h => h) hparts
    rw [hshape]
    exact ⟨Value.product vs,
      assemble_product_eq_ok.mpr ⟨vs, List.forall₂_map_left_iff.mpr hread, rfl⟩,
      same_of_children hkind.symm SlotKind.noConfusion SlotKind.noConfusion SlotKind.noConfusion
        hsame.flip⟩
  | @branch p q v w hk hshape hkind hb hinside halong ih =>
    have hq := List.mem_of_getElem? hb
    rw [hshape, encode_branch hb hinside] at hagree
    obtain ⟨hchosen, hagreeq, hothers⟩ := rows_of_branch hd hwell hb halong hagree
    obtain ⟨w', hw', hsame⟩ := ih (hwell.child hq) (hd.child hq) hagreeq
    rw [hshape]
    refine ⟨sum v.selected w', assemble_sum_of_branch hb hchosen hothers hw',
      same_iff.mpr ⟨hkind.symm, ?_, fun _ => rfl, ?_, ?_⟩⟩
    · exact fun h => SlotKind.noConfusion h
    · exact fun h => SlotKind.noConfusion h
    · rw [hinside]
      exact .cons hsame .nil
  | @loop p q v hk hc hshape hslot hone hitems ih =>
    have hq := mem_children_of_eq hc
    rw [hshape, encode_loop] at hagree
    obtain ⟨hloose, hframes⟩ := rows_of_loop hd hc hagree
    have hparts : List.Forall₂ (fun w f => ∃ w', assemble (.infer q) f = .ok w' ∧ same w' w = true)
        v.children (v.children.map (encode (.infer q))) :=
      List.forall₂_map_right_iff.mpr (List.forall₂_same.mpr fun w hw =>
        ih w hw (hwell.child hq) (hd.child hq) (.refl q _))
    obtain ⟨vs, hsame, hread⟩ := exists_forall₂ (fun w f h => by
      obtain ⟨w', hw', hsame⟩ := h
      exact ⟨w', hsame, hw'⟩) hparts
    rw [hshape]
    obtain ⟨hleaf, hsum⟩ := kind_ofItems_ne p vs
    rw [← hframes] at hread
    refine ⟨ofItems p vs, assemble_loop_of_frames hc hloose (fun ho => ?_) hread,
      same_of_children hslot.symm hleaf hsum (fun hopt => ?_) hsame.flip⟩
    · rw [hframes, List.length_map]
      exact (hone ho).1
    · obtain ⟨ho, hflag⟩ := present_ofItems hopt
      rw [hflag, (hone ho).2, isEmpty_eq_of_length_eq hsame.length_eq]

/-- **Every capture has a result in a frame that spells a value**, also one that another
capture hides: of that one nothing is recorded. -/
theorem Along.exists_assemble_flat (h : Along p v) (hwell : p.WellFormed) (hd : p.Distinct)
    (hagree : Trace.AgreeOn p (encode (.infer p) v) t) (hholds : p.Holds qs c) :
    ∃ u, assemble (.flat qs c) t = .ok u := by
  induction h generalizing t qs with
  | bare hnone =>
    rw [hholds.hasCapture] at hnone
    cases hnone
  | @capture p q v hk hc _ _ =>
    rw [Shape.infer_capture hk] at hagree
    obtain ⟨hspans, hhidden⟩ := rows_of_leaf hd hagree
    rcases hholds.of_capture hk with ⟨rfl, rfl⟩ | ⟨b, hb, hinside⟩
    · rw [Shape.flat, List.foldr_nil]
      refine ⟨leaf (t.spans c.id).head?, assemble_leaf_eq_ok.mpr ⟨?_, rfl⟩⟩
      rw [hspans]
      exact Option.length_toList_le
    · exact ⟨_, assemble_flat_of_untouched hinside (hhidden b hb)⟩
  | @group p q v hk hc _ ih =>
    rw [Shape.infer_group hk hc] at hagree
    obtain ⟨b, hb, hinside⟩ := hholds.of_inner (by rw [hk]; decide) (by rw [hk]; decide)
    rw [hc, List.mem_singleton] at hb
    subst hb
    have hb := mem_children_of_eq hc
    exact ih (hwell.child hb) (hd.child hb) (hagree.child hb) hinside
  | @only p q v hk hq hothers hshape _ ih =>
    rw [hshape] at hagree
    obtain ⟨b, hb, hinside⟩ := hholds.of_inner (by rw [hk]; decide) (by rw [hk]; decide)
    obtain rfl := hothers b hb hinside.hasCapture
    exact ih (hwell.child hq) (hd.child hq) (hagree.child hq) hinside
  | @product p v hk hshape hkind hlength hmembers ih =>
    rw [hshape, encode] at hagree
    obtain ⟨b, hb, hinside⟩ := hholds.of_inner (by rw [hk]; decide) (by rw [hk]; decide)
    obtain ⟨w, hpair⟩ :=
      exists_mem_zip hlength (List.mem_filter.mpr ⟨hb, hinside.hasCapture⟩)
    exact ih (b, w) hpair (hwell.child hb) (hd.child hb)
      (agreeOn_of_product hwell hd hmembers hagree _ hpair) hinside
  | @branch p q v w hk hshape hkind hb hinside halong ih =>
    have hq := List.mem_of_getElem? hb
    rw [hshape, encode_branch hb hinside] at hagree
    obtain ⟨-, hagreeq, hothers⟩ := rows_of_branch hd hwell hb halong hagree
    obtain ⟨b, hmem, hinside⟩ := hholds.of_inner (by rw [hk]; decide) (by rw [hk]; decide)
    obtain ⟨j, hj⟩ := List.mem_iff_getElem?.mp hmem
    by_cases hji : j = v.selected
    · rw [hji] at hj
      obtain rfl := Option.some.inj (hj.symm.trans hb)
      exact ih (hwell.child hq) (hd.child hq) hagreeq hinside
    · exact ⟨_, assemble_flat_of_untouched hinside (hothers j b hj hji)⟩
  | @loop p q v hk hc hshape hslot hone hitems ih =>
    have hq := mem_children_of_eq hc
    rw [hshape, encode_loop] at hagree
    obtain ⟨hloose, hframes⟩ := rows_of_loop hd hc hagree
    obtain ⟨b, hb, rest, rfl, hinside⟩ := hholds.of_quantifier hk
    rw [hc, List.mem_singleton] at hb
    subst hb
    have hitem : ∀ f ∈ v.children.map (encode (.infer b)),
        ∃ u, assemble (.flat rest c) f = .ok u := by
      intro f hf
      obtain ⟨w, hw, rfl⟩ := List.mem_map.mp hf
      exact ih w hw (hwell.child hq) (hd.child hq) (.refl b _) hinside
    obtain ⟨us, hus⟩ := exists_forall₂_of_forall hitem
    rw [← hframes] at hus
    refine ⟨ofItems p us, assemble_loop_of_frames hc hloose (fun ho => ?_) hus⟩
    rw [hframes, List.length_map]
    exact (hone ho).1

/-! ## Records in their place -/

/-- **The encoding of a value is in order** if the spans of the value fit. -/
theorem Along.placed (h : Along p v) (hwell : p.WellFormed) (hd : p.Distinct)
    (hfits : ∀ sp ∈ v.spans, sp.fits size = true) :
    Trace.Placed size (some p) (encode (.infer p) v) := by
  induction h with
  | @bare p v hnone hkind hinside =>
    rw [hwell.infer_eq_empty hnone, encode]
    exact fun r hr => absurd hr List.not_mem_nil
  | @capture p q v hk hc hleaf _ =>
    rw [Shape.infer_capture hk, encode]
    intro r hr
    obtain ⟨sp, hsp, rfl⟩ := List.mem_map.mp hr
    exact .span hd.find_self hk (hfits sp (mem_spans_of_leaf hleaf (Option.mem_toList.mp hsp)))
  | @group p q v hk hc _ ih =>
    have hq := mem_children_of_eq hc
    rw [Shape.infer_group hk hc]
    exact fun r hr =>
      (ih (hwell.child hq) (hd.child hq) hfits r hr).mono hd (mem_subtrees_of_mem_children hq)
  | @only p q v hk hq _ hshape _ ih =>
    rw [hshape]
    exact fun r hr =>
      (ih (hwell.child hq) (hd.child hq) hfits r hr).mono hd (mem_subtrees_of_mem_children hq)
  | @product p v hk hshape _ _ _ ih =>
    rw [hshape, encode]
    intro r hr
    rw [mem_encodeAll, List.zip_map_left] at hr
    obtain ⟨pair, hpair, hr⟩ := hr
    obtain ⟨⟨q, w⟩, hmem, rfl⟩ := List.mem_map.mp hpair
    have hq := List.mem_of_mem_filter (List.of_mem_zip hmem).1
    refine (ih _ hmem (hwell.child hq) (hd.child hq) (fun sp hsp => hfits sp ?_) r hr).mono hd
      (mem_subtrees_of_mem_children hq)
    exact mem_spans_of_mem_children (List.of_mem_zip hmem).2 hsp
  | @branch p q v w hk hshape _ hb hinside _ ih =>
    have hq := List.mem_of_getElem? hb
    rw [hshape, encode_branch hb hinside]
    intro r hr
    rcases List.mem_cons.mp hr with rfl | hr
    · exact .choice hd.find_self hk (List.getElem?_eq_some_iff.mp hb).1
    · refine (ih (hwell.child hq) (hd.child hq) (fun sp hsp => hfits sp ?_) r hr).mono hd
        (mem_subtrees_of_mem_children hq)
      exact mem_spans_of_mem_children (hinside ▸ List.mem_singleton_self w) hsp
  | @loop p q v hk hc hshape _ _ _ ih =>
    have hq := mem_children_of_eq hc
    rw [hshape, encode_loop]
    intro r hr
    obtain ⟨w, hw, rfl⟩ := List.mem_map.mp hr
    refine .iteration hd.find_self hk ?_
    rw [body_eq_some hc]
    exact ih w hw (hwell.child hq) (hd.child hq) fun sp hsp =>
      hfits sp (mem_spans_of_mem_children hw hsp)

end Value

/-! ## Decoding -/

namespace Regex

/-- **Every value is decoded from its encoding.**  Let a value conform to the shape of a
pattern.  Then assembling reads it back from the trace that spells it, and if its spans
are in order and inside the input, the check accepts this trace and evaluation returns a
match with the value. -/
theorem decode_encode {p : Pattern} (h : p.validate = .ok ()) {v : Value}
    (hv : Value.Conforms (.infer p.locate) v) :
    let t := Value.encode (.infer p.locate) v
    (∃ v', Value.assemble (.infer p.locate) t = .ok v' ∧ Value.same v' v = true) ∧
      ∀ n, (∀ s ∈ v.spans, s.start ≤ s.stop ∧ s.stop ≤ n) → t.check p.locate n = .ok () ∧
        ∃ r, compile p = .ok r ∧ ∀ w : Bytes, w.length = n → ∀ whole : Span,
          whole.start ≤ whole.stop ∧ whole.stop ≤ n →
            ∃ m, r.evaluate whole t w = .ok m ∧ Value.same m.value v = true := by
  intro t
  have hwell := Pattern.wellFormed_locate h
  have hd := p.distinct_locate
  have halong := Value.along_of_conforms hwell hv
  obtain ⟨v', hv', hsame⟩ := halong.exists_assemble hwell hd (.refl _ t)
  refine ⟨⟨v', hv', hsame⟩, fun n hn => ?_⟩
  have hcheck : t.check p.locate n = .ok () := by
    refine Trace.check_eq_ok_iff.mpr (halong.placed hwell hd fun s hs => ?_)
    exact Span.fits_iff.mpr (hn s hs)
  refine ⟨hcheck, ?_⟩
  obtain ⟨r, hr⟩ := exists_compile h
  obtain ⟨hcompiled, hpattern⟩ := compiled_of_compile hr
  have hresult : ∀ c ∈ r.captures, ∃ u, Value.assemble c.flat t = .ok u := by
    intro c hc
    obtain ⟨qs, hholds, hflat, -⟩ := hcompiled.exists_route hc
    rw [hpattern] at hholds
    rw [hflat]
    exact halong.exists_assemble_flat hwell hd (.refl _ t) hholds
  obtain ⟨us, hus⟩ := exists_forall₂_of_forall hresult
  refine ⟨r, hr, ?_⟩
  rintro w rfl whole hwhole
  rw [hcompiled.captures, hcompiled.shape, hpattern] at hus
  have hflat : Value.flatten whole (.infer p.locate) v' (CaptureInfo.table p.locate
      (.infer p.locate)) t = .ok (.leaf (some whole) :: us) :=
    (CaptureInfo.flatten_eq_ok_iff hwell hd hv').mpr ⟨us, mapM_eq_ok.mpr hus, rfl⟩
  rw [← hpattern, ← hcompiled.shape] at hv' hflat
  rw [← hpattern] at hcheck
  rw [← hcompiled.captures] at hflat
  exact ⟨_, evaluate_eq_ok.mpr ⟨Span.fits_iff.mpr hwhole, hcheck, v', hv', _, hflat, rfl⟩, hsame⟩

/-- Items in a list, and then a branch that may be left out or one that hides a capture. -/
def listThenBranch : Pattern :=
  .concat [(Pattern.exact [0x61]).capture.star,
    .alternation [(Pattern.exact [0x62]).capture.optional, (Pattern.exact [0x63]).capture.capture]]

/-- Two items, of which one took no part in the match, and the branch with the hidden
capture. -/
def itemsAndBranch : Value :=
  .product [.repeated [.leaf (some ⟨0, 1⟩), .leaf none], .sum 1 (.leaf (some ⟨1, 2⟩))]

theorem decode_encode_itemsAndBranch :
    let t : Trace := [.iteration 1 [.span 2 ⟨0, 1⟩], .iteration 1 [], .choice 4 1, .span 8 ⟨1, 2⟩]
    t = Value.encode (.infer listThenBranch.locate) itemsAndBranch ∧
      (∃ v, Value.assemble (.infer listThenBranch.locate) t = .ok v ∧
        Value.same v itemsAndBranch = true) ∧
      ∃ r m, compile listThenBranch = .ok r ∧
        r.evaluate ⟨0, 2⟩ t [0x61, 0x63] = .ok m ∧ Value.same m.value itemsAndBranch = true := by
  intro t
  have hv : Value.Conforms (.infer listThenBranch.locate) itemsAndBranch :=
    Value.conforms_of_assemble (t := t) rfl
  obtain ⟨hvalue, hfits⟩ := decode_encode (p := listThenBranch) rfl hv
  obtain ⟨-, r, hr, heval⟩ := hfits 2 (by decide)
  obtain ⟨m, hm⟩ := heval [0x61, 0x63] rfl ⟨0, 2⟩ (by decide)
  exact ⟨rfl, hvalue, r, m, hr, hm⟩

end Regex

end CaptureTree
