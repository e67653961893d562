import CaptureTree.Proofs.Conservation
import CaptureTree.Proofs.Release.Results

/-!
# Captures do not influence each other

Capturing something does not change what is matched, nor what any other capture gets.
Turn a capture into a group: the pattern finds the same matches as before, and every other
capture has the same result in them.

A lot changes on the way.  Alternations and quantifiers that have lost their only capture
are no longer recorded and no longer have a slot in the value, products may be left with a
single member, and captures that were hidden inside the released one become visible, so
that their results are cut out of the value and not read from the trace.  None of it
matters, because every result can be read from the trace along its flat shape
(`Regex.Compiled.assemble_flat_of_result`), and there the released capture has no part.
-/

namespace CaptureTree

/-! ## Corresponding captures -/

/-- Leaving out the one entry with some key is leaving out an entry by its place. -/
theorem filter_eq_eraseIdx {α β : Type} [BEq β] [LawfulBEq β] {f : α → β} {xs : List α}
    (hnodup : (xs.map f).Nodup) {i : Nat} {x : α} (hx : xs[i]? = some x) :
    (xs.filter fun y => f y != f x) = xs.eraseIdx i := by
  induction xs generalizing i with
  | nil => cases hx
  | cons y ys ih =>
    rw [List.map_cons, List.nodup_cons] at hnodup
    cases i with
    | zero =>
      obtain rfl := Option.some.inj hx
      have hothers : ys.filter (fun z => f z != f y) = ys := by
        refine List.filter_eq_self.mpr fun z hz => bne_iff_ne.mpr fun hsame => ?_
        exact hnodup.1 (hsame ▸ List.mem_map_of_mem hz)
      rw [List.filter_cons, bne_self_eq_false, if_neg Bool.false_ne_true, hothers]
      rfl
    | succ i =>
      have hmem : x ∈ ys := List.mem_of_getElem? hx
      have hne : f y ≠ f x := fun hsame => hnodup.1 (hsame ▸ List.mem_map_of_mem hmem)
      rw [List.filter_cons, if_pos (bne_iff_ne.mpr hne), ih hnodup.2 hx]
      rfl

/-- The place of capture `i` when capture `k` is left out. -/
def withoutPlace (k i : Nat) : Nat :=
  if i < k then i else i - 1

theorem getElem?_eraseIdx_withoutPlace {α : Type} {xs : List α} {k i : Nat} (h : i ≠ k) :
    (xs.eraseIdx k)[withoutPlace k i]? = xs[i]? := by
  rw [List.getElem?_eraseIdx, withoutPlace]
  by_cases hi : i < k
  · rw [if_pos hi, if_pos hi]
  · have hlt : ¬ i - 1 < k := by omega
    have hpred : i - 1 + 1 = i := by omega
    rw [if_neg hi, if_neg hlt, hpred]

theorem withoutPlace_succ {k i : Nat} (h : i ≠ k) :
    withoutPlace (k + 1) (i + 1) = withoutPlace k i + 1 := by
  rw [withoutPlace, withoutPlace]
  split <;> split <;> omega

namespace Located

variable {p : Located} {n : NodeId}

/-- **The captures that are left** are all but the one in its place. -/
theorem capturesIn_release_eq_eraseIdx (hd : p.Distinct) (hn : p.CaptureAt n) {k : Nat}
    {e : Located × List Located} (hk : (p.capturesIn [])[k]? = some e) (he : e.1.id = n) :
    (p.release n).capturesIn [] =
      ((p.capturesIn []).eraseIdx k).map fun e => (e.1.release n, e.2.map (release n)) := by
  have hrelease := capturesIn_release hn []
  have herase := filter_eq_eraseIdx (f := fun e : Located × List Located => e.1.id)
    hd.nodup_capturesIn hk
  rw [List.map_nil, ← he, herase] at hrelease
  rw [← he, hrelease]

end Located

namespace Regex

variable {r r' : Regex} {w : Bytes} {t : Trace} {whole : Span} {n : NodeId}

/-- Are these a compiled pattern, and the same with its capture `k` released? -/
structure Released (r r' : Regex) (k : Nat) (c : CaptureInfo) : Prop where
  compiled : r.Compiled
  compiled' : r'.Compiled
  pattern : r'.pattern = r.pattern.release c.node.id
  capture : r.capture k = .ok c

namespace Released

variable {k : Nat} {c : CaptureInfo}

theorem captureAt (h : Released r r' k c) : r.pattern.CaptureAt c.node.id := by
  intro a ha hid
  obtain ⟨qs, hholds, -⟩ := h.compiled.exists_route (mem_captures_of_capture h.capture)
  obtain rfl : a = c.node :=
    h.compiled.distinct.eq_of_id_eq ha hholds.capture_mem_subtrees hid
  exact beq_iff_eq.mp hholds.isCapture

/-- The place of the released capture, and the captures without it. -/
theorem exists_place (h : Released r r' k c) :
    ∃ i e, k = i + 1 ∧ (r.pattern.capturesIn [])[i]? = some e ∧ e.1.id = c.node.id ∧
      r'.pattern.capturesIn [] = ((r.pattern.capturesIn []).eraseIdx i).map fun e =>
        (e.1.release c.node.id, e.2.map (Located.release c.node.id)) := by
  obtain ⟨i, rfl, hi⟩ := capture_eq_ok.mp h.capture
  rw [h.compiled.captures, CaptureInfo.getElem?_table, Option.map_eq_some_iff] at hi
  obtain ⟨e, he, hc⟩ := hi
  have hid : e.1.id = c.node.id := hc ▸ rfl
  refine ⟨i, e, rfl, he, hid, ?_⟩
  rw [h.pattern]
  exact Located.capturesIn_release_eq_eraseIdx h.compiled.distinct h.captureAt he hid

/-- **Every other capture has a counterpart**, inside the counterparts of the same
quantifiers. -/
theorem exists_capture (h : Released r r' k c) {j : Nat} {b : CaptureInfo}
    (hb : r.capture j = .ok b) (hj : j ≠ k) :
    ∃ b', r'.capture (withoutPlace k j) = .ok b' ∧ b'.node = b.node.release c.node.id ∧
      b.node.id ≠ c.node.id ∧ ∃ qs, r.pattern.Holds qs b.node ∧ b.flat = .flat qs b.node ∧
        b'.flat = .flat (qs.map (Located.release c.node.id)) b'.node := by
  obtain ⟨i, e, rfl, he, hid, hleft⟩ := h.exists_place
  obtain ⟨j, rfl, hj'⟩ := capture_eq_ok.mp hb
  have hne : j ≠ i := fun heq => hj (congrArg (· + 1) heq)
  rw [h.compiled.captures, CaptureInfo.getElem?_table, Option.map_eq_some_iff] at hj'
  obtain ⟨⟨node, qs⟩, hentry, rfl⟩ := hj'
  have hdiffer : node.id ≠ c.node.id := fun hsame =>
    hne (h.compiled.distinct.place_unique hentry he (hsame.trans hid.symm))
  have hcounterpart := CaptureInfo.getElem?_table r'.pattern r'.shape (withoutPlace i j)
  rw [← h.compiled'.captures, hleft, List.getElem?_map, getElem?_eraseIdx_withoutPlace hne, hentry,
    Option.map_some, Option.map_some] at hcounterpart
  have hplace : r'.capture (withoutPlace (i + 1) (j + 1)) = .ok _ :=
    capture_eq_ok.mpr ⟨_, withoutPlace_succ hne, hcounterpart⟩
  obtain ⟨qs', hqs, hholds⟩ := Located.mem_capturesIn.mp (List.mem_of_getElem? hentry)
  rw [List.nil_append] at hqs
  subst hqs
  exact ⟨_, hplace, rfl, hdiffer, qs, hholds, rfl, rfl⟩

theorem length_captures (h : Released r r' k c) :
    r'.captures.length + 1 = r.captures.length := by
  obtain ⟨i, e, -, he, -, hleft⟩ := h.exists_place
  rw [h.compiled'.captures, h.compiled.captures, CaptureInfo.table, CaptureInfo.table, hleft]
  simp only [List.length_map, List.length_zipIdx]
  exact List.length_eraseIdx_add_one (List.getElem?_eq_some_iff.mp he).1

end Released

end Regex

/-! ## Results that agree -/

/-- **Do two matches agree, apart from result `k` of the first?**  The results after it come
one place earlier in the second. -/
structure Match.AgreeWithout (k : Nat) (m m' : Match) : Prop where
  whole : m'.whole = m.whole
  size : m'.size + 1 = m.size
  results : ∀ j < m.size, j ≠ k → ∃ v, m.get j = .ok v ∧ m'.get (withoutPlace k j) = .ok v

namespace Regex

/-- Do two attempts to match both find nothing, or both a match, with results that agree
apart from number `k` of the first? -/
def AgreeWithout (k : Nat) (x x' : Except ReadError (Option Match)) : Prop :=
  (x = .ok none ∧ x' = .ok none) ∨
    ∃ m m', x = .ok (some m) ∧ x' = .ok (some m') ∧ m.AgreeWithout k m'

namespace Released

variable {r r' : Regex} {w : Bytes} {t : Trace} {whole : Span} {k : Nat} {c : CaptureInfo}

/-- The nodes that still record. -/
theorem keptBy (h : Released r r' k c) :
    r.pattern.KeptBy (r.pattern.keeps c.node.id) c.node.id :=
  h.compiled.distinct.keptBy

theorem agreeWithout (h : Released r r' k c) (hrun : Trace.Executed r.pattern t) {m m' : Match}
    (hm : r.evaluate whole t w = .ok m)
    (hm' : r'.evaluate whole (t.prune (r.pattern.keeps c.node.id)) w = .ok m') :
    m.AgreeWithout k m' := by
  obtain ⟨hwhole, hzero⟩ := whole_of_evaluate hm
  obtain ⟨hwhole', hzero'⟩ := whole_of_evaluate hm'
  refine ⟨hwhole'.trans hwhole.symm, ?_, fun j hj hne => ?_⟩
  · rw [size_of_evaluate hm, size_of_evaluate hm', h.length_captures]
  · cases j with
    | zero =>
      have hplace : withoutPlace k 0 = 0 := if_pos (Nat.pos_of_ne_zero (Ne.symm hne))
      rw [hplace]
      exact ⟨_, hzero, hzero'⟩
    | succ i =>
      rw [size_of_evaluate hm, Nat.add_lt_add_iff_right] at hj
      have hb : r.capture (i + 1) = .ok r.captures[i] :=
        capture_eq_ok.mpr ⟨i, rfl, List.getElem?_eq_getElem hj⟩
      obtain ⟨b', hb', hnode, hid, qs, hholds, hflat, hflat'⟩ := h.exists_capture hb hne
      obtain ⟨u, hget, hu⟩ := h.compiled.exists_get hm hb
      obtain ⟨u', hget', hu'⟩ := h.compiled'.exists_get hm' hb'
      rw [hflat] at hu
      have hsame :=
        hrun.assemble_flat_prune h.compiled.wellFormed hholds h.captureAt h.keptBy hid hu
      rw [← hnode, ← hflat', hu'] at hsame
      obtain rfl := Except.ok.inj hsame
      exact ⟨u', hget, hget'⟩

/-- **Matching and searching agree**, whichever found what there is to be found. -/
theorem agreeWithout_ofFound (h : Released r r' k c) {found : Option (Span × Trace)}
    (hrun : ∀ whole t, found = some (whole, t) → Trace.Executed r.pattern t ∧
      (∃ m, r.evaluate whole t w = .ok m) ∧
      ∃ m', r'.evaluate whole (t.prune (r.pattern.keeps c.node.id)) w = .ok m') :
    AgreeWithout k (r.ofFound w found)
      (r'.ofFound w (found.map (Located.pruneFound (r.pattern.keeps c.node.id)))) := by
  cases found with
  | none => exact .inl ⟨rfl, rfl⟩
  | some found =>
    obtain ⟨hrun, ⟨m, hm⟩, m', hm'⟩ := hrun found.1 found.2 rfl
    exact .inr ⟨m, m', map_eq_ok.mpr ⟨m, hm, rfl⟩, map_eq_ok.mpr ⟨m', hm', rfl⟩,
      h.agreeWithout hrun hm hm'⟩

theorem agreeWithout_match? (h : Released r r' k c) (w : Bytes) :
    AgreeWithout k (r.match? w) (r'.match? w) := by
  have hrelease := h.compiled.wellFormed.match?_release h.captureAt h.keptBy w
  rw [Regex.match?, Regex.match?, h.pattern, hrelease]
  refine h.agreeWithout_ofFound fun whole t hfound => ?_
  refine ⟨h.compiled.executed (.inl hfound), h.compiled.exists_evaluate (.inl hfound),
    h.compiled'.exists_evaluate (.inl ?_)⟩
  rw [h.pattern, hrelease, hfound]
  rfl

theorem agreeWithout_search? (h : Released r r' k c) (w : Bytes) :
    AgreeWithout k (r.search? w) (r'.search? w) := by
  have hrelease := h.compiled.wellFormed.search?_release h.captureAt h.keptBy w
  rw [Regex.search?, Regex.search?, h.pattern, hrelease]
  refine h.agreeWithout_ofFound fun whole t hfound => ?_
  refine ⟨h.compiled.executed (.inr hfound), h.compiled.exists_evaluate (.inr hfound),
    h.compiled'.exists_evaluate (.inr ?_)⟩
  rw [h.pattern, hrelease, hfound]
  rfl

end Released

/-- A capture of the pattern has a number. -/
theorem Compiled.exists_number {r : Regex} (h : r.Compiled) {a : Located}
    (ha : a ∈ r.pattern.subtrees) (hk : a.kind = .capture) :
    ∃ k c, r.capture k = .ok c ∧ c.node = a := by
  have hmem : a ∈ (r.pattern.capturesIn []).map Prod.fst := by
    rw [Located.map_fst_capturesIn]
    exact List.mem_filter.mpr ⟨ha, beq_iff_eq.mpr hk⟩
  obtain ⟨e, he, rfl⟩ := List.mem_map.mp hmem
  obtain ⟨i, hi⟩ := List.mem_iff_getElem?.mp he
  have hentry := CaptureInfo.getElem?_table r.pattern r.shape i
  rw [← h.captures, hi, Option.map_some] at hentry
  exact ⟨i + 1, _, capture_eq_ok.mpr ⟨i, rfl, hentry⟩, rfl⟩

/-- **Captures do not influence matching, nor each other.**  Turn a capture of a compiled
pattern into a group around the same pattern.  The result compiles, and has the other
captures of the first in the same order.  On every input, matching and searching find
nothing with either pattern, or find a match with both, with the same whole span and with
the same result for each of these captures. -/
theorem release_keeps_results {p : Pattern} {r : Regex} (h : compile p = .ok r) {a : Located}
    (ha : a ∈ p.locate.subtrees) (hk : a.kind = .capture) :
    ∃ k c r', r.capture k = .ok c ∧ c.node = a ∧ compile (p.release a.id) = .ok r' ∧
      (∀ j b, r.capture j = .ok b → j ≠ k →
        ∃ b', r'.capture (withoutPlace k j) = .ok b' ∧ b'.node = b.node.release a.id) ∧
      ∀ w, AgreeWithout k (r.match? w) (r'.match? w) ∧
        AgreeWithout k (r.search? w) (r'.search? w) := by
  obtain ⟨hcompiled, hpattern⟩ := compiled_of_compile h
  rw [← hpattern] at ha
  obtain ⟨k, c, hc, rfl⟩ := hcompiled.exists_number ha hk
  have hvalid : p.validate = .ok () := by
    rw [compile, bind_unit_eq_ok] at h
    exact h.1
  have hat : p.locate.CaptureAt c.node.id := by
    intro b hb hid
    rw [← hpattern] at hb
    rw [hcompiled.distinct.eq_of_id_eq hb ha hid]
    exact hk
  obtain ⟨r', hr'⟩ := exists_compile (Pattern.validate_release hvalid hat)
  obtain ⟨hcompiled', hpattern'⟩ := compiled_of_compile hr'
  rw [Pattern.locate_release, ← hpattern] at hpattern'
  have hreleased : Released r r' k c := ⟨hcompiled, hcompiled', hpattern', hc⟩
  refine ⟨k, c, r', hc, rfl, hr', fun j b hb hj => ?_, fun w => ?_⟩
  · obtain ⟨b', hb', hnode, -⟩ := hreleased.exists_capture hb hj
    exact ⟨b', hb', hnode⟩
  · exact ⟨hreleased.agreeWithout_match? w, hreleased.agreeWithout_search? w⟩

/-- A loop around a capture that hides two others, one of them in a loop of its own. -/
def hiddenPairs : Pattern :=
  (Pattern.concat [(Pattern.exact [0x61]).capture,
    (Pattern.exact [0x62]).capture.optional]).capture.star

/-- Released, the outer capture of `hiddenPairs` no longer hides the others. -/
example : hiddenPairs.release 1 = (Pattern.concat [(Pattern.exact [0x61]).capture,
    (Pattern.exact [0x62]).capture.optional]).group.star := rfl

theorem release_keeps_results_hiddenPairs :
    let w : Bytes := [0x61, 0x61, 0x62]
    ∃ (a : Located) (r : Regex) (k : Nat) (c : CaptureInfo) (r' : Regex) (m m' : Match),
      a ∈ hiddenPairs.locate.subtrees ∧ a.kind = .capture ∧ compile hiddenPairs = .ok r ∧
      r.capture k = .ok c ∧ c.node = a ∧ compile (hiddenPairs.release a.id) = .ok r' ∧
      r.match? w = .ok (some m) ∧ r'.match? w = .ok (some m') ∧ m.AgreeWithout k m' := by
  intro w
  have hkind : (hiddenPairs.locate.find 1).map Located.kind = some .capture := rfl
  obtain ⟨a, ha, hk⟩ := Option.map_eq_some_iff.mp hkind
  obtain ⟨hmem, -⟩ := Located.mem_subtrees_of_find ha
  obtain ⟨r, hr⟩ := exists_compile (p := hiddenPairs) rfl
  obtain ⟨k, c, r', hc, hnode, hr', -, hagree⟩ := release_keeps_results hr hmem hk
  have hfound : (hiddenPairs.locate.match? w).isSome = true := by
    rw [Located.match?_eq_find?]
    decide +kernel
  obtain ⟨found, hfound⟩ := Option.isSome_iff_exists.mp hfound
  rcases (hagree w).1 with ⟨hnone, -⟩ | ⟨m, m', hm, hm', hwithout⟩
  · rw [Regex.match?, (compiled_of_compile hr).2, hfound] at hnone
    obtain ⟨m, -, heq⟩ := map_eq_ok.mp hnone
    cases heq
  · exact ⟨a, r, k, c, r', m, m', hmem, hk, hr, hc, hnode, hr', hm, hm', hwithout⟩

end Regex

end CaptureTree
