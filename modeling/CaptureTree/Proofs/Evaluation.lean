import CaptureTree.Proofs.Matching.Preference
import CaptureTree.Proofs.Matching.Records
import CaptureTree.Proofs.Value.Runs
import CaptureTree.Regex

/-!
# Matching never fails

The search and the evaluation of its traces are written independently of each other,
and the evaluation refuses a trace in many ways.  None of them can happen here: for
a compiled pattern `Regex.match?` and `Regex.search?` find nothing or return a match,
but they never return an error.

The reason is that a trace of the search holds the records of an outcome
(`Located.search?_eq_findSome?`), and these are in their place and form one run
through the pattern.  `Regex.Compiled.accepts_outcome` puts this together for an
outcome at any place in the input.

What is known of a compiled pattern is collected in `Regex.Compiled`.
-/

namespace CaptureTree

/-! ## Compiled patterns -/

/-- Does everything in a compiled pattern belong to its pattern? -/
structure Regex.Compiled (r : Regex) : Prop where
  wellFormed : r.pattern.WellFormed
  distinct : r.pattern.Distinct
  shape : r.shape = .infer r.pattern
  captures : r.captures = CaptureInfo.table r.pattern r.shape

/-- **Compiling succeeds for well-formed patterns only**, and then works out what
belongs to them. -/
theorem Regex.compiled_of_compile {p : Pattern} {r : Regex} (h : compile p = .ok r) :
    r.Compiled ∧ r.pattern = p.locate := by
  rw [compile, bind_unit_eq_ok] at h
  obtain ⟨hvalid, h⟩ := h
  obtain ⟨names, -, hr⟩ := bind_eq_ok.mp h
  rw [pure_eq_ok] at hr
  subst hr
  exact ⟨⟨Pattern.wellFormed_locate hvalid, p.distinct_locate, rfl, rfl⟩, rfl⟩

/-- An entry of the table of captures, by its place. -/
theorem CaptureInfo.getElem?_table (p : Located) (s : Shape) (i : Nat) :
    (table p s)[i]? = (p.capturesIn [])[i]?.map fun e =>
      { index := i + 1, node := e.1, path := s.pathTo e.1.id, flat := .flat e.2 e.1 } := by
  rw [table, List.getElem?_map, List.getElem?_zipIdx, Option.map_map, Nat.zero_add]
  rfl

/-- An entry of the table of captures is a capture that the pattern holds. -/
theorem CaptureInfo.exists_holds {p : Located} {s : Shape} {c : CaptureInfo}
    (h : c ∈ CaptureInfo.table p s) :
    ∃ qs, p.Holds qs c.node ∧ c.flat = .flat qs c.node ∧ c.path = s.pathTo c.node.id := by
  obtain ⟨⟨⟨node, qs⟩, k⟩, hmem, rfl⟩ := List.mem_map.mp h
  have hlisted : (node, qs) ∈ p.capturesIn [] :=
    List.mem_of_getElem? (List.mem_zipIdx_iff_getElem?.mp hmem)
  obtain ⟨qs', hqs, hholds⟩ := Located.mem_capturesIn.mp hlisted
  rw [List.nil_append] at hqs
  subst hqs
  exact ⟨qs, hholds, rfl, rfl⟩

/-- An entry with a path is at the end of a route. -/
theorem CaptureInfo.exists_route {p : Located} (hwell : p.WellFormed) (hd : p.Distinct)
    {c : CaptureInfo} (h : c ∈ CaptureInfo.table p (.infer p)) :
    ∃ qs, p.Holds qs c.node ∧ c.flat = .flat qs c.node ∧
      ∀ path ∈ c.path, p.Route qs c.node path := by
  obtain ⟨qs, hholds, hflat, hpath⟩ := CaptureInfo.exists_holds h
  refine ⟨qs, hholds, hflat, fun path hmem => hholds.route hwell hd ?_⟩
  rw [Option.mem_def, hpath] at hmem
  obtain ⟨front, back, hlist, -⟩ := List.lookup_eq_some_iff.mp hmem
  rw [hlist]
  exact List.mem_append_right front List.mem_cons_self

namespace Regex

variable {r : Regex} {w : Bytes} {t : Trace} {whole : Span} {c : CaptureInfo}

/-- A capture with a path is at the end of a route. -/
theorem Compiled.exists_route (h : r.Compiled) {c : CaptureInfo} (hc : c ∈ r.captures) :
    ∃ qs, r.pattern.Holds qs c.node ∧ c.flat = .flat qs c.node ∧
      ∀ path ∈ c.path, r.pattern.Route qs c.node path := by
  rw [h.captures, h.shape] at hc
  exact CaptureInfo.exists_route h.wellFormed h.distinct hc

/-! ## Evaluation -/

theorem evaluate_eq_ok {m : Match} :
    r.evaluate whole t w = .ok m ↔
      whole.fits w.length = true ∧ t.check r.pattern w.length = .ok () ∧
        ∃ v, Value.assemble r.shape t = .ok v ∧
          ∃ flat, Value.flatten whole r.shape v r.captures t = .ok flat ∧
            { regex := r, input := w, whole, value := v, flat } = m := by
  rw [evaluate]
  cases hfits : whole.fits w.length with
  | false => simp [throw, throwThe, MonadExceptOf.throw, bind, Except.bind]
  | true =>
    simp only [Bool.not_true, Bool.false_eq_true, if_false, bind_eq_ok, pure_eq_ok,
      Inconsistency.whileReading, mapError_eq_ok, true_and]
    constructor
    · rintro ⟨⟨⟩, hcheck, hrest⟩
      exact ⟨hcheck, hrest⟩
    · rintro ⟨hcheck, hrest⟩
      exact ⟨(), hcheck, hrest⟩

theorem flatten_eq_ok {s : Shape} {v : Value} {cs : List CaptureInfo} {flat : List Value} :
    Value.flatten whole s v cs t = .ok flat ↔
      ∃ rs, List.Forall₂ (fun c u => Value.result s v t c = .ok u) cs rs ∧
        Value.leaf (some whole) :: rs = flat := by
  simp only [Value.flatten, bind_eq_ok, pure_eq_ok, mapM_eq_ok]

/-! ## What evaluation returns -/

/-- A match has a result for every capture, and one for the whole. -/
theorem size_of_evaluate {m : Match} (hm : r.evaluate whole t w = .ok m) :
    m.size = r.captures.length + 1 := by
  obtain ⟨-, -, v, -, flat, hflat, rfl⟩ := evaluate_eq_ok.mp hm
  obtain ⟨rs, hall, rfl⟩ := flatten_eq_ok.mp hflat
  rw [Match.size, List.length_cons, hall.length_eq]

theorem whole_of_evaluate {m : Match} (hm : r.evaluate whole t w = .ok m) :
    m.whole = whole ∧ m.get 0 = .ok (.leaf (some whole)) := by
  obtain ⟨-, -, v, -, flat, hflat, rfl⟩ := evaluate_eq_ok.mp hm
  obtain ⟨rs, -, rfl⟩ := flatten_eq_ok.mp hflat
  exact ⟨rfl, rfl⟩

/-- The value of a match is assembled in the shape of the pattern. -/
theorem assemble_of_evaluate {m : Match} (hm : r.evaluate whole t w = .ok m) :
    m.root.shape = r.shape ∧ Value.assemble r.shape t = .ok m.value := by
  obtain ⟨-, -, v, hv, flat, -, rfl⟩ := evaluate_eq_ok.mp hm
  exact ⟨rfl, hv⟩

/-- **Every result is that of the flat shape**, whether it is cut out of the value or
assembled from the trace. -/
theorem Compiled.assemble_flat_of_result (h : r.Compiled) {v u : Value}
    (hv : Value.assemble r.shape t = .ok v) (hc : c ∈ r.captures)
    (hu : Value.result r.shape v t c = .ok u) : Value.assemble c.flat t = .ok u := by
  obtain ⟨qs, -, hflat, hroute⟩ := h.exists_route hc
  rw [Value.result] at hu
  cases hpath : c.path with
  | none =>
    simp only [hpath] at hu
    exact mapError_eq_ok.mp hu
  | some path =>
    simp only [hpath] at hu
    rw [h.shape] at hv hu
    obtain ⟨u', hu', hproject⟩ := (hroute path hpath).project_assemble hv
    obtain rfl : u' = u := Except.ok.inj (hproject.symm.trans hu)
    rw [hflat]
    exact hu'

theorem capture_eq_ok {k : Nat} :
    r.capture k = .ok c ↔ ∃ i, k = i + 1 ∧ r.captures[i]? = some c := by
  cases k with
  | zero => simp [capture]
  | succ i =>
    rw [capture]
    cases hi : r.captures[i]? with
    | none => simp [hi]
    | some c' => simp [hi]

/-- A capture that a number finds is one of the table. -/
theorem mem_captures_of_capture {k : Nat} (h : r.capture k = .ok c) : c ∈ r.captures := by
  obtain ⟨i, -, hi⟩ := capture_eq_ok.mp h
  exact List.mem_of_getElem? hi

/-- Result `k` of a match is that of capture `k`. -/
theorem exists_get_of_evaluate {m : Match} (hm : r.evaluate whole t w = .ok m) {k : Nat}
    (hc : r.capture k = .ok c) :
    ∃ u, m.get k = .ok u ∧ Value.result r.shape m.value t c = .ok u := by
  obtain ⟨-, -, v, -, flat, hflat, rfl⟩ := evaluate_eq_ok.mp hm
  obtain ⟨rs, hall, rfl⟩ := flatten_eq_ok.mp hflat
  obtain ⟨i, rfl, hi⟩ := capture_eq_ok.mp hc
  obtain ⟨u, hu, hresult⟩ := exists_getElem?_of_forall₂ hall hi
  refine ⟨u, ?_, hresult⟩
  rw [Match.get, List.getElem?_cons_succ, hu]

/-- Every result of a match can be read from the trace. -/
theorem Compiled.exists_get (h : r.Compiled) {m : Match} (hm : r.evaluate whole t w = .ok m)
    {k : Nat} {c : CaptureInfo} (hc : r.capture k = .ok c) :
    ∃ u, m.get k = .ok u ∧ Value.assemble c.flat t = .ok u := by
  obtain ⟨u, hget, hresult⟩ := exists_get_of_evaluate hm hc
  obtain ⟨-, -, v, hv, flat, -, rfl⟩ := evaluate_eq_ok.mp hm
  exact ⟨u, hget, h.assemble_flat_of_result hv (mem_captures_of_capture hc) hresult⟩

/-! ## Runs -/

/-- Every capture of a run has a result. -/
theorem Compiled.exists_result (h : r.Compiled) (hrun : Trace.Executed r.pattern t) {v : Value}
    (hv : Value.assemble r.shape t = .ok v) {c : CaptureInfo} (hc : c ∈ r.captures) :
    ∃ u, Value.result r.shape v t c = .ok u := by
  obtain ⟨qs, hholds, hflat, hroute⟩ := h.exists_route hc
  rw [Value.result]
  cases hpath : c.path with
  | none =>
    obtain ⟨u, hu⟩ := hrun.exists_assemble_flat hholds
    refine ⟨u, ?_⟩
    rw [hflat]
    exact mapError_eq_ok.mpr hu
  | some path =>
    rw [h.shape] at hv ⊢
    obtain ⟨u, -, hu⟩ := (hroute path hpath).project_assemble hv
    exact ⟨u, hu⟩

/-- **A trace that can be read**: it passes the check, it has a value, and every
capture has a result. -/
def Accepts (r : Regex) (size : Nat) (t : Trace) : Prop :=
  t.check r.pattern size = .ok () ∧ ∃ v, Value.assemble r.shape t = .ok v ∧
    ∀ whole, ∃ flat, Value.flatten whole r.shape v r.captures t = .ok flat

/-- **The records of an outcome can be read.** -/
theorem Compiled.accepts_outcome (h : r.Compiled) {b : Nat} (hb : b ≤ w.length) {o : Outcome}
    (ho : o ∈ r.pattern.outcomes ((Cursor.ofInput w).advance b)) :
    r.Accepts w.length o.records := by
  have hcoherent := (Cursor.coherent_ofInput w).advance b
  have hplaced := h.wellFormed.placed_outcomes h.distinct hcoherent ho
  have hrun := h.wellFormed.executed_outcomes h.distinct hcoherent ho
  have hsize : ((Cursor.ofInput w).advance b).pos + ((Cursor.ofInput w).advance b).left =
      w.length := by
    show 0 + b + (w.length - b) = w.length
    omega
  rw [hsize] at hplaced
  obtain ⟨v, hv⟩ := hrun.exists_assemble_infer h.wellFormed
  rw [← h.shape] at hv
  refine ⟨Trace.check_eq_ok_iff.mpr hplaced, v, hv, fun whole => ?_⟩
  obtain ⟨rs, hrs⟩ := exists_forall₂_of_forall fun c hc => h.exists_result hrun hv hc
  exact ⟨_, flatten_eq_ok.mpr ⟨rs, hrs, rfl⟩⟩

/-- What matching and searching find is an outcome at some place. -/
theorem Compiled.exists_outcome (h : r.Compiled)
    (hfound : r.pattern.match? w = some (whole, t) ∨ r.pattern.search? w = some (whole, t)) :
    ∃ b ≤ w.length, ∃ o ∈ r.pattern.outcomes ((Cursor.ofInput w).advance b),
      whole = ⟨b, o.cursor.pos⟩ ∧ t = o.records := by
  rcases hfound with hfound | hfound
  · obtain ⟨o, ho, hend, hwhole, ht⟩ := h.wellFormed.exists_outcome_of_match? hfound
    refine ⟨0, Nat.zero_le _, o, ho, ?_, ht⟩
    rw [hwhole, hend]
    exact congrArg (Span.mk 0) (Nat.zero_add w.length).symm
  · rw [Located.search?_eq_findSome?] at hfound
    obtain ⟨b, hb, hhead⟩ := List.exists_of_findSome?_eq_some hfound
    rw [Option.map_eq_some_iff] at hhead
    obtain ⟨o, ho, heq⟩ := hhead
    obtain ⟨rfl, rfl⟩ := Prod.mk.inj heq
    exact ⟨b, Nat.le_of_lt_succ (List.mem_range.mp hb), o, List.mem_of_head? ho, rfl, rfl⟩

/-- **What matching and searching find is recorded between the ends of the match.** -/
theorem Compiled.runBetween (h : r.Compiled)
    (hfound : r.pattern.match? w = some (whole, t) ∨ r.pattern.search? w = some (whole, t)) :
    Trace.RunBetween r.pattern whole.start whole.stop t := by
  obtain ⟨b, -, o, ho, rfl, rfl⟩ := h.exists_outcome hfound
  have hrun := h.wellFormed.runBetween_outcomes h.distinct
    ((Cursor.coherent_ofInput w).advance b) ho
  rwa [show ((Cursor.ofInput w).advance b).pos = b from Nat.zero_add b] at hrun

/-- What matching and searching find records one run through the pattern. -/
theorem Compiled.executed (h : r.Compiled)
    (hfound : r.pattern.match? w = some (whole, t) ∨ r.pattern.search? w = some (whole, t)) :
    Trace.Executed r.pattern t :=
  (h.runBetween hfound).executed

/-- What matching and searching find is in its place. -/
theorem Compiled.placed (h : r.Compiled)
    (hfound : r.pattern.match? w = some (whole, t) ∨ r.pattern.search? w = some (whole, t)) :
    t.Placed w.length (some r.pattern) := by
  obtain ⟨b, hb, o, ho, -, rfl⟩ := h.exists_outcome hfound
  exact Trace.check_eq_ok_iff.mp (h.accepts_outcome hb ho).1

/-- What matching and searching find is in order and inside the input. -/
theorem Compiled.fits_outcome (h : r.Compiled) {b : Nat} (hb : b ≤ w.length) {o : Outcome}
    (ho : o ∈ r.pattern.outcomes ((Cursor.ofInput w).advance b)) :
    Span.fits ⟨b, o.cursor.pos⟩ w.length = true := by
  obtain ⟨n, hn, hcursor⟩ :=
    h.wellFormed.exists_advance ((Cursor.coherent_ofInput w).advance b) ho
  have hpos : o.cursor.pos = 0 + b + n := by rw [hcursor]; rfl
  have hleft : n ≤ w.length - b := hn
  rw [Span.fits_iff]
  show b ≤ o.cursor.pos ∧ o.cursor.pos ≤ w.length
  omega

/-- Evaluating what was found returns a match. -/
theorem Compiled.exists_evaluate (h : r.Compiled)
    (hfound : r.pattern.match? w = some (whole, t) ∨ r.pattern.search? w = some (whole, t)) :
    ∃ m, r.evaluate whole t w = .ok m := by
  obtain ⟨b, hb, o, ho, rfl, rfl⟩ := h.exists_outcome hfound
  obtain ⟨hcheck, v, hv, hflatten⟩ := h.accepts_outcome hb ho
  obtain ⟨flat, hflat⟩ := hflatten ⟨b, o.cursor.pos⟩
  exact ⟨_, evaluate_eq_ok.mpr ⟨h.fits_outcome hb ho, hcheck, v, hv, flat, hflat, rfl⟩⟩

theorem ofFound_eq_some {found : Option (Span × Trace)} {m : Match} :
    r.ofFound w found = .ok (some m) ↔
      ∃ whole t, found = some (whole, t) ∧ r.evaluate whole t w = .ok m := by
  cases found with
  | none => simp [ofFound]
  | some found =>
    rw [ofFound, map_eq_ok]
    constructor
    · rintro ⟨m', hm', heq⟩
      exact ⟨found.1, found.2, rfl, Option.some.inj heq ▸ hm'⟩
    · rintro ⟨whole, t, hfound, hm⟩
      obtain rfl := Option.some.inj hfound
      exact ⟨m, hm, rfl⟩

/-- What matching and searching return is evaluated from what they found. -/
theorem exists_found {m : Match} (hm : r.match? w = .ok (some m) ∨ r.search? w = .ok (some m)) :
    ∃ t, (r.pattern.match? w = some (m.whole, t) ∨ r.pattern.search? w = some (m.whole, t)) ∧
      r.evaluate m.whole t w = .ok m := by
  rcases hm with hm | hm
  · obtain ⟨whole, t, hfound, hm⟩ := ofFound_eq_some.mp hm
    obtain ⟨rfl, -⟩ := whole_of_evaluate hm
    exact ⟨t, .inl hfound, hm⟩
  · obtain ⟨whole, t, hfound, hm⟩ := ofFound_eq_some.mp hm
    obtain ⟨rfl, -⟩ := whole_of_evaluate hm
    exact ⟨t, .inr hfound, hm⟩

/-- What matching and searching return is evaluated from a trace. -/
theorem exists_trace_of_found {m : Match}
    (hm : r.match? w = .ok (some m) ∨ r.search? w = .ok (some m)) :
    ∃ whole t, r.evaluate whole t w = .ok m := by
  obtain ⟨t, -, heval⟩ := exists_found hm
  exact ⟨_, t, heval⟩

/-- If all that can be found evaluates, the outcome of matching is no error. -/
theorem exists_ofFound {found : Option (Span × Trace)}
    (h : ∀ whole t, found = some (whole, t) → ∃ m, r.evaluate whole t w = .ok m) :
    ∃ result, r.ofFound w found = .ok result := by
  cases found with
  | none => exact ⟨none, rfl⟩
  | some found =>
    obtain ⟨m, hm⟩ := h found.1 found.2 rfl
    exact ⟨some m, map_eq_ok.mpr ⟨m, hm, rfl⟩⟩

/-- **Matching never fails.**  For a compiled pattern, matching and searching find
nothing or return a match.  Every trace that they find records one run through the
pattern, and can be read in full. -/
theorem match?_never_fails {p : Pattern} {r : Regex} (h : compile p = .ok r) (w : Bytes) :
    (∃ found, r.match? w = .ok found) ∧ (∃ found, r.search? w = .ok found) ∧
      ∀ whole t, r.pattern.match? w = some (whole, t) ∨ r.pattern.search? w = some (whole, t) →
        Trace.Executed r.pattern t ∧ r.Accepts w.length t := by
  obtain ⟨hr, -⟩ := compiled_of_compile h
  refine ⟨?_, ?_, ?_⟩
  · exact exists_ofFound fun whole t hfound => hr.exists_evaluate (.inl hfound)
  · exact exists_ofFound fun whole t hfound => hr.exists_evaluate (.inr hfound)
  · intro whole t hfound
    obtain ⟨b, hb, o, ho, -, rfl⟩ := hr.exists_outcome hfound
    have hcoherent := (Cursor.coherent_ofInput w).advance b
    exact ⟨hr.wellFormed.executed_outcomes hr.distinct hcoherent ho, hr.accepts_outcome hb ho⟩

/-- A loop around a capture that hides two others, one in each branch. -/
def hiddenBranches : Pattern :=
  (Pattern.alternation [(Pattern.exact [0x61]).capture,
    (Pattern.exact [0x62]).capture.optional]).capture.star

theorem match?_never_fails_hiddenBranches :
    ∃ r, compile hiddenBranches = .ok r ∧
      (∃ found, r.match? [0x61, 0x62] = .ok found) ∧
      (∃ found, r.search? [0x61, 0x62] = .ok found) ∧
      ∀ whole t, r.pattern.match? [0x61, 0x62] = some (whole, t) ∨
        r.pattern.search? [0x61, 0x62] = some (whole, t) →
          Trace.Executed r.pattern t ∧ r.Accepts 2 t :=
  ⟨_, rfl, match?_never_fails (p := hiddenBranches) rfl [0x61, 0x62]⟩

end Regex

end CaptureTree
