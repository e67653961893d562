import CaptureTree.Proofs.Evaluation

/-!
# Flat results, two ways

The flat result of a visible capture is cut out of the value, and that of a hidden
capture is assembled from the trace.  Nothing would change if all of them were
assembled: for a trace that can be read along the shape of the pattern, whether or not
its records are in their place, `Value.result` is what assembling the flat shape gives
(`CaptureInfo.result_eq`), its error included.

So a visible capture never fails, and `Value.flatten` fails as the first hidden capture
does whose flat shape can not be read.
-/

namespace CaptureTree

variable {p : Located} {t : Trace} {v : Value} {c : CaptureInfo}

/-- A visible capture has a result, and its flat shape gives the same one. -/
theorem CaptureInfo.exists_assemble (hwell : p.WellFormed) (hd : p.Distinct)
    (hv : Value.assemble (.infer p) t = .ok v) (hc : c ∈ table p (.infer p)) {path : SlotPath}
    (hpath : c.path = some path) :
    ∃ u, Value.assemble c.flat t = .ok u ∧ Value.project path (.infer p) v = .ok u := by
  obtain ⟨qs, -, hflat, hroute⟩ := CaptureInfo.exists_route hwell hd hc
  rw [hflat]
  exact (hroute path hpath).project_assemble hv

/-- **A result is what its flat shape gives**, wherever it is taken from. -/
theorem CaptureInfo.result_eq (hwell : p.WellFormed) (hd : p.Distinct)
    (hv : Value.assemble (.infer p) t = .ok v) (hc : c ∈ table p (.infer p)) :
    Value.result (.infer p) v t c = Inconsistency.whileReading (Value.assemble c.flat t) := by
  rw [Value.result]
  cases hpath : c.path with
  | none => rfl
  | some path =>
    obtain ⟨u, hu, hproject⟩ := exists_assemble hwell hd hv hc hpath
    rw [hu]
    exact hproject

/-- **Flattening assembles the flat shape of every capture.** -/
theorem CaptureInfo.flatten_eq_ok_iff (hwell : p.WellFormed) (hd : p.Distinct)
    (hv : Value.assemble (.infer p) t = .ok v) {whole : Span} {flat : List Value} :
    Value.flatten whole (.infer p) v (table p (.infer p)) t = .ok flat ↔
      ∃ rs, (table p (.infer p)).mapM (fun c => Value.assemble c.flat t) = .ok rs ∧
        Value.leaf (some whole) :: rs = flat := by
  have hresult : ∀ c ∈ table p (.infer p), ∀ u,
      Value.result (.infer p) v t c = .ok u ↔ Value.assemble c.flat t = .ok u := by
    intro c hc u
    rw [result_eq hwell hd hv hc]
    exact mapError_eq_ok
  simp only [Regex.flatten_eq_ok, mapM_eq_ok]
  refine exists_congr fun rs => and_congr_left fun _ => ?_
  exact forall₂_congr_of_mem hresult

/-- Only hidden captures can fail. -/
theorem CaptureInfo.path_eq_none_of_error (hwell : p.WellFormed) (hd : p.Distinct)
    (hv : Value.assemble (.infer p) t = .ok v) (hc : c ∈ table p (.infer p)) {e : Inconsistency}
    (he : Value.assemble c.flat t = .error e) : c.path = none := by
  cases hpath : c.path with
  | none => rfl
  | some path =>
    obtain ⟨u, hu, -⟩ := exists_assemble hwell hd hv hc hpath
    rw [he] at hu
    cases hu

theorem Value.flatten_eq_error {whole : Span} {s : Shape} {cs : List CaptureInfo} {e : ReadError} :
    Value.flatten whole s v cs t = .error e ↔ cs.mapM (Value.result s v t) = .error e := by
  rw [Value.flatten]
  cases cs.mapM (Value.result s v t) with
  | error e' => exact Iff.rfl
  | ok rs => exact iff_of_false (fun h => by cases h) fun h => by cases h

/-- **Flattening fails as its first unreadable capture does**, and that capture is a
hidden one. -/
theorem CaptureInfo.flatten_eq_error_iff (hwell : p.WellFormed) (hd : p.Distinct)
    (hv : Value.assemble (.infer p) t = .ok v) {whole : Span} {e : ReadError} :
    Value.flatten whole (.infer p) v (table p (.infer p)) t = .error e ↔
      ∃ before c after e', table p (.infer p) = before ++ c :: after ∧ c.path = none ∧
        Value.assemble c.flat t = .error e' ∧ e = .inconsistent e' ∧
        ∀ b ∈ before, ∃ u, Value.assemble b.flat t = .ok u := by
  rw [Value.flatten_eq_error, mapM_eq_error]
  constructor
  · rintro ⟨before, c, after, hlist, hbefore, hc⟩
    have hmem : ∀ b ∈ before ++ c :: after, b ∈ table p (.infer p) := fun b hb => hlist ▸ hb
    have hcmem := hmem c (List.mem_append_right before List.mem_cons_self)
    rw [result_eq hwell hd hv hcmem, Inconsistency.whileReading, mapError_eq_error] at hc
    obtain ⟨e', he', rfl⟩ := hc
    refine ⟨before, c, after, e', hlist, path_eq_none_of_error hwell hd hv hcmem he', he', rfl,
      fun b hb => ?_⟩
    obtain ⟨u, hu⟩ := hbefore b hb
    rw [result_eq hwell hd hv (hmem b (List.mem_append_left _ hb))] at hu
    exact ⟨u, mapError_eq_ok.mp hu⟩
  · rintro ⟨before, c, after, e', hlist, -, he', rfl, hbefore⟩
    have hmem : ∀ b ∈ before ++ c :: after, b ∈ table p (.infer p) := fun b hb => hlist ▸ hb
    have hcmem := hmem c (List.mem_append_right before List.mem_cons_self)
    refine ⟨before, c, after, hlist, fun b hb => ?_, ?_⟩
    · obtain ⟨u, hu⟩ := hbefore b hb
      refine ⟨u, ?_⟩
      rw [result_eq hwell hd hv (hmem b (List.mem_append_left _ hb))]
      exact mapError_eq_ok.mpr hu
    · rw [result_eq hwell hd hv hcmem]
      exact mapError_eq_error.mpr ⟨e', he', rfl⟩

/-- Result `i + 1` of a flattening is that of capture `i`. -/
theorem CaptureInfo.getElem?_flatten (hwell : p.WellFormed) (hd : p.Distinct)
    (hv : Value.assemble (.infer p) t = .ok v) {whole : Span} {flat : List Value}
    (hflat : Value.flatten whole (.infer p) v (table p (.infer p)) t = .ok flat) {i : Nat}
    (hc : (table p (.infer p))[i]? = some c) :
    ∃ u, flat[i + 1]? = some u ∧ Value.assemble c.flat t = .ok u := by
  obtain ⟨rs, hall, rfl⟩ := Regex.flatten_eq_ok.mp hflat
  obtain ⟨u, hu, hresult⟩ := exists_getElem?_of_forall₂ hall hc
  rw [result_eq hwell hd hv (List.mem_of_getElem? hc)] at hresult
  exact ⟨u, hu, mapError_eq_ok.mp hresult⟩

/-! ## Projection and assembly -/

/-- **Projection agrees with assembly.**  If a trace can be read along the shape of the
pattern, then the flat shape of every visible capture can be read as well, and gives
what projection gives and flattening lists.  Flattening fails exactly when the flat
shape of some hidden capture can not be read, and then as the first of these does. -/
theorem flatten_agrees_with_assembly {p : Pattern} (h : p.validate = .ok ()) {t : Trace}
    {v : Value} (hv : Value.assemble (.infer p.locate) t = .ok v) (whole : Span) :
    let s := Shape.infer p.locate
    let captures := CaptureInfo.table p.locate s
    (∀ c ∈ captures, ∀ path ∈ c.path,
      ∃ u, Value.assemble c.flat t = .ok u ∧ Value.project path s v = .ok u) ∧
    (∀ flat, Value.flatten whole s v captures t = .ok flat →
      flat.head? = some (.leaf (some whole)) ∧ flat.length = captures.length + 1 ∧
        ∀ (i : Nat) (c : CaptureInfo), captures[i]? = some c →
          ∃ u, flat[i + 1]? = some u ∧ Value.assemble c.flat t = .ok u) ∧
    ((∃ e, Value.flatten whole s v captures t = .error e) ↔
      ∃ c ∈ captures, c.path = none ∧ ∃ e, Value.assemble c.flat t = .error e) ∧
    ∀ e, Value.flatten whole s v captures t = .error e ↔
      ∃ before c after e', captures = before ++ c :: after ∧ c.path = none ∧
        Value.assemble c.flat t = .error e' ∧ e = .inconsistent e' ∧
        ∀ b ∈ before, b.path = none → ∃ u, Value.assemble b.flat t = .ok u := by
  intro s captures
  have hwell := Pattern.wellFormed_locate h
  have hd := p.distinct_locate
  have herror : ∀ e, Value.flatten whole s v captures t = .error e ↔ _ := fun e =>
    CaptureInfo.flatten_eq_error_iff hwell hd hv
  refine ⟨fun c hc path hpath => CaptureInfo.exists_assemble hwell hd hv hc hpath,
    fun flat hflat => ?_, ⟨?_, ?_⟩, fun e => ?_⟩
  · obtain ⟨rs, hall, rfl⟩ := Regex.flatten_eq_ok.mp hflat
    refine ⟨rfl, by rw [List.length_cons, hall.length_eq], fun i c hc => ?_⟩
    exact CaptureInfo.getElem?_flatten hwell hd hv hflat hc
  · rintro ⟨e, he⟩
    obtain ⟨before, c, after, e', hlist, hpath, hc, -, -⟩ := (herror e).mp he
    refine ⟨c, ?_, hpath, e', hc⟩
    rw [show captures = _ from hlist]
    exact List.mem_append_right before List.mem_cons_self
  · rintro ⟨c, hc, hpath, e', he'⟩
    -- otherwise there are results for all captures, this one included
    cases hflat : Value.flatten whole s v captures t with
    | error e => exact ⟨e, rfl⟩
    | ok flat =>
      obtain ⟨i, hi⟩ := List.mem_iff_getElem?.mp hc
      obtain ⟨u, -, hu⟩ := CaptureInfo.getElem?_flatten hwell hd hv hflat hi
      rw [he'] at hu
      cases hu
  · rw [herror]
    constructor
    · rintro ⟨before, c, after, e', hlist, hpath, he', rfl, hbefore⟩
      exact ⟨before, c, after, e', hlist, hpath, he', rfl, fun b hb _ => hbefore b hb⟩
    · rintro ⟨before, c, after, e', hlist, hpath, he', rfl, hbefore⟩
      refine ⟨before, c, after, e', hlist, hpath, he', rfl, fun b hb => ?_⟩
      cases hb' : b.path with
      | none => exact hbefore b hb hb'
      | some path =>
        have hmem : b ∈ captures := by
          rw [show captures = _ from hlist]
          exact List.mem_append_left _ hb
        obtain ⟨u, hu, -⟩ := CaptureInfo.exists_assemble hwell hd hv hmem hb'
        exact ⟨u, hu⟩

/-- A loop around two branches, of which the second hides a loop around a third
capture. -/
def hiddenLoop : Pattern :=
  (Pattern.alternation [(Pattern.exact [0x61]).capture,
    (Pattern.exact [0x62]).capture.star.capture]).star

/-- One iteration in each branch, where the hidden capture has two spans in one frame. -/
def hiddenTwice : Trace :=
  [.iteration 0 [.choice 1 0, .span 2 ⟨0, 1⟩],
    .iteration 0 [.choice 1 1, .iteration 5 [.span 6 ⟨1, 2⟩, .span 6 ⟨2, 3⟩], .span 4 ⟨1, 3⟩]]

theorem flatten_agrees_with_assembly_hiddenTwice :
    let s := Shape.infer hiddenLoop.locate
    let captures := CaptureInfo.table hiddenLoop.locate s
    hiddenLoop.validate = .ok () ∧ ∃ v, Value.assemble s hiddenTwice = .ok v ∧
      (∀ c ∈ captures, ∀ path ∈ c.path,
        ∃ u, Value.assemble c.flat hiddenTwice = .ok u ∧ Value.project path s v = .ok u) ∧
      Value.flatten ⟨0, 3⟩ s v captures hiddenTwice =
        .error (.inconsistent (.manySpans { kind := .leaf, name := none } 2)) ∧
      ∃ c ∈ captures, c.path = none ∧ ∃ e, Value.assemble c.flat hiddenTwice = .error e := by
  intro s captures
  have h := flatten_agrees_with_assembly (p := hiddenLoop) (t := hiddenTwice) rfl rfl ⟨0, 3⟩
  exact ⟨rfl, _, rfl, h.1, rfl, h.2.2.1.mp ⟨_, rfl⟩⟩

end CaptureTree
