import CaptureTree.Proofs.Compilation
import CaptureTree.Proofs.Legibility

/-!
# Names lead to the same value by every way

A name can be looked up in two places.  A match looks it up among the captures, and then takes the
result of the capture with this number, in its flat shape.  The view of the whole value looks for a
slot with this label, right at the top: among the members of a product, or in the slot itself if it
is no product.

The two agree where both find something.  A slot at the top that has a label is the leaf of a
capture, whose path ends there (`Regex.Compiled.exists_capture_of_follow`), and no other capture
carries the name.  What the view finds in the slot is what the path cuts out of the value, and this
is the result of the capture.  Its flat shape has no layers, because the path passes no quantifier,
so that it is the same leaf.

Captures inside loops, branches or other captures have results under their names, too, but the
view of the whole does not find them.
-/

namespace CaptureTree

/-! ## Paths and numbers -/

/-- A step is known by the slot that it leaves from and the number of the child. -/
theorem Step.eq_of_kind_eq {a b : Step} (hkind : a.kind = b.kind) (hindex : a.index = b.index) :
    a = b := by
  cases a with
  | member i =>
    cases b with
    | member j => exact congrArg member hindex
    | branch | each | inner => cases hkind
  | branch i =>
    cases b with
    | branch j => exact congrArg branch hindex
    | member | each | inner => cases hkind
  | each =>
    cases b with
    | each => rfl
    | member | branch | inner => cases hkind
  | inner =>
    cases b with
    | inner => rfl
    | member | branch | each => cases hkind

/-- **A path through a shape is known by its numbers.** -/
theorem Shape.path_unique {s u u' : Shape} {path path' : SlotPath} (h : s.follow path = some u)
    (h' : s.follow path' = some u') (hindex : path.map Step.index = path'.map Step.index) :
    path = path' := by
  induction path generalizing s path' with
  | nil => exact (List.map_eq_nil_iff.mp hindex.symm).symm
  | cons step path ih =>
    cases path' with
    | nil => cases hindex
    | cons step' path' =>
      rw [List.map_cons, List.map_cons, List.cons.injEq] at hindex
      rw [follow] at h h'
      split at h
      · rename_i hkind
        split at h'
        · rename_i hkind'
          obtain rfl := Step.eq_of_kind_eq (hkind.symm.trans hkind') hindex.1
          obtain ⟨child, hchild, h⟩ := Option.bind_eq_some_iff.mp h
          rw [hchild] at h'
          rw [ih h h' hindex.2]
        · cases h'
      · cases h

/-! ## Labels at the top -/

/-- **Does a path lead to the whole**, or to a member of it? -/
def AtTop (path : SlotPath) : Prop :=
  path = [] ∨ ∃ i, path = [.member i]

/-- A slot with a label is the leaf of a capture with this name. -/
theorem Shape.label_eq_some {s : Shape} {name : String} :
    s.label = some name ↔ ∃ c, s = .leaf (some c) ∧ c.name = some name := by
  constructor
  · intro h
    cases s with
    | leaf o =>
      obtain ⟨c, rfl, hname⟩ := Option.bind_eq_some_iff.mp h
      exact ⟨c, rfl, hname⟩
    | empty | product | sum | repeated | opt => cases h
  · rintro ⟨c, rfl, hname⟩
    exact hname

/-- **What a view answers to a label.**  If there is a leaf with this label at the top, it is found,
with what the path to it cuts out of the value.  Otherwise the label is unknown. -/
theorem View.member_cases {w : View} (h : Value.Conforms w.shape w.value) (name : String) :
    (∃ path c v, AtTop path ∧ w.shape.follow path = some (.leaf (some c)) ∧
        Located.name c = some name ∧ Value.project path w.shape w.value = .ok v ∧
        w.member name = .ok { shape := .leaf (some c), value := v, input := w.input }) ∨
      (∀ path c, AtTop path → w.shape.follow path = some (.leaf (some c)) →
        Located.name c ≠ some name) ∧ w.member name = .error (.lookup (.unknownName name)) := by
  obtain ⟨shape, value, input⟩ := w
  cases h with
  | @leaf o _ hkind hchildren =>
    by_cases hlabel : (Shape.leaf o).label = some name
    · obtain ⟨c, hleaf, hname⟩ := Shape.label_eq_some.mp hlabel
      obtain rfl := Shape.leaf.inj hleaf
      exact .inl ⟨[], c, value, .inl rfl, rfl, hname, Value.project_nil hkind, if_pos hlabel⟩
    · refine .inr ⟨?_, if_neg hlabel⟩
      rintro path c (rfl | ⟨i, rfl⟩) hfollow hname
      · obtain rfl := Shape.leaf.inj (Option.some.inj hfollow)
        exact hlabel hname
      · cases hfollow
  | @product o ss _ hkind hlength hmembers =>
    have hall : List.Forall₂ Value.Conforms ss value.children :=
      List.forall₂_iff_zip.mpr ⟨hlength, fun hpair => hmembers _ hpair⟩
    cases hfind : ss.findIdx? fun s => s.label == some name with
    | some i =>
      obtain ⟨hi, hlabel, -⟩ := List.findIdx?_eq_some_iff_getElem.mp hfind
      obtain ⟨c, hleaf, hname⟩ := Shape.label_eq_some.mp (beq_iff_eq.mp hlabel)
      have hs : ss[i]? = some (.leaf (some c)) := by rw [List.getElem?_eq_getElem hi, hleaf]
      obtain ⟨v, hv, hconforms⟩ := exists_getElem?_of_forall₂ hall hs
      have hproject : Value.project [.member i] (.product o ss) value = .ok v := by
        rw [Value.project_member hkind hs hv]
        cases hconforms with
        | leaf hleaf => exact Value.project_nil hleaf
      refine .inl ⟨[.member i], c, v, .inr ⟨i, rfl⟩, Shape.follow_cons rfl hs, hname, hproject, ?_⟩
      simp only [member, hfind, item, hs, hv]
    | none =>
      refine .inr ⟨?_, by simp only [member, hfind]⟩
      rintro path c (rfl | ⟨i, rfl⟩) hfollow hname
      · cases hfollow
      · obtain ⟨s, hs, hleaf⟩ := Option.bind_eq_some_iff.mp (show ss[i]?.bind _ = _ from hfollow)
        obtain rfl := Option.some.inj hleaf
        have hnone := List.findIdx?_eq_none_iff.mp hfind _ (List.mem_of_getElem? hs)
        exact bne_iff_ne.mp (congrArg not hnone) hname
  | empty | sum | repeated | opt =>
    refine .inr ⟨?_, rfl⟩
    rintro path c (rfl | ⟨i, rfl⟩) hfollow
    · cases hfollow
    · cases hfollow

/-! ## The captures of a compiled pattern -/

namespace Regex

variable {p : Pattern} {r : Regex} {w : Bytes} {t : Trace} {whole : Span} {m : Match} {k : Nat}
  {c : CaptureInfo} {name : String}

/-- A leaf at the end of a path is that of the capture with this path. -/
theorem Compiled.exists_capture_of_follow (h : r.Compiled) {path : SlotPath} {a : Located}
    (hfollow : r.shape.follow path = some (.leaf (some a))) :
    ∃ k c, r.capture k = .ok c ∧ c.node = a ∧ c.path = some path := by
  rw [h.shape] at hfollow
  have hslot := Shape.slotAt_of_follow hfollow
  obtain ⟨c, ⟨hc, path', hpath', hindex⟩, -⟩ :=
    CaptureInfo.existsUnique_of_slotAt h.wellFormed h.distinct hslot
  obtain ⟨qs, -, -, hroute⟩ := CaptureInfo.exists_route h.wellFormed h.distinct hc
  have hfollow' := (hroute path' hpath').follow_eq
  obtain rfl := Shape.path_unique hfollow' hfollow hindex
  rw [hfollow'] at hfollow
  obtain rfl := Option.some.inj (Shape.leaf.inj (Option.some.inj hfollow))
  rw [← h.shape, ← h.captures] at hc
  obtain ⟨i, hi⟩ := List.mem_iff_getElem?.mp hc
  exact ⟨i + 1, c, capture_eq_ok.mpr ⟨i, rfl, hi⟩, rfl, hpath'⟩

/-- The number of a name is that of the capture that carries it. -/
theorem indexOf?_of_capture (h : compile p = .ok r) (hc : r.capture k = .ok c)
    (hname : c.name = some name) : r.indexOf? name = some k := by
  obtain ⟨hcompiled, hpattern⟩ := compiled_of_compile h
  obtain ⟨i, rfl, hi⟩ := capture_eq_ok.mp hc
  rw [hcompiled.captures, hpattern] at hi
  exact (indexOf?_eq_some_iff h).mpr ⟨i, c.node, rfl, (CaptureInfo.of_getElem?_table hi).2, hname⟩

/-- No two captures carry the same name. -/
theorem capture_unique (h : compile p = .ok r) {j : Nat} {b : CaptureInfo}
    (hb : r.capture j = .ok b) (hbname : b.name = some name) (hc : r.capture k = .ok c)
    (hname : c.name = some name) : j = k ∧ b = c := by
  have hindex := indexOf?_of_capture h hb hbname
  rw [indexOf?_of_capture h hc hname] at hindex
  obtain rfl := Option.some.inj hindex
  exact ⟨rfl, Except.ok.inj (hb.symm.trans hc)⟩

/-- At the top a flat shape is the leaf alone. -/
theorem Compiled.flat_of_atTop (h : r.Compiled) (hc : r.capture k = .ok c) {path : SlotPath}
    (hpath : path ∈ c.path) (htop : AtTop path) : c.flat = .leaf (some c.node) := by
  obtain ⟨qs, -, hflat, hroute⟩ := h.exists_route (mem_captures_of_capture hc)
  have hloops := (hroute path hpath).loopsAlong_eq
  have hnone : (Shape.infer r.pattern).loopsAlong path = [] := by
    rcases htop with rfl | ⟨i, rfl⟩
    · rfl
    · rw [Shape.loopsAlong]
      cases (Shape.infer r.pattern).children[(Step.member i).index]? <;> rfl
  rw [hnone] at hloops
  rw [hflat, List.map_eq_nil_iff.mp hloops.symm]
  rfl

end Regex

/-! ## Looking a name up -/

/-- **Do all ways from a name and a number lead to the same result?**  The result is in the flat
shape of the capture, and the leaf inside it has the name. -/
structure Match.Reaches (m : Match) (k : Nat) (c : CaptureInfo) (name : String) (v : Value) :
    Prop where
  get : m.get k = .ok v
  named : m.named name = .ok v
  view : m.view k = .ok { shape := c.flat, value := v, input := m.input }
  viewNamed : m.viewNamed name = .ok { shape := c.flat, value := v, input := m.input }
  shape : m.shape k = .ok c.flat
  leaf : c.flat.core = .leaf (some c.node)
  label : c.flat.core.label = some name

namespace Regex

variable {p : Pattern} {r : Regex} {w : Bytes} {t : Trace} {whole : Span} {m : Match} {k : Nat}
  {c : CaptureInfo} {name : String}

theorem root_of_evaluate (hm : r.evaluate whole t w = .ok m) :
    m.regex = r ∧ m.root = { shape := r.shape, value := m.value, input := w } := by
  obtain ⟨-, -, v, -, flat, -, rfl⟩ := evaluate_eq_ok.mp hm
  exact ⟨rfl, rfl⟩

/-- **Every named capture is reached by its name and by its number.** -/
theorem exists_reaches (h : compile p = .ok r) (hm : r.evaluate whole t w = .ok m)
    (hc : r.capture k = .ok c) (hname : c.name = some name) :
    ∃ v, m.Reaches k c name v ∧ Value.result r.shape m.value t c = .ok v := by
  obtain ⟨hcompiled, -⟩ := compiled_of_compile h
  obtain ⟨v, hget, hresult⟩ := exists_get_of_evaluate hm hc
  have hindex := indexOf?_of_capture h hc hname
  obtain ⟨qs, -, hflat, -⟩ := hcompiled.exists_route (mem_captures_of_capture hc)
  obtain ⟨i, rfl, hi⟩ := capture_eq_ok.mp hc
  have hcore : c.flat.core = .leaf (some c.node) := by rw [hflat, Shape.core_flat]
  have hnamed : m.named name = .ok v := by
    rw [named_of_evaluate hm, hindex]
    exact hget
  obtain ⟨hregex, -⟩ := root_of_evaluate hm
  have hshape : m.shape (i + 1) = .ok c.flat := by
    simp only [Match.shape, hget, hregex, hi]
    rfl
  have hview : m.view (i + 1) = .ok { shape := c.flat, value := v, input := m.input } := by
    rw [Match.view, hshape, hget]
    rfl
  have hviewNamed : m.viewNamed name = m.view (i + 1) := by
    rw [Match.viewNamed, Match.lookup, hregex, require, hindex]
    rfl
  refine ⟨v, ⟨hget, hnamed, hview, hviewNamed.trans hview, hshape, hcore, ?_⟩, hresult⟩
  rw [hcore]
  exact hname

/-- **What the view of the whole answers to a label.**  It finds the result of the capture that
carries the label, if this is a slot at the top, and otherwise nothing. -/
theorem member_root_cases (h : compile p = .ok r) (hm : r.evaluate whole t w = .ok m)
    (label : String) :
    (∃ k c v, r.capture k = .ok c ∧ c.name = some label ∧ (∃ path ∈ c.path, AtTop path) ∧
        m.Reaches k c label v ∧ c.flat = .leaf (some c.node) ∧
        m.root.member label = .ok { shape := c.flat, value := v, input := m.input }) ∨
      (∀ k c, r.capture k = .ok c → c.name = some label → ∀ path ∈ c.path, ¬ AtTop path) ∧
        m.root.member label = .error (.lookup (.unknownName label)) := by
  obtain ⟨hcompiled, -⟩ := compiled_of_compile h
  obtain ⟨-, hroot⟩ := root_of_evaluate hm
  have hconforms : Value.Conforms m.root.shape m.root.value := (sound_root hm).1.conforms
  rcases View.member_cases hconforms label with
    ⟨path, a, v, htop, hfollow, hname, hproject, hmember⟩ | ⟨hnone, hunknown⟩
  · rw [hroot] at hfollow hproject
    obtain ⟨k, c, hc, rfl, hpath⟩ := hcompiled.exists_capture_of_follow hfollow
    obtain ⟨v', hreaches, hresult⟩ := exists_reaches h hm hc hname
    simp only [Value.result, hpath] at hresult
    obtain rfl := Except.ok.inj (hproject.symm.trans hresult)
    have hflat := hcompiled.flat_of_atTop hc hpath htop
    refine .inl ⟨k, c, v, hc, hname, ⟨path, hpath, htop⟩, hreaches, hflat, ?_⟩
    rw [hflat]
    exact hmember
  · refine .inr ⟨fun k c hc hname path hpath htop => ?_, hunknown⟩
    obtain ⟨qs, -, -, hroute⟩ := hcompiled.exists_route (mem_captures_of_capture hc)
    refine hnone path c.node htop ?_ hname
    rw [hroot, hcompiled.shape]
    exact (hroute path hpath).follow_eq

/-- The result of a capture at the top is a leaf, and its bytes can be read. -/
theorem Compiled.exists_bytes (h : r.Compiled) (hm : r.evaluate whole t w = .ok m)
    (hc : r.capture k = .ok c) {view : View} (hview : m.view k = .ok view)
    (hleaf : view.shape = .leaf (some c.node)) :
    view.value.kind = .leaf ∧ ∃ b, view.bytes = .ok b := by
  obtain ⟨i, rfl, hi⟩ := capture_eq_ok.mp hc
  obtain ⟨view', hview', hsound, -⟩ := h.sound_view_succ hm hi
  obtain rfl := Except.ok.inj (hview'.symm.trans hview)
  have hconforms := hsound.conforms
  obtain ⟨s, -, hbytes, -⟩ := hsound.span_and_bytes (hleaf ▸ rfl)
  rw [hleaf] at hconforms
  cases hconforms with
  | leaf hkind => exact ⟨hkind, _, hbytes⟩

/-- **Is this a match that the compiled pattern gives for an input**, be it found by matching or
searching, or evaluated from the trace of any engine? -/
inductive Gives (r : Regex) (w : Bytes) (m : Match) : Prop
  | evaluated {whole : Span} {t : Trace} (h : r.evaluate whole t w = .ok m)
  | matched (h : r.match? w = .ok (some m))
  | searched (h : r.search? w = .ok (some m))

theorem Gives.exists_evaluate (h : r.Gives w m) :
    ∃ whole t, r.evaluate whole t w = .ok m := by
  cases h with
  | evaluated h => exact ⟨_, _, h⟩
  | matched h => exact exists_trace_of_found (.inl h)
  | searched h => exact exists_trace_of_found (.inr h)

/-- **Names lead to the same value by every way.**  In every match of a compiled pattern:

* every named capture, wherever it is, has a result that is the same under its name and under its
  number, as a value and as a view, and its shape is the flat shape of the capture, with the name
  on its leaf;
* the view of the whole finds a label if and only if a capture carries it whose path is empty or
  goes to a member;
* it then finds the same view as the name and the number of this capture, which is a leaf, and its
  bytes can be read;
* every other label is unknown to it. -/
theorem names_lead_to_same_value (h : compile p = .ok r) (hm : r.Gives w m) :
    (∀ k c name, r.capture k = .ok c → c.name = some name → ∃ v, m.Reaches k c name v) ∧
      ∀ label,
        ((∃ view, m.root.member label = .ok view) ↔
          ∃ k c, r.capture k = .ok c ∧ c.name = some label ∧ ∃ path ∈ c.path, AtTop path) ∧
        (∀ k c, r.capture k = .ok c → c.name = some label → (∃ path ∈ c.path, AtTop path) →
          ∃ view b, m.Reaches k c label view.value ∧ m.root.member label = .ok view ∧
            m.viewNamed label = .ok view ∧ m.view k = .ok view ∧
            view.shape = .leaf (some c.node) ∧ view.value.kind = .leaf ∧ view.bytes = .ok b) ∧
        ((∀ k c, r.capture k = .ok c → c.name = some label → ∀ path ∈ c.path, ¬ AtTop path) →
          m.root.member label = .error (.lookup (.unknownName label))) := by
  obtain ⟨hcompiled, -⟩ := compiled_of_compile h
  obtain ⟨whole, t, hm⟩ := hm.exists_evaluate
  refine ⟨fun k c name hc hname => ?_, fun label => ?_⟩
  · obtain ⟨v, hreaches, -⟩ := exists_reaches h hm hc hname
    exact ⟨v, hreaches⟩
  rcases member_root_cases h hm label with
    ⟨k, c, v, hc, hname, htop, hreaches, hflat, hmember⟩ | ⟨hnone, hunknown⟩
  · refine ⟨iff_of_true ⟨_, hmember⟩ ⟨k, c, hc, hname, htop⟩, fun k' c' hc' hname' _ => ?_,
      fun hnone => ?_⟩
    · obtain ⟨rfl, rfl⟩ := capture_unique h hc hname hc' hname'
      obtain ⟨hkind, b, hbytes⟩ := hcompiled.exists_bytes hm hc hreaches.view hflat
      exact ⟨_, b, hreaches, hmember, hreaches.viewNamed, hreaches.view, hflat, hkind, hbytes⟩
    · obtain ⟨path, hpath, htop⟩ := htop
      exact absurd htop (hnone k c hc hname path hpath)
  · refine ⟨iff_of_false (fun hview => ?_) ?_, fun k c hc hname htop => ?_, fun _ => hunknown⟩
    · obtain ⟨view, hview⟩ := hview
      rw [hunknown] at hview
      cases hview
    · rintro ⟨k, c, hc, hname, path, hpath, htop⟩
      exact hnone k c hc hname path hpath htop
    · obtain ⟨path, hpath, htop⟩ := htop
      exact absurd htop (hnone k c hc hname path hpath)

/-- A capture with another one inside it, and a loop around a third. -/
def threeNames : Pattern :=
  .concat [((Pattern.exact [0x61]).capture "inner").capture "outer",
    ((Pattern.exact [0x62]).capture "many").plus]

/-- A match of `abb`. -/
def threeNamesRun : Trace :=
  [.span 1 ⟨0, 1⟩, .span 2 ⟨0, 1⟩, .iteration 4 [.span 5 ⟨1, 2⟩], .iteration 4 [.span 5 ⟨2, 3⟩]]

theorem names_lead_to_same_value_threeNames :
    ∃ r m, compile threeNames = .ok r ∧ r.Gives [0x61, 0x62, 0x62] m ∧
      (∃ view, m.root.member "outer" = .ok view ∧ m.named "outer" = .ok view.value ∧
        m.view 1 = .ok view ∧ ∃ b, view.bytes = .ok b) ∧
      m.root.member "inner" = .error (.lookup (.unknownName "inner")) ∧
      m.root.member "many" = .error (.lookup (.unknownName "many")) ∧
      (∃ c v, r.capture 2 = .ok c ∧ m.Reaches 2 c "inner" v) ∧
      ∃ c v, r.capture 3 = .ok c ∧ m.Reaches 3 c "many" v := by
  obtain ⟨r, hr⟩ : ∃ r, compile threeNames = .ok r := ⟨_, rfl⟩
  obtain ⟨m, hm⟩ : ∃ m, r.evaluate ⟨0, 3⟩ threeNamesRun [0x61, 0x62, 0x62] = .ok m := by
    obtain rfl := Except.ok.inj hr
    exact ⟨_, rfl⟩
  obtain ⟨hreaches, hroot⟩ := names_lead_to_same_value hr (.evaluated hm)
  have houter : ∃ c, r.capture 1 = .ok c ∧ c.name = some "outer" ∧ c.path = some [.member 0] := by
    obtain rfl := Except.ok.inj hr
    exact ⟨_, rfl, rfl, rfl⟩
  have hinner : ∃ c, r.capture 2 = .ok c ∧ c.name = some "inner" ∧ c.path = none := by
    obtain rfl := Except.ok.inj hr
    exact ⟨_, rfl, rfl, rfl⟩
  have hmany : ∃ c, r.capture 3 = .ok c ∧ c.name = some "many" ∧
      c.path = some [.member 1, .each] := by
    obtain rfl := Except.ok.inj hr
    exact ⟨_, rfl, rfl, rfl⟩
  refine ⟨r, m, hr, .evaluated hm, ?_, ?_, ?_, ?_, ?_⟩
  · obtain ⟨c, hc, hname, hpath⟩ := houter
    obtain ⟨view, b, hreaches, hmember, -, hview, -, -, hbytes⟩ :=
      (hroot "outer").2.1 1 c hc hname ⟨_, hpath, .inr ⟨0, rfl⟩⟩
    exact ⟨view, hmember, hreaches.named, hview, b, hbytes⟩
  · obtain ⟨b, hb, hbname, hbpath⟩ := hinner
    refine (hroot "inner").2.2 fun k c hc hname path hpath => ?_
    rw [← (capture_unique hr hb hbname hc hname).2, hbpath] at hpath
    cases hpath
  · obtain ⟨b, hb, hbname, hbpath⟩ := hmany
    refine (hroot "many").2.2 fun k c hc hname path hpath htop => ?_
    rw [← (capture_unique hr hb hbname hc hname).2, hbpath] at hpath
    obtain rfl := Option.some.inj hpath
    rcases htop with hnil | ⟨i, hmember⟩
    · cases hnil
    · cases hmember
  · obtain ⟨c, hc, hname, -⟩ := hinner
    obtain ⟨v, hv⟩ := hreaches 2 c "inner" hc hname
    exact ⟨c, v, hc, hv⟩
  · obtain ⟨c, hc, hname, -⟩ := hmany
    obtain ⟨v, hv⟩ := hreaches 3 c "many" hc hname
    exact ⟨c, v, hc, hv⟩

end Regex

end CaptureTree
