import CaptureTree.Proofs.Numbering
import CaptureTree.Proofs.Value.Conforms

/-!
# How far results conform, whatever they are made from

A trace may hold anything, and a value tree may be of any form.  What assembling returns conforms
to its shape nevertheless.  Flattening trusts the value tree in two places, and apart from these its
results conform as well.

For assembling this is `Value.conforms_of_assemble`.  Projection walks down a shape and a value
side by side and checks the kind of every value on its path, but it returns what it finds at the
end of the path as it is.  So its result has the kinds of the flat shape
(`Located.Route.inKind_of_project`), and it conforms to it in full unless the value tree has
something below one of its leaves: `Value.conforms_iff` says that this is the difference between
the two.

On its way projection believes a slot that says it holds a value.  If the slot holds none
(`Value.Hollow`), there is no telling what happens (`Located.Route.hollow_of_project`).
-/

namespace CaptureTree

namespace Value

variable {s : Shape} {u v w : Value} {q c : Located} {qs : List Located} {path : SlotPath}

/-! ## Kinds alone -/

/-- **Has the value the kinds that the shape describes?**  What is below a leaf or an empty slot
does not matter, because the shape has nothing there. -/
inductive InKind : Shape → Value → Prop
  | empty {v : Value} (kind : v.kind = .empty) : InKind .empty v
  | leaf {o : Option Located} {v : Value} (kind : v.kind = .leaf) : InKind (.leaf o) v
  | product {o : Located} {ss : List Shape} {v : Value} (kind : v.kind = .product)
      (length : ss.length = v.children.length)
      (members : ∀ pair ∈ ss.zip v.children, InKind pair.1 pair.2) : InKind (.product o ss) v
  | sum {o : Located} {ss : List Shape} {s : Shape} {v w : Value} (kind : v.kind = .sum)
      (branch : ss[v.selected]? = some s) (children : v.children = [w]) (inside : InKind s w) :
      InKind (.sum o ss) v
  | repeated {o : Located} {s : Shape} {v : Value} (kind : v.kind = .repeated)
      (items : ∀ w ∈ v.children, InKind s w) : InKind (.repeated o s) v
  | opt {o : Located} {s : Shape} {v : Value} (kind : v.kind = .opt)
      (once : v.children.length ≤ 1) (present : v.present = !v.children.isEmpty)
      (inner : ∀ w ∈ v.children, InKind s w) : InKind (.opt o s) v

/-- Is there nothing below the leaves and the empty slots of a value? -/
def Bare (v : Value) : Prop :=
  ∀ w ∈ v.subtrees, kind w = .leaf ∨ kind w = .empty → w.children = []

theorem bare_iff :
    v.Bare ↔ (v.kind = .leaf ∨ v.kind = .empty → v.children = []) ∧ ∀ w ∈ v.children, Bare w := by
  rw [Bare, Tree.subtrees_eq, List.forall_mem_cons]
  refine and_congr_right fun _ => ?_
  simp only [List.mem_flatMap, Bare]
  constructor
  · exact fun h w hw x hx => h x ⟨w, hw, hx⟩
  · rintro h x ⟨w, hw, hx⟩
    exact h w hw x hx

/-- **Is there a slot that says it holds a value and holds none?** -/
def Hollow (v : Value) : Prop :=
  ∃ w ∈ v.subtrees, kind w = .opt ∧ present w = true ∧ w.children = []

theorem Hollow.of_child (hw : w ∈ v.children) (h : w.Hollow) : v.Hollow := by
  obtain ⟨x, hx, hhollow⟩ := h
  exact ⟨x, Tree.mem_subtrees_of_mem_children hw hx, hhollow⟩

/-- Any other value is bare if its children are. -/
theorem bare_of_children (hleaf : v.kind ≠ .leaf) (hempty : v.kind ≠ .empty)
    (h : ∀ w ∈ v.children, Bare w) : v.Bare :=
  bare_iff.mpr ⟨fun hk => (hk.elim hleaf hempty).elim, h⟩

theorem Bare.child (h : v.Bare) (hw : w ∈ v.children) : w.Bare :=
  (bare_iff.mp h).2 w hw

theorem Conforms.inKind (h : Conforms s v) : InKind s v := by
  induction h with
  | empty hk => exact .empty hk
  | leaf hk => exact .leaf hk
  | product hk hlength _ ih => exact .product hk hlength ih
  | sum hk hbranch hc _ ih => exact .sum hk hbranch hc ih
  | repeated hk _ ih => exact .repeated hk ih
  | opt hk honce hflag _ ih => exact .opt hk honce hflag ih

theorem Conforms.bare (h : Conforms s v) : v.Bare := by
  induction h with
  | empty _ hc | leaf _ hc =>
    refine bare_iff.mpr ⟨fun _ => hc, fun w hw => ?_⟩
    rw [hc] at hw
    exact absurd hw List.not_mem_nil
  | product hk hlength _ ih =>
    refine bare_of_children (by rw [hk]; decide) (by rw [hk]; decide) fun w hw => ?_
    obtain ⟨s, -, hbare⟩ :=
      exists_mem_of_forall₂ (List.forall₂_iff_zip.mpr ⟨hlength, fun hpair => ih _ hpair⟩) hw
    exact hbare
  | sum hk _ hc _ ih =>
    refine bare_of_children (by rw [hk]; decide) (by rw [hk]; decide) fun w hw => ?_
    rw [hc, List.mem_singleton] at hw
    rw [hw]
    exact ih
  | repeated hk _ ih | opt hk _ _ _ ih =>
    exact bare_of_children (by rw [hk]; decide) (by rw [hk]; decide) ih

theorem InKind.conforms (h : InKind s v) (hbare : v.Bare) : Conforms s v := by
  induction h with
  | empty hk => exact .empty hk ((bare_iff.mp hbare).1 (.inr hk))
  | leaf hk => exact .leaf hk ((bare_iff.mp hbare).1 (.inl hk))
  | product hk hlength _ ih =>
    exact .product hk hlength fun pair hpair =>
      ih pair hpair (hbare.child (List.of_mem_zip hpair).2)
  | sum hk hbranch hc _ ih =>
    exact .sum hk hbranch hc (ih (hbare.child (hc ▸ List.mem_singleton_self _)))
  | repeated hk _ ih => exact .repeated hk fun w hw => ih w hw (hbare.child hw)
  | opt hk honce hflag _ ih => exact .opt hk honce hflag fun w hw => ih w hw (hbare.child hw)

/-- **A value conforms if its kinds do** and nothing is below its leaves. -/
theorem conforms_iff : Conforms s v ↔ InKind s v ∧ v.Bare :=
  ⟨fun h => ⟨h.inKind, h.bare⟩, fun h => h.1.conforms h.2⟩

/-! ## Slots of quantifiers -/

theorem InKind.loop {ws : List Value} (hlength : q.bounds.isOptional = true → ws.length ≤ 1)
    (h : ∀ w ∈ ws, InKind s w) : InKind (.loop q s) (ofItems q ws) := by
  rw [Shape.loop, ofItems]
  cases ho : q.bounds.isOptional with
  | false => exact .repeated rfl h
  | true => exact .opt rfl (hlength ho) rfl h

theorem bare_ofItems {ws : List Value} (h : ∀ w ∈ ws, Bare w) : (ofItems q ws).Bare := by
  refine bare_of_children (v := ofItems q ws) ?_ ?_ h
  all_goals
    show (if q.bounds.isOptional then SlotKind.opt else .repeated) ≠ _
    split <;> decide

/-- The empty result has the form of the flat shape. -/
theorem conforms_absentFlat (qs : List Located) (c : Located) :
    Conforms (.flat qs c) (absentFlat qs) := by
  refine conforms_iff.mpr ?_
  cases qs with
  | nil => exact ⟨.leaf rfl, (Conforms.leaf (o := none) rfl rfl).bare⟩
  | cons q qs =>
    exact ⟨.loop (fun _ => Nat.zero_le 1) fun w hw => absurd hw List.not_mem_nil,
      bare_ofItems fun w hw => absurd hw List.not_mem_nil⟩

/-- **Projection goes through every item of the slot of a quantifier**, and for one that says at
most once there is at most one. -/
theorem exists_items_of_project
    (h : project (Shape.stepInto q :: path) (.loop q s) v = .ok u) :
    ∃ ws, u = ofItems q ws ∧ (q.bounds.isOptional = true → ws.length ≤ 1) ∧
      ∀ w ∈ ws, ∃ e ∈ v.children, project path s e = .ok w := by
  rw [Shape.stepInto, Shape.loop] at h
  cases ho : q.bounds.isOptional with
  | false =>
    rw [ho] at h
    simp only [Bool.false_eq_true, if_false, project, bind_eq_ok, pure_eq_ok, mapM_eq_ok] at h
    obtain ⟨-, -, ws, hall, rfl⟩ := h
    refine ⟨ws, ?_, fun hfalse => (Bool.false_ne_true hfalse).elim, fun w hw => ?_⟩
    · rw [ofItems, ho]
      rfl
    · obtain ⟨e, he, s', hs', hproject⟩ := exists_mem_of_forall₂ hall hw
      obtain rfl : s = s' := Except.ok.inj hs'
      exact ⟨e, he, hproject⟩
  | true =>
    rw [ho] at h
    simp only [if_true, project, bind_unit_eq_ok] at h
    obtain ⟨-, h⟩ := h
    split at h
    · simp only [bind_eq_ok, pure_eq_ok, firstUnchecked_eq_ok] at h
      obtain ⟨s', hs', e, he, w, hw, rfl⟩ := h
      obtain rfl : s = s' := Option.some.inj hs'
      refine ⟨[w], ?_, fun _ => le_rfl, fun w' hw' => ?_⟩
      · rw [ofItems, ho]
        rfl
      · rw [List.mem_singleton.mp hw']
        exact ⟨e, List.mem_of_getElem? he, hw⟩
    · rw [pure_eq_ok] at h
      refine ⟨[], ?_, fun _ => Nat.zero_le 1, fun w hw => absurd hw List.not_mem_nil⟩
      rw [← h, ofItems, ho]
      rfl

/-- Nothing but the inside of a slot is read without a check. -/
theorem expectKind_ne_undefined : expectKind s v ≠ .error .undefined := by
  intro h
  rw [expectKind] at h
  split at h <;> cases h

theorem slot_ne_undefined {i : Nat} : slot s i ≠ .error .undefined := by
  intro h
  rw [slot] at h
  cases hslot : s.children[i]? <;> rw [hslot] at h <;> cases h

theorem child_ne_undefined {i : Nat} : child v i ≠ .error .undefined := by
  intro h
  rw [child] at h
  cases hchild : v.children[i]? <;> rw [hchild] at h <;> cases h

/-- **Where projection into the slot of a quantifier goes wrong**, the slot is hollow, or it does so
in one of the items. -/
theorem hollow_or_item_of_project
    (h : project (Shape.stepInto q :: path) (.loop q s) v = .error .undefined) :
    v.Hollow ∨ ∃ e ∈ v.children, project path s e = .error .undefined := by
  rw [Shape.stepInto, Shape.loop] at h
  cases ho : q.bounds.isOptional with
  | false =>
    rw [ho] at h
    simp only [Bool.false_eq_true, if_false, project, bind_eq_error, expectKind_ne_undefined,
      false_or] at h
    obtain ⟨-, -, hitems | ⟨ws, -, hws⟩⟩ := h
    · obtain ⟨before, e, after, hchildren, -, he⟩ := mapM_eq_error.mp hitems
      refine .inr ⟨e, hchildren ▸ List.mem_append_right _ List.mem_cons_self, ?_⟩
      exact he
    · cases hws
  | true =>
    rw [ho] at h
    simp only [if_true, project, bind_eq_error, expectKind_ne_undefined, false_or] at h
    obtain ⟨⟨⟩, hkind, h⟩ := h
    split at h
    · rename_i hpresent
      simp only [bind_eq_error, firstUnchecked_eq_error] at h
      rcases h with ⟨hnone, -⟩ | ⟨s', hs', ⟨hchildren, -⟩ | ⟨e, he, hproject | ⟨w, -, hw⟩⟩⟩
      · cases hnone
      · exact .inl ⟨v, Tree.mem_subtrees_self v, (expectKind_eq_ok.mp hkind).symm, hpresent,
          hchildren⟩
      · obtain rfl : s = s' := Except.ok.inj hs'
        exact .inr ⟨e, List.mem_of_getElem? (firstUnchecked_eq_ok.mp he), hproject⟩
      · cases hw
    · cases h

theorem exists_result_of_flatten_error {whole : Span} {captures : List CaptureInfo} {t : Trace}
    {e : ReadError} (h : flatten whole s v captures t = .error e) :
    ∃ c ∈ captures, result s v t c = .error e := by
  rcases bind_eq_error.mp h with h | ⟨rs, -, hrs⟩
  · obtain ⟨before, c, after, rfl, -, hc⟩ := mapM_eq_error.mp h
    exact ⟨c, List.mem_append_right _ List.mem_cons_self, hc⟩
  · cases hrs

end Value

namespace Located

variable {p c : Located} {qs : List Located} {path : SlotPath} {u v : Value}

/-- **Projection returns a value of the flat shape**, whatever it is cut out of, less what was
below a leaf before. -/
theorem Route.inKind_of_project (h : Route p qs c path)
    (hu : Value.project path (.infer p) v = .ok u) :
    Value.InKind (.flat qs c) u ∧ (v.Bare → u.Bare) := by
  induction h generalizing v u with
  | @capture p hk =>
    rw [Shape.infer_capture hk, Value.project, bind_unit_eq_ok, Value.expectKind_eq_ok,
      pure_eq_ok] at hu
    obtain ⟨hkind, rfl⟩ := hu
    exact ⟨.leaf hkind.symm, fun hbare => hbare⟩
  | group hk hc _ ih =>
    rw [Shape.infer_group hk hc] at hu
    exact ih hu
  | only _ _ hshape _ ih =>
    rw [hshape] at hu
    exact ih hu
  | @member p q c qs path ss i _ _ hshape hslot _ ih =>
    simp only [hshape, Value.project, bind_eq_ok, Value.slot_eq_ok, Value.child_eq_ok] at hu
    obtain ⟨-, -, s', hs', w, hw, hproject⟩ := hu
    obtain rfl : s' = Shape.infer q := Option.some.inj (hs'.symm.trans hslot)
    obtain ⟨hkind, hbare⟩ := ih hproject
    exact ⟨hkind, fun hv => hbare (hv.child (List.mem_of_getElem? hw))⟩
  | @branch p q c qs path i _ hq hshape hinside ih =>
    rw [hshape, Value.project, bind_unit_eq_ok] at hu
    obtain ⟨-, hu⟩ := hu
    split at hu
    · simp only [bind_eq_ok, Value.slot_eq_ok, Value.child_eq_ok] at hu
      obtain ⟨s', hs', w, hw, hproject⟩ := hu
      obtain rfl : s' = Shape.infer q :=
        Option.some.inj (hs'.symm.trans (Shape.getElem?_map_infer hq))
      obtain ⟨hkind, hbare⟩ := ih hproject
      exact ⟨hkind, fun hv => hbare (hv.child (List.mem_of_getElem? hw))⟩
    · rw [pure_eq_ok, hinside.absentAlong_eq] at hu
      have habsent := Value.conforms_absentFlat qs c
      rw [hu] at habsent
      exact ⟨habsent.inKind, fun _ => habsent.bare⟩
  | @loop p q c qs path _ _ hshape _ ih =>
    rw [hshape] at hu
    obtain ⟨ws, rfl, hlength, hitems⟩ := Value.exists_items_of_project hu
    refine ⟨.loop hlength fun w hw => ?_, fun hv => Value.bare_ofItems fun w hw => ?_⟩
    · obtain ⟨e, -, hproject⟩ := hitems w hw
      exact (ih hproject).1
    · obtain ⟨e, he, hproject⟩ := hitems w hw
      exact (ih hproject).2 (hv.child he)

/-- **Projection reads something that is not there only in a hollow value tree.** -/
theorem Route.hollow_of_project (h : Route p qs c path)
    (hu : Value.project path (.infer p) v = .error .undefined) : v.Hollow := by
  induction h generalizing v with
  | capture hk =>
    rw [Value.project, bind_eq_error] at hu
    rcases hu with hkind | ⟨-, -, hv⟩
    · exact absurd hkind Value.expectKind_ne_undefined
    · cases hv
  | group hk hc _ ih =>
    rw [Shape.infer_group hk hc] at hu
    exact ih hu
  | only _ _ hshape _ ih =>
    rw [hshape] at hu
    exact ih hu
  | @member p q c qs path ss i _ _ hshape hslot _ ih =>
    simp only [hshape, Value.project, bind_eq_error, Value.expectKind_ne_undefined,
      Value.slot_ne_undefined, Value.child_ne_undefined, false_or] at hu
    obtain ⟨-, -, s', hs', w, hw, hproject⟩ := hu
    obtain rfl : s' = Shape.infer q := Option.some.inj ((Value.slot_eq_ok.mp hs').symm.trans hslot)
    exact (ih hproject).of_child (List.mem_of_getElem? (Value.child_eq_ok.mp hw))
  | @branch p q c qs path i _ hq hshape _ ih =>
    rw [hshape, Value.project] at hu
    simp only [bind_eq_error, Value.expectKind_ne_undefined, false_or] at hu
    obtain ⟨-, -, hu⟩ := hu
    split at hu
    · simp only [bind_eq_error, Value.slot_ne_undefined, Value.child_ne_undefined, false_or] at hu
      obtain ⟨s', hs', w, hw, hproject⟩ := hu
      obtain rfl : s' = Shape.infer q :=
        Option.some.inj ((Value.slot_eq_ok.mp hs').symm.trans (Shape.getElem?_map_infer hq))
      exact (ih hproject).of_child (List.mem_of_getElem? (Value.child_eq_ok.mp hw))
    · cases hu
  | @loop p q c qs path _ _ hshape _ ih =>
    rw [hshape] at hu
    rcases Value.hollow_or_item_of_project hu with hhollow | ⟨e, he, hproject⟩
    · exact hhollow
    · exact (ih hproject).of_child he

end Located

namespace Value

/-- The result of a capture has the kinds of its flat shape, whatever it is made from. -/
theorem inKind_of_result {p : Located} (hwell : p.WellFormed) (hd : p.Distinct) {c : CaptureInfo}
    (hc : c ∈ CaptureInfo.table p (.infer p)) {t : Trace} {u v : Value}
    (hu : result (.infer p) v t c = .ok u) : InKind c.flat u ∧ (v.Bare → Conforms c.flat u) := by
  obtain ⟨qs, -, hflat, hroute⟩ := CaptureInfo.exists_route hwell hd hc
  rw [result] at hu
  cases hpath : c.path with
  | none =>
    simp only [hpath] at hu
    have hconforms := conforms_of_assemble (mapError_eq_ok.mp hu)
    exact ⟨hconforms.inKind, fun _ => hconforms⟩
  | some path =>
    simp only [hpath] at hu
    obtain ⟨hkind, hbare⟩ := (hroute path hpath).inKind_of_project hu
    rw [hflat]
    exact ⟨hkind, fun hv => hkind.conforms (hbare hv)⟩

/-- Where a result is read without a check and is not there, the value tree is hollow. -/
theorem hollow_of_result {p : Located} (hwell : p.WellFormed) (hd : p.Distinct) {c : CaptureInfo}
    (hc : c ∈ CaptureInfo.table p (.infer p)) {t : Trace} {v : Value}
    (hu : result (.infer p) v t c = .error .undefined) : v.Hollow := by
  obtain ⟨qs, -, -, hroute⟩ := CaptureInfo.exists_route hwell hd hc
  rw [result] at hu
  cases hpath : c.path with
  | none =>
    simp only [hpath] at hu
    obtain ⟨e, -, he⟩ := mapError_eq_error.mp hu
    cases he
  | some path =>
    simp only [hpath] at hu
    exact (hroute path hpath).hollow_of_project hu

/-- **Results conform, as far as what they are made from does.**  For a pattern that validation
accepts, what assembling returns conforms to the shape, for any trace.  Flattening any value tree
with any trace raises an error or returns one result more than there are captures: the whole match,
and for every capture a value with the kinds of its flat shape, which conforms to it in full unless
something was below a leaf of the value tree.  Neither is certain for a hollow value tree: the
inside of a slot that says it has one is read without a check. -/
theorem results_conform {p : Pattern} (h : p.validate = .ok ()) (t : Trace) :
    (∀ v, assemble (.infer p.locate) t = .ok v → Conforms (.infer p.locate) v) ∧
      ∀ whole v,
        (∃ e ≠ .undefined, flatten whole (.infer p.locate) v
          (CaptureInfo.table p.locate (.infer p.locate)) t = .error e) ∨
        (flatten whole (.infer p.locate) v
          (CaptureInfo.table p.locate (.infer p.locate)) t = .error .undefined ∧ v.Hollow) ∨
        ∃ flat, flatten whole (.infer p.locate) v
            (CaptureInfo.table p.locate (.infer p.locate)) t = .ok flat ∧
          flat.length = p.locate.captures.length + 1 ∧ flat[0]? = some (leaf (some whole)) ∧
          ∀ i c, (CaptureInfo.table p.locate (.infer p.locate))[i]? = some c →
            ∃ u, flat[i + 1]? = some u ∧ InKind c.flat u ∧ (v.Bare → Conforms c.flat u) := by
  have hwell := Pattern.wellFormed_locate h
  refine ⟨fun v hv => conforms_of_assemble hv, fun whole v => ?_⟩
  cases hflat : flatten whole (.infer p.locate) v
      (CaptureInfo.table p.locate (.infer p.locate)) t with
  | error e =>
    by_cases he : e = .undefined
    · subst he
      obtain ⟨c, hc, hresult⟩ := exists_result_of_flatten_error hflat
      exact .inr (.inl ⟨rfl, hollow_of_result hwell p.distinct_locate hc hresult⟩)
    · exact .inl ⟨e, he, rfl⟩
  | ok flat =>
    obtain ⟨rs, hall, rfl⟩ := Regex.flatten_eq_ok.mp hflat
    refine .inr (.inr ⟨_, rfl, ?_, rfl, fun i c hc => ?_⟩)
    · rw [List.length_cons, ← hall.length_eq, ← CaptureInfo.map_node_table p.locate
        (.infer p.locate), List.length_map]
    · obtain ⟨u, hu, hresult⟩ := exists_getElem?_of_forall₂ hall hc
      refine ⟨u, by rwa [List.getElem?_cons_succ], ?_⟩
      exact inKind_of_result hwell p.distinct_locate (List.mem_of_getElem? hc) hresult

/-- A branch with a loop around a capture that hides another one, or a branch with a capture. -/
def loopOrCapture : Pattern :=
  .alternation [(Pattern.exact [0x61]).capture.capture.star, (Pattern.exact [0x62]).capture]

/-- A leaf with something below it. -/
def surplusLeaf : Value := .node { kind := .leaf, span := some ⟨0, 1⟩ } [empty]

/-- A value in which the second branch was taken, with surplus values beside it and below its
leaf. -/
def surplusValue : Value := .node { kind := .sum, selected := 1 } [surplusLeaf, empty]

theorem results_conform_surplusValue :
    loopOrCapture.validate = .ok () ∧
      flatten ⟨0, 1⟩ (.infer loopOrCapture.locate) surplusValue
          (CaptureInfo.table loopOrCapture.locate (.infer loopOrCapture.locate)) [.choice 0 7] =
        .ok [leaf (some ⟨0, 1⟩), repeated [], repeated [], surplusLeaf] ∧
      ∀ i c, (CaptureInfo.table loopOrCapture.locate
          (.infer loopOrCapture.locate))[i]? = some c →
        ∃ u, [leaf (some ⟨0, 1⟩), repeated [], repeated [], surplusLeaf][i + 1]? = some u ∧
          InKind c.flat u ∧ (surplusValue.Bare → Conforms c.flat u) := by
  have hvalid : loopOrCapture.validate = .ok () := rfl
  have hreturns : flatten ⟨0, 1⟩ (.infer loopOrCapture.locate) surplusValue
        (CaptureInfo.table loopOrCapture.locate (.infer loopOrCapture.locate)) [.choice 0 7] =
      .ok [leaf (some ⟨0, 1⟩), repeated [], repeated [], surplusLeaf] := rfl
  refine ⟨hvalid, hreturns, ?_⟩
  rcases (results_conform hvalid [.choice 0 7]).2 ⟨0, 1⟩ surplusValue with
    ⟨e, -, hraises⟩ | ⟨hundefined, -⟩ | ⟨flat, hflat, -, -, hall⟩
  · cases hreturns.symm.trans hraises
  · cases hreturns.symm.trans hundefined
  · obtain rfl := Except.ok.inj (hreturns.symm.trans hflat)
    exact hall

/-- A slot that says it holds a value and holds none. -/
def hollowValue : Value := .node { kind := .opt, present := true } []

/-- **Flattening trusts the value tree too far.**  A leaf with something below it is handed out as
the result of a capture, although it does not conform, and of a present slot the inside is read
although there is none. -/
theorem flatten_trusts_value :
    flatten ⟨0, 1⟩ (.infer (Pattern.exact [0x61]).capture.locate) surplusLeaf
        (CaptureInfo.table (Pattern.exact [0x61]).capture.locate
          (.infer (Pattern.exact [0x61]).capture.locate)) [] =
      .ok [leaf (some ⟨0, 1⟩), surplusLeaf] ∧
    (∀ o, ¬ Conforms (.leaf o) surplusLeaf) ∧
    flatten ⟨0, 1⟩ (.infer (Pattern.exact [0x61]).capture.optional.locate) hollowValue
        (CaptureInfo.table (Pattern.exact [0x61]).capture.optional.locate
          (.infer (Pattern.exact [0x61]).capture.optional.locate)) [] =
      .error .undefined := by
  refine ⟨rfl, fun o h => ?_, rfl⟩
  cases h with
  | leaf _ hchildren => cases hchildren

end Value

end CaptureTree
