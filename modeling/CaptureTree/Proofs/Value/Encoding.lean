import CaptureTree.Proofs.Value.Conforms

/-!
# The trace that spells a value

A value of a shape can be written down as a trace, by walking shape and value together: a
leaf that took part records its span, the members of a product write into the same frame,
a sum chooses its branch, and the slot of a quantifier opens one frame for every item.
`Value.encode` does so for any value, whether or not it conforms to the shape.

For the shape of a pattern this is a walk through the pattern.  `Value.Along` has one case
for every way in which a node contributes to a value, and all that is said about encodings
is proved by induction over it.

In an encoding the parts of a pattern do not get into each other's way.  The members of a
sequence record for nodes of their own (`Value.agreeOn_encodeAll`), a branch that was not
selected is not touched (`Value.rows_of_branch`), and nothing of the body of a loop stands
beside its frames (`Value.rows_of_loop`).
-/

namespace CaptureTree

open Located

/-! ## Writing -/

namespace Value

mutual
/-- **The trace that spells a value**, written by walking shape and value together. -/
def encode : Shape → Value → Trace
  | .empty, _ => []
  | .leaf none, _ => []
  | .leaf (some c), v => v.span.toList.map (.span c.id)
  | .product _ ss, v => encodeAll ss v.children
  | .sum a ss, v => .choice a.id v.selected :: encodeBranch ss v.selected v.children
  | .repeated q s, v => v.children.map fun w => .iteration q.id (encode s w)
  | .opt q s, v => v.children.map fun w => .iteration q.id (encode s w)

/-- The members of a product, written into the same frame. -/
def encodeAll : List Shape → List Value → Trace
  | s :: ss, v :: vs => encode s v ++ encodeAll ss vs
  | _, _ => []

/-- The value of branch `i` of a sum. -/
def encodeBranch : List Shape → Nat → List Value → Trace
  | s :: _, 0, v :: _ => encode s v
  | _ :: ss, i + 1, vs => encodeBranch ss i vs
  | _, _, _ => []
end

variable {p q : Located} {s : Shape} {ss : List Shape} {v w : Value} {t : Trace} {r : Record}

theorem encode_loop (q : Located) (s : Shape) (v : Value) :
    encode (.loop q s) v = v.children.map fun w => .iteration q.id (encode s w) := by
  rw [Shape.loop]
  split
  · rw [encode]
  · rw [encode]

theorem encodeBranch_eq {i : Nat} (h : ss[i]? = some s) (vs : List Value) :
    encodeBranch ss i (v :: vs) = encode s v := by
  induction ss generalizing i with
  | nil => cases h
  | cons s' ss ih =>
    cases i with
    | zero =>
      obtain rfl : s' = s := Option.some.inj h
      rw [encodeBranch]
    | succ i =>
      rw [encodeBranch]
      exact ih h

/-- A sum is spelled by the choice and by the branch that was selected. -/
theorem encode_branch (hq : p.children[v.selected]? = some q) (hinside : v.children = [w]) :
    encode (.sum p (p.children.map Shape.infer)) v =
      .choice p.id v.selected :: encode (.infer q) w := by
  rw [encode, hinside, encodeBranch_eq (Shape.getElem?_map_infer hq)]

theorem mem_encodeAll {vs : List Value} :
    r ∈ encodeAll ss vs ↔ ∃ pair ∈ ss.zip vs, r ∈ encode pair.1 pair.2 := by
  induction ss generalizing vs with
  | nil => simp [encodeAll]
  | cons s ss ih =>
    cases vs with
    | nil => simp [encodeAll]
    | cons v vs =>
      simp only [encodeAll, List.mem_append, ih, List.zip_cons_cons, List.exists_mem_cons_iff]

/-! ## Values along a pattern -/

/-- **Does the value belong to the pattern?**  Every node contributes what its shape says:
nothing if there are no captures in it, a leaf if it is a capture, and otherwise what its
children contribute, in a slot of its own or without. -/
inductive Along : Located → Value → Prop
  | bare {p : Located} {v : Value} (none : p.hasCapture = false) (kind : v.kind = .empty)
      (inside : v.children = []) : Along p v
  | capture {p q : Located} {v : Value} (kind : p.kind = .capture) (children : p.children = [q])
      (leaf : v.kind = .leaf) (inside : v.children = []) : Along p v
  | group {p q : Located} {v : Value} (kind : p.kind = .group) (children : p.children = [q])
      (inside : Along q v) : Along p v
  /-- Only one part of the sequence has captures. -/
  | only {p q : Located} {v : Value} (kind : p.kind = .concat) (child : q ∈ p.children)
      (others : ∀ b ∈ p.children, hasCapture b = true → b = q)
      (shape : Shape.infer p = Shape.infer q) (inside : Along q v) : Along p v
  | product {p : Located} {v : Value} (kind : p.kind = .concat)
      (shape : Shape.infer p =
        .product p ((p.children.filter hasCapture).map Shape.infer))
      (product : v.kind = .product)
      (length : (p.children.filter hasCapture).length = v.children.length)
      (members : ∀ pair ∈ (p.children.filter hasCapture).zip v.children, Along pair.1 pair.2) :
      Along p v
  | branch {p q : Located} {v w : Value} (kind : p.kind = .alternation)
      (shape : Shape.infer p = .sum p (p.children.map Shape.infer)) (sum : v.kind = .sum)
      (branch : p.children[v.selected]? = some q) (children : v.children = [w])
      (inside : Along q w) : Along p v
  | loop {p q : Located} {v : Value} (kind : p.kind = .quantifier) (children : p.children = [q])
      (shape : Shape.infer p = .loop p (Shape.infer q))
      (slot : v.kind = if p.bounds.isOptional then .opt else .repeated)
      (once : p.bounds.isOptional = true →
        v.children.length ≤ 1 ∧ v.present = !v.children.isEmpty)
      (items : ∀ w ∈ v.children, Along q w) : Along p v

/-- The slot of a quantifier holds items.  If it may be left out, it holds one at most, and says
so if it does. -/
theorem Conforms.of_loop (h : Conforms (.loop q s) v) :
    v.kind = (if q.bounds.isOptional then .opt else .repeated) ∧
      (q.bounds.isOptional = true →
        v.children.length ≤ 1 ∧ v.present = !v.children.isEmpty) ∧
      ∀ w ∈ v.children, Conforms s w := by
  rw [Shape.loop] at h
  split at h
  · rename_i ho
    cases h with
    | opt hkind hone hflag hinner =>
      exact ⟨by rw [hkind, if_pos ho], fun _ => ⟨hone, hflag⟩, hinner⟩
  · rename_i ho
    cases h with
    | repeated hkind hitems => exact ⟨by rw [hkind, if_neg ho], fun h => absurd h ho, hitems⟩

/-- A value of a pattern without captures is empty. -/
theorem Along.of_isEmpty (hwell : p.WellFormed) (hempty : Shape.infer p = .empty)
    (hv : Conforms (.infer p) v) : Along p v := by
  have hnone : p.hasCapture = false := by
    rw [← Bool.not_eq_true]
    exact fun hcap => hwell.infer_ne_empty hcap hempty
  rw [hempty] at hv
  cases hv with
  | empty hkind hinside => exact .bare hnone hkind hinside

/-- A value of a sequence belongs to its parts. -/
theorem Along.of_concat (hwell : p.WellFormed) (hk : p.kind = .concat)
    (hparts : ∀ q ∈ p.children, ∀ v, Conforms (.infer q) v → Along q v)
    (hv : Conforms (.infer p) v) : Along p v := by
  have hshape := Shape.infer_concat hk
  have hkept := hwell.filter_map_infer
  rcases Shape.sequence_kept p (p.children.map Shape.infer) with ⟨-, hseq⟩ | ⟨s, hone, hseq⟩ | hseq
  · exact .of_isEmpty hwell (hshape.trans hseq) hv
  · rw [hkept, List.map_eq_singleton_iff] at hone
    obtain ⟨q, hq, rfl⟩ := hone
    have hmem : q ∈ p.children := List.mem_of_mem_filter (hq ▸ List.mem_singleton_self q)
    rw [hshape, hseq] at hv
    refine .only hk hmem (fun b hb hcap => ?_) (hshape.trans hseq) (hparts q hmem v hv)
    exact List.mem_singleton.mp (hq ▸ List.mem_filter.mpr ⟨hb, hcap⟩)
  · rw [hkept] at hseq
    rw [hshape, hseq] at hv
    cases hv with
    | product hkind hlength hmembers =>
      rw [List.length_map] at hlength
      refine .product hk (hshape.trans hseq) hkind hlength fun pair hpair => ?_
      have hmem := List.mem_of_mem_filter (List.of_mem_zip hpair).1
      refine hparts pair.1 hmem pair.2 (hmembers (Shape.infer pair.1, pair.2) ?_)
      rw [List.zip_map_left]
      exact List.mem_map_of_mem hpair

/-- **A value that conforms to the shape of a pattern belongs to the pattern.** -/
theorem along_of_conforms (hwell : p.WellFormed) (hv : Conforms (.infer p) v) : Along p v := by
  induction p using Located.induction generalizing v with
  | node p ih =>
    cases hwell with
    | literal hk hc hn => exact .of_isEmpty (.literal hk hc hn) (Shape.infer_literal hk) hv
    | @capture _ q hk hc _ =>
      rw [Shape.infer_capture hk] at hv
      cases hv with
      | leaf hkind hinside => exact .capture hk hc hkind hinside
    | @group _ q hk hc hq =>
      rw [Shape.infer_group hk hc] at hv
      exact .group hk hc (ih q (mem_children_of_eq hc) hq hv)
    | concat hk hparts =>
      exact .of_concat (.concat hk hparts) hk (fun q hq v => ih q hq (hparts q hq)) hv
    | alternation hk hne hparts =>
      have hshape := Shape.infer_alternation hk
      split at hshape
      · exact .of_isEmpty (.alternation hk hne hparts) hshape hv
      · rw [hshape] at hv
        cases hv with
        | @sum _ _ s _ w hkind hbranch hinside hconforms =>
          rw [List.getElem?_map, Option.map_eq_some_iff] at hbranch
          obtain ⟨q, hq, rfl⟩ := hbranch
          have hmem := List.mem_of_getElem? hq
          exact .branch hk hshape hkind hq hinside (ih q hmem (hparts q hmem) hconforms)
    | @quantifier _ q hk hc hbounds hq =>
      have hshape := Shape.infer_quantifier hk hc
      split at hshape
      · exact .of_isEmpty (.quantifier hk hc hbounds hq) hshape hv
      · rw [hshape] at hv
        obtain ⟨hslot, hone, hitems⟩ := hv.of_loop
        exact .loop hk hc hshape hslot hone fun w hw =>
          ih q (mem_children_of_eq hc) hq (hitems w hw)

/-! ## What an encoding records -/

/-- **An encoding records for the nodes of its pattern only.** -/
theorem Along.node_mem_ids (h : Along p v) (hwell : p.WellFormed)
    (hr : r ∈ encode (.infer p) v) : r.node ∈ p.ids := by
  induction h generalizing r with
  | @bare p v hnone hkind hinside =>
    rw [hwell.infer_eq_empty hnone, encode] at hr
    exact absurd hr List.not_mem_nil
  | @capture p q v hk hc _ _ =>
    rw [Shape.infer_capture hk, encode] at hr
    obtain ⟨sp, -, rfl⟩ := List.mem_map.mp hr
    exact id_mem_ids_self p
  | @group p q v hk hc _ ih =>
    rw [Shape.infer_group hk hc] at hr
    exact ids_subset_of_mem_children (mem_children_of_eq hc)
      (ih (hwell.child (mem_children_of_eq hc)) hr)
  | @only p q v hk hq _ hshape _ ih =>
    rw [hshape] at hr
    exact ids_subset_of_mem_children hq (ih (hwell.child hq) hr)
  | @product p v hk hshape _ _ _ ih =>
    rw [hshape, encode, mem_encodeAll, List.zip_map_left] at hr
    obtain ⟨pair, hpair, hr⟩ := hr
    obtain ⟨⟨q, w⟩, hmem, rfl⟩ := List.mem_map.mp hpair
    have hq := List.mem_of_mem_filter (List.of_mem_zip hmem).1
    exact ids_subset_of_mem_children hq (ih _ hmem (hwell.child hq) hr)
  | @branch p q v w hk hshape _ hb hinside _ ih =>
    have hq := List.mem_of_getElem? hb
    rw [hshape, encode_branch hb hinside, List.mem_cons] at hr
    rcases hr with rfl | hr
    · exact id_mem_ids_self p
    · exact ids_subset_of_mem_children hq (ih (hwell.child hq) hr)
  | @loop p q v hk hc hshape _ _ _ _ =>
    rw [hshape, encode_loop] at hr
    obtain ⟨w, -, rfl⟩ := List.mem_map.mp hr
    exact id_mem_ids_self p

/-- An encoding does not touch what stands beside its pattern. -/
theorem Along.untouched (h : Along p v) (hwell : p.WellFormed)
    (hdisjoint : List.Disjoint p.ids q.ids) : Trace.touches (encode (.infer p) v) q = false :=
  Trace.touches_eq_false_iff.mpr fun _ hr => hdisjoint (h.node_mem_ids hwell hr)

/-- **The members of a product do not get into each other's way.** -/
theorem agreeOn_encodeAll {qs : List Located} {vs : List Value}
    (hdisjoint : qs.Pairwise fun q q' : Located => List.Disjoint q.ids q'.ids)
    (hwell : ∀ q ∈ qs, WellFormed q) (halong : ∀ pair ∈ qs.zip vs, Along pair.1 pair.2) :
    ∀ pair ∈ qs.zip vs, Trace.AgreeOn pair.1 (encode (.infer pair.1) pair.2)
      (encodeAll (qs.map Shape.infer) vs) := by
  induction qs generalizing vs with
  | nil => exact fun pair hpair => absurd hpair List.not_mem_nil
  | cons q qs ih =>
    cases vs with
    | nil => exact fun pair hpair => absurd hpair List.not_mem_nil
    | cons v vs =>
      rw [List.pairwise_cons] at hdisjoint
      rw [List.forall_mem_cons] at hwell
      rw [List.zip_cons_cons, List.forall_mem_cons] at halong ⊢
      rw [List.map_cons, encodeAll]
      constructor
      · refine .append_right (Trace.touches_eq_false_iff.mpr fun r hr => ?_)
        rw [mem_encodeAll, List.zip_map_left] at hr
        obtain ⟨pair, hpair, hr⟩ := hr
        obtain ⟨⟨q', w⟩, hmem, rfl⟩ := List.mem_map.mp hpair
        have hq' := (List.of_mem_zip hmem).1
        have hnode := (halong.2 _ hmem).node_mem_ids (hwell.2 q' hq') hr
        exact fun hin => hdisjoint.1 q' hq' hin hnode
      · intro pair hpair
        refine (ih hdisjoint.2 hwell.2 halong.2 pair hpair).trans (.append_left ?_)
        exact halong.1.untouched hwell.1 (hdisjoint.1 pair.1 (List.of_mem_zip hpair).1)

/-- In a frame that spells a product, every member is spelled. -/
theorem agreeOn_of_product {vs : List Value} (hwell : p.WellFormed) (hd : p.Distinct)
    (halong : ∀ pair ∈ (p.children.filter hasCapture).zip vs, Along pair.1 pair.2)
    (hagree : Trace.AgreeOn p (encodeAll ((p.children.filter hasCapture).map Shape.infer) vs) t) :
    ∀ pair ∈ (p.children.filter hasCapture).zip vs,
      Trace.AgreeOn pair.1 (encode (.infer pair.1) pair.2) t := by
  intro pair hpair
  have hq := List.mem_of_mem_filter (List.of_mem_zip hpair).1
  have hpairwise := hd.pairwise_children.filter (p := hasCapture)
  refine (agreeOn_encodeAll hpairwise (fun q hq => ?_) halong pair hpair).trans (hagree.child hq)
  exact hwell.child (List.mem_of_mem_filter hq)

/-- **Of a capture only its own span is recorded.** -/
theorem rows_of_leaf (hd : p.Distinct) (hagree : Trace.AgreeOn p (encode (.leaf (some p)) v) t) :
    t.spans p.id = v.span.toList ∧ ∀ q ∈ p.children, t.touches q = false := by
  rw [encode] at hagree
  constructor
  · rw [← hagree.spans p.id (id_mem_ids_self p)]
    cases v.span with
    | none => rfl
    | some sp => simp [Trace.spans, Record.spanOf?]
  · refine fun q hq => (hagree.child hq).untouched (Trace.touches_eq_false_iff.mpr fun r hr => ?_)
    obtain ⟨sp, -, rfl⟩ := List.mem_map.mp hr
    exact hd.id_notMem_ids hq

/-- **Of a sum only the branch that was selected is recorded**, beside the choice. -/
theorem rows_of_branch {i : Nat} (hd : p.Distinct) (hwell : p.WellFormed)
    (hq : p.children[i]? = some q) (h : Along q w)
    (hagree : Trace.AgreeOn p (.choice p.id i :: encode (.infer q) w) t) :
    t.choices p.id = [i] ∧ Trace.AgreeOn q (encode (.infer q) w) t ∧
      ∀ j b, p.children[j]? = some b → j ≠ i → t.touches b = false := by
  have hmem := List.mem_of_getElem? hq
  have hwellq := hwell.child hmem
  have hbeside : ∀ b ∈ p.children, Trace.touches [.choice p.id i] b = false := by
    intro b hb
    refine Trace.touches_eq_false_iff.mpr fun r hr => ?_
    rw [List.mem_singleton.mp hr]
    exact hd.id_notMem_ids hb
  refine ⟨?_, ?_, fun j b hb hne => ?_⟩
  · rw [← hagree.choices p.id (id_mem_ids_self p)]
    have hnone : Trace.choices (encode (.infer q) w) p.id = [] := by
      refine (Trace.rows_eq_nil_iff.mpr fun r hr hid => ?_).2.1
      exact hd.id_notMem_ids hmem (hid ▸ h.node_mem_ids hwellq hr)
    rw [Trace.choices, List.filterMap_cons_some (by rw [Record.choiceOf?, if_pos rfl])]
    exact congrArg (i :: ·) hnone
  · exact (Trace.AgreeOn.append_left (hbeside q hmem)).trans (hagree.child hmem)
  · refine (hagree.child (List.mem_of_getElem? hb)).untouched ?_
    have hother := h.untouched hwellq (hd.disjoint_of_ne hq hb hne.symm)
    rw [← List.singleton_append, Trace.touches_append, hbeside b (List.mem_of_getElem? hb), hother]
    rfl

/-- **A loop has a frame for every item**, and nothing of its body beside them. -/
theorem rows_of_loop (hd : p.Distinct) (hc : p.children = [q])
    (hagree : Trace.AgreeOn p (v.children.map fun w => .iteration p.id (encode s w)) t) :
    t.touches q = false ∧ t.iterations p.id = v.children.map (encode s) := by
  have hq := mem_children_of_eq hc
  constructor
  · refine (hagree.child hq).untouched (Trace.touches_eq_false_iff.mpr fun r hr => ?_)
    obtain ⟨w, -, rfl⟩ := List.mem_map.mp hr
    exact hd.id_notMem_ids hq
  · rw [← hagree.iterations p.id (id_mem_ids_self p), Trace.iterations,
      List.filterMap_map, ← List.filterMap_eq_map]
    refine List.filterMap_congr fun w _ => ?_
    rw [Function.comp_apply, Record.frameOf?, if_pos rfl]
    rfl

end Value

end CaptureTree
