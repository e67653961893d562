import CaptureTree.Proofs.Value.Assembly
import CaptureTree.Value.Projection

/-!
# Cutting a flat result out of the value

A visible capture has two candidates for its own result: what `Value.project` cuts
out of the value of the whole pattern, and what assembling its flat shape from the
same frame gives.  They are the same, whatever the frame holds, as long as the frame
can be read at all (`Located.Route.project_assemble`).

The one place where the two take different paths is a branch that was not taken.
There the projection stops and puts in an empty result, while the flat shape goes on
reading a frame in which nothing is recorded.  `Value.absentFlat` is what both
find.
-/

namespace CaptureTree

namespace Value

variable {p q c : Located} {qs : List Located} {t : Trace} {s : Shape}

/-! ## Nothing recorded -/

/-- The result of a capture of which nothing is recorded. -/
def absentFlat : List Located → Value
  | [] => leaf none
  | q :: _ => ofItems q []

/-- **Where nothing is recorded, a flat result is empty.** -/
theorem assemble_flat_of_untouched (h : p.Holds qs c) (ht : t.touches p = false) :
    assemble (.flat qs c) t = .ok (absentFlat qs) := by
  have hrows := Trace.touches_eq_false_iff_rows.mp ht
  cases qs with
  | nil =>
    have hnone := (hrows c.id h.id_mem_ids).1
    refine assemble_leaf_eq_ok.mpr ?_
    rw [hnone]
    exact ⟨Nat.zero_le 1, rfl⟩
  | cons q qs =>
    obtain ⟨hq, -, -⟩ := h.of_cons
    have hnone := (hrows q.id (Located.id_mem_ids hq)).2.2
    have hbody : ∀ b ∈ q.body, t.touches b = false := by
      intro b hb
      have hchild : b ∈ q.children := List.mem_of_head? hb
      have hmem := Tree.mem_subtrees_trans (Located.mem_subtrees_of_mem_children hchild) hq
      exact Trace.touches_eq_false_of_mem_subtrees ht hmem
    refine assemble_loop_eq_ok.mpr ⟨[], ?_, fun _ => Nat.zero_le 1, [], .nil, rfl⟩
    rw [Trace.frames_of_untouched hbody, hnone]

/-! ## Steps of a projection -/

theorem expectKind_eq_ok {v : Value} : expectKind s v = .ok () ↔ s.kind = v.kind := by
  rw [expectKind]
  constructor
  · intro h
    split at h
    · assumption
    · cases h
  · intro h
    exact if_pos h

theorem project_nil {v : Value} (h : v.kind = s.kind) : project [] s v = .ok v := by
  rw [project, bind_unit_eq_ok]
  exact ⟨expectKind_eq_ok.mpr h.symm, rfl⟩

theorem slot_eq_ok {u : Shape} {i : Nat} : slot s i = .ok u ↔ s.children[i]? = some u := by
  rw [slot]
  cases s.children[i]? with
  | none => simp
  | some u' => simp

theorem child_eq_ok {v w : Value} {i : Nat} : child v i = .ok w ↔ v.children[i]? = some w := by
  rw [child]
  cases v.children[i]? with
  | none => simp
  | some u => simp

theorem firstUnchecked_eq_ok {α : Type} {xs : List α} {x : α} :
    firstUnchecked xs = .ok x ↔ xs[0]? = some x := by
  cases xs with
  | nil => simp [firstUnchecked]
  | cons y ys => simp [firstUnchecked]

/-- Reading without a check goes wrong exactly where there is nothing to read. -/
theorem firstUnchecked_eq_error {α : Type} {xs : List α} {e : ReadError} :
    firstUnchecked xs = .error e ↔ xs = [] ∧ e = .undefined := by
  cases xs with
  | nil => simp [firstUnchecked, eq_comm]
  | cons y ys => simp [firstUnchecked]

theorem project_member {ss : List Shape} {i : Nat} {v x : Value} {path : SlotPath}
    (hkind : v.kind = .product) (hs : ss[i]? = some s) (hx : v.children[i]? = some x) :
    project (.member i :: path) (.product p ss) v = project path s x := by
  have hproduct : expectKind (.product p ss) v = .ok () := expectKind_eq_ok.mpr hkind.symm
  have hslot : slot (.product p ss) i = .ok s := slot_eq_ok.mpr hs
  have hchild : child v i = .ok x := child_eq_ok.mpr hx
  rw [project, hproduct, hslot, hchild]
  rfl

/-- Into the branch that was taken, or past one that was not. -/
theorem project_branch {ss : List Shape} {i j : Nat} {v : Value} {path : SlotPath}
    (hs : ss[i]? = some s) :
    project (.branch i :: path) (.sum p ss) (sum j v) =
      if j = i then project path s v else .ok (absentAlong path) := by
  have hslot : slot (.sum p ss) i = .ok s := slot_eq_ok.mpr hs
  rw [project, expectKind_eq_ok.mpr rfl, hslot]
  rfl

/-- Into every item of the slot of a quantifier. -/
theorem project_loop {vs ws : List Value} {path : SlotPath}
    (hlen : q.bounds.isOptional = true → vs.length ≤ 1)
    (hall : List.Forall₂ (fun v w => project path s v = .ok w) vs ws) :
    project (Shape.stepInto q :: path) (.loop q s) (ofItems q vs) = .ok (ofItems q ws) := by
  rw [Shape.stepInto, Shape.loop, ofItems, ofItems]
  cases ho : q.bounds.isOptional with
  | false =>
    show project (.each :: path) (.repeated q s) (repeated vs) = .ok (repeated ws)
    rw [project, bind_unit_eq_ok]
    exact ⟨expectKind_eq_ok.mpr rfl, bind_eq_ok.mpr ⟨ws, mapM_eq_ok.mpr hall, rfl⟩⟩
  | true =>
    show project (.inner :: path) (.opt q s) (.node { kind := .opt, present := !vs.isEmpty } vs) =
      .ok (.node { kind := .opt, present := !ws.isEmpty } ws)
    rw [project, bind_unit_eq_ok]
    refine ⟨expectKind_eq_ok.mpr rfl, ?_⟩
    cases hall with
    | nil => rfl
    | @cons v w vs ws hhead htail =>
      cases htail with
      | nil =>
        refine bind_eq_ok.mpr ⟨s, rfl, bind_eq_ok.mpr ⟨v, rfl, ?_⟩⟩
        exact bind_eq_ok.mpr ⟨w, hhead, rfl⟩
      | cons => exact absurd (hlen ho) (by simp)

end Value

namespace Located

namespace Route

variable {p c : Located} {qs : List Located} {path : SlotPath} {t : Trace}

/-- The rest of a path that is not followed leaves an empty result. -/
theorem absentAlong_eq (h : Route p qs c path) :
    Value.absentAlong path = Value.absentFlat qs := by
  induction h with
  | capture => rfl
  | group _ _ _ ih | only _ _ _ _ ih | member _ _ _ _ _ ih | branch _ _ _ _ ih => exact ih
  | @loop p _ _ _ _ _ _ _ _ =>
    rw [Shape.stepInto, Value.absentFlat, Value.ofItems]
    cases p.bounds.isOptional with
    | false => rfl
    | true => rfl

/-- **Projection and flat assembly agree.**  If a frame can be read along the shape of
the pattern, it can be read along the flat shape of every visible capture, and the
result is the one on the capture's path. -/
theorem project_assemble (h : Route p qs c path) {v : Value}
    (hv : Value.assemble (.infer p) t = .ok v) :
    ∃ w, Value.assemble (.flat qs c) t = .ok w ∧ Value.project path (.infer p) v = .ok w := by
  induction h generalizing t v with
  | @capture p hk =>
    have hshape := Shape.infer_capture hk
    refine ⟨v, ?_, Value.project_nil (Value.kind_of_assemble hv)⟩
    rw [hshape] at hv
    exact hv
  | group hk hc _ ih =>
    rw [Shape.infer_group hk hc] at hv ⊢
    exact ih hv
  | only hk hq hshape _ ih =>
    rw [hshape] at hv ⊢
    exact ih hv
  | @member p q c qs path ss i hk hq hshape hslot _ ih =>
    rw [hshape] at hv ⊢
    obtain ⟨vs, hall, rfl⟩ := Value.assemble_product_eq_ok.mp hv
    obtain ⟨u, hu, hmember⟩ := exists_getElem?_of_forall₂ hall hslot
    obtain ⟨w, hw, hproject⟩ := ih hmember
    refine ⟨w, hw, ?_⟩
    rw [Value.project_member (v := .product vs) rfl hslot hu]
    exact hproject
  | @branch p q c qs path i hk hq hshape hinside ih =>
    rw [hshape] at hv ⊢
    obtain ⟨j, hj, s, hs, u, hu, rfl⟩ := Value.assemble_sum_eq_ok.mp hv
    have hslot := Shape.getElem?_map_infer hq
    rw [Value.project_branch hslot]
    by_cases hij : j = i
    · subst hij
      obtain rfl : s = Shape.infer q := Option.some.inj (hs.symm.trans hslot)
      obtain ⟨w, hw, hproject⟩ := ih hu
      refine ⟨w, hw, ?_⟩
      rw [if_pos rfl, hproject]
    · have huntouched := Trace.untouched_of_branchTaken hj hq fun h => hij h.symm
      refine ⟨_, Value.assemble_flat_of_untouched hinside.holds huntouched, ?_⟩
      rw [if_neg hij, hinside.absentAlong_eq]
  | @loop p q c qs path hk hc hshape _ ih =>
    rw [hshape] at hv ⊢
    obtain ⟨fs, hframes, hmany, vs, hall, rfl⟩ := Value.assemble_loop_eq_ok.mp hv
    obtain ⟨ws, hflat, hproject⟩ := exists_forall₂ (fun _ _ h => ih h) hall
    refine ⟨Value.ofItems p ws, ?_, Value.project_loop ?_ hproject⟩
    · exact Value.assemble_loop_eq_ok.mpr ⟨fs, hframes, hmany, ws, hflat, rfl⟩
    · rw [← hall.length_eq]
      exact hmany

end Route

end Located

end CaptureTree
