import CaptureTree.Proofs.Positions
import CaptureTree.Proofs.Results
import CaptureTree.Trace.Placement

/-!
# Where records may stand

`Trace.check` walks a trace frame by frame and stops at the first record that is
out of place.  `Record.Placed` says without a walk when a record is in its place:
its node lies in the scope of the frame and is of the right kind, a span fits the
input, a choice names a branch, and everything in the frame of an iteration is in
its place in the body of the quantifier.

`Trace.check_eq_ok_iff` says that the check accepts exactly the traces all of whose
records are in their place.
-/

namespace CaptureTree

/-- What holds of spans and choices, and passes from the records of a frame to the
iteration that the frame belongs to, holds of every record. -/
@[elab_as_elim]
theorem Record.induction {motive : Record → Prop} (span : ∀ n s, motive (.span n s))
    (choice : ∀ n i, motive (.choice n i))
    (iteration : ∀ n f, (∀ r ∈ f, motive r) → motive (.iteration n f)) (r : Record) : motive r :=
  @Record.rec motive (fun rs => ∀ r ∈ rs, motive r) span choice iteration
    (fun _ h => absurd h List.not_mem_nil)
    (fun _ _ h hs _ hmem => by
      rcases List.mem_cons.mp hmem with rfl | hmem
      · exact h
      · exact hs _ hmem) r

/-- Is a record in its place, in a frame with this scope? -/
inductive Record.Placed (size : Nat) : Option Located → Record → Prop
  | span {scope : Option Located} {n : NodeId} {s : Span} {a : Located}
      (node : (scope.bind fun p => p.find n) = some a) (kind : a.kind = .capture)
      (fits : s.fits size = true) : Placed size scope (.span n s)
  | choice {scope : Option Located} {n : NodeId} {i : Nat} {a : Located}
      (node : (scope.bind fun p => p.find n) = some a) (kind : a.kind = .alternation)
      (branch : i < a.children.length) : Placed size scope (.choice n i)
  | iteration {scope : Option Located} {n : NodeId} {frame : Trace} {a : Located}
      (node : (scope.bind fun p => p.find n) = some a) (kind : a.kind = .quantifier)
      (inside : ∀ r ∈ frame, Placed size a.body r) : Placed size scope (.iteration n frame)

namespace Trace

variable {size : Nat} {scope : Option Located}

theorem placeOf_eq_ok {r : Record} {k : NodeKind} {a : Located} :
    placeOf scope r k = .ok a ↔ (scope.bind fun p => p.find r.node) = some a ∧ a.kind = k := by
  rw [placeOf]
  cases scope.bind fun p => p.find r.node with
  | none => simp
  | some b =>
    simp only [Option.some.injEq]
    constructor
    · intro h
      split at h
      · rename_i hk
        obtain rfl := Except.ok.inj h
        exact ⟨rfl, hk⟩
      · cases h
    · rintro ⟨rfl, hk⟩
      exact if_pos hk

/-- Are all records of a frame in their place? -/
def Placed (size : Nat) (scope : Option Located) (t : Trace) : Prop :=
  ∀ r ∈ t, Record.Placed size scope r

theorem checkSpan_eq_ok {n : NodeId} {s : Span} :
    checkSpan scope size (.span n s) = .ok () ↔ Record.Placed size scope (.span n s) := by
  simp only [checkSpan, bind_eq_ok, placeOf_eq_ok]
  constructor
  · rintro ⟨a, ⟨hnode, hkind⟩, h⟩
    split at h
    · rename_i hfits
      exact .span hnode hkind hfits
    · cases h
  · rintro (⟨hnode, hkind, hfits⟩ | _ | _)
    exact ⟨_, ⟨hnode, hkind⟩, if_pos hfits⟩

theorem checkChoice_eq_ok {n : NodeId} {i : Nat} :
    checkChoice scope (.choice n i) = .ok () ↔ Record.Placed size scope (.choice n i) := by
  simp only [checkChoice, bind_eq_ok, placeOf_eq_ok]
  constructor
  · rintro ⟨a, ⟨hnode, hkind⟩, h⟩
    split at h
    · rename_i hbranch
      exact .choice hnode hkind hbranch
    · cases h
  · rintro (_ | ⟨hnode, hkind, hbranch⟩ | _)
    exact ⟨_, ⟨hnode, hkind⟩, if_pos hbranch⟩

theorem checkIterations_eq_ok {t : Trace} :
    checkIterations size scope t = .ok () ↔ ∀ r ∈ t, checkIteration size scope r = .ok () := by
  induction t with
  | nil => simp [checkIterations]
  | cons r t ih => rw [checkIterations, bind_unit_eq_ok, ih, List.forall_mem_cons]

/-- The three checks of one record. -/
def checkRecord (size : Nat) (scope : Option Located) (r : Record) : Prop :=
  checkSpan scope size r = .ok () ∧ checkChoice scope r = .ok () ∧
    checkIteration size scope r = .ok ()

/-- The checks of a frame, one record at a time. -/
theorem checkFrame_eq_ok {t : Trace} :
    (do t.forM (checkSpan scope size); t.forM (checkChoice scope); checkIterations size scope t)
        = .ok () ↔ ∀ r ∈ t, checkRecord size scope r := by
  simp only [bind_unit_eq_ok, forM_eq_ok, checkIterations_eq_ok, checkRecord]
  constructor
  · rintro ⟨hspan, hchoice, hiteration⟩ r hr
    exact ⟨hspan r hr, hchoice r hr, hiteration r hr⟩
  · intro h
    exact ⟨fun r hr => (h r hr).1, fun r hr => (h r hr).2.1, fun r hr => (h r hr).2.2⟩

theorem checkIteration_eq_ok {n : NodeId} {frame : Trace} :
    checkIteration size scope (.iteration n frame) = .ok () ↔
      ∃ a, ((scope.bind fun p => p.find n) = some a ∧ a.kind = .quantifier) ∧
        ∀ r ∈ frame, checkRecord size a.body r := by
  rw [checkIteration, bind_eq_ok]
  simp only [placeOf_eq_ok, checkFrame_eq_ok]
  rfl

/-- The checks of a record accept it exactly when it is in its place. -/
theorem checkRecord_iff {r : Record} : checkRecord size scope r ↔ Record.Placed size scope r := by
  induction r using Record.induction generalizing scope with
  | span n s =>
    rw [checkRecord, checkSpan_eq_ok]
    exact ⟨fun h => h.1, fun h => ⟨h, rfl, rfl⟩⟩
  | choice n i =>
    rw [checkRecord, checkChoice_eq_ok]
    exact ⟨fun h => h.2.1, fun h => ⟨rfl, h, rfl⟩⟩
  | iteration n frame ih =>
    have hother : checkRecord size scope (.iteration n frame) ↔
        checkIteration size scope (.iteration n frame) = .ok () :=
      ⟨fun h => h.2.2, fun h => ⟨rfl, rfl, h⟩⟩
    rw [hother, checkIteration_eq_ok]
    constructor
    · rintro ⟨a, ⟨hnode, hkind⟩, hinside⟩
      exact .iteration hnode hkind fun r hr => (ih r hr).mp (hinside r hr)
    · rintro (_ | _ | ⟨hnode, hkind, hinside⟩)
      exact ⟨_, ⟨hnode, hkind⟩, fun r hr => (ih r hr).mpr (hinside r hr)⟩

/-- **The check accepts exactly the traces whose records are all in their
place.** -/
theorem check_eq_ok_iff {p : Located} {t : Trace} :
    t.check p size = .ok () ↔ t.Placed size (some p) := by
  rw [check, checkFrame_eq_ok, Placed]
  simp only [checkRecord_iff]

end Trace

namespace Record.Placed

variable {size : Nat} {p q : Located} {r : Record}

/-- A record in its place belongs to a node of the scope. -/
theorem node_mem_ids (h : Record.Placed size (some p) r) : r.node ∈ p.ids := by
  obtain ⟨a, ha⟩ : ∃ a, p.find r.node = some a := by
    cases h with
    | span hnode | choice hnode | iteration hnode => exact ⟨_, hnode⟩
  obtain ⟨hmem, hid⟩ := Located.mem_subtrees_of_find ha
  exact hid ▸ Located.id_mem_ids hmem

/-- A record is in its place in a pattern only. -/
theorem exists_scope {scope : Option Located} (h : Record.Placed size scope r) :
    ∃ p, scope = some p := by
  cases scope with
  | none => cases h with
    | span hnode | choice hnode | iteration hnode => cases hnode
  | some p => exact ⟨p, rfl⟩

/-- A record in its place in a part is in its place in the whole. -/
theorem mono (h : Record.Placed size (some q) r) (hp : p.Distinct) (hq : q ∈ p.subtrees) :
    Record.Placed size (some p) r := by
  cases h with
  | span hnode hkind hfits => exact .span (hp.find_mono hq hnode) hkind hfits
  | choice hnode hkind hbranch => exact .choice (hp.find_mono hq hnode) hkind hbranch
  | iteration hnode hkind hinside => exact .iteration (hp.find_mono hq hnode) hkind hinside

/-- What a frame of a quantifier holds is in its place in the body. -/
theorem inside (h : Record.Placed size (some p) r) (hp : p.Distinct) (hq : q ∈ p.subtrees)
    {b : Located} (hb : q.body = some b) {f : Trace} (hf : r.frameOf? q.id = some f) :
    Trace.Placed size (some b) f := by
  cases h with
  | span | choice => cases hf
  | @iteration _ n frame a hnode hkind hinside =>
    rw [Record.frameOf?] at hf
    split at hf
    · rename_i hid
      obtain rfl := Option.some.inj hf
      rw [hid] at hnode
      obtain rfl : q = a := Option.some.inj ((hp.find_id hq).symm.trans hnode)
      rw [← hb]
      exact hinside
    · cases hf

end Record.Placed

end CaptureTree
