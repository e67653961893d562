import CaptureTree.Proofs.Value.Tabled

/-!
# Taking changes back

A search that backtracks makes changes to frames of a trace, opens new frames and changes those,
and takes everything back in reverse order when it gives up.  Afterwards nobody can tell that it
was there.

* A trace that is kept as the list of its records is the same list again
  (`Trace.retractAll_of_applyAll`).
* In tables the rows that the search has added are still there, but with nothing in them
  (`Tables.Padded.exists_retractAll`), and readers do not see such rows.

Both are inductions on the changes.  The last change has been taken back before the first one, so
what the first one meets is not the frame that it has left, but one with more empty rows.
-/

namespace CaptureTree

/-! ## Lists of records -/

namespace Trace

variable {t t' t₁ : Trace} {n : NodeId} {i : Nat} {path : FrameAddress} {c : Change}
  {changes : List (FrameAddress × Change)}

/-- The record that is taken back is the one that was added last. -/
theorem retract_apply (c : Change) (t : Trace) :
    (t.apply c).retract c.entry.kind c.entry.node = some t := by
  induction t with
  | nil => exact if_pos ⟨rfl, rfl⟩
  | cons r t ih =>
    rw [apply, List.cons_append, retract]
    rw [apply] at ih
    rw [ih]

/-- A change of an iteration can be taken back where that of its frame can. -/
theorem mapIteration_back {f g : Trace → Except ChangeError Trace}
    (hback : ∀ x y, f x = .ok y → g y = .ok x) (h : mapIteration n f i t = .ok t') :
    mapIteration n g i t' = .ok t := by
  induction t generalizing i t' with
  | nil => cases h
  | cons r t ih =>
    -- the change goes on behind a record that stays
    have hbehind {j : Nat} (h : (do return r :: (← mapIteration n f j t)) = .ok t') :
        ∃ u, t' = r :: u ∧ (do return r :: (← mapIteration n g j u)) = .ok (r :: t) := by
      obtain ⟨u, hu, h⟩ := bind_eq_ok.mp h
      exact ⟨u, (pure_eq_ok.mp h).symm, bind_eq_ok.mpr ⟨t, ih hu, rfl⟩⟩
    cases r with
    | span m s | choice m j =>
      obtain ⟨u, rfl, hu⟩ := hbehind h
      exact hu
    | iteration m frame =>
      by_cases hm : m = n
      · cases i with
        | zero =>
          rw [mapIteration, if_pos hm] at h
          obtain ⟨frame', hframe, h⟩ := bind_eq_ok.mp h
          obtain rfl := pure_eq_ok.mp h
          rw [mapIteration, if_pos hm]
          exact bind_eq_ok.mpr ⟨frame, hback _ _ hframe, rfl⟩
        | succ i =>
          rw [mapIteration, if_pos hm] at h
          obtain ⟨u, rfl, hu⟩ := hbehind h
          rw [mapIteration, if_pos hm]
          exact hu
      · change (if m = n then _ else _) = _ at h
        rw [if_neg hm] at h
        obtain ⟨u, rfl, hu⟩ := hbehind h
        show (if m = n then _ else _) = _
        rw [if_neg hm]
        exact hu

/-- **A change can be taken back wherever the frame is.** -/
theorem retractAt_of_applyAt (h : t.applyAt path c = .ok t') :
    t'.retractAt path c.entry.kind c.entry.node = .ok t := by
  induction path generalizing t t' with
  | nil =>
    obtain rfl := Except.ok.inj h
    exact congrArg (fun x : Option Trace => x.elim _ _) (retract_apply c t)
  | cons entry path ih => exact mapIteration_back (fun _ _ => ih) h

/-- **Changes can be taken back, the last one first**, and nothing is left of them. -/
theorem retractAll_of_applyAll (h : t.applyAll changes = .ok t₁) :
    t₁.retractAll changes = .ok t := by
  induction changes generalizing t with
  | nil => exact h.symm
  | cons change changes ih =>
    obtain ⟨t', hfirst, hrest⟩ := bind_eq_ok.mp h
    rw [retractAll, List.foldrM_cons]
    exact bind_eq_ok.mpr ⟨t', ih hrest, retractAt_of_applyAt hfirst⟩

end Trace

/-! ## Tables -/

namespace Tables

variable {t t₁ t₁' t' : Tables} {changes : List (FrameAddress × Change)}

/-- **Changes can be taken back, the last one first**, and leave only empty rows behind. -/
theorem Padded.exists_retractAll (happly : t.applyAll changes = .ok t₁) (h : Padded t₁ t₁') :
    ∃ t', t₁'.retractAll changes = .ok t' ∧ Padded t t' := by
  induction changes generalizing t with
  | nil =>
    obtain rfl := pure_eq_ok.mp happly
    exact ⟨t₁', rfl, h⟩
  | cons change changes ih =>
    obtain ⟨t₀, hfirst, hrest⟩ := bind_eq_ok.mp happly
    obtain ⟨t₀', hback, hpadded⟩ := ih hrest
    obtain ⟨t', hretract, hpadded⟩ := hpadded.exists_retractAt hfirst
    refine ⟨t', ?_, hpadded⟩
    rw [retractAll, List.foldrM_cons]
    exact bind_eq_ok.mpr ⟨t₀', hback, hretract⟩

/-- **Does one frame answer a reader like the other?** -/
structure Resembles (t t' : Tables) : Prop where
  spans : ∀ n, t'.spans n = t.spans n
  choices : ∀ n, t'.choices n = t.choices n
  iterations : ∀ n, (t'.iterations n).length = (t.iterations n).length
  touches : ∀ p, t'.touches p = t.touches p

theorem Padded.resembles (h : Padded t t') : Resembles t t' where
  spans := h.spans_eq
  choices := h.choices_eq
  iterations n := (h.iterations n).length_eq.symm
  touches := h.touches_eq

end Tables

open Tables in
/-- **Undoing leaves nothing behind.**  Let changes be made one after the other, in any frames, those
included that the changes open, and then be taken back in reverse order.

* In tables, with at most one row for a node, this succeeds, and what results can not be told from
  what was there before.  It has the same frames.  In each of them every node has the same spans,
  the same choices and as many iterations, and the same parts of a pattern are touched.  The same
  value is read along every shape, whether it is that of a pattern or the flat one of a capture,
  and reading fails for the same reasons.  So the results of all captures are the same, and the
  check judges alike.
* In a list of records it succeeds, and the list is the same as before. -/
theorem undoing_leaves_nothing (changes : List (FrameAddress × Change)) :
    (∀ t t₁ : Tables, t.Keyed → t.applyAll changes = .ok t₁ →
      ∃ t₂, t₁.retractAll changes = .ok t₂ ∧
        (∀ address, Option.Rel Resembles (t.frame? address) (t₂.frame? address)) ∧
        (∀ s, t₂.assemble s = t.assemble s ∧ t₂.assemble s = Value.assemble s t.records) ∧
        (∀ whole s v cs, t₂.flatten whole s v cs = t.flatten whole s v cs ∧
          t₂.flatten whole s v cs = Value.flatten whole s v cs t.records) ∧
        ∀ size scope, t₂.check size scope = t.check size scope) ∧
      ∀ t t₁ : Trace, t.applyAll changes = .ok t₁ → t₁.retractAll changes = .ok t := by
  refine ⟨fun t t₁ hkeyed happly => ?_, fun t t₁ => Trace.retractAll_of_applyAll⟩
  obtain ⟨t₂, hretract, hpadded⟩ := Padded.exists_retractAll happly (.refl t₁)
  have hbefore : ReadsAs t t.records := .of_keyed hkeyed
  have hafter : ReadsAs t₂ t.records := hbefore.of_padded hpadded
  refine ⟨t₂, hretract, fun address => ?_, fun s => ?_, fun whole s v cs => ?_,
    fun size scope => ?_⟩
  · exact rel_imp (hpadded.frame? address) fun _ _ => Padded.resembles
  · exact ⟨(hafter.assemble_eq s).trans (hbefore.assemble_eq s).symm, hafter.assemble_eq s⟩
  · exact ⟨(hafter.flatten_eq whole s v cs).trans (hbefore.flatten_eq whole s v cs).symm,
      hafter.flatten_eq whole s v cs⟩
  · rw [check_eq, check_eq, hpadded.records_eq]

/-- A loop over two branches. -/
def loopOverTwo : Pattern :=
  (Pattern.alternation [(Pattern.exact [0x61]).capture, (Pattern.exact [0x62]).capture]).star

/-- One round, in tables. -/
def firstRound : Tables := .frame [] [] [(0, [.frame [(2, [⟨0, 1⟩])] [(1, [0])] []])]

/-- A round that is tried afterwards, and records for nodes that do not belong to the frame. -/
def triedRound : List (FrameAddress × Change) :=
  [([], .iterate 0), ([(0, 1)], .choose 1 1), ([(0, 1)], .record 4 ⟨1, 2⟩),
    ([(0, 0)], .record 9 ⟨5, 3⟩), ([], .iterate 7)]

theorem undoing_leaves_nothing_loopOverTwo :
    loopOverTwo.validate = .ok () ∧ firstRound.Keyed ∧
      ∃ t₁ t₂, firstRound.applyAll triedRound = .ok t₁ ∧
        t₁.check 2 (some loopOverTwo.locate) = .error (.outsideFrame .span) ∧
        t₁.retractAll triedRound = .ok t₂ ∧ t₂ ≠ firstRound ∧
        t₂.assemble (.infer loopOverTwo.locate) =
          .ok (.repeated [.sum 0 (.leaf (some ⟨0, 1⟩))]) ∧
        t₂.check 2 (some loopOverTwo.locate) = .ok () := by
  have hkeyed : firstRound.Keyed := by
    refine .frame (by decide) (by decide) (by decide) fun row hrow f hf => ?_
    obtain rfl := List.mem_singleton.mp hrow
    obtain rfl := List.mem_singleton.mp hf
    exact .frame (by decide) (by decide) (by decide) fun row hrow => absurd hrow List.not_mem_nil
  obtain ⟨t₂, hretract, -, hassemble, -, hcheck⟩ :=
    (undoing_leaves_nothing triedRound).1 firstRound _ hkeyed rfl
  refine ⟨rfl, hkeyed, _, t₂, rfl, rfl, hretract, fun hsame => ?_, ?_, ?_⟩
  · rw [hsame] at hretract
    cases hretract
  · exact (hassemble _).1
  · exact hcheck 2 _

end CaptureTree
