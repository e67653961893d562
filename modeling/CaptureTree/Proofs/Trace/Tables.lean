import CaptureTree.Proofs.Results
import CaptureTree.Trace.Tables

/-!
# Tables say what their records say

Checking a frame that is kept in tables gives the verdict, and the complaint, that checking the
list of its records gives (`Tables.check_eq`).  Rows without entries have no records, so they have
no say.
-/

namespace CaptureTree

/-- A property that passes from the frames of iterations to the frame around them holds of all
frames. -/
@[elab_as_elim]
theorem Tables.induction {motive : Tables → Prop}
    (frame : ∀ spans choices loops, (∀ row ∈ loops, ∀ f ∈ row.2, motive f) →
      motive (frame spans choices loops)) (t : Tables) : motive t :=
  @Tables.rec motive (fun rows => ∀ row ∈ rows, ∀ f ∈ row.2, motive f)
    (fun row => ∀ f ∈ row.2, motive f) (fun fs => ∀ f ∈ fs, motive f) frame
    (fun _ h => absurd h List.not_mem_nil)
    (fun _ _ h hs _ hmem => by
      rcases List.mem_cons.mp hmem with rfl | hmem
      · exact h
      · exact hs _ hmem)
    (fun _ _ h => h)
    (fun _ h => absurd h List.not_mem_nil)
    (fun _ _ h hs _ hmem => by
      rcases List.mem_cons.mp hmem with rfl | hmem
      · exact h
      · exact hs _ hmem) t

/-- The check of a frame, whose scope may be missing. -/
def Trace.checkFrame (size : Nat) (scope : Option Located) (t : Trace) :
    Except Inconsistency Unit := do
  t.forM (checkSpan scope size)
  t.forM (checkChoice scope)
  checkIterations size scope t

section Steps

variable {ε α β : Type} {f g : α → Except ε Unit} {xs : List α}

theorem forM_congr_of_mem (h : ∀ x ∈ xs, f x = g x) : forM xs f = forM xs g := by
  induction xs with
  | nil => rfl
  | cons x xs ih =>
    obtain ⟨hx, hxs⟩ := List.forall_mem_cons.mp h
    rw [List.forM_cons, List.forM_cons, hx, ih hxs]

/-- A step that all others share may be taken once, if there are others. -/
theorem forM_bind (x : Except ε β) (f : β → α → Except ε Unit) (hne : xs ≠ []) :
    (forM xs fun a => x >>= fun b => f b a) = x >>= fun b => forM xs (f b) := by
  cases x with
  | ok b => rfl
  | error e =>
    cases xs with
    | nil => exact absurd rfl hne
    | cons a xs => rfl

end Steps

namespace Rows

variable {α : Type} {ε : Type} {entry : NodeId → α → Record} {rows : Rows α}

theorem records_cons (row : NodeId × List α) :
    records entry (row :: rows) = row.2.map (entry row.1) ++ records entry rows :=
  List.flatMap_cons

/-- Steps over the entries of rows are steps over the rows. -/
theorem forM_records {f : Record → Except ε Unit} {g : NodeId × List α → Except ε Unit}
    (h : ∀ row ∈ rows, forM (row.2.map (entry row.1)) f = g row) :
    forM (records entry rows) f = forM rows g := by
  induction rows with
  | nil => rfl
  | cons row rows ih =>
    obtain ⟨hrow, hrows⟩ := List.forall_mem_cons.mp h
    rw [records_cons, List.forM_append, hrow, ih hrows, List.forM_cons]

/-- Steps that do nothing for the entries of a table. -/
theorem forM_records_ok {f : Record → Except ε Unit} (h : ∀ n x, f (entry n x) = .ok ()) :
    forM (records entry rows) f = pure () := by
  refine forM_eq_ok.mpr fun r hr => ?_
  obtain ⟨row, -, hr⟩ := List.mem_flatMap.mp hr
  obtain ⟨x, -, rfl⟩ := List.mem_map.mp hr
  exact h row.1 x

end Rows

namespace Tables

variable {size : Nat} {scope : Option Located} {spans : List (NodeId × List Span)}
  {choices : List (NodeId × List Nat)} {loops : List (NodeId × List Tables)}

/-! ## Reading the tables off -/

theorem framesRecords_eq (n : NodeId) (fs : List Tables) :
    framesRecords n fs = fs.map fun f => .iteration n f.records := by
  induction fs with
  | nil => rfl
  | cons f fs ih => rw [framesRecords, ih, List.map_cons]

theorem loopsRecords_eq (loops : List (NodeId × List Tables)) :
    loopsRecords loops = Rows.records (fun n f => .iteration n f.records) loops := by
  induction loops with
  | nil => rfl
  | cons row loops ih =>
    obtain ⟨n, row⟩ := row
    rw [loopsRecords, rowRecords, framesRecords_eq, ih, Rows.records_cons]

theorem records_frame : records (frame spans choices loops) =
    Rows.records .span spans ++ Rows.records .choice choices ++
      Rows.records (fun n f => .iteration n f.records) loops := by
  rw [records, loopsRecords_eq]

/-! ## Checking -/

theorem checkFrames_eq (fs : List Tables) :
    checkFrames size scope fs = forM fs (check size scope) := by
  induction fs with
  | nil => rfl
  | cons f fs ih => rw [checkFrames, ih, List.forM_cons]

theorem checkLoops_eq (loops : List (NodeId × List Tables)) :
    checkLoops size scope loops = forM loops (checkRow size scope) := by
  induction loops with
  | nil => rfl
  | cons row loops ih => rw [checkLoops, ih, List.forM_cons]

theorem checkIterations_eq (t : Trace) :
    Trace.checkIterations size scope t = forM t (Trace.checkIteration size scope) := by
  induction t with
  | nil => rfl
  | cons r t ih => rw [Trace.checkIterations, ih, List.forM_cons]

/-- The spans of a row are checked like spans in a trace. -/
theorem forM_checkSpan (row : NodeId × List Span) :
    forM (row.2.map (.span row.1)) (Trace.checkSpan scope size) = checkSpans scope size row := by
  obtain ⟨n, _ | ⟨s, row⟩⟩ := row
  · rfl
  · rw [List.forM_map]
    exact forM_bind (Trace.placeOf scope (.span n s) .capture) _ (List.cons_ne_nil s row)

/-- The choices of a row are checked like choices in a trace. -/
theorem forM_checkChoice (row : NodeId × List Nat) :
    forM (row.2.map (.choice row.1)) (Trace.checkChoice scope) = checkChoices scope row := by
  obtain ⟨n, _ | ⟨i, row⟩⟩ := row
  · rfl
  · rw [List.forM_map]
    exact forM_bind (Trace.placeOf scope (.choice n i) .alternation) _ (List.cons_ne_nil i row)

/-- The frames of a row are checked like iterations in a trace, if that holds of each of them. -/
theorem forM_checkIteration {row : NodeId × List Tables}
    (h : ∀ f ∈ row.2, ∀ scope, check size scope f = f.records.checkFrame size scope) :
    forM (row.2.map fun f => Record.iteration row.1 f.records) (Trace.checkIteration size scope) =
      checkRow size scope row := by
  obtain ⟨n, fs⟩ := row
  by_cases hfs : fs = []
  · subst hfs
    rfl
  · let place := Trace.placeOf scope (.iteration n []) .quantifier
    calc forM (fs.map fun f => Record.iteration n f.records) (Trace.checkIteration size scope)
      _ = forM fs fun f => Trace.checkIteration size scope (.iteration n f.records) :=
        List.forM_map
      _ = forM fs fun f => place >>= fun q => check size q.body f := by
        refine forM_congr_of_mem fun f hf => ?_
        simp only [h f hf]
        rfl
      _ = place >>= fun q => forM fs (check size q.body) := forM_bind place _ hfs
      _ = checkRow size scope (n, fs) := by
        simp only [checkRow, List.isEmpty_iff, if_neg hfs, checkFrames_eq, place]

/-- **Checking the tables is checking their records.** -/
theorem check_eq (t : Tables) : t.check size scope = t.records.checkFrame size scope := by
  induction t using Tables.induction generalizing scope with
  | frame spans choices loops ih =>
    have hrows : ∀ row ∈ loops, forM (row.2.map fun f => Record.iteration row.1 f.records)
        (Trace.checkIteration size scope) = checkRow size scope row :=
      fun row hrow => forM_checkIteration fun f hf _ => ih row hrow f hf
    -- each of the three checks passes over the other two tables
    simp only [Trace.checkFrame, List.forM_eq_forM, checkIterations_eq, records_frame,
      List.forM_append]
    rw [Rows.forM_records fun row _ => forM_checkSpan row,
      Rows.forM_records_ok fun _ _ => rfl, Rows.forM_records_ok fun _ _ => rfl,
      Rows.forM_records_ok fun _ _ => rfl, Rows.forM_records fun row _ => forM_checkChoice row,
      Rows.forM_records_ok fun _ _ => rfl, Rows.forM_records_ok fun _ _ => rfl,
      Rows.forM_records_ok fun _ _ => rfl, Rows.forM_records hrows]
    simp only [bind_pure_unit, pure_bind, check, checkLoops_eq, List.forM_eq_forM]

end Tables

end CaptureTree
