import CaptureTree.Proofs.Trace.Executed
import CaptureTree.Proofs.Trace.Padded
import CaptureTree.Value.Tabled

/-!
# Reading values from tables is reading them from a trace

`Tables.ReadsAs` says that tables and a trace answer every question of a reader alike, and that
the same holds of the frames of all iterations.

* The tables of a frame in which no node has two rows read as their records
  (`Tables.ReadsAs.of_keyed`), and so do they with more empty rows (`Tables.ReadsAs.of_padded`).
* Values read from tables are those read from a trace that the tables read as
  (`Tables.ReadsAs.assemble_eq`, `Tables.ReadsAs.flatten_eq`), and where nothing can be read, it is
  for the same reason.
-/

namespace CaptureTree

namespace Rows

variable {α β : Type} {rows : Rows α} {n : NodeId}

theorem row_eq_nil (h : n ∉ rows.map Prod.fst) : row n rows = [] := by
  induction rows with
  | nil => rfl
  | cons entry rows ih =>
    obtain ⟨hne, hrest⟩ := not_or.mp (List.mem_cons.not.mp h)
    rw [row, if_neg (Ne.symm hne), ih hrest]

/-- Adding an entry makes a difference for the row of its node only. -/
theorem row_push (m n : NodeId) (x : α) (rows : Rows α) :
    row n (push m x rows) = row n rows ++ if m = n then [x] else [] := by
  induction rows with
  | nil =>
    rw [push, row, row, row]
    split <;> rfl
  | cons entry rows ih =>
    obtain ⟨k, entries⟩ := entry
    rw [push]
    split
    · rename_i hk
      subst hk
      rw [row, row]
      split
      · rfl
      · exact (List.append_nil _).symm
    · rename_i hk
      rw [row, row, ih]
      split
      · rename_i hkn
        rw [if_neg fun hmn => hk (hkn.trans hmn.symm), List.append_nil]
      · rfl

/-- **What the records of a table hold for a node is its row**, if no node has two rows. -/
theorem filterMap_records {entry : NodeId → α → Record} {get : Record → Option β} {f : α → β}
    (hnodup : (rows.map Prod.fst).Nodup)
    (hget : ∀ m x, get (entry m x) = if m = n then some (f x) else none) :
    (records entry rows).filterMap get = (row n rows).map f := by
  induction rows with
  | nil => rfl
  | cons entries rows ih =>
    obtain ⟨m, xs⟩ := entries
    obtain ⟨hnotMem, hnodup⟩ := List.nodup_cons.mp hnodup
    rw [records_cons, List.filterMap_append, List.filterMap_map, ih hnodup, row]
    split
    · rename_i hm
      subst hm
      have hsome : (get ∘ entry m) = some ∘ f := funext fun x => (hget m x).trans (if_pos rfl)
      rw [hsome, List.filterMap_eq_map, row_eq_nil hnotMem, List.map_nil, List.append_nil]
    · rename_i hm
      have hnone : (get ∘ entry m) = fun _ => none := funext fun x => (hget m x).trans (if_neg hm)
      rw [hnone, List.filterMap_none, List.nil_append]

/-- Readers pass over the records of other tables. -/
theorem filterMap_records_eq_nil {entry : NodeId → α → Record} {get : Record → Option β}
    (hget : ∀ m x, get (entry m x) = none) : (records entry rows).filterMap get = [] := by
  refine List.filterMap_eq_nil_iff.mpr fun r hr => ?_
  obtain ⟨row, -, hr⟩ := List.mem_flatMap.mp hr
  obtain ⟨x, -, rfl⟩ := List.mem_map.mp hr
  exact hget row.1 x

end Rows

namespace Tables

variable {t t' : Tables} {u : Trace} {s : Shape} {ss : List Shape} {slot : SlotTitle}

/-- A frame in the row of a quantifier is one in its table. -/
theorem exists_row_of_mem_iterations {spans : List (NodeId × List Span)}
    {choices : List (NodeId × List Nat)} {loops : List (NodeId × List Tables)} {n : NodeId}
    {f : Tables} (hf : f ∈ (Tables.frame spans choices loops).iterations n) :
    ∃ row ∈ loops, f ∈ row.2 := by
  induction loops with
  | nil => exact absurd hf List.not_mem_nil
  | cons row loops ih =>
    rw [Tables.iterations, Rows.row] at hf
    split at hf
    · exact ⟨row, List.mem_cons_self, hf⟩
    · obtain ⟨row', hrow', hf⟩ := ih hf
      exact ⟨row', List.mem_cons_of_mem row hrow', hf⟩

/-- **Does every node have at most one row in each table?**  Tables that are looked up by node are
of this kind. -/
inductive Keyed : Tables → Prop
  | frame {spans : List (NodeId × List Span)} {choices : List (NodeId × List Nat)}
      {loops : List (NodeId × List Tables)} (ofSpans : (spans.map Prod.fst).Nodup)
      (ofChoices : (choices.map Prod.fst).Nodup) (ofLoops : (loops.map Prod.fst).Nodup)
      (inside : ∀ row ∈ loops, ∀ f ∈ row.2, Keyed f) : Keyed (.frame spans choices loops)

/-- **Do tables answer all questions as a trace does?** -/
inductive ReadsAs : Tables → Trace → Prop
  | intro {t : Tables} {u : Trace} (spans : ∀ n, t.spans n = u.spans n)
      (choices : ∀ n, t.choices n = u.choices n)
      (iterations : ∀ n, List.Forall₂ ReadsAs (t.iterations n) (u.iterations n)) : ReadsAs t u

namespace ReadsAs

theorem spans (h : ReadsAs t u) : ∀ n, t.spans n = u.spans n := by
  cases h
  assumption

theorem choices (h : ReadsAs t u) : ∀ n, t.choices n = u.choices n := by
  cases h
  assumption

theorem iterations (h : ReadsAs t u) :
    ∀ n, List.Forall₂ ReadsAs (t.iterations n) (u.iterations n) := by
  cases h
  assumption

/-! ## Tables and their records -/

/-- **Tables read as their records.** -/
theorem of_keyed (h : t.Keyed) : ReadsAs t t.records := by
  induction t using Tables.induction with
  | frame spans choices loops ih =>
    obtain ⟨hspans, hchoices, hloops, hinside⟩ := h
    rw [records_frame]
    refine .intro (fun n => ?_) (fun n => ?_) fun n => ?_
    · rw [Trace.spans_append, Trace.spans_append, Trace.spans, Trace.spans, Trace.spans,
        Rows.filterMap_records (f := id) hspans fun _ _ => rfl,
        Rows.filterMap_records_eq_nil fun _ _ => rfl, Rows.filterMap_records_eq_nil fun _ _ => rfl,
        List.map_id, List.append_nil, List.append_nil]
      rfl
    · rw [Trace.choices_append, Trace.choices_append, Trace.choices, Trace.choices, Trace.choices,
        Rows.filterMap_records (f := id) hchoices fun _ _ => rfl,
        Rows.filterMap_records_eq_nil fun _ _ => rfl, Rows.filterMap_records_eq_nil fun _ _ => rfl,
        List.map_id, List.append_nil, List.nil_append]
      rfl
    · rw [Trace.iterations_append, Trace.iterations_append, Trace.iterations, Trace.iterations,
        Trace.iterations, Rows.filterMap_records (f := Tables.records) hloops fun _ _ => rfl,
        Rows.filterMap_records_eq_nil fun _ _ => rfl, Rows.filterMap_records_eq_nil fun _ _ => rfl,
        List.nil_append, List.nil_append, List.forall₂_map_right_iff]
      refine List.forall₂_same.mpr fun f hf => ?_
      have hmem : f ∈ (frame spans choices loops).iterations n := hf
      obtain ⟨row, hrow, hfrow⟩ := exists_row_of_mem_iterations hmem
      exact ih row hrow f hfrow (hinside row hrow f hfrow)

/-- **Empty rows make no difference.** -/
theorem of_padded (h : ReadsAs t u) (hpadded : Padded t t') : ReadsAs t' u := by
  induction t using Tables.induction generalizing t' u with
  | frame spans choices loops ih =>
    refine .intro (fun n => (hpadded.spans_eq n).trans (h.spans n))
      (fun n => (hpadded.choices_eq n).trans (h.choices n)) fun n => ?_
    have hframes := (List.forall₂_and_left _ _).mpr ⟨fun f hf => hf, hpadded.iterations n⟩
    refine forall₂_transfer (fun f f' g hff hfg => ?_) hframes (h.iterations n)
    obtain ⟨row, hrow, hfrow⟩ := exists_row_of_mem_iterations hff.1
    exact ih row hrow f hfrow hfg hff.2

/-- Where nothing has been recorded, there is nothing to read. -/
theorem empty : ReadsAs .empty [] :=
  .intro (fun _ => rfl) (fun _ => rfl) fun _ => .nil

/-! ## Reading values -/

theorem touches_eq (h : ReadsAs t u) (p : Located) : t.touches p = u.touches p := by
  rw [Bool.eq_iff_iff, ← Bool.not_eq_false, ← Bool.not_eq_false, not_iff_not,
    Trace.touches_eq_false_iff_rows]
  simp only [touches, List.any_eq_false, Bool.or_eq_true, Bool.not_eq_true', List.isEmpty_eq_false_iff,
    not_or, ne_eq, not_not, h.spans, h.choices]
  refine forall₂_congr fun n _ => ?_
  rw [and_assoc, ← List.length_eq_zero_iff (l := t.iterations n), (h.iterations n).length_eq,
    List.length_eq_zero_iff]

/-- A span may be recorded in both. -/
theorem record (h : ReadsAs t u) (n : NodeId) (s : Span) :
    ReadsAs (t.apply (.record n s)) (u ++ [.span n s]) := by
  obtain ⟨spans, choices, loops⟩ := t
  refine .intro (fun m => ?_) (fun m => ?_) fun m => ?_
  · rw [Trace.spans_append, ← h.spans m]
    refine (Rows.row_push n m s spans).trans (congrArg _ ?_)
    by_cases hm : n = m <;> simp [Trace.spans, Record.spanOf?, hm]
  · rw [Trace.choices_append]
    exact (h.choices m).trans (List.append_nil _).symm
  · rw [Trace.iterations_append]
    show List.Forall₂ ReadsAs (Rows.row m loops) (u.iterations m ++ [])
    rw [List.append_nil]
    exact h.iterations m

theorem splitFrame (h : ReadsAs t u) (rows : List (NodeId × List Span)) (i : Nat) :
    ReadsAs (rows.foldl (fun t row => row.2[i]?.elim t fun s => t.apply (.record row.1 s)) t)
      (u ++ Trace.splitFrame rows i) := by
  induction rows generalizing t u with
  | nil =>
    rw [Trace.splitFrame, List.filterMap_nil, List.append_nil]
    exact h
  | cons row rows ih =>
    obtain ⟨n, spans⟩ := row
    cases hs : spans[i]? with
    | none =>
      have hskip : Trace.splitFrame ((n, spans) :: rows) i = Trace.splitFrame rows i :=
        List.filterMap_cons_none (congrArg (Option.map (Record.span n)) hs)
      rw [List.foldl_cons, hs, Option.elim_none, hskip]
      exact ih h
    | some s =>
      have hfirst : Trace.splitFrame ((n, spans) :: rows) i =
          .span n s :: Trace.splitFrame rows i :=
        List.filterMap_cons_some (congrArg (Option.map (Record.span n)) hs)
      rw [List.foldl_cons, hs, Option.elim_some, hfirst, List.append_cons]
      exact ih (h.record n s)

/-- Span lists are split alike, or not at all. -/
theorem splitSpans (h : ReadsAs t u) (slot : SlotTitle) (b : Located) :
    (∃ e, t.splitSpans slot b = .error e ∧ u.splitSpans slot b = .error e) ∨
      ∃ fs gs, t.splitSpans slot b = .ok fs ∧ u.splitSpans slot b = .ok gs ∧
        List.Forall₂ ReadsAs fs gs := by
  simp only [Tables.splitSpans, Trace.splitSpans, h.spans]
  generalize b.captures.map (fun c => (c.id, u.spans c.id)) = rows
  cases b.subtrees.find? Trace.blocksSplitting with
  | some p => exact .inl ⟨_, rfl, rfl⟩
  | none =>
    dsimp only
    generalize (rows.head?.map fun row => row.2.length).getD 0 = n
    cases rows.find? fun row => row.2.length != n with
    | some row => exact .inl ⟨_, rfl, rfl⟩
    | none =>
      refine .inr ⟨_, _, rfl, rfl, ?_⟩
      rw [List.forall₂_map_left_iff, List.forall₂_map_right_iff]
      exact List.forall₂_same.mpr fun i _ => empty.splitFrame rows i

/-- **The iterations of a quantifier read alike**, or they can not be told apart. -/
theorem frames (h : ReadsAs t u) (slot : SlotTitle) (q : Located) :
    (∃ e, t.frames slot q = .error e ∧ u.frames slot q = .error e) ∨
      ∃ fs gs, t.frames slot q = .ok fs ∧ u.frames slot q = .ok gs ∧
        List.Forall₂ ReadsAs fs gs := by
  have hlength := (h.iterations q.id).length_eq
  have htouches : t.touches = u.touches := funext h.touches_eq
  rw [Tables.frames, Trace.frames, htouches]
  cases q.body.filter u.touches with
  | none => exact .inr ⟨_, _, rfl, rfl, h.iterations q.id⟩
  | some b =>
    simp only [isEmpty_eq_of_length_eq hlength, hlength]
    split
    · exact h.splitSpans slot b
    · exact .inl ⟨_, rfl, rfl⟩

theorem branchTaken_eq (h : ReadsAs t u) (slot : SlotTitle) (a : Located) :
    t.branchTaken slot a = u.branchTaken slot a := by
  have hlive : t.liveBranches a = u.liveBranches a := by
    simp only [Tables.liveBranches, Trace.liveBranches, h.choices, h.touches_eq]
  rewrite [Tables.branchTaken, Trace.branchTaken, h.choices, hlive]
  rfl

theorem assembleAll_eq (h : ∀ s ∈ ss, t.assemble s = Value.assemble s u) :
    t.assembleAll ss = Value.assembleAll ss u := by
  induction ss with
  | nil => rfl
  | cons s ss ih =>
    obtain ⟨hs, hss⟩ := List.forall_mem_cons.mp h
    rw [assembleAll, Value.assembleAll, hs, ih hss]

theorem assembleBranch_eq (i : Nat) (h : ∀ s ∈ ss, t.assemble s = Value.assemble s u) :
    t.assembleBranch slot ss i = Value.assembleBranch slot ss i u := by
  induction ss generalizing i with
  | nil => rfl
  | cons s ss ih =>
    obtain ⟨hs, hss⟩ := List.forall_mem_cons.mp h
    cases i with
    | zero => exact hs
    | succ i => exact ih i hss

/-- Frames that read alike one by one give the same values. -/
theorem mapM_assemble_eq {fs : List Tables} {gs : List Trace}
    (hframes : List.Forall₂ ReadsAs fs gs)
    (h : ∀ f g, ReadsAs f g → assemble s f = Value.assemble s g) :
    (fs.mapM fun f => assemble s f) = gs.mapM fun g => Value.assemble s g := by
  induction hframes with
  | nil => rfl
  | cons hfg _ ih => rw [List.mapM_cons, List.mapM_cons, h _ _ hfg, ih]

/-- **The same value is read, or reading fails for the same reason.** -/
theorem assemble_eq (h : ReadsAs t u) (s : Shape) : t.assemble s = Value.assemble s u := by
  induction s using Shape.induction generalizing t u with
  | empty => rfl
  | leaf o =>
    cases o with
    | none => rfl
    | some c => rw [assemble, Value.assemble, Option.map_some, Option.map_some, h.spans]
  | product o ss ih =>
    rw [assemble, Value.assemble, assembleAll_eq fun s hs => ih s hs h]
  | sum a ss ih =>
    rw [assemble, Value.assemble, h.branchTaken_eq]
    simp only [assembleBranch_eq _ fun s hs => ih s hs h]
  | repeated q s ih =>
    rw [assemble, Value.assemble]
    rcases h.frames (Shape.repeated q s).title q with ⟨e, ht, hu⟩ | ⟨fs, gs, ht, hu, hframes⟩
    · rw [ht, hu]
      rfl
    · rw [ht, hu]
      simp only [bind, Except.bind]
      rw [mapM_assemble_eq hframes fun _ _ => ih]
  | opt q s ih =>
    rw [assemble, Value.assemble]
    rcases h.frames (Shape.opt q s).title q with ⟨e, ht, hu⟩ | ⟨fs, gs, ht, hu, hframes⟩
    · simp only [ht, hu]
      rfl
    · simp only [ht, hu, bind, Except.bind]
      cases hframes with
      | nil => rfl
      | cons hfg hrest =>
        cases hrest with
        | nil => simp only [ih hfg]
        | cons _ hrest => simp only [List.length_cons, hrest.length_eq]

/-- **The results of all captures are the same.** -/
theorem flatten_eq (h : ReadsAs t u) (whole : Span) (s : Shape) (v : Value)
    (cs : List CaptureInfo) : t.flatten whole s v cs = Value.flatten whole s v cs u := by
  have hresult : t.result s v = Value.result s v u := by
    funext c
    rewrite [result, Value.result, h.assemble_eq]
    rfl
  rw [flatten, Value.flatten, hresult]

end ReadsAs

end Tables

end CaptureTree
