import CaptureTree.Proofs.Value.Tabled

/-!
# Recording in the innermost frame

While a machine runs, some frames are open: the root, an iteration recorded in it, an iteration
recorded in that, and so on.  Everything goes to the innermost one, and the iteration that is open
in a frame is the last record there.  So what the tables say as a whole is known from what each
open frame held before (`OpenFrames.plug`), and so is the address of the innermost frame
(`OpenFrames.address`).

A change of the innermost frame that is right for what this frame says is right for what the tables
say (`Tables.ReadsAs.exists_mapFrame`).  Two changes matter: adding a record at the end, and
dropping it again (`exists_applyAt`, `exists_retractAt`).
-/

namespace CaptureTree

/-! ## Rows -/

/-- What goes together with a list and one more entry at its end is of the same form. -/
theorem exists_concat_of_forall₂ {α β : Type} {R : α → β → Prop} {xs : List α} {ys : List β}
    {y : β} (h : List.Forall₂ R xs (ys ++ [y])) :
    ∃ as a, List.Forall₂ R as ys ∧ R a y ∧ xs = as ++ [a] := by
  induction ys generalizing xs with
  | nil =>
    obtain ⟨x, xs, hxy, hnil, rfl⟩ := List.forall₂_cons_right_iff.mp h
    obtain rfl := List.forall₂_nil_right_iff.mp hnil
    exact ⟨[], x, .nil, hxy, rfl⟩
  | cons z ys ih =>
    obtain ⟨x, xs, hxz, hrest, rfl⟩ := List.forall₂_cons_right_iff.mp h
    obtain ⟨as, a, has, hay, rfl⟩ := ih hrest
    exact ⟨x :: as, a, .cons hxz has, hay, rfl⟩

namespace Rows

variable {α : Type} {rows : Rows α} {n : NodeId} {x y : α}

/-- Dropping the last entry of a row changes no other row. -/
theorem exists_pop {xs : List α} (h : row n rows = xs ++ [x]) :
    ∃ rows', pop n rows = .ok rows' ∧ row n rows' = xs ∧ ∀ m ≠ n, row m rows' = row m rows := by
  induction rows with
  | nil =>
    rw [row] at h
    exact absurd h.symm (by simp)
  | cons entry rows ih =>
    obtain ⟨k, entries⟩ := entry
    rw [row] at h
    by_cases hk : k = n
    · rw [if_pos hk] at h
      subst h hk
      refine ⟨(k, xs) :: rows, ?_, if_pos rfl, fun m hm => ?_⟩
      · rw [pop, if_pos rfl, List.dropLast_concat]
        simp
      · rw [row, row, if_neg hm.symm, if_neg hm.symm]
    · rw [if_neg hk] at h
      obtain ⟨rows', hpop, hrow, hothers⟩ := ih h
      refine ⟨(k, entries) :: rows', ?_, ?_, fun m hm => ?_⟩
      · rw [pop, if_neg hk, hpop]
        rfl
      · rw [row, if_neg hk, hrow]
      · rw [row, row, hothers m hm]

/-- What rows go together with may lose an entry at the end of one list. -/
theorem exists_pop_of_forall₂ {β : Type} {R : α → β → Prop} {lists : NodeId → List β} {b : β}
    (h : ∀ m, List.Forall₂ R (row m rows) (lists m ++ if n = m then [b] else [])) :
    ∃ rows', pop n rows = .ok rows' ∧ ∀ m, List.Forall₂ R (row m rows') (lists m) := by
  have hlist := h n
  rw [if_pos rfl] at hlist
  obtain ⟨xs, x, hxs, -, hsplit⟩ := exists_concat_of_forall₂ hlist
  obtain ⟨rows', hpop, hrow, hothers⟩ := exists_pop hsplit
  refine ⟨rows', hpop, fun m => ?_⟩
  by_cases hm : m = n
  · rw [hm, hrow]
    exact hxs
  · have hother := h m
    rw [if_neg (Ne.symm hm), List.append_nil] at hother
    rw [hothers m hm]
    exact hother

/-- Replacing an entry of a row changes no other row. -/
theorem exists_mapEntry {i : Nat} {f : α → Except ChangeError α} (hx : (row n rows)[i]? = some x)
    (hf : f x = .ok y) :
    ∃ rows', mapEntry n i f rows = .ok rows' ∧ row n rows' = (row n rows).set i y ∧
      ∀ m ≠ n, row m rows' = row m rows := by
  induction rows with
  | nil => cases hx
  | cons entry rows ih =>
    obtain ⟨k, entries⟩ := entry
    rw [row] at hx
    by_cases hk : k = n
    · rw [if_pos hk] at hx
      subst hk
      refine ⟨(k, entries.set i y) :: rows, ?_, ?_, fun m hm => ?_⟩
      · rw [mapEntry, if_pos rfl, hx]
        simp only [hf]
        rfl
      · rw [row, row, if_pos rfl, if_pos rfl]
      · rw [row, row, if_neg hm.symm, if_neg hm.symm]
    · rw [if_neg hk] at hx
      obtain ⟨rows', hmap, hrow, hothers⟩ := ih hx
      refine ⟨(k, entries) :: rows', ?_, ?_, fun m hm => ?_⟩
      · rw [mapEntry, if_neg hk, hmap]
        rfl
      · rw [row, if_neg hk, hrow, row, if_neg hk]
      · rw [row, row, hothers m hm]

end Rows

/-! ## One frame -/

namespace Trace

theorem spans_span (m n : NodeId) (s : Span) : spans [.span m s] n = if m = n then [s] else [] := by
  by_cases hm : m = n <;> simp [spans, Record.spanOf?, hm]

theorem choices_choice (m n : NodeId) (i : Nat) :
    choices [.choice m i] n = if m = n then [i] else [] := by
  by_cases hm : m = n <;> simp [choices, Record.choiceOf?, hm]

theorem iterations_iteration (m n : NodeId) (f : Trace) :
    iterations [.iteration m f] n = if m = n then [f] else [] := by
  by_cases hm : m = n <;> simp [iterations, Record.frameOf?, hm]

end Trace

namespace Tables

variable {t : Tables} {u g : Trace} {n : NodeId}

namespace ReadsAs

/-- A branch may be recorded in both. -/
theorem choose (h : ReadsAs t u) (n : NodeId) (i : Nat) :
    ReadsAs (t.apply (.choose n i)) (u ++ [.choice n i]) := by
  obtain ⟨spans, choices, loops⟩ := t
  refine .intro (fun m => ?_) (fun m => ?_) fun m => ?_
  · rw [Trace.spans_append]
    exact (h.spans m).trans (List.append_nil _).symm
  · rw [Trace.choices_append, ← h.choices m]
    rw [Trace.choices_choice]
    exact Rows.row_push n m i choices
  · rw [Trace.iterations_append]
    show List.Forall₂ ReadsAs (Rows.row m loops) (u.iterations m ++ [])
    rw [List.append_nil]
    exact h.iterations m

/-- A new iteration may be recorded in both. -/
theorem iterate (h : ReadsAs t u) (n : NodeId) :
    ReadsAs (t.apply (.iterate n)) (u ++ [.iteration n []]) := by
  obtain ⟨spans, choices, loops⟩ := t
  refine .intro (fun m => ?_) (fun m => ?_) fun m => ?_
  · rw [Trace.spans_append]
    exact (h.spans m).trans (List.append_nil _).symm
  · rw [Trace.choices_append]
    exact (h.choices m).trans (List.append_nil _).symm
  · rw [Trace.iterations_append]
    show List.Forall₂ ReadsAs (Rows.row m (Rows.push n Tables.empty loops)) _
    rw [Rows.row_push]
    refine List.rel_append (h.iterations m) ?_
    rw [Trace.iterations_iteration]
    split
    · exact .cons .empty .nil
    · exact .nil

/-- **A change may be made in both.** -/
theorem apply (h : ReadsAs t u) (c : Change) : ReadsAs (t.apply c) (u ++ [c.entry]) := by
  cases c with
  | record n s => exact h.record n s
  | choose n i => exact h.choose n i
  | iterate n => exact h.iterate n

/-- **The last record may be dropped in both.** -/
theorem exists_retract {r : Record} (h : ReadsAs t (u ++ [r])) :
    ∃ t', t.retract r.kind r.node = .ok t' ∧ ReadsAs t' u := by
  obtain ⟨spans, choices, loops⟩ := t
  have hspans : ∀ m, Rows.row m spans = u.spans m ++ Trace.spans [r] m := fun m =>
    (h.spans m).trans (Trace.spans_append u [r] m)
  have hchoices : ∀ m, Rows.row m choices = u.choices m ++ Trace.choices [r] m := fun m =>
    (h.choices m).trans (Trace.choices_append u [r] m)
  have hloops : ∀ m, List.Forall₂ ReadsAs (Rows.row m loops)
      (u.iterations m ++ Trace.iterations [r] m) := fun m =>
    Trace.iterations_append u [r] m ▸ h.iterations m
  -- only the table of this kind of record had an entry for it
  cases r with
  | span n s =>
    obtain ⟨rows, hpop, hrows⟩ := Rows.exists_pop_of_forall₂ fun m =>
      List.forall₂_eq_eq_eq ▸ Trace.spans_span n m s ▸ hspans m
    refine ⟨frame rows choices loops, bind_eq_ok.mpr ⟨rows, hpop, rfl⟩,
      .intro (fun m => ?_) (fun m => (hchoices m).trans (List.append_nil _)) fun m => ?_⟩
    · exact List.forall₂_eq_eq_eq ▸ hrows m
    · exact List.append_nil (u.iterations m) ▸ hloops m
  | choice n i =>
    obtain ⟨rows, hpop, hrows⟩ := Rows.exists_pop_of_forall₂ fun m =>
      List.forall₂_eq_eq_eq ▸ Trace.choices_choice n m i ▸ hchoices m
    refine ⟨frame spans rows loops, bind_eq_ok.mpr ⟨rows, hpop, rfl⟩,
      .intro (fun m => (hspans m).trans (List.append_nil _)) (fun m => ?_) fun m => ?_⟩
    · exact List.forall₂_eq_eq_eq ▸ hrows m
    · exact List.append_nil (u.iterations m) ▸ hloops m
  | iteration n g =>
    obtain ⟨rows, hpop, hrows⟩ := Rows.exists_pop_of_forall₂ fun m =>
      Trace.iterations_iteration n m g ▸ hloops m
    exact ⟨frame spans choices rows, bind_eq_ok.mpr ⟨rows, hpop, rfl⟩,
      .intro (fun m => (hspans m).trans (List.append_nil _))
        (fun m => (hchoices m).trans (List.append_nil _)) hrows⟩

/-- **The last iteration may be changed in both.** -/
theorem exists_mapEntry {f : Tables → Except ChangeError Tables} {g' : Trace}
    (hf : ∀ t, ReadsAs t g → ∃ t', f t = .ok t' ∧ ReadsAs t' g')
    (h : ReadsAs t (u ++ [.iteration n g])) :
    ∃ t', t.mapFrame f [(n, (u.iterations n).length)] = .ok t' ∧
      ReadsAs t' (u ++ [.iteration n g']) := by
  obtain ⟨spans, choices, loops⟩ := t
  have hloops : ∀ m, List.Forall₂ ReadsAs (Rows.row m loops)
      (u.iterations m ++ Trace.iterations [.iteration n g] m) := fun m =>
    Trace.iterations_append u [.iteration n g] m ▸ h.iterations m
  have hrow := hloops n
  rw [Trace.iterations_iteration, if_pos rfl] at hrow
  obtain ⟨fs, x, hfs, hx, hsplit⟩ := exists_concat_of_forall₂ hrow
  obtain ⟨y, hy, hreads⟩ := hf x hx
  have hlast : (Rows.row n loops)[(u.iterations n).length]? = some x := by
    rw [hsplit, ← hfs.length_eq, List.getElem?_append_right (Nat.le_refl _), Nat.sub_self]
    rfl
  obtain ⟨rows, hmap, hrow, hothers⟩ := Rows.exists_mapEntry hlast hy
  refine ⟨frame spans choices rows, bind_eq_ok.mpr ⟨rows, hmap, rfl⟩,
    .intro (fun m => ?_) (fun m => ?_) fun m => ?_⟩
  · refine (h.spans m).trans ?_
    rw [Trace.spans_append, Trace.spans_append]
    rfl
  · refine (h.choices m).trans ?_
    rw [Trace.choices_append, Trace.choices_append]
    rfl
  · show List.Forall₂ ReadsAs (Rows.row m rows) _
    rw [Trace.iterations_append, Trace.iterations_iteration]
    by_cases hm : m = n
    · subst hm
      rw [if_pos rfl, hrow, hsplit, ← hfs.length_eq, List.set_append_right _ _ (Nat.le_refl _),
        Nat.sub_self]
      exact List.rel_append hfs (.cons hreads .nil)
    · have hother := hloops m
      rw [Trace.iterations_iteration, if_neg (Ne.symm hm)] at hother
      rw [if_neg (Ne.symm hm), hothers m hm]
      exact hother

/-- A frame of the tables says what the frame of the trace says. -/
theorem exists_frame (h : ReadsAs t u) {path : FrameAddress} {f : Tables}
    (hf : t.frame? path = some f) : ∃ g, u.frame? path = some g ∧ ReadsAs f g := by
  induction path generalizing t u with
  | nil =>
    obtain rfl := Option.some.inj hf
    exact ⟨u, rfl, h⟩
  | cons entry path ih =>
    obtain ⟨x, hx, hf⟩ := Option.bind_eq_some_iff.mp hf
    obtain ⟨hlt, rfl⟩ := List.getElem?_eq_some_iff.mp hx
    have hrow := h.iterations entry.1
    have hlt' := hrow.length_eq ▸ hlt
    obtain ⟨g, hg, hreads⟩ := ih (hrow.get hlt hlt') hf
    exact ⟨g, Option.bind_eq_some_iff.mpr ⟨_, List.getElem?_eq_getElem hlt', hg⟩, hreads⟩

end ReadsAs

theorem mapFrame_append (f : Tables → Except ChangeError Tables) (path path' : FrameAddress) :
    mapFrame f (path ++ path') = mapFrame (mapFrame f path') path := by
  induction path with
  | nil => rfl
  | cons entry path ih =>
    funext t
    obtain ⟨spans, choices, loops⟩ := t
    rw [List.cons_append, mapFrame, mapFrame, ih]

theorem frame?_append (t : Tables) (path path' : FrameAddress) :
    t.frame? (path ++ path') = (t.frame? path).bind fun f => f.frame? path' := by
  induction path generalizing t with
  | nil => rfl
  | cons entry path ih =>
    rw [List.cons_append, frame?, frame?, Option.bind_assoc]
    exact congrArg _ (funext ih)

end Tables

/-! ## All open frames -/

/-- The frames around the innermost one, from the inside out: what is recorded there, less the
iteration that is open, and the quantifier that this is an iteration of. -/
abbrev OpenFrames := List (Trace × NodeId)

namespace OpenFrames

/-- What all frames together say. -/
def plug : OpenFrames → Trace → Trace
  | [], t => t
  | (before, q) :: around, t => plug around (before ++ [.iteration q t])

/-- The address of the innermost frame. -/
def address : OpenFrames → FrameAddress
  | [] => []
  | (before, q) :: around => address around ++ [(q, (before.iterations q).length)]

/-- The addresses of all open frames, from the inside out. -/
def addresses : OpenFrames → List FrameAddress
  | [] => [[]]
  | entry :: around => address (entry :: around) :: addresses around

theorem addresses_eq (around : OpenFrames) :
    ∃ rest, addresses around = address around :: rest := by
  cases around with
  | nil => exact ⟨[], rfl⟩
  | cons entry around => exact ⟨addresses around, rfl⟩

end OpenFrames

namespace Tables

namespace ReadsAs

open OpenFrames

variable {t : Tables} {u g : Trace} {around : OpenFrames}

/-- **What is right for the innermost frame is right for the whole.** -/
theorem exists_mapFrame {f : Tables → Except ChangeError Tables}
    (hf : ∀ t, ReadsAs t u → ∃ t', f t = .ok t' ∧ ReadsAs t' g)
    (h : ReadsAs t (plug around u)) :
    ∃ t', t.mapFrame f (address around) = .ok t' ∧ ReadsAs t' (plug around g) := by
  induction around generalizing f u g with
  | nil => exact hf t h
  | cons entry around ih =>
    rw [address, mapFrame_append]
    exact ih (fun t ht => ht.exists_mapEntry hf) h

/-- **A record may be added** in the innermost frame. -/
theorem exists_applyAt (h : ReadsAs t (plug around u)) (c : Change) :
    ∃ t', t.applyAt (address around) c = .ok t' ∧ ReadsAs t' (plug around (u ++ [c.entry])) :=
  h.exists_mapFrame fun _ ht => ⟨_, rfl, ht.apply c⟩

/-- **The last record may be dropped** from the innermost frame. -/
theorem exists_retractAt {r : Record} (h : ReadsAs t (plug around (u ++ [r]))) :
    ∃ t', t.retractAt (address around) r.kind r.node = .ok t' ∧ ReadsAs t' (plug around u) :=
  h.exists_mapFrame fun _ ht => ht.exists_retract

/-- The innermost frame is found at its address. -/
theorem exists_frame? (h : ReadsAs t (plug around u)) :
    ∃ f, t.frame? (address around) = some f ∧ ReadsAs f u := by
  induction around generalizing u with
  | nil => exact ⟨t, rfl, h⟩
  | cons entry around ih =>
    obtain ⟨before, q⟩ := entry
    obtain ⟨f, hf, hreads⟩ := ih h
    have hrow := hreads.iterations q
    rw [Trace.iterations_append, Trace.iterations_iteration, if_pos rfl] at hrow
    obtain ⟨fs, g, hfs, hg, hsplit⟩ := exists_concat_of_forall₂ hrow
    refine ⟨g, ?_, hg⟩
    rw [address, frame?_append, hf, Option.bind_some, frame?, hsplit, ← hfs.length_eq,
      List.getElem?_append_right (Nat.le_refl _), Nat.sub_self]
    rfl

end ReadsAs

end Tables

end CaptureTree
