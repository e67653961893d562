import CaptureTree.Proofs.Trace.Tables

/-!
# Tables with emptied rows

Taking back what has been recorded empties rows and leaves them in their tables.  `Tables.Padded`
says that one frame has just the rows of another and besides only empty ones, and that the same
holds of the frames of all iterations.

* `Tables.Padded.exists_retractAt` is the step: after a change to a frame of `t`, let there be more
  empty rows than the change has made.  Then the change can be taken back, and what results is `t`
  with more empty rows.
* Readers do not see empty rows: they find the same spans and choices
  (`Tables.Padded.spans_eq`, `Tables.Padded.choices_eq`), as many iterations
  (`Tables.Padded.iterations`), the same frames (`Tables.Padded.frame?`) and the same records
  (`Tables.Padded.records_eq`).
-/

namespace CaptureTree

section Lists

variable {α β : Type} {R : α → β → Prop} {xs : List α} {ys : List β} {i : Nat}

/-- Without their last entries, lists still go together. -/
theorem forall₂_dropLast (h : List.Forall₂ R xs ys) : List.Forall₂ R xs.dropLast ys.dropLast := by
  rw [List.dropLast_eq_take, List.dropLast_eq_take, h.length_eq]
  exact List.forall₂_take _ h

/-- Replacing an entry of one list may be made good by replacing its partner. -/
theorem forall₂_of_set {x z : α} {y : β} (h : List.Forall₂ R (xs.set i z) ys)
    (hx : xs[i]? = some x) (hxy : R x y) : List.Forall₂ R xs (ys.set i y) := by
  induction xs generalizing ys i with
  | nil => cases hx
  | cons x' xs ih =>
    cases i with
    | zero =>
      obtain rfl := Option.some.inj hx
      cases h with
      | cons _ hrest => exact .cons hxy hrest
    | succ i =>
      cases h with
      | cons hhead hrest => exact .cons hhead (ih hrest hx)

/-- At the same place both lists have entries that go together, or neither has one. -/
theorem rel_getElem?_of_forall₂ (h : List.Forall₂ R xs ys) (i : Nat) :
    Option.Rel R xs[i]? ys[i]? := by
  induction h generalizing i with
  | nil => exact .none
  | cons hhead _ ih =>
    cases i with
    | zero => exact .some hhead
    | succ i => exact ih i

theorem rel_bind {γ : Type} {S : γ → γ → Prop} {x : Option α} {y : Option β} {f : α → Option γ}
    {g : β → Option γ} (h : Option.Rel R x y)
    (hstep : ∀ a b, R a b → Option.Rel S (f a) (g b)) : Option.Rel S (x.bind f) (y.bind g) := by
  cases h with
  | none => exact .none
  | some hab => exact hstep _ _ hab

theorem rel_imp {S : α → β → Prop} {x : Option α} {y : Option β} (h : Option.Rel R x y)
    (himp : ∀ a b, R a b → S a b) : Option.Rel S x y := by
  cases h with
  | none => exact .none
  | some hab => exact .some (himp _ _ hab)

end Lists

namespace Rows

variable {α : Type} {R : α → α → Prop} {rows rows₁ rows' : Rows α} {n : NodeId} {i : Nat}

/-- **Do two tables have the same rows, up to empty ones?**  The entries of the rows go together by
the relation, and at the end the second table may have more rows, with nothing in them. -/
inductive Padded (R : α → α → Prop) : Rows α → Rows α → Prop
  | nil : Padded R [] []
  | cons {xs ys : List α} {rows rows' : Rows α} (m : NodeId) (entries : List.Forall₂ R xs ys)
      (rest : Padded R rows rows') : Padded R ((m, xs) :: rows) ((m, ys) :: rows')
  | emptied {rows' : Rows α} (m : NodeId) (rest : Padded R [] rows') : Padded R [] ((m, []) :: rows')

namespace Padded

theorem refl (h : ∀ row ∈ rows, ∀ x ∈ row.2, R x x) : Padded R rows rows := by
  induction rows with
  | nil => exact .nil
  | cons row rows ih =>
    obtain ⟨hrow, hrows⟩ := List.forall_mem_cons.mp h
    exact .cons row.1 (List.forall₂_same.mpr hrow) (ih hrows)

/-- Looking a row up finds the same entries, or nothing in either table. -/
theorem row (h : Padded R rows rows') (n : NodeId) :
    List.Forall₂ R (Rows.row n rows) (Rows.row n rows') := by
  induction h with
  | nil => exact .nil
  | cons m hentries _ ih =>
    rw [Rows.row, Rows.row]
    split
    · exact hentries
    · exact ih
  | emptied m _ ih =>
    rw [Rows.row, Rows.row]
    split
    · exact .nil
    · exact ih

/-- Empty rows have no records. -/
theorem records_eq {entry : NodeId → α → Record} (h : Padded R rows rows')
    (hsame : ∀ row ∈ rows, ∀ x ∈ row.2, ∀ y, R x y → entry row.1 y = entry row.1 x) :
    records entry rows' = records entry rows := by
  induction h with
  | nil => rfl
  | @cons xs ys _ _ m hentries _ ih =>
    obtain ⟨hrow, hrows⟩ := List.forall_mem_cons.mp hsame
    have hmap : ys.map (entry m) = xs.map (entry m) := by
      clear hsame ih
      induction hentries with
      | nil => rfl
      | cons hxy _ ih =>
        obtain ⟨hx, hxs⟩ := List.forall_mem_cons.mp hrow
        rw [List.map_cons, List.map_cons, hx _ hxy, ih hxs]
    rw [records_cons, records_cons, hmap, ih hrows]
  | emptied m _ ih => exact ih hsame

/-- **What was added last can be taken back**, and leaves at most an empty row behind. -/
theorem exists_pop {x : α} (h : Padded R (push n x rows) rows₁) :
    ∃ rows', pop n rows₁ = .ok rows' ∧ Padded R rows rows' := by
  induction rows generalizing rows₁ with
  | nil =>
    cases h with
    | cons _ hentries hrest =>
      obtain ⟨y, _, -, hnil, rfl⟩ := List.forall₂_cons_left_iff.mp hentries
      obtain rfl := List.forall₂_nil_left_iff.mp hnil
      exact ⟨_, if_pos rfl, .emptied n hrest⟩
  | cons row rows ih =>
    obtain ⟨m, xs⟩ := row
    rw [push] at h
    split at h
    · rename_i hm
      cases h with
      | @cons _ ys _ rows' _ hentries hrest =>
        have hdrop := forall₂_dropLast hentries
        rw [List.dropLast_concat] at hdrop
        have hys : ys.isEmpty = false := by
          rw [← isEmpty_eq_of_length_eq hentries.length_eq]
          simp
        refine ⟨(m, ys.dropLast) :: rows', ?_, .cons m hdrop hrest⟩
        rw [pop, if_pos hm, hys]
        rfl
    · rename_i hm
      cases h with
      | cons _ hentries hrest =>
        obtain ⟨rows', hpop, hpadded⟩ := ih hrest
        refine ⟨_, ?_, .cons m hentries hpadded⟩
        rw [pop, if_neg hm, hpop]
        rfl

/-- A change of one entry can be taken back where the entry allows it. -/
theorem exists_mapEntry {f g : α → Except ChangeError α}
    (hback : ∀ x y y', f x = .ok y → R y y' → ∃ x', g y' = .ok x' ∧ R x x')
    (hmap : mapEntry n i f rows = .ok rows₁) (h : Padded R rows₁ rows') :
    ∃ rows'', mapEntry n i g rows' = .ok rows'' ∧ Padded R rows rows'' := by
  induction rows generalizing rows₁ rows' with
  | nil => cases hmap
  | cons row rows ih =>
    obtain ⟨m, xs⟩ := row
    rw [mapEntry] at hmap
    split at hmap
    · rename_i hm
      cases hx : xs[i]? with
      | none =>
        rw [hx] at hmap
        cases hmap
      | some x =>
        simp only [hx, bind_eq_ok, pure_eq_ok] at hmap
        obtain ⟨y, hy, rfl⟩ := hmap
        cases h with
        | @cons _ ys _ rows' _ hentries hrest =>
          have hset : (xs.set i y)[i]? = some y :=
            List.getElem?_set_self (List.getElem?_eq_some_iff.mp hx).1
          obtain ⟨y', hy', hyy⟩ := exists_getElem?_of_forall₂ hentries hset
          obtain ⟨x', hx', hxx⟩ := hback x y y' hy hyy
          refine ⟨(m, ys.set i x') :: rows', ?_, .cons m (forall₂_of_set hentries hx hxx) hrest⟩
          rw [mapEntry, if_pos hm, hy']
          simp only [bind_eq_ok, pure_eq_ok]
          exact ⟨x', hx', rfl⟩
    · rename_i hm
      obtain ⟨rest, hrest, hmap⟩ := bind_eq_ok.mp hmap
      obtain rfl := pure_eq_ok.mp hmap
      cases h with
      | cons _ hentries hpadded =>
        obtain ⟨rows'', hback, hpadded⟩ := ih hrest hpadded
        refine ⟨_, ?_, .cons m hentries hpadded⟩
        rw [mapEntry, if_neg hm, hback]
        rfl

end Padded

end Rows

namespace Tables

variable {t t' t₁ t₁' : Tables} {c : Change} {path : FrameAddress}

/-- **Do two frames have the same rows, up to empty ones?**  The frames of their iterations do, in
turn. -/
inductive Padded : Tables → Tables → Prop
  | frame {spans spans' : List (NodeId × List Span)} {choices choices' : List (NodeId × List Nat)}
      {loops loops' : List (NodeId × List Tables)} (ofSpans : Rows.Padded Eq spans spans')
      (ofChoices : Rows.Padded Eq choices choices') (ofLoops : Rows.Padded Padded loops loops') :
      Padded (.frame spans choices loops) (.frame spans' choices' loops')

namespace Padded

theorem refl (t : Tables) : Padded t t := by
  induction t using Tables.induction with
  | frame spans choices loops ih =>
    exact .frame (.refl fun _ _ _ _ => rfl) (.refl fun _ _ _ _ => rfl) (.refl ih)

/-! ## What readers find -/

theorem spans_eq (h : Padded t t') (n : NodeId) : t'.spans n = t.spans n := by
  obtain ⟨hspans, -, -⟩ := h
  have hrow := hspans.row n
  rw [List.forall₂_eq_eq_eq] at hrow
  exact hrow.symm

theorem choices_eq (h : Padded t t') (n : NodeId) : t'.choices n = t.choices n := by
  obtain ⟨-, hchoices, -⟩ := h
  have hrow := hchoices.row n
  rw [List.forall₂_eq_eq_eq] at hrow
  exact hrow.symm

theorem iterations (h : Padded t t') (n : NodeId) :
    List.Forall₂ Padded (t.iterations n) (t'.iterations n) := by
  obtain ⟨-, -, hloops⟩ := h
  exact hloops.row n

theorem touches_eq (h : Padded t t') (p : Located) : t'.touches p = t.touches p := by
  have hrows : ∀ n, (t'.iterations n).isEmpty = (t.iterations n).isEmpty := fun n =>
    (isEmpty_eq_of_length_eq (h.iterations n).length_eq).symm
  simp only [touches, h.spans_eq, h.choices_eq, hrows]

/-- There are the same frames, with the same rows in them. -/
theorem frame? (h : Padded t t') (path : FrameAddress) :
    Option.Rel Padded (t.frame? path) (t'.frame? path) := by
  induction path generalizing t t' with
  | nil => exact .some h
  | cons entry path ih =>
    exact rel_bind (rel_getElem?_of_forall₂ (h.iterations entry.1) entry.2) fun _ _ => ih

/-- **The records are the same.** -/
theorem records_eq (h : Padded t t') : t'.records = t.records := by
  induction t using Tables.induction generalizing t' with
  | frame spans choices loops ih =>
    obtain ⟨hspans, hchoices, hloops⟩ := h
    rw [records_frame, records_frame, hspans.records_eq fun _ _ _ _ _ hxy => by rw [hxy],
      hchoices.records_eq fun _ _ _ _ _ hxy => by rw [hxy],
      hloops.records_eq fun row hrow f hf _ hpadded => by rw [ih row hrow f hf hpadded]]

/-! ## Taking back -/

/-- A change to a frame can be taken back. -/
theorem exists_retract (h : Padded (t.apply c) t₁) :
    ∃ t', retract c.entry.kind c.entry.node t₁ = .ok t' ∧ Padded t t' := by
  obtain ⟨spans, choices, loops⟩ := t
  cases c with
  | record n s =>
    obtain ⟨hspans, hchoices, hloops⟩ := h
    obtain ⟨rows, hpop, hpadded⟩ := hspans.exists_pop
    exact ⟨_, bind_eq_ok.mpr ⟨rows, hpop, rfl⟩, .frame hpadded hchoices hloops⟩
  | choose n i =>
    obtain ⟨hspans, hchoices, hloops⟩ := h
    obtain ⟨rows, hpop, hpadded⟩ := hchoices.exists_pop
    exact ⟨_, bind_eq_ok.mpr ⟨rows, hpop, rfl⟩, .frame hspans hpadded hloops⟩
  | iterate n =>
    obtain ⟨hspans, hchoices, hloops⟩ := h
    obtain ⟨rows, hpop, hpadded⟩ := hloops.exists_pop
    exact ⟨_, bind_eq_ok.mpr ⟨rows, hpop, rfl⟩, .frame hspans hchoices hpadded⟩

/-- **A change can be taken back wherever the frame is**, and leaves only empty rows behind. -/
theorem exists_retractAt (happly : applyAt path c t = .ok t₁) (h : Padded t₁ t₁') :
    ∃ t', retractAt path c.entry.kind c.entry.node t₁' = .ok t' ∧ Padded t t' := by
  induction path generalizing t t₁ t₁' with
  | nil =>
    obtain rfl := Except.ok.inj happly
    exact h.exists_retract
  | cons entry path ih =>
    obtain ⟨spans, choices, loops⟩ := t
    obtain ⟨loops₁, hloops₁, happly⟩ := bind_eq_ok.mp happly
    obtain rfl := pure_eq_ok.mp happly
    obtain ⟨hspans, hchoices, hloops⟩ := h
    obtain ⟨loops', hback, hpadded⟩ :=
      hloops.exists_mapEntry (fun x y y' hxy hyy => ih hxy hyy) hloops₁
    exact ⟨_, bind_eq_ok.mpr ⟨loops', hback, rfl⟩, .frame hspans hchoices hpadded⟩

end Padded

/-- Taking a change back right away restores the records. -/
theorem exists_retractAt (happly : applyAt path c t = .ok t₁) :
    ∃ t', retractAt path c.entry.kind c.entry.node t₁ = .ok t' ∧ t'.records = t.records := by
  obtain ⟨t', hretract, hpadded⟩ := Padded.exists_retractAt happly (.refl t₁)
  exact ⟨t', hretract, hpadded.records_eq⟩

end Tables

end CaptureTree
