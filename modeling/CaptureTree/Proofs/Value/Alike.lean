import CaptureTree.Proofs.Nesting
import CaptureTree.Proofs.Value.Assembly

/-!
# Frames that look alike

Two frames may differ in many records and still give the same values.  What a reader of a
pattern looks at in a frame is little: the spans of the captures that no quantifier repeats,
the choices of the alternations and which of their branches are in use, and for every
outermost quantifier its iterations, whichever way they were recorded.  Of the iterations
the same holds in turn.  `Trace.Alike` says that two frames agree in these points.

Frames that look alike are read alike, along the shape of the pattern
(`Trace.Alike.assemble_infer`) and along the flat shape of every capture in it
(`Trace.Alike.assemble_flat`), and where one of them can not be read, the other fails with
the same complaint.

Frames with the same rows look alike (`Trace.AgreeOn.alike`).
-/

namespace CaptureTree

open Located

/-- Side by side with itself a list has every entry beside itself. -/
theorem fst_eq_snd_of_mem_zip {α : Type} {xs : List α} {pair : α × α} (h : pair ∈ xs.zip xs) :
    pair.1 = pair.2 := by
  obtain ⟨i, hi, rfl⟩ := List.mem_iff_getElem.mp h
  rw [List.getElem_zip]

/-- Steps that agree one by one have the same results. -/
theorem mapM_eq_of_zip {ε α β : Type} {f : α → Except ε β} {xs ys : List α}
    (hlength : xs.length = ys.length) (h : ∀ pair ∈ xs.zip ys, f pair.1 = f pair.2) :
    xs.mapM f = ys.mapM f := by
  induction xs generalizing ys with
  | nil =>
    rw [List.eq_nil_of_length_eq_zero hlength.symm]
  | cons x xs ih =>
    cases ys with
    | nil => cases hlength
    | cons y ys =>
      rw [List.zip_cons_cons] at h
      obtain ⟨hhead, htail⟩ := List.forall_mem_cons.mp h
      rw [List.mapM_cons, List.mapM_cons, hhead, ih (Nat.succ.inj hlength) htail]

namespace Trace

/-- **Do two frames look alike to a reader of the pattern?** -/
inductive Alike : Located → Trace → Trace → Prop
  /-- There is nothing to read. -/
  | bare {p : Located} {t u : Trace} (none : p.hasCapture = false) : Alike p t u
  | capture {p q : Located} {t u : Trace} (kind : p.kind = .capture) (children : p.children = [q])
      (spans : t.spans p.id = u.spans p.id) (inside : Alike q t u) : Alike p t u
  | group {p q : Located} {t u : Trace} (kind : p.kind = .group) (children : p.children = [q])
      (inside : Alike q t u) : Alike p t u
  | concat {p : Located} {t u : Trace} (kind : p.kind = .concat)
      (parts : ∀ q ∈ p.children, Alike q t u) : Alike p t u
  | alternation {p : Located} {t u : Trace} (kind : p.kind = .alternation)
      (chosen : t.choices p.id = u.choices p.id)
      (touched : ∀ q ∈ p.children, t.touches q = u.touches q)
      (branches : ∀ q ∈ p.children, Alike q t u) : Alike p t u
  /-- Neither frame tells the iterations apart. -/
  | refused {p q : Located} {t u : Trace} (kind : p.kind = .quantifier)
      (children : p.children = [q])
      (frames : ∀ slot, ∃ e, t.frames slot p = .error e ∧ u.frames slot p = .error e) :
      Alike p t u
  /-- The iterations look alike one by one. -/
  | iterated {p q : Located} {t u : Trace} {fs gs : List Trace} (kind : p.kind = .quantifier)
      (children : p.children = [q]) (frames : ∀ slot, t.frames slot p = .ok fs)
      (frames' : ∀ slot, u.frames slot p = .ok gs) (length : fs.length = gs.length)
      (inside : ∀ pair ∈ fs.zip gs, Alike q pair.1 pair.2) : Alike p t u

variable {p q c : Located} {qs : List Located} {t u : Trace}

/-! ## Branches -/

/-- Which branch is taken depends on the choices, and on the branches in use. -/
theorem branchTaken_congr (slot : SlotTitle) (hchosen : t.choices p.id = u.choices p.id)
    (htouched : ∀ q ∈ p.children, t.touches q = u.touches q) :
    t.branchTaken slot p = u.branchTaken slot p := by
  have hlive : t.liveBranches p = u.liveBranches p := by
    rw [liveBranches, liveBranches, hchosen]
    refine congrArg _ (List.filter_congr fun entry hentry => ?_)
    have hq := List.mem_of_getElem? (List.mem_zipIdx_iff_getElem?.mp hentry)
    show (_ || t.touches entry.1) = (_ || u.touches entry.1)
    rw [htouched entry.1 hq]
  rw [branchTaken, branchTaken, hchosen, hlive]

/-! ## Iterations -/

/-- How span lists are split depends on the spans of the captures in the body. -/
theorem splitSpans_congr {b : Located} (slot : SlotTitle)
    (hspans : ∀ c ∈ b.captures, t.spans (Located.id c) = u.spans (Located.id c)) :
    splitSpans slot b t = splitSpans slot b u := by
  have hrows : (b.captures.map fun c => (c.id, t.spans c.id)) =
      b.captures.map fun c => (c.id, u.spans c.id) :=
    List.map_congr_left fun c hc => by rw [hspans c hc]
  rw [splitSpans, splitSpans, hrows]

/-- What the iterations of a quantifier are depends on its frames, and on the loose spans in
its body. -/
theorem frames_congr (slot : SlotTitle) (hiterations : t.iterations q.id = u.iterations q.id)
    (hbody : ∀ b ∈ q.body, t.touches b = u.touches b ∧
      ∀ c ∈ b.captures, t.spans (Located.id c) = u.spans (Located.id c)) :
    t.frames slot q = u.frames slot q := by
  cases hb : q.body with
  | none => rw [frames, frames, hb, Option.filter_none, Option.filter_none, hiterations]
  | some b =>
    obtain ⟨htouched, hspans⟩ := hbody b hb
    simp only [frames, hb, Option.filter_some, htouched, hiterations]
    split
    · rfl
    · rename_i b' hsome
      split at hsome
      · rw [← Option.some.inj hsome, splitSpans_congr slot hspans]
      · cases hsome

/-- Whether iterations can be told apart does not depend on who asks. -/
theorem frames_cases (t : Trace) (q : Located) :
    (∃ fs, ∀ slot, t.frames slot q = .ok fs) ∨ ∀ slot, ∃ e, t.frames slot q = .error e := by
  simp only [frames]
  split
  · exact .inl ⟨_, fun _ => rfl⟩
  · rename_i b _
    split
    · simp only [splitSpans]
      split
      · exact .inr fun _ => ⟨_, rfl⟩
      · split
        · exact .inr fun _ => ⟨_, rfl⟩
        · exact .inl ⟨_, fun _ => rfl⟩
    · exact .inr fun _ => ⟨_, rfl⟩

/-- A quantifier with the same iterations in both frames looks the same in both. -/
theorem Alike.of_frames_eq (hk : p.kind = .quantifier) (hc : p.children = [q])
    (hsame : ∀ slot, t.frames slot p = u.frames slot p) (hrefl : ∀ f, Alike q f f) :
    Alike p t u := by
  rcases t.frames_cases p with ⟨fs, hfs⟩ | hfails
  · refine .iterated hk hc hfs (fun slot => (hsame slot).symm.trans (hfs slot)) rfl ?_
    intro pair hpair
    rw [fst_eq_snd_of_mem_zip hpair]
    exact hrefl pair.2
  · refine .refused hk hc fun slot => ?_
    obtain ⟨e, he⟩ := hfails slot
    exact ⟨e, he, (hsame slot).symm.trans he⟩

namespace AgreeOn

/-- Frames with the same rows have the same iterations. -/
theorem frames_eq (h : AgreeOn q t u) (slot : SlotTitle) : t.frames slot q = u.frames slot q := by
  refine frames_congr slot (h.iterations q.id (id_mem_ids_self q)) ?_
  intro b hb
  have hagree : AgreeOn b t u := h.child (List.mem_of_head? hb)
  refine ⟨hagree.touches_eq, fun c hc => hagree.spans c.id (id_mem_ids ?_)⟩
  exact List.mem_of_mem_filter hc

/-- **Frames with the same rows look alike.** -/
theorem alike (hwell : p.WellFormed) (h : AgreeOn p t u) : Alike p t u := by
  induction hwell generalizing t u with
  | literal hk hc => exact .bare (hasCapture_literal hk hc)
  | @capture p q hk hc _ ih =>
    exact .capture hk hc (h.spans p.id (id_mem_ids_self p)) (ih (h.child (mem_children_of_eq hc)))
  | @group p q hk hc _ ih => exact .group hk hc (ih (h.child (mem_children_of_eq hc)))
  | concat hk _ ih => exact .concat hk fun q hq => ih q hq (h.child hq)
  | @alternation p hk _ _ ih =>
    exact .alternation hk (h.choices p.id (id_mem_ids_self p)) (fun q hq => (h.child hq).touches_eq)
      fun q hq => ih q hq (h.child hq)
  | quantifier hk hc _ _ ih => exact .of_frames_eq hk hc h.frames_eq fun f => ih (.refl _ f)

end AgreeOn

theorem Alike.refl (hwell : p.WellFormed) (t : Trace) : Alike p t t :=
  (AgreeOn.refl p t).alike hwell

/-! ## Frames that differ in one part of the pattern -/

variable {a : Located}

/-- Do two frames have the same rows for the nodes of a pattern, except for those of one
part, and are both or neither in touch with that part? -/
structure AgreeBeside (p a : Located) (t u : Trace) : Prop where
  spans : ∀ n ∈ p.ids, n ∉ a.ids → t.spans n = u.spans n
  choices : ∀ n ∈ p.ids, n ∉ a.ids → t.choices n = u.choices n
  iterations : ∀ n ∈ p.ids, n ∉ a.ids → t.iterations n = u.iterations n
  touches : t.touches a = u.touches a

namespace AgreeBeside

theorem mono (h : AgreeBeside p a t u) (hq : q ∈ p.subtrees) : AgreeBeside q a t u where
  spans n hn := h.spans n (ids_subset hq hn)
  choices n hn := h.choices n (ids_subset hq hn)
  iterations n hn := h.iterations n (ids_subset hq hn)
  touches := h.touches

theorem child (h : AgreeBeside p a t u) (hq : q ∈ p.children) : AgreeBeside q a t u :=
  h.mono (mem_subtrees_of_mem_children hq)

/-- Beside the part the rows are the same. -/
theorem agreeOn (h : AgreeBeside p a t u) (hout : ∀ n ∈ p.ids, n ∉ a.ids) : AgreeOn p t u where
  spans n hn := h.spans n hn (hout n hn)
  choices n hn := h.choices n hn (hout n hn)
  iterations n hn := h.iterations n hn (hout n hn)

theorem symm (h : AgreeBeside p a t u) : AgreeBeside p a u t where
  spans n hn hout := (h.spans n hn hout).symm
  choices n hn hout := (h.choices n hn hout).symm
  iterations n hn hout := (h.iterations n hn hout).symm
  touches := h.touches.symm

/-- Around the part, what is untouched by one frame is untouched by the other. -/
theorem untouched (h : AgreeBeside p a t u) (ha : a ∈ p.subtrees) (ht : t.touches p = false) :
    u.touches p = false := by
  have hpart : u.touches a = false :=
    h.touches.symm.trans (touches_eq_false_of_mem_subtrees ht ha)
  rw [touches_eq_false_iff_rows] at ht hpart ⊢
  intro n hn
  by_cases hin : n ∈ a.ids
  · exact hpart n hin
  · rw [← h.spans n hn hin, ← h.choices n hn hin, ← h.iterations n hn hin]
    exact ht n hn

/-- Around the part, both frames touch the same patterns. -/
theorem touches_eq (h : AgreeBeside p a t u) (ha : a ∈ p.subtrees) :
    t.touches p = u.touches p := by
  rw [Bool.eq_iff_iff, ← Bool.not_eq_false, ← Bool.not_eq_false, not_iff_not]
  exact ⟨h.untouched ha, h.symm.untouched ha⟩

end AgreeBeside

/-- **Frames that differ in one part only look alike** if they do so in that part, and if
the quantifiers around the part have the same iterations in both. -/
theorem Alike.of_part (hwell : p.WellFormed) (hd : p.Distinct) (ha : a ∈ p.subtrees)
    (hbeside : AgreeBeside p a t u) (hpart : Alike a t u)
    (hframes : ∀ x : Located, x ∈ p.subtrees → x.kind = .quantifier → x ≠ a → a ∈ x.subtrees →
      ∀ slot, t.frames slot x = u.frames slot x) : Alike p t u := by
  induction p using Located.induction with
  | node p ih =>
    by_cases hne : p = a
    · subst hne
      exact hpart
    obtain ⟨b, hb, hin⟩ := (mem_subtrees.mp ha).resolve_left (Ne.symm hne)
    have hroot : p.id ∉ a.ids := hd.id_notMem_ids_of_ne ha hne
    have hself : p.id ∈ p.ids := id_mem_ids_self p
    -- one child has the part inside it, and beside that child nothing differs
    have hchild : ∀ q ∈ p.children, t.touches q = u.touches q ∧ Alike q t u := by
      intro q hq
      by_cases hqb : q = b
      · subst hqb
        refine ⟨(hbeside.child hq).touches_eq hin, ih q hq (hwell.child hq) (hd.child hq) hin
          (hbeside.child hq) fun x hx => ?_⟩
        exact hframes x (Tree.mem_subtrees_of_mem_children hq hx)
      · have hagree : AgreeOn q t u := (hbeside.child hq).agreeOn fun n hn hna =>
          hqb (hd.child_eq hq hb hn (ids_subset hin hna))
        exact ⟨hagree.touches_eq, hagree.alike (hwell.child hq)⟩
    cases hwell with
    | literal hk hc => exact .bare (hasCapture_literal hk hc)
    | @capture _ q hk hc _ =>
      exact .capture hk hc (hbeside.spans p.id hself hroot) (hchild q (mem_children_of_eq hc)).2
    | @group _ q hk hc _ => exact .group hk hc (hchild q (mem_children_of_eq hc)).2
    | concat hk _ => exact .concat hk fun q hq => (hchild q hq).2
    | alternation hk _ _ =>
      exact .alternation hk (hbeside.choices p.id hself hroot) (fun q hq => (hchild q hq).1)
        fun q hq => (hchild q hq).2
    | quantifier hk hc _ hq =>
      exact .of_frames_eq hk hc (hframes p (Tree.mem_subtrees_self p) hk hne ha) fun f =>
        .refl hq f

end Trace

/-! ## Reading -/

namespace Value

variable {q : Located} {t u : Trace} {s : Shape} {ss : List Shape}

theorem assembleAll_congr (h : ∀ s ∈ ss, assemble s t = assemble s u) :
    assembleAll ss t = assembleAll ss u := by
  induction ss with
  | nil => rfl
  | cons s ss ih =>
    obtain ⟨hs, hss⟩ := List.forall_mem_cons.mp h
    rw [assembleAll, assembleAll, hs, ih hss]

theorem assembleBranch_congr (slot : SlotTitle) (i : Nat)
    (h : ∀ s ∈ ss, assemble s t = assemble s u) :
    assembleBranch slot ss i t = assembleBranch slot ss i u := by
  induction ss generalizing i with
  | nil => rfl
  | cons s ss ih =>
    obtain ⟨hs, hss⟩ := List.forall_mem_cons.mp h
    cases i with
    | zero => exact hs
    | succ i => exact ih i hss

/-- A quantifier whose iterations can not be told apart can not be read. -/
theorem assemble_loop_of_refused
    (h : ∀ slot, ∃ e, t.frames slot q = .error e ∧ u.frames slot q = .error e) :
    assemble (.loop q s) t = assemble (.loop q s) u := by
  rw [Shape.loop]
  split
  · obtain ⟨e, ht, hu⟩ := h (Shape.opt q s).title
    rw [assemble, assemble, ht, hu]
  · obtain ⟨e, ht, hu⟩ := h (Shape.repeated q s).title
    rw [assemble, assemble, ht, hu]

/-- A quantifier is read alike if its iterations are. -/
theorem assemble_loop_of_iterated {fs gs : List Trace} (hfs : ∀ slot, t.frames slot q = .ok fs)
    (hgs : ∀ slot, u.frames slot q = .ok gs) (hlength : fs.length = gs.length)
    (h : ∀ pair ∈ fs.zip gs, assemble s pair.1 = assemble s pair.2) :
    assemble (.loop q s) t = assemble (.loop q s) u := by
  rw [Shape.loop]
  split
  · rw [assemble, assemble, hfs, hgs]
    simp only [bind, Except.bind]
    cases fs with
    | nil =>
      rw [List.eq_nil_of_length_eq_zero hlength.symm]
    | cons f fs =>
      cases gs with
      | nil => simp at hlength
      | cons g gs =>
        cases fs with
        | nil =>
          obtain rfl := List.eq_nil_of_length_eq_zero (Nat.succ.inj hlength).symm
          have hone : assemble s f = assemble s g := h (f, g) List.mem_cons_self
          simp only [hone]
        | cons f' fs =>
          cases gs with
          | nil => simp at hlength
          | cons g' gs => simp only [hlength]
  · rw [assemble, assemble, hfs, hgs]
    simp only [bind, Except.bind]
    rw [mapM_eq_of_zip hlength h]

end Value

namespace Trace

variable {p c : Located} {qs : List Located} {t u : Trace}

/-- **Frames that look alike are read alike** along the shape of the pattern. -/
theorem Alike.assemble_infer (h : Alike p t u) (hwell : p.WellFormed) :
    Value.assemble (.infer p) t = Value.assemble (.infer p) u := by
  induction h with
  | @bare p t u hnone =>
    rw [hwell.infer_eq_empty hnone]
    rfl
  | @capture p q t u hk hc hspans =>
    rw [Shape.infer_capture hk, Value.assemble, Value.assemble, Option.map_some, Option.map_some,
      hspans]
  | group hk hc _ ih =>
    rw [Shape.infer_group hk hc]
    exact ih (hwell.child (mem_children_of_eq hc))
  | @concat p t u hk _ ih =>
    have hparts : ∀ s ∈ p.children.map Shape.infer, Value.assemble s t = Value.assemble s u := by
      intro s hs
      obtain ⟨q, hq, rfl⟩ := List.mem_map.mp hs
      exact ih q hq (hwell.child hq)
    rw [Shape.infer_concat hk]
    rcases Shape.sequence_cases p (p.children.map Shape.infer) with ⟨hseq, -⟩ | ⟨s, hs, hseq⟩ | hseq
    · rw [hseq]
      rfl
    · rw [hseq]
      exact hparts s hs
    · rw [hseq, Value.assemble, Value.assemble,
        Value.assembleAll_congr fun s hs => hparts s (List.mem_of_mem_filter hs)]
  | @alternation p t u hk hchosen htouched _ ih =>
    have hparts : ∀ s ∈ p.children.map Shape.infer, Value.assemble s t = Value.assemble s u := by
      intro s hs
      obtain ⟨q, hq, rfl⟩ := List.mem_map.mp hs
      exact ih q hq (hwell.child hq)
    rw [Shape.infer_alternation hk]
    split
    · rfl
    · rw [Value.assemble, Value.assemble, branchTaken_congr _ hchosen htouched]
      simp only [Value.assembleBranch_congr _ _ hparts]
  | @refused p q t u hk hc hframes =>
    rw [Shape.infer_quantifier hk hc]
    split
    · rfl
    · exact Value.assemble_loop_of_refused hframes
  | @iterated p q t u fs gs hk hc hfs hgs hlength _ ih =>
    rw [Shape.infer_quantifier hk hc]
    split
    · rfl
    · refine Value.assemble_loop_of_iterated hfs hgs hlength fun pair hpair => ?_
      exact ih pair hpair (hwell.child (mem_children_of_eq hc))

/-- **Frames that look alike are read alike** along the flat shape of every capture. -/
theorem Alike.assemble_flat (h : Alike p t u) (hholds : p.Holds qs c) :
    Value.assemble (.flat qs c) t = Value.assemble (.flat qs c) u := by
  induction h generalizing qs with
  | bare hnone =>
    rw [hholds.hasCapture] at hnone
    cases hnone
  | @capture p q t u hk hc hspans _ ih =>
    rcases hholds.of_capture hk with ⟨rfl, rfl⟩ | ⟨b, hb, hinside⟩
    · rw [Shape.flat, List.foldr_nil, Value.assemble, Value.assemble, Option.map_some,
        Option.map_some, hspans]
    · rw [hc, List.mem_singleton] at hb
      subst hb
      exact ih hinside
  | @group p q t u hk hc _ ih =>
    obtain ⟨b, hb, hinside⟩ := hholds.of_inner (by rw [hk]; decide) (by rw [hk]; decide)
    rw [hc, List.mem_singleton] at hb
    subst hb
    exact ih hinside
  | @concat p t u hk _ ih | @alternation p t u hk _ _ _ ih =>
    obtain ⟨b, hb, hinside⟩ := hholds.of_inner (by rw [hk]; decide) (by rw [hk]; decide)
    exact ih b hb hinside
  | @refused p q t u hk hc hframes =>
    obtain ⟨b, hb, rest, rfl, hinside⟩ := hholds.of_quantifier hk
    exact Value.assemble_loop_of_refused hframes
  | @iterated p q t u fs gs hk hc hfs hgs hlength _ ih =>
    obtain ⟨b, hb, rest, rfl, hinside⟩ := hholds.of_quantifier hk
    rw [hc, List.mem_singleton] at hb
    subst hb
    exact Value.assemble_loop_of_iterated hfs hgs hlength fun pair hpair => ih pair hpair hinside

end Trace

end CaptureTree
