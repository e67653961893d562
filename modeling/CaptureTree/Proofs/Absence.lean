import CaptureTree.Proofs.Locality
import CaptureTree.Proofs.Numbering

/-!
# What is read where nothing was recorded

There are three ways to the value of a slot that took no part in a match.  Assembly reads a frame
that holds nothing for it, `Value.absent` looks at the shape only, and a projection that meets a
branch that was not taken puts in `Value.absentAlong`, for which it looks at the rest of its path
only.  They come to the same.

* A frame that does not touch a node is as good as an empty one for its slot, and along any shape
  an empty frame has the absent value (`Value.absent_cases`).  Neither exists if there is a sum
  in the slot that no list and no optional slot is around (`Shape.Exposed`): a sum always has a
  value in one of its branches.
* A projection along the path of a capture goes down the flat shape of the capture at the same
  time, by one layer for each list and each optional slot.  Where it stops, the rest of the
  path and the rest of the flat shape belong together (`Located.Route.exists_rest`), and the
  latter has no sums.
-/

namespace CaptureTree

open Located

/-! ## Sums without a value -/

namespace Shape

variable {s u : Shape}

/-- **Is the second slot in the first, with no list and no optional slot around it?** -/
inductive Exposed : Shape → Shape → Prop
  | here {s : Shape} : Exposed s s
  | member {o : Located} {ss : List Shape} {s u : Shape} (member : s ∈ ss)
      (inside : Exposed s u) : Exposed (.product o ss) u
  | branch {o : Located} {ss : List Shape} {s u : Shape} (branch : s ∈ ss)
      (inside : Exposed s u) : Exposed (.sum o ss) u

end Shape

namespace Value

variable {s : Shape} {ss : List Shape}

/-- **Does a slot have an absent value, which is also read from an empty frame?** -/
def AbsentWhenEmpty (s : Shape) : Prop :=
  ∃ v, absent s = .ok v ∧ assemble s [] = .ok v

/-- **Does a slot have no absent value**, and no value in an empty frame, because of an exposed
sum? -/
def NeedsBranch (s : Shape) : Prop :=
  ∃ o ss, s.Exposed (.sum o ss) ∧ absent s = .error (.noAbsentValue (Shape.sum o ss).title) ∧
    assemble s [] = .error (.liveBranches (Shape.sum o ss).title 0)

/-- Nothing is live in an empty frame. -/
theorem branchTaken_nil (slot : SlotTitle) (a : Located) :
    Trace.branchTaken slot a [] = .error (.liveBranches slot 0) := by
  have hlive : Trace.liveBranches a [] = [] := by
    refine List.eq_nil_iff_forall_not_mem.mpr fun i hi => ?_
    obtain ⟨b, -, hchosen | htouched⟩ := Trace.mem_liveBranches.mp hi
    · exact absurd hchosen List.not_mem_nil
    · cases htouched
  simp [Trace.branchTaken, hlive]

/-- There are no iterations in an empty frame. -/
theorem frames_nil (slot : SlotTitle) (q : Located) : Trace.frames slot q [] = .ok [] :=
  Trace.frames_of_untouched fun b _ => Trace.touches_nil b

/-- The members of a product have values, or the first that has none decides. -/
theorem absentAll_cases (h : ∀ s ∈ ss, AbsentWhenEmpty s ∨ NeedsBranch s) :
    (∃ vs, absentAll ss = .ok vs ∧ assembleAll ss [] = .ok vs) ∨
      ∃ s ∈ ss, ∃ o bs, s.Exposed (.sum o bs) ∧
        absentAll ss = .error (.noAbsentValue (Shape.sum o bs).title) ∧
        assembleAll ss [] = .error (.liveBranches (Shape.sum o bs).title 0) := by
  induction ss with
  | nil => exact .inl ⟨[], rfl, rfl⟩
  | cons s ss ih =>
    obtain ⟨hs, hss⟩ := List.forall_mem_cons.mp h
    rcases hs with ⟨v, habsent, hempty⟩ | ⟨o, bs, hexposed, habsent, hempty⟩
    · rcases ih hss with ⟨vs, habsents, hempties⟩ | ⟨s', hs', o, bs, hexposed, habsents, hempties⟩
      · refine .inl ⟨v :: vs, ?_, ?_⟩
        · rw [absentAll, habsent, habsents]
          rfl
        · rw [assembleAll, hempty, hempties]
          rfl
      · refine .inr ⟨s', List.mem_cons_of_mem s hs', o, bs, hexposed, ?_, ?_⟩
        · rw [absentAll, habsent, habsents]
          rfl
        · rw [assembleAll, hempty, hempties]
          rfl
    · refine .inr ⟨s, List.mem_cons_self, o, bs, hexposed, ?_, ?_⟩
      · rw [absentAll, habsent]
        rfl
      · rw [assembleAll, hempty]
        rfl

/-- **Along any shape an empty frame has the absent value**, or the two fail because of the same
sum. -/
theorem absent_cases (s : Shape) : AbsentWhenEmpty s ∨ NeedsBranch s := by
  induction s with
  | empty => exact .inl ⟨empty, rfl, rfl⟩
  | leaf o => exact .inl ⟨leaf none, rfl, by cases o <;> rfl⟩
  | product o ss ih =>
    rcases absentAll_cases ih with ⟨vs, habsent, hempty⟩ | ⟨s, hs, a, bs, hexposed, habsent, hempty⟩
    · refine .inl ⟨product vs, ?_, ?_⟩
      · rw [absent, habsent]
        rfl
      · rw [assemble, hempty]
        rfl
    · refine .inr ⟨a, bs, .member hs hexposed, ?_, ?_⟩
      · rw [absent, habsent]
        rfl
      · rw [assemble, hempty]
        rfl
  | sum o ss =>
    refine .inr ⟨o, ss, .here, rfl, ?_⟩
    rw [assemble, branchTaken_nil]
    rfl
  | repeated q s =>
    refine .inl ⟨repeated [], rfl, ?_⟩
    rw [assemble, frames_nil]
    rfl
  | opt q s =>
    refine .inl ⟨opt none, rfl, ?_⟩
    rw [assemble, frames_nil]
    rfl

theorem forall_absent_of_absentAll {vs : List Value} (h : absentAll ss = .ok vs) :
    ∀ s ∈ ss, ∃ v, absent s = .ok v := by
  induction ss generalizing vs with
  | nil => exact fun _ hs => absurd hs List.not_mem_nil
  | cons s ss ih =>
    obtain ⟨v, hv, hrest⟩ := bind_eq_ok.mp h
    obtain ⟨vs, hvs, -⟩ := bind_eq_ok.mp hrest
    exact List.forall_mem_cons.mpr ⟨⟨v, hv⟩, ih hvs⟩

/-- With an exposed sum there is no absent value. -/
theorem absent_ne_ok_of_exposed {o : Located} (h : s.Exposed (.sum o ss)) (v : Value) :
    absent s ≠ .ok v := by
  generalize hu : Shape.sum o ss = u at h
  induction h generalizing v with
  | here =>
    subst hu
    exact fun h => by cases h
  | @member o' members s u hs _ ih =>
    intro hv
    obtain ⟨vs, hvs, -⟩ := map_eq_ok.mp hv
    obtain ⟨w, hw⟩ := forall_absent_of_absentAll hvs s hs
    exact ih w hu hw
  | branch => exact fun h => by cases h

/-- **There is no absent value exactly if there is an exposed sum.** -/
theorem absent_eq_error_iff :
    (∃ e, absent s = .error e) ↔ ∃ o ss, s.Exposed (.sum o ss) := by
  constructor
  · rintro ⟨e, he⟩
    rcases absent_cases s with ⟨v, hv, -⟩ | ⟨o, ss, hexposed, -⟩
    · rw [he] at hv
      cases hv
    · exact ⟨o, ss, hexposed⟩
  · rintro ⟨o, ss, hexposed⟩
    cases h : absent s with
    | error e => exact ⟨e, rfl⟩
    | ok v => exact absurd h (absent_ne_ok_of_exposed hexposed v)

/-- **A frame that does not touch a pattern is read like an empty one.** -/
theorem assemble_eq_nil_of_untouched {n : Located} {t : Trace} (hwell : n.WellFormed)
    (ht : t.touches n = false) : assemble (.infer n) t = assemble (.infer n) [] := by
  have hagree : Trace.AgreeThroughout n t [] := .of_untouched ht (Trace.touches_nil n)
  have halike := hagree.alike hwell (Tree.mem_subtrees_self n)
  exact halike.assemble_infer hwell

end Value

/-! ## The rest of a path, and the rest of a flat shape -/

namespace Shape

/-- **What is left of a flat shape** when one goes along a path: each step into a list or an
optional slot takes off a layer. -/
def beyond : SlotPath → Shape → Shape
  | [], s => s
  | step :: front, s => beyond front (if step.isLoop then s.children.headD s else s)

end Shape

/-- **A route can be cut anywhere.**  What is left of it starts at the slot to which the first part
of the path leads, and has what is left of the flat shape. -/
theorem Located.Route.exists_rest {p c : Located} {qs : List Located} {front rest : SlotPath}
    (h : Route p qs c (front ++ rest)) :
    ∃ q qs', Route q qs' c rest ∧ (Shape.infer p).follow front = some (.infer q) ∧
      (Shape.flat qs c).beyond front = .flat qs' c := by
  generalize hpath : front ++ rest = path at h
  induction h generalizing front with
  | @capture p hk =>
    obtain ⟨rfl, rfl⟩ := List.append_eq_nil_iff.mp hpath
    exact ⟨p, [], .capture hk, rfl, rfl⟩
  | group hk hc _ ih =>
    rw [Shape.infer_group hk hc]
    exact ih hpath
  | only _ _ hshape _ ih =>
    rw [hshape]
    exact ih hpath
  | @member p q c qs path ss i hk hq hshape hslot hinside ih =>
    cases front with
    | nil =>
      obtain rfl : rest = _ := hpath
      exact ⟨p, qs, .member hk hq hshape hslot hinside, rfl, rfl⟩
    | cons step front =>
      obtain ⟨rfl, htail⟩ := List.cons.inj hpath
      obtain ⟨b, qs', hrest, hfollow, hflat⟩ := ih htail
      refine ⟨b, qs', hrest, ?_, hflat⟩
      rw [hshape]
      refine Eq.trans (Shape.follow_cons rfl ?_) hfollow
      exact hslot
  | @branch p q c qs path i hk hq hshape hinside ih =>
    cases front with
    | nil =>
      obtain rfl : rest = _ := hpath
      exact ⟨p, qs, .branch hk hq hshape hinside, rfl, rfl⟩
    | cons step front =>
      obtain ⟨rfl, htail⟩ := List.cons.inj hpath
      obtain ⟨b, qs', hrest, hfollow, hflat⟩ := ih htail
      refine ⟨b, qs', hrest, ?_, hflat⟩
      rw [hshape]
      refine Eq.trans (Shape.follow_cons rfl ?_) hfollow
      exact Shape.getElem?_map_infer hq
  | @loop p q c qs path hk hc hshape hinside ih =>
    cases front with
    | nil =>
      obtain rfl : rest = _ := hpath
      exact ⟨p, p :: qs, .loop hk hc hshape hinside, rfl, rfl⟩
    | cons step front =>
      obtain ⟨rfl, htail⟩ := List.cons.inj hpath
      obtain ⟨b, qs', hrest, hfollow, hflat⟩ := ih htail
      refine ⟨b, qs', hrest, ?_, ?_⟩
      · have hkind : (Shape.loop p (Shape.infer q)).kind = (Shape.stepInto p).kind :=
          (Shape.kind_loop p _).trans (Shape.kind_stepInto p).symm
        rw [hshape]
        exact (Shape.follow_cons hkind (Shape.getElem?_children_loop p _)).trans hfollow
      · show Shape.beyond (Shape.stepInto p :: front) (.loop p (.flat qs c)) = _
        rw [Shape.beyond, Shape.isLoop_stepInto, if_pos rfl, Shape.children_loop]
        exact hflat

/-! ## Where a projection stops -/

namespace Value

variable {s : Shape} {v w put : Value} {path front rest : SlotPath}

/-- A flat shape has no sums, so it has an absent value. -/
theorem absent_flat (qs : List Located) (c : Located) :
    absent (.flat qs c) = .ok (absentFlat qs) := by
  cases qs with
  | nil => rfl
  | cons q qs =>
    show absent (.loop q (.flat qs c)) = .ok (ofItems q [])
    rw [Shape.loop, ofItems]
    cases q.bounds.isOptional with
    | false => rfl
    | true => rfl

/-- **Does a projection stop at a branch that was not taken?**  The value `v` is projected along a
path with result `w`.  The first part of the path leads to a sum and into a branch that it did not
take, and in that place the result has the value `put`. -/
inductive StopsAt : SlotPath → Value → Value → SlotPath → SlotPath → Value → Prop
  | here {i : Nat} {rest : SlotPath} {v w : Value} (other : v.selected ≠ i) :
      StopsAt (.branch i :: rest) v w [.branch i] rest w
  | member {i : Nat} {path front rest : SlotPath} {v x w put : Value}
      (child : v.children[i]? = some x) (inside : StopsAt path x w front rest put) :
      StopsAt (.member i :: path) v w (.member i :: front) rest put
  | branch {i : Nat} {path front rest : SlotPath} {v x w put : Value} (taken : v.selected = i)
      (child : v.children[0]? = some x) (inside : StopsAt path x w front rest put) :
      StopsAt (.branch i :: path) v w (.branch i :: front) rest put
  | item {j : Nat} {path front rest : SlotPath} {v x w y put : Value}
      (child : v.children[j]? = some x) (result : w.children[j]? = some y)
      (inside : StopsAt path x y front rest put) :
      StopsAt (.each :: path) v w (.each :: front) rest put
  | inner {path front rest : SlotPath} {v x w y put : Value} (present : v.present = true)
      (child : v.children[0]? = some x) (result : w.children[0]? = some y)
      (inside : StopsAt path x y front rest put) :
      StopsAt (.inner :: path) v w (.inner :: front) rest put

namespace StopsAt

theorem path_eq (h : StopsAt path v w front rest put) : front ++ rest = path := by
  induction h with
  | here => rfl
  | member _ _ ih | branch _ _ _ ih | item _ _ _ ih | inner _ _ _ _ ih =>
    rw [List.cons_append, ih]

/-- **Where a projection stops, it puts in what the rest of the path asks for.** -/
theorem put_eq (h : StopsAt path v w front rest put) (hw : project path s v = .ok w) :
    put = absentAlong rest := by
  induction h generalizing s with
  | here hother =>
    rw [project, bind_unit_eq_ok, if_neg hother, pure_eq_ok] at hw
    exact hw.2.symm
  | member hx _ ih =>
    simp only [project, bind_eq_ok, child_eq_ok] at hw
    obtain ⟨-, -, s', -, x', hx', hw⟩ := hw
    obtain rfl := Option.some.inj (hx.symm.trans hx')
    exact ih hw
  | branch htaken hx _ ih =>
    simp only [project, if_pos htaken, bind_eq_ok, child_eq_ok] at hw
    obtain ⟨-, -, s', -, x', hx', hw⟩ := hw
    obtain rfl := Option.some.inj (hx.symm.trans hx')
    exact ih hw
  | item hx hy _ ih =>
    simp only [project, bind_eq_ok, pure_eq_ok, mapM_eq_ok] at hw
    obtain ⟨-, -, ys, hall, rfl⟩ := hw
    obtain ⟨y', hy', s', -, hproject⟩ := exists_getElem?_of_forall₂ hall hx
    obtain rfl : _ = y' := Option.some.inj (hy.symm.trans hy')
    exact ih hproject
  | inner hpresent hx hy _ ih =>
    simp only [project, hpresent, if_true, bind_eq_ok, pure_eq_ok, firstUnchecked_eq_ok] at hw
    obtain ⟨-, -, s', -, x', hx', y', hproject, rfl⟩ := hw
    obtain rfl := Option.some.inj (hx.symm.trans hx')
    obtain rfl : y' = _ := Option.some.inj hy
    exact ih hproject

end StopsAt

/-- **Absent values are what is read where nothing was recorded.**  Let validation accept a
pattern.

* The slot of a node has no absent value exactly if it holds a sum that no list and no optional
  slot is around.
* From a frame that does not touch the node, whatever it holds for other nodes, the absent value is
  read.  Reading fails exactly if there is none, and because of the same sum.
* If a projection along the path of a capture stops at a branch that was not taken, then what it
  puts in is the absent value of what is left of the flat shape of the capture, which has
  one.  What is left are the leaf, and the layers for the lists and the optional slots that the
  rest of the path passes. -/
theorem absent_where_untouched {p : Pattern} (h : p.validate = .ok ()) :
    (∀ n ∈ p.locate.subtrees,
      ((∃ e, absent (.infer n) = .error e) ↔ ∃ o ss, (Shape.infer n).Exposed (.sum o ss)) ∧
        ∀ t : Trace, t.touches n = false →
          ((∃ e, assemble (.infer n) t = .error e) ↔
            ∃ o ss, (Shape.infer n).Exposed (.sum o ss)) ∧
          ((∃ v, assemble (.infer n) t = .ok v ∧ absent (.infer n) = .ok v) ∨
            ∃ o ss, (Shape.infer n).Exposed (.sum o ss) ∧
              assemble (.infer n) t = .error (.liveBranches (Shape.sum o ss).title 0) ∧
              absent (.infer n) = .error (.noAbsentValue (Shape.sum o ss).title))) ∧
      ∀ c ∈ CaptureInfo.table p.locate (.infer p.locate), ∀ path ∈ c.path, ∀ v w,
        project path (.infer p.locate) v = .ok w → ∀ front rest put,
          StopsAt path v w front rest put →
            absent (c.flat.beyond front) = .ok put ∧
              (c.flat.beyond front).core = .leaf (some c.node) ∧
              ∃ s, (Shape.infer p.locate).follow front = some s ∧
                (c.flat.beyond front).layers = s.loopsAlong rest := by
  have hwell := Pattern.wellFormed_locate h
  refine ⟨fun n hn => ⟨absent_eq_error_iff, fun t ht => ?_⟩, ?_⟩
  · rw [assemble_eq_nil_of_untouched (hwell.of_mem_subtrees hn) ht, ← absent_eq_error_iff]
    rcases absent_cases (.infer n) with ⟨v, habsent, hempty⟩ | ⟨o, ss, hexposed, habsent, hempty⟩
    · refine ⟨?_, .inl ⟨v, hempty, habsent⟩⟩
      rw [hempty, habsent]
    · refine ⟨?_, .inr ⟨o, ss, hexposed, hempty, habsent⟩⟩
      exact iff_of_true ⟨_, hempty⟩ ⟨_, habsent⟩
  · intro c hc path hpath v w hw front rest put hstops
    obtain ⟨qs, -, hflat, hroute⟩ := CaptureInfo.exists_route hwell p.distinct_locate hc
    have hwhole := hroute path hpath
    rw [← hstops.path_eq] at hwhole
    obtain ⟨q, qs', hrest, hfollow, hbeyond⟩ := hwhole.exists_rest
    rw [hflat, hbeyond]
    refine ⟨?_, Shape.core_flat qs' c.node, .infer q, hfollow, ?_⟩
    · rw [absent_flat, ← hrest.absentAlong_eq, hstops.put_eq hw]
    · rw [Shape.layers_flat, hrest.loopsAlong_eq]

/-- A loop around two branches and a capture, with a loop and an option in the first branch. -/
def loopsInBranch : Pattern :=
  (Pattern.concat [.alternation [
      (Pattern.concat [(Pattern.exact [0x61]).capture,
        (Pattern.exact [0x62]).capture.optional]).star,
      (Pattern.exact [0x63]).capture],
    (Pattern.exact [0x64]).capture]).star

/-- A round that took the second branch. -/
def secondBranch : Trace := [.choice 2 1, .span 10 ⟨0, 1⟩, .span 12 ⟨1, 2⟩]

/-- The value of that round. -/
def oneRound : Value := repeated [product [sum 1 (leaf (some ⟨0, 1⟩)), leaf (some ⟨1, 2⟩)]]

theorem absent_where_untouched_loopsInBranch :
    loopsInBranch.validate = .ok () ∧
      (∃ n ∈ loopsInBranch.locate.subtrees, loopsInBranch.locate.find 4 = some n ∧
        secondBranch.touches n = false ∧
        ∃ v, assemble (.infer n) secondBranch = .ok v ∧ absent (.infer n) = .ok v) ∧
      (∃ n ∈ loopsInBranch.locate.subtrees, loopsInBranch.locate.find 1 = some n ∧
        Trace.touches [.span 40 ⟨0, 1⟩] n = false ∧
        (∃ o ss, (Shape.infer n).Exposed (.sum o ss)) ∧
        ∃ e, assemble (.infer n) [.span 40 ⟨0, 1⟩] = .error e) ∧
      ∃ c ∈ CaptureInfo.table loopsInBranch.locate (.infer loopsInBranch.locate),
        ∃ path ∈ c.path, ∃ w, project path (.infer loopsInBranch.locate) oneRound = .ok w ∧
          StopsAt path oneRound w [.each, .member 0, .branch 0] [.each, .member 1, .inner]
            (repeated []) ∧
          absent (c.flat.beyond [.each, .member 0, .branch 0]) = .ok (repeated []) := by
  obtain ⟨hnodes, hcaptures⟩ := absent_where_untouched (p := loopsInBranch) rfl
  refine ⟨rfl, ?_, ?_, ?_⟩
  · obtain ⟨n, hfind⟩ : ∃ n, loopsInBranch.locate.find 4 = some n := ⟨_, rfl⟩
    have hn := (mem_subtrees_of_find hfind).1
    have huntouched : secondBranch.touches n = false := by
      obtain rfl := Option.some.inj hfind
      rfl
    refine ⟨n, hn, hfind, huntouched, ?_⟩
    rcases ((hnodes n hn).2 _ huntouched).2 with hvalue | ⟨o, ss, -, -, herror⟩
    · exact hvalue
    · obtain rfl := Option.some.inj hfind
      cases herror
  · obtain ⟨n, hfind⟩ : ∃ n, loopsInBranch.locate.find 1 = some n := ⟨_, rfl⟩
    have hn := (mem_subtrees_of_find hfind).1
    have huntouched : Trace.touches [.span 40 ⟨0, 1⟩] n = false := by
      obtain rfl := Option.some.inj hfind
      rfl
    have hexposed : ∃ o ss, (Shape.infer n).Exposed (.sum o ss) := by
      obtain rfl := Option.some.inj hfind
      exact ⟨_, _, .member List.mem_cons_self .here⟩
    exact ⟨n, hn, hfind, huntouched, hexposed, ((hnodes n hn).2 _ huntouched).1.mpr hexposed⟩
  · have hc := List.mem_of_getElem?
      (l := CaptureInfo.table loopsInBranch.locate (.infer loopsInBranch.locate)) (i := 1) rfl
    have hstops : StopsAt [.each, .member 0, .branch 0, .each, .member 1, .inner] oneRound
        (repeated [repeated []]) [.each, .member 0, .branch 0] [.each, .member 1, .inner]
        (repeated []) :=
      .item (j := 0) rfl rfl (.member rfl (.here (by decide)))
    exact ⟨_, hc, _, rfl, _, rfl, hstops,
      (hcaptures _ hc _ rfl oneRound _ rfl _ _ _ hstops).1⟩

end Value

end CaptureTree
