import CaptureTree.Proofs.Trace.Frames
import CaptureTree.Proofs.Value.Spans

/-!
# A loop as frames and as span lists

An engine may hand over the iterations of a loop one by one, each in a frame of its own,
or throw them together.  `Trace.unframe` does the latter to a frame: what is in the
iterations of a quantifier goes into the frame itself, in the order of the iterations.

If every iteration holds one span for every capture of the body and nothing else
(`Trace.OneSpanEach`), nothing is lost, since the spans of a capture number the iterations:
splitting the span lists gives the iterations back.  So the frame looks as before
(`Trace.alike_unframe`), and it is in order exactly if it was before
(`Trace.placed_unframe_iff`).
-/

namespace CaptureTree

/-- Lists of one entry each, put together, are read by place. -/
theorem flatMap_of_singletons {α β : Type} {xs : List α} {f : α → List β}
    (h : ∀ x ∈ xs, ∃ y, f x = [y]) :
    (xs.flatMap f).length = xs.length ∧
      ∀ (i : Nat) x, xs[i]? = some x → (xs.flatMap f)[i]?.toList = f x := by
  induction xs with
  | nil => exact ⟨rfl, fun i x hx => by cases hx⟩
  | cons x xs ih =>
    obtain ⟨⟨y, hy⟩, hxs⟩ := List.forall_mem_cons.mp h
    obtain ⟨hlength, hentry⟩ := ih hxs
    rw [List.flatMap_cons, hy]
    refine ⟨congrArg (· + 1) hlength, fun i x' hx' => ?_⟩
    cases i with
    | zero =>
      obtain rfl : x = x' := Option.some.inj hx'
      exact hy.symm
    | succ i => exact hentry i x' hx'

namespace Trace

open Located

variable {p q b c : Located} {f g g' : Trace} {n m : NodeId}

/-! ## Frames with one span for every capture -/

/-- **Does a frame hold exactly one span for every capture of a pattern, and nothing
else?** -/
structure OneSpanEach (b : Located) (g : Trace) : Prop where
  nothingElse : ∀ r ∈ g, ∃ c ∈ b.captures, ∃ s, r = .span (Located.id c) s
  spans : ∀ c ∈ b.captures, ∃ s, g.spans (Located.id c) = [s]

/-- It can be told by counting. -/
theorem oneSpanEach_iff : OneSpanEach b g ↔
    (∀ r ∈ g, ∃ c ∈ b.captures, (r.spanOf? (Located.id c)).isSome) ∧
      ∀ c ∈ b.captures, (g.spans (Located.id c)).length = 1 := by
  constructor
  · intro h
    refine ⟨fun r hr => ?_, fun c hc => List.length_eq_one_iff.mpr (h.spans c hc)⟩
    obtain ⟨c, hc, s, rfl⟩ := h.nothingElse r hr
    exact ⟨c, hc, Option.isSome_iff_exists.mpr ⟨s, Record.spanOf?_eq_some.mpr rfl⟩⟩
  · rintro ⟨hspan, hone⟩
    refine ⟨fun r hr => ?_, fun c hc => List.length_eq_one_iff.mp (hone c hc)⟩
    obtain ⟨c, hc, hsome⟩ := hspan r hr
    obtain ⟨s, hs⟩ := Option.isSome_iff_exists.mp hsome
    exact ⟨c, hc, s, Record.spanOf?_eq_some.mp hs⟩

instance (b : Located) (g : Trace) : Decidable (OneSpanEach b g) :=
  decidable_of_iff _ oneSpanEach_iff.symm

namespace OneSpanEach

theorem choices_eq_nil (h : OneSpanEach b g) (n : NodeId) : g.choices n = [] := by
  refine List.filterMap_eq_nil_iff.mpr fun r hr => ?_
  obtain ⟨c, -, s, rfl⟩ := h.nothingElse r hr
  rfl

theorem iterations_eq_nil (h : OneSpanEach b g) (n : NodeId) : g.iterations n = [] := by
  refine List.filterMap_eq_nil_iff.mpr fun r hr => ?_
  obtain ⟨c, -, s, rfl⟩ := h.nothingElse r hr
  rfl

theorem spans_eq_nil (h : OneSpanEach b g) (hn : ∀ c ∈ b.captures, Located.id c ≠ n) :
    g.spans n = [] := by
  refine List.filterMap_eq_nil_iff.mpr fun r hr => ?_
  obtain ⟨c, hc, s, rfl⟩ := h.nothingElse r hr
  exact if_neg (hn c hc)

theorem node_mem_ids (h : OneSpanEach b g) {r : Record} (hr : r ∈ g) : r.node ∈ b.ids := by
  obtain ⟨c, hc, s, rfl⟩ := h.nothingElse r hr
  exact id_mem_ids (List.mem_of_mem_filter hc)

/-- A frame with a span for every capture is not empty, if there is a capture. -/
theorem exists_mem (h : OneSpanEach b g) (hcapture : b.hasCapture = true) : ∃ r, r ∈ g := by
  obtain ⟨c, hc, hcapture⟩ := List.any_eq_true.mp hcapture
  obtain ⟨s, hs⟩ := h.spans c (List.mem_filter.mpr ⟨hc, hcapture⟩)
  exact ⟨_, mem_spans.mp (hs ▸ List.mem_singleton_self s)⟩

/-- Two such frames with the same spans have the same rows. -/
theorem agreeOn (h : OneSpanEach b g) (h' : OneSpanEach b g')
    (hspans : ∀ c ∈ b.captures, g.spans (Located.id c) = g'.spans (Located.id c)) :
    AgreeOn b g g' where
  spans n _ := by
    by_cases hn : ∃ c ∈ b.captures, Located.id c = n
    · obtain ⟨c, hc, rfl⟩ := hn
      exact hspans c hc
    · push Not at hn
      rw [h.spans_eq_nil hn, h'.spans_eq_nil hn]
  choices n _ := by rw [h.choices_eq_nil, h'.choices_eq_nil]
  iterations n _ := by rw [h.iterations_eq_nil, h'.iterations_eq_nil]

end OneSpanEach

/-! ## Throwing iterations together -/

/-- **The frame with the iterations of a quantifier thrown together**: what they hold
stands in the frame itself, behind everything else and in the order of the iterations. -/
def unframe (n : NodeId) (f : Trace) : Trace :=
  (f.filter fun r => (r.frameOf? n).isNone) ++ (f.iterations n).flatten

theorem mem_unframe {r : Record} :
    r ∈ f.unframe n ↔ (r ∈ f ∧ r.frameOf? n = none) ∨ ∃ g ∈ f.iterations n, r ∈ g := by
  rw [unframe, List.mem_append, List.mem_filter, List.mem_flatten, Option.isNone_iff_eq_none]

/-- Without iterations there is nothing to do. -/
theorem unframe_eq_self (h : f.iterations n = []) : f.unframe n = f := by
  rw [unframe, h, List.flatten_nil, List.append_nil, List.filter_eq_self]
  intro r hr
  rw [List.filterMap_eq_nil_iff.mp h r hr]
  rfl

/-- What is not read off iterations of the quantifier is read off the rest of the frame,
and then off the iterations. -/
theorem filterMap_unframe {α : Type} {read : Record → Option α}
    (hread : ∀ g, read (.iteration n g) = none) :
    (f.unframe n).filterMap read =
      f.filterMap read ++ (f.iterations n).flatMap fun g => g.filterMap read := by
  rw [unframe, List.filterMap_append, List.filterMap_flatten, List.flatMap_def,
    List.filterMap_filter]
  refine congrArg (· ++ _) (List.filterMap_congr fun r _ => ?_)
  split
  · rfl
  · rename_i hframe
    cases r with
    | span | choice => exact absurd rfl hframe
    | iteration m g =>
      rw [Record.frameOf?] at hframe
      split at hframe
      · rename_i hm
        rw [hm, hread g]
      · exact absurd rfl hframe

theorem spans_unframe (f : Trace) (n m : NodeId) :
    (f.unframe n).spans m = f.spans m ++ (f.iterations n).flatMap fun g => g.spans m :=
  filterMap_unframe fun _ => rfl

theorem choices_unframe (f : Trace) (n m : NodeId) :
    (f.unframe n).choices m = f.choices m ++ (f.iterations n).flatMap fun g => g.choices m :=
  filterMap_unframe fun _ => rfl

theorem iterations_unframe (f : Trace) (hnm : n ≠ m) :
    (f.unframe n).iterations m =
      f.iterations m ++ (f.iterations n).flatMap fun g => g.iterations m :=
  filterMap_unframe fun _ => if_neg hnm

/-- No iterations are left, unless they were inside iterations. -/
theorem iterations_unframe_self (h : ∀ g ∈ f.iterations n, g.iterations n = []) :
    (f.unframe n).iterations n = [] := by
  rw [unframe, iterations_append, List.append_eq_nil_iff]
  constructor
  · refine List.filterMap_eq_nil_iff.mpr fun r hr => ?_
    exact Option.isNone_iff_eq_none.mp (List.mem_filter.mp hr).2
  · refine List.filterMap_eq_nil_iff.mpr fun r hr => ?_
    obtain ⟨g, hg, hr⟩ := List.mem_flatten.mp hr
    exact List.filterMap_eq_nil_iff.mp (h g hg) r hr

/-! ## Splitting what was thrown together -/

/-- An iteration that was split off holds one span for every capture. -/
theorem oneSpanEach_splitFrame (hd : b.Distinct) {t : Trace} {k i : Nat} (hi : i < k)
    (heven : ∀ c ∈ b.captures, (t.spans (Located.id c)).length = k) :
    OneSpanEach b (splitFrame (captureRows b t) i) where
  nothingElse r hr := by
    obtain ⟨row, hrow, hspan⟩ := List.mem_filterMap.mp hr
    obtain ⟨c, hc, rfl⟩ := List.mem_map.mp hrow
    obtain ⟨s, -, rfl⟩ := Option.map_eq_some_iff.mp hspan
    exact ⟨c, hc, s, rfl⟩
  spans c hc := by
    rw [spans_splitFrame (nodup_captureRows hd t) (mem_captureRows t hc),
      List.getElem?_eq_getElem (heven c hc ▸ hi)]
    exact ⟨_, rfl⟩

/-- The spans of a capture number the iterations. -/
theorem spans_unframe_of_oneSpanEach (h : ∀ g ∈ f.iterations n, OneSpanEach b g)
    (hloose : f.touches b = false) (hc : c ∈ b.captures) :
    ((f.unframe n).spans c.id).length = (f.iterations n).length ∧
      ∀ (i : Nat) g, (f.iterations n)[i]? = some g →
        ((f.unframe n).spans c.id)[i]?.toList = g.spans c.id := by
  have hids : c.id ∈ b.ids := id_mem_ids (List.mem_of_mem_filter hc)
  rw [spans_unframe, (touches_eq_false_iff_rows.mp hloose c.id hids).1, List.nil_append]
  exact flatMap_of_singletons fun g hg => (h g hg).spans c hc

/-- The frame is in touch with the body now, if there was an iteration. -/
theorem touches_unframe (h : ∀ g ∈ f.iterations n, OneSpanEach b g)
    (hcapture : b.hasCapture = true) (hsome : f.iterations n ≠ []) :
    (f.unframe n).touches b = true := by
  obtain ⟨g, hg⟩ := List.exists_mem_of_ne_nil _ hsome
  obtain ⟨r, hr⟩ := (h g hg).exists_mem hcapture
  rw [← Bool.not_eq_false, touches_eq_false_iff]
  exact fun hout => hout r (mem_unframe.mpr (.inr ⟨g, hg, hr⟩)) ((h g hg).node_mem_ids hr)

/-! ## The frame looks as before -/

/-- At the quantifier the iterations are found again. -/
theorem alike_unframe_at (hq : q.WellFormed) (hd : q.Distinct) (hk : q.kind = .quantifier)
    (hb : q.body = some b) (hcapture : b.hasCapture = true)
    (hsplit : ∀ a ∈ b.subtrees, blocksSplitting a = false)
    (h : ∀ g ∈ f.iterations q.id, OneSpanEach b g) (hloose : f.touches b = false)
    (hsome : f.iterations q.id ≠ []) : Alike q f (f.unframe q.id) := by
  obtain ⟨b', hc, hwell, -⟩ := hq.of_quantifier hk
  obtain rfl := eq_of_mem_body hc hb
  have hdb : b.Distinct := hd.child (mem_children_of_eq hc)
  have hcaptures : b.captures ≠ [] := by
    obtain ⟨c, hc, hcapture⟩ := List.any_eq_true.mp hcapture
    exact List.ne_nil_of_mem (List.mem_filter.mpr ⟨hc, hcapture⟩)
  have heven : ∀ c ∈ b.captures, ((f.unframe q.id).spans (Located.id c)).length =
      (f.iterations q.id).length := fun c hc => (spans_unframe_of_oneSpanEach h hloose hc).1
  have hframes : ∀ slot, (f.unframe q.id).frames slot q = .ok
      ((List.range (f.iterations q.id).length).map
        (splitFrame (captureRows b (f.unframe q.id)))) := by
    intro slot
    have hnone := iterations_unframe_self fun g hg => (h g hg).iterations_eq_nil q.id
    rw [frames_of_touched hb (touches_unframe h hcapture hsome), hnone]
    exact splitSpans_of_even hsplit hcaptures heven
  refine .iterated hk hc (fun slot => frames_of_untouched fun b' hb' => ?_) hframes ?_ ?_
  · obtain rfl := eq_of_mem_body hc hb'
    exact hloose
  · rw [List.length_map, List.length_range]
  · intro pair hpair
    obtain ⟨i, hi, rfl⟩ := List.mem_iff_getElem.mp hpair
    rw [List.getElem_zip, List.getElem_map, List.getElem_range]
    have hlt : i < (f.iterations q.id).length := by
      rw [List.length_zip] at hi
      exact Nat.lt_of_lt_of_le hi (Nat.min_le_left _ _)
    have hframe := h _ (List.getElem_mem hlt)
    refine (hframe.agreeOn (oneSpanEach_splitFrame hdb hlt heven) fun c hc => ?_).alike hwell
    rw [spans_splitFrame (nodup_captureRows hdb _) (mem_captureRows _ hc)]
    exact ((spans_unframe_of_oneSpanEach h hloose hc).2 i _
      (List.getElem?_eq_getElem hlt)).symm

/-- Beside the quantifier nothing changes. -/
theorem agreeBeside_unframe (hb : b ∈ q.children) (hcapture : b.hasCapture = true)
    (h : ∀ g ∈ f.iterations q.id, OneSpanEach b g) (hsome : f.iterations q.id ≠ []) :
    AgreeBeside p q f (f.unframe q.id) where
  spans m _ hm := by
    have hnil : ∀ g ∈ f.iterations q.id, g.spans m = [] := fun g hg =>
      (h g hg).spans_eq_nil fun c hc hid => hm (hid ▸ ids_subset_of_mem_children hb
        (id_mem_ids (List.mem_of_mem_filter hc)))
    rw [spans_unframe, List.flatMap_eq_nil_iff.mpr hnil, List.append_nil]
  choices m _ _ := by
    have hnil : ∀ g ∈ f.iterations q.id, g.choices m = [] := fun g hg =>
      (h g hg).choices_eq_nil m
    rw [choices_unframe, List.flatMap_eq_nil_iff.mpr hnil, List.append_nil]
  iterations m _ hm := by
    have hne : q.id ≠ m := fun hid => hm (hid ▸ id_mem_ids_self q)
    have hnil : ∀ g ∈ f.iterations q.id, g.iterations m = [] := fun g hg =>
      (h g hg).iterations_eq_nil m
    rw [iterations_unframe f hne, List.flatMap_eq_nil_iff.mpr hnil, List.append_nil]
  touches := by
    have hbefore := touches_of_iterations hsome
    have hafter : (f.unframe q.id).touches q = true := by
      rw [← Bool.not_eq_false]
      intro hnone
      have hbody := touches_eq_false_of_mem_subtrees hnone (mem_subtrees_of_mem_children hb)
      rw [touches_unframe h hcapture hsome] at hbody
      cases hbody
    rw [hbefore, hafter]

/-- Around the quantifier iterations can not be told apart, before or after, unless they
were recorded and nothing was beside them. -/
theorem frames_unframe_around {x : Located} (hx : x.WellFormed) (hxk : x.kind = .quantifier)
    (hne : x ≠ q) (hqx : q ∈ x.subtrees) (hblocks : blocksSplitting q = true)
    (hbeside : AgreeBeside x q f (f.unframe q.id)) (hout : x.id ∉ q.ids)
    (hsome : f.touches q = true) (slot : SlotTitle) :
    f.frames slot x = (f.unframe q.id).frames slot x := by
  obtain ⟨y, hc, -, -⟩ := hx.of_quantifier hxk
  have hy : y ∈ x.children := mem_children_of_eq hc
  obtain ⟨y', hy', hin⟩ := (mem_subtrees.mp hqx).resolve_left (Ne.symm hne)
  rw [hc, List.mem_singleton] at hy'
  subst hy'
  have hbody := body_eq_some hc
  have htouched : f.touches y' = true := by
    rw [← Bool.not_eq_false]
    intro hnone
    rw [touches_eq_false_of_mem_subtrees hnone hin] at hsome
    cases hsome
  have hstuck : ∀ t : Trace, ∀ t' : Trace, splitSpans slot y' t = splitSpans slot y' t' := by
    intro t t'
    obtain ⟨a, ha⟩ := Option.isSome_iff_exists.mp
      (List.find?_isSome.mpr ⟨q, hin, hblocks⟩ : (y'.subtrees.find? blocksSplitting).isSome)
    simp only [splitSpans, ha]
  have hrows := hbeside.iterations x.id (id_mem_ids_self x) hout
  have htouched' := ((hbeside.child hy).touches_eq hin).symm.trans htouched
  rw [frames_of_touched hbody htouched, frames_of_touched hbody htouched', hrows,
    hstuck f (f.unframe q.id)]

/-- **A frame looks the same with the iterations of a loop thrown together**, if each of
them holds one span for every capture and nothing else, and nothing of the body stands
beside them. -/
theorem alike_unframe (hwell : p.WellFormed) (hd : p.Distinct) (hq : q ∈ p.subtrees)
    (hk : q.kind = .quantifier) (hb : q.body = some b) (hcapture : q.hasCapture = true)
    (hsplit : ∀ a ∈ b.subtrees, blocksSplitting a = false)
    (h : ∀ g ∈ f.iterations q.id, OneSpanEach b g) (hloose : f.touches b = false) :
    Alike p f (f.unframe q.id) := by
  by_cases hsome : f.iterations q.id = []
  · rw [unframe_eq_self hsome]
    exact .refl hwell f
  have hwellq := hwell.of_mem_subtrees hq
  have hchild : b ∈ q.children := List.mem_of_head? hb
  have hcaptureb : b.hasCapture = true := (hwellq.hasCapture_eq_body hk hb).symm.trans hcapture
  have hbeside : AgreeBeside p q f (f.unframe q.id) :=
    agreeBeside_unframe hchild hcaptureb h hsome
  have htouched := touches_of_iterations hsome
  have hblocks : blocksSplitting q = true := by
    rw [blocksSplitting, hk, hcapture]
    rfl
  refine .of_part hwell hd hq hbeside (alike_unframe_at hwellq (hd.of_mem_subtrees hq) hk hb
    hcaptureb hsplit h hloose hsome) fun x hx hxk hne hqx slot => ?_
  exact frames_unframe_around (hwell.of_mem_subtrees hx) hxk hne hqx hblocks (hbeside.mono hx)
    ((hd.of_mem_subtrees hx).id_notMem_ids_of_ne hqx hne) htouched slot

/-! ## The frame is in order as before -/

/-- **A frame is in order with the iterations of a loop thrown together** exactly if it
was before. -/
theorem placed_unframe_iff {size : Nat} {scope : Option Located}
    (hscope : ∀ s ∈ scope, Distinct s ∧ q ∈ s.subtrees) (hk : q.kind = .quantifier)
    (hb : q.body = some b) (hcapture : b.hasCapture = true)
    (h : ∀ g ∈ f.iterations q.id, OneSpanEach b g) :
    Placed size scope f ↔ Placed size scope (f.unframe q.id) := by
  have hbq : b ∈ q.subtrees := mem_subtrees_of_mem_children (List.mem_of_head? hb)
  constructor
  · intro hplaced r hr
    rcases mem_unframe.mp hr with ⟨hr, -⟩ | ⟨g, hg, hr⟩
    · exact hplaced r hr
    · obtain ⟨r', hr', hframe⟩ := List.mem_filterMap.mp hg
      obtain ⟨s, rfl⟩ := (hplaced r' hr').exists_scope
      obtain ⟨hd, hq⟩ := hscope s rfl
      exact ((hplaced r' hr').inside hd hq hb hframe r hr).mono hd
        (Tree.mem_subtrees_trans hbq hq)
  · intro hplaced r hr
    cases hframe : r.frameOf? q.id with
    | none => exact hplaced r (mem_unframe.mpr (.inl ⟨hr, hframe⟩))
    | some g =>
      have hg : g ∈ f.iterations q.id := List.mem_filterMap.mpr ⟨r, hr, hframe⟩
      have hinside : ∀ r ∈ g, Record.Placed size scope r := fun r hr =>
        hplaced r (mem_unframe.mpr (.inr ⟨g, hg, hr⟩))
      obtain ⟨r₀, hr₀⟩ := (h g hg).exists_mem hcapture
      obtain ⟨s, rfl⟩ := (hinside r₀ hr₀).exists_scope
      obtain ⟨hd, hq⟩ := hscope s rfl
      obtain rfl := Record.frameOf?_eq_some.mp hframe
      refine .iteration (hd.find_id hq) hk fun r hr => ?_
      obtain ⟨c, hc, sp, rfl⟩ := (h g hg).nothingElse r hr
      obtain ⟨hmem, hcapture⟩ := List.mem_filter.mp hc
      cases hinside _ hr with
      | span _ _ hfits =>
        rw [hb]
        exact .span ((hd.of_mem_subtrees (Tree.mem_subtrees_trans hbq hq)).find_id hmem)
          (beq_iff_eq.mp hcapture) hfits

end Trace

end CaptureTree
