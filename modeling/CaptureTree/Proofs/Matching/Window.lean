import CaptureTree.Proofs.Matching.Language
import CaptureTree.Proofs.Trace.Shift

/-!
# Matching inside a longer input

An input may be part of a longer one, with bytes in front and behind.  What a pattern
can match inside the part, it can match at the same place of the longer input as well,
and there is nothing else that it can match there without running past the part.  The
order of preference is the same, and so are the records, except that the bytes in
front move all spans to the right.

`Located.WellFormed.outcomes_widen` says this of the list of outcomes: those in the
part are those in the longer input, less the ones that leave fewer bytes than there are
behind the part.  Such outcomes may come anywhere in the list.  The argument is that
nothing that follows one of them gets back into the part, since no outcome ever leaves
more bytes than there were (`Outcome.Forward`).
-/

namespace CaptureTree

/-! ## Places in a longer input -/

namespace Cursor

variable {front : Nat} {behind : Bytes} {c d : Cursor}

/-- The same place in a longer input, with `front` more bytes before it and `behind`
after it. -/
def widen (front : Nat) (behind : Bytes) (c : Cursor) : Cursor where
  pos := front + c.pos
  left := c.left + behind.length
  rest := c.rest ++ behind

@[simp] theorem left_widen : (c.widen front behind).left = c.left + behind.length := rfl

theorem Coherent.widen (h : c.Coherent) : (c.widen front behind).Coherent := by
  rw [Coherent] at h ⊢
  rw [left_widen, h]
  exact List.length_append.symm

theorem widen_injective : Function.Injective (Cursor.widen front behind) := by
  rintro ⟨i, l, r⟩ ⟨i', l', r'⟩ h
  simp only [widen, Cursor.mk.injEq, Nat.add_left_cancel_iff, Nat.add_right_cancel_iff,
    List.append_cancel_right_eq] at h
  rw [h.1, h.2.1, h.2.2]

theorem widen_advance (h : c.Coherent) {n : Nat} (hn : n ≤ c.left) :
    (c.advance n).widen front behind = (c.widen front behind).advance n := by
  rw [Coherent] at h
  simp only [widen, advance, Cursor.mk.injEq]
  refine ⟨by omega, by omega, ?_⟩
  rw [List.drop_append_of_le_length (h ▸ hn)]

/-- A place in an input is the start of any part that begins there. -/
theorem widen_ofInput {w u : Bytes} {b : Nat} (h : w.drop b = u ++ behind) :
    (ofInput u).widen b behind = (ofInput w).advance b := by
  have hlen := congrArg List.length h
  rw [List.length_drop, List.length_append] at hlen
  simp only [widen, ofInput, advance, Cursor.mk.injEq, Nat.add_zero, Nat.zero_add, h, true_and,
    and_true]
  exact hlen.symm

/-- A literal matches inside the part what it matches in the longer input, unless that
runs past the part. -/
theorem match?_widen (h : c.Coherent) (l : Literal) :
    (c.match? l).map (widen front behind) =
      ((c.widen front behind).match? l).filter fun d => behind.length ≤ d.left := by
  refine Option.ext fun e => ?_
  rw [Option.map_eq_some_iff, Option.filter_eq_some_iff]
  simp only [match?_eq_some_iff, decide_eq_true_eq]
  constructor
  · rintro ⟨d, ⟨u, hu, hstart, rfl⟩, rfl⟩
    have hlen : u.length ≤ c.left := h ▸ hstart.length_le
    refine ⟨⟨u, hu, hstart.trans (List.prefix_append _ _), widen_advance h hlen⟩, ?_⟩
    rw [left_widen]
    omega
  · rintro ⟨⟨u, hu, hstart, rfl⟩, hleft⟩
    have hlen : u.length ≤ c.left := by
      have hall := hstart.length_le
      have hcoherent : (c.widen front behind).Coherent := h.widen
      have hrest : (c.widen front behind).rest.length = c.left + behind.length := hcoherent.symm
      rw [left_advance, left_widen] at hleft
      omega
    refine ⟨c.advance u.length, ⟨u, hu, ?_, rfl⟩, widen_advance h hlen⟩
    exact List.prefix_of_prefix_length_le hstart (List.prefix_append _ _) (h ▸ hlen)

end Cursor

/-! ## Outcomes in a longer input -/

namespace Outcome

variable {front : Nat} {behind : Bytes}

/-- The same outcome in a longer input. -/
def widen (front : Nat) (behind : Bytes) (o : Outcome) : Outcome :=
  ⟨o.cursor.widen front behind, o.records.shift front⟩

/-- Does the outcome leave at least `n` bytes? -/
def leaves (n : Nat) (o : Outcome) : Bool := n ≤ o.cursor.left

theorem widen_after (t : Trace) (o : Outcome) :
    (after t o).widen front behind = after (t.shift front) (o.widen front behind) := by
  simp only [widen, after, Trace.shift, Trace.mapSpans_append]

/-- What comes before an outcome does not matter to what the outcome leaves. -/
theorem filter_leaves_map_after (n : Nat) (t : Trace) (os : List Outcome) :
    (os.map (after t)).filter (leaves n) = (os.filter (leaves n)).map (after t) :=
  List.filter_map

theorem filter_leaves_here (n : Nat) (c : Cursor) (h : n ≤ c.left) :
    [here c].filter (leaves n) = [here c] :=
  List.filter_eq_self.mpr fun o ho => by
    rw [List.mem_singleton.mp ho]
    exact decide_eq_true h

/-- Does no outcome leave more bytes than there were? -/
def Forward (f : Cursor → List Outcome) : Prop :=
  ∀ c, c.Coherent → ∀ o ∈ f c, o.cursor.Coherent ∧ o.cursor.left ≤ c.left

theorem Steps.left_le {fs : List (Cursor → List Outcome)} (hfs : ∀ f ∈ fs, Forward f)
    {c d : Cursor} (hc : c.Coherent) {os : List Outcome} (h : Steps fs c os d) :
    d.left ≤ c.left := by
  induction h with
  | nil c => exact Nat.le_refl _
  | cons hhead _ ih =>
    obtain ⟨hf, hfs⟩ := List.forall_mem_cons.mp hfs
    obtain ⟨hcoherent, hle⟩ := hf _ hc _ hhead
    exact Nat.le_trans (ih hfs hcoherent) hle

/-- What starts with too few bytes ends with too few bytes. -/
theorem filter_leaves_eq_nil {n : Nat} {c : Cursor} {os : List Outcome} (hn : ¬ n ≤ c.left)
    (h : ∀ o ∈ os, o.cursor.left ≤ c.left) : os.filter (leaves n) = [] := by
  refine List.filter_eq_nil_iff.mpr fun o ho => ?_
  have hle := h o ho
  rw [leaves, decide_eq_true_eq]
  omega

/-- Entries that lead nowhere may be left out. -/
theorem flatMap_filter {α β : Type} {P : α → Bool} {f : α → List β} {xs : List α}
    (h : ∀ x ∈ xs, ¬ P x → f x = []) : (xs.filter P).flatMap f = xs.flatMap f := by
  induction xs with
  | nil => rfl
  | cons x xs ih =>
    have hrest := ih fun y hy => h y (List.mem_cons_of_mem x hy)
    rw [List.filter_cons, List.flatMap_cons]
    split
    · rw [List.flatMap_cons, hrest]
    · rename_i hx
      rw [h x List.mem_cons_self hx, List.nil_append, hrest]

/-- **Are the outcomes in a part those in the longer input that stay inside the
part?** -/
def Windowed (front : Nat) (behind : Bytes) (f : Cursor → List Outcome) : Prop :=
  ∀ c, c.Coherent →
    (f c).map (widen front behind) = (f (c.widen front behind)).filter (leaves behind.length)

/-- **One thing after another** stays inside the part when each of them does. -/
theorem windowed_inSequence {fs : List (Cursor → List Outcome)}
    (hforward : ∀ f ∈ fs, Forward f) (hfs : ∀ f ∈ fs, Windowed front behind f) :
    Windowed front behind (inSequence fs) := by
  induction fs with
  | nil =>
    intro c _
    exact (filter_leaves_here _ (c.widen front behind) (Nat.le_add_left _ _)).symm
  | cons f fs ih =>
    obtain ⟨hf, hfs⟩ := List.forall_mem_cons.mp hfs
    obtain ⟨hforwardf, hforward⟩ := List.forall_mem_cons.mp hforward
    have hrest := ih hforward hfs
    intro c hc
    calc (inSequence (f :: fs) c).map (widen front behind)
        = (f c).flatMap fun o => ((inSequence fs (o.widen front behind).cursor).map
            (after (o.widen front behind).records)).filter (leaves behind.length) := by
          rw [inSequence, List.map_flatMap]
          refine List.flatMap_congr fun o ho => ?_
          rw [filter_leaves_map_after]
          show _ = List.map _ ((inSequence fs (o.cursor.widen front behind)).filter _)
          rw [← hrest _ (hforwardf c hc o ho).1, List.map_map, List.map_map]
          refine List.map_congr_left fun rest _ => ?_
          exact widen_after o.records rest
      _ = ((f (c.widen front behind)).filter (leaves behind.length)).flatMap fun o =>
            ((inSequence fs o.cursor).map (after o.records)).filter (leaves behind.length) := by
          rw [← hf c hc, List.flatMap_map]
      _ = (f (c.widen front behind)).flatMap fun o =>
            ((inSequence fs o.cursor).map (after o.records)).filter (leaves behind.length) := by
          refine flatMap_filter fun o ho hleft => ?_
          have hcoherent := (hforwardf _ hc.widen o ho).1
          refine filter_leaves_eq_nil (fun hle => hleft (decide_eq_true hle)) fun o' ho' => ?_
          obtain ⟨rest, hmem, rfl⟩ := List.mem_map.mp ho'
          obtain ⟨os, hsteps, -⟩ := exists_steps hmem
          exact hsteps.left_le hforward hcoherent
      _ = (inSequence (f :: fs) (c.widen front behind)).filter (leaves behind.length) := by
          rw [inSequence, List.filter_flatMap]

end Outcome

namespace Loop

variable {front : Nat} {behind : Bytes} {l : Loop} {body : Cursor → List Outcome}

theorem counts_widen (count : Nat) (c d : Cursor) :
    l.counts count (c.widen front behind) (d.widen front behind) = l.counts count c d := by
  rw [Bool.eq_iff_iff, counts_iff, counts_iff, Cursor.left_widen, Cursor.left_widen]
  omega

theorem entry_shift (b : Nat) (t : Trace) : l.entry (t.shift b) = (l.entry t).shift b := by
  rw [entry, entry]
  split
  · show _ = [Record.mapSpans _ _]
    rw [Record.mapSpans_iteration]
    rfl
  · rfl

/-- A loop leaves no more bytes than there were. -/
theorem left_le_of_mem_rounds (hbody : Outcome.Forward body) {count : Nat} {c : Cursor}
    (hc : c.Coherent) {o : Outcome} (ho : o ∈ l.rounds body count c) :
    o.cursor.left ≤ c.left := by
  obtain ⟨os, hsteps, -⟩ := l.exists_steps body ho
  refine hsteps.left_le (fun f hf => ?_) hc
  rw [List.eq_of_mem_replicate hf]
  exact hbody

/-- What an outcome of the body leads to in a loop. -/
def onward (l : Loop) (body : Cursor → List Outcome) (count : Nat) (c : Cursor) (o : Outcome) :
    List Outcome :=
  if l.counts count c o.cursor then
    (l.rounds body (count + 1) o.cursor).map (.after (l.entry o.records))
  else []

theorem rounds_eq_onward (count : Nat) (c : Cursor) :
    l.rounds body count c =
      if l.bounds.isFull count then [.here c]
      else (body c).flatMap (l.onward body count c) ++
        if l.bounds.min ≤ count then [.here c] else [] :=
  l.rounds_eq body count c

/-- **A loop** stays inside the part when its body does. -/
theorem windowed_rounds (hforward : Outcome.Forward body)
    (hbody : Outcome.Windowed front behind body) (count : Nat) :
    Outcome.Windowed front behind (l.rounds body count) := by
  intro c hc
  -- by induction on the budget, which every iteration uses up some of
  induction hb : l.budget count c.left using Nat.strongRecOn generalizing count c with
  | ind b ih =>
    have hhere : [Outcome.here (c.widen front behind)].filter (Outcome.leaves behind.length) =
        [Outcome.here c].map (Outcome.widen front behind) :=
      Outcome.filter_leaves_here _ _ (Nat.le_add_left _ _)
    have honward : ∀ o ∈ body c, (l.onward body count c o).map (Outcome.widen front behind) =
        (l.onward body count (c.widen front behind) (o.widen front behind)).filter
          (Outcome.leaves behind.length) := by
      intro o ho
      rw [onward, onward]
      simp only [Outcome.widen, counts_widen]
      split
      · rename_i hcounts
        have hrest := ih _ (hb ▸ l.budget_lt_of_counts hcounts) (count + 1) _
          (hforward c hc o ho).1 rfl
        rw [Outcome.filter_leaves_map_after, ← hrest, List.map_map, List.map_map]
        refine List.map_congr_left fun rest _ => ?_
        simp only [Function.comp_apply, Outcome.widen_after, entry_shift]
      · rfl
    have hnone : ∀ o ∈ body (c.widen front behind), ¬ Outcome.leaves behind.length o →
        (l.onward body count (c.widen front behind) o).filter (Outcome.leaves behind.length) =
          [] := by
      intro o ho hleft
      have hcoherent := (hforward _ hc.widen o ho).1
      refine Outcome.filter_leaves_eq_nil (fun hle => hleft (decide_eq_true hle)) fun o' ho' => ?_
      rw [onward] at ho'
      split at ho'
      · obtain ⟨rest, hmem, rfl⟩ := List.mem_map.mp ho'
        have hle := left_le_of_mem_rounds hforward hcoherent hmem
        exact hle
      · exact absurd ho' List.not_mem_nil
    rw [rounds_eq_onward, rounds_eq_onward]
    split
    · exact hhere.symm
    · rw [List.map_append, List.filter_append, List.map_flatMap, List.filter_flatMap,
        List.flatMap_congr honward, ← Outcome.flatMap_filter hnone, ← hbody c hc, List.flatMap_map]
      refine congrArg (List.append _) ?_
      split
      · exact hhere.symm
      · rfl

end Loop

namespace Located

variable {front : Nat} {behind : Bytes}

/-- No outcome leaves more bytes than there were. -/
theorem WellFormed.forward_outcomes {p : Located} (h : p.WellFormed) :
    Outcome.Forward p.outcomes := by
  intro c hc o ho
  obtain ⟨n, -, hcursor⟩ := h.exists_advance hc ho
  rw [hcursor]
  exact ⟨hc.advance n, Nat.sub_le _ _⟩

/-- **Matching inside a part of the input.**  The outcomes there are those in the whole
input that do not run past the part, in the same order and with the same records. -/
theorem WellFormed.outcomes_widen {p : Located} (h : p.WellFormed) :
    Outcome.Windowed front behind p.outcomes := by
  induction h with
  | @literal p hk hc hn =>
    intro c hcoherent
    have hmatch : (c.match? p.label.literal).map (Cursor.widen front behind) = _ :=
      Cursor.match?_widen hcoherent p.label.literal
    rw [outcomes_literal hk, outcomes_literal hk, List.map_map, List.filter_map]
    calc ((c.match? p.label.literal).toList.map (Outcome.widen front behind ∘ .here))
        = ((c.match? p.label.literal).map (Cursor.widen front behind)).toList.map .here := by
          rw [Option.toList_map, List.map_map]
          rfl
      _ = _ := by
          rw [hmatch, Option.toList_filter]
          rfl
  | @capture p q hk hq hwell ih =>
    intro c hcoherent
    rw [outcomes_capture hk hq, outcomes_capture hk hq, List.map_map, List.filter_map]
    show _ = List.map _ ((q.outcomes (c.widen front behind)).filter (Outcome.leaves _))
    rw [← ih c hcoherent, List.map_map]
    refine List.map_congr_left fun o _ => ?_
    simp only [Function.comp_apply, Outcome.widen, Trace.shift, Trace.mapSpans_append]
    rfl
  | @group p q hk hq hwell ih =>
    rw [outcomes_group hk hq]
    exact ih
  | @concat p hk hwell ih =>
    rw [outcomes_concat hk]
    refine Outcome.windowed_inSequence ?_ ?_
    · exact List.forall_mem_map.mpr fun q hq => (hwell q hq).forward_outcomes
    · exact List.forall_mem_map.mpr ih
  | @alternation p hk hne hwell ih =>
    intro c hcoherent
    rw [outcomes_alternation hk hne, outcomes_alternation hk hne, List.map_flatMap,
      List.filter_flatMap]
    refine List.flatMap_congr fun b hb => ?_
    have hmark : (p.mark b.2).shift front = p.mark b.2 := by
      rw [mark]
      split
      · rfl
      · rfl
    rw [Outcome.filter_leaves_map_after, ← ih b.1 (List.fst_mem_of_mem_zipIdx hb) c hcoherent,
      List.map_map, List.map_map]
    refine List.map_congr_left fun o _ => ?_
    simp only [Function.comp_apply, Outcome.widen_after, hmark]
  | @quantifier p q hk hq hroom hwell ih =>
    rw [outcomes_quantifier hk hq]
    exact Loop.windowed_rounds hwell.forward_outcomes ih 0

end Located

end CaptureTree
