import CaptureTree.Proofs.Matching.Preference
import CaptureTree.Proofs.Matching.Window

/-!
# The preferred way to an end

A pattern may match the same stretch of the input in several ways.  The first of them in
order of preference is the preferred one (`Outcome.Preferred`), and both matching and
searching return a way that is preferred among those with its end.

What the preferred way is does not depend on the input around it: it is what matching
the stretch alone returns, moved to its place
(`Located.WellFormed.exists_match?_of_preferred`).
-/

namespace CaptureTree

namespace Outcome

variable {f : Cursor → List Outcome} {c : Cursor} {o : Outcome}

/-- **Is the outcome the first of those that end where it ends?** -/
def Preferred (f : Cursor → List Outcome) (c : Cursor) (o : Outcome) : Prop :=
  (f c).find? (fun o' => o'.cursor == o.cursor) = some o

theorem Preferred.mem (h : Preferred f c o) : o ∈ f c :=
  List.mem_of_find?_eq_some h

/-- The very first outcome is preferred. -/
theorem preferred_of_head? (h : (f c).head? = some o) : Preferred f c o := by
  obtain ⟨os, hos⟩ : ∃ os, f c = o :: os := List.head?_eq_some_iff.mp h
  rw [Preferred, hos, List.find?_cons, beq_self_eq_true]

/-- The first outcome to pass a test is preferred, if the test looks only at the end. -/
theorem preferred_of_find? (accept : Cursor → Bool)
    (h : (f c).find? (fun o => accept o.cursor) = some o) : Preferred f c o := by
  obtain ⟨haccept, front, back, hlist, hfront⟩ := List.find?_eq_some_iff_append.mp h
  refine List.find?_eq_some_iff_append.mpr ⟨beq_self_eq_true _, front, back, hlist, ?_⟩
  intro o' ho'
  have hreject := hfront o' ho'
  rw [Bool.not_eq_true'] at hreject ⊢
  refine beq_false_of_ne fun hsame => ?_
  rw [hsame, haccept] at hreject
  cases hreject

/-- **Doing one thing after another** in a preferred way means doing both in their
preferred ways: a better way of the first that ends at the same place would make a better
way of both. -/
theorem exists_preferred_of_flatMap {g : Cursor → List Outcome} {e : Trace → Trace}
    (h : ((f c).flatMap fun i => (g i.cursor).map (after (e i.records))).find?
      (fun o' => o'.cursor == o.cursor) = some o) :
    ∃ first rest, Preferred f c first ∧ Preferred g first.cursor rest ∧
      o = after (e first.records) rest := by
  rw [List.find?_flatMap] at h
  obtain ⟨front, first, back, hlist, hfound, hfront⟩ := List.findSome?_eq_some_iff.mp h
  rw [List.find?_map, Option.map_eq_some_iff] at hfound
  obtain ⟨rest, hrest, rfl⟩ := hfound
  have hrest : Preferred g first.cursor rest := hrest
  refine ⟨first, rest, ?_, hrest, rfl⟩
  refine List.find?_eq_some_iff_append.mpr ⟨beq_self_eq_true _, front, back, hlist, fun i hi => ?_⟩
  rw [Bool.not_eq_true']
  refine beq_false_of_ne fun hsame => ?_
  have hmem : rest ∈ g i.cursor := hsame ▸ hrest.mem
  exact List.find?_eq_none.mp (hfront i hi) _ (List.mem_map_of_mem hmem) (beq_self_eq_true _)

end Outcome

namespace Loop

variable {l : Loop} {body : Cursor → List Outcome}

/-- The preferred way round a loop leaves it, or goes round once more in a preferred way
and goes on in one. -/
theorem preferred_rounds {count : Nat} {c : Cursor} {o : Outcome}
    (h : Outcome.Preferred (l.rounds body count) c o) :
    o = .here c ∨ ∃ first rest, Outcome.Preferred body c first ∧
      l.counts count c first.cursor = true ∧
      Outcome.Preferred (l.rounds body (count + 1)) first.cursor rest ∧
        o = .after (l.entry first.records) rest := by
  rw [Outcome.Preferred, rounds_eq_onward] at h
  split at h
  · exact .inl (List.mem_singleton.mp (List.mem_of_find?_eq_some h))
  · rw [List.find?_append, Option.or_eq_some_iff] at h
    rcases h with h | ⟨-, h⟩
    · -- what counts is decided by where an iteration ends
      have honward : l.onward body count c = fun i =>
          (if l.counts count c i.cursor then l.rounds body (count + 1) i.cursor else []).map
            (.after (l.entry i.records)) := by
        funext i
        rw [onward]
        split
        · rfl
        · rfl
      rw [honward] at h
      obtain ⟨first, rest, hfirst, hrest, rfl⟩ := Outcome.exists_preferred_of_flatMap
        (g := fun d => if l.counts count c d then l.rounds body (count + 1) d else []) h
      cases hcounts : l.counts count c first.cursor with
      | false =>
        rw [Outcome.Preferred, hcounts] at hrest
        cases hrest
      | true =>
        rw [Outcome.Preferred, hcounts] at hrest
        exact .inr ⟨first, rest, hfirst, hcounts, hrest, rfl⟩
    · have hmem := List.mem_of_find?_eq_some h
      split at hmem
      · exact .inl (List.mem_singleton.mp hmem)
      · exact absurd hmem List.not_mem_nil

end Loop

namespace Located

open Outcome

variable {p : Located} {w : Bytes} {whole : Span} {t : Trace}

/-- Matching returns the preferred way to the end of the input. -/
theorem exists_preferred_of_match? (h : p.match? w = some (whole, t)) :
    ∃ o, Preferred p.outcomes (.ofInput w) o ∧ whole = ⟨0, o.cursor.pos⟩ ∧ t = o.records := by
  rw [match?_eq_find?, Option.map_eq_some_iff] at h
  obtain ⟨o, hfind, heq⟩ := h
  obtain ⟨rfl, rfl⟩ := Prod.mk.inj heq
  exact ⟨o, preferred_of_find? (fun c => c.left == 0) hfind, rfl, rfl⟩

/-- Searching returns the first way of the first place that has one. -/
theorem exists_first_of_search? (h : p.search? w = some (whole, t)) :
    ∃ b ≤ w.length, (∀ a < b, p.outcomes ((Cursor.ofInput w).advance a) = []) ∧
      ∃ o, (p.outcomes ((Cursor.ofInput w).advance b)).head? = some o ∧
        whole = ⟨b, o.cursor.pos⟩ ∧ t = o.records := by
  rw [search?_eq_findSome?] at h
  obtain ⟨front, b, back, hlist, hfound, hfront⟩ := List.findSome?_eq_some_iff.mp h
  obtain ⟨o, hhead, heq⟩ := Option.map_eq_some_iff.mp hfound
  obtain ⟨rfl, rfl⟩ := Prod.mk.inj heq
  have hrange : ∀ a ∈ front ++ b :: back, a < w.length + 1 := by
    rw [← hlist]
    exact fun a ha => List.mem_range.mp ha
  have hb : b < w.length + 1 := hrange b (List.mem_append_right front List.mem_cons_self)
  refine ⟨b, Nat.lt_succ_iff.mp hb, fun a ha => ?_, o, hhead, rfl, rfl⟩
  -- the places below `b` come before it
  have hsorted : (front ++ b :: back).Pairwise (· < ·) := hlist ▸ List.pairwise_lt_range
  rw [List.pairwise_append, List.pairwise_cons] at hsorted
  have hmem : a ∈ front ++ b :: back := hlist ▸ List.mem_range.mpr (Nat.lt_trans ha hb)
  rcases List.mem_append.mp hmem with hmem | hmem
  · exact List.head?_eq_none_iff.mp (Option.map_eq_none_iff.mp (hfront a hmem))
  · rcases List.mem_cons.mp hmem with rfl | hmem
    · exact absurd ha (Nat.lt_irrefl _)
    · exact absurd (hsorted.2.1.1 a hmem) (Nat.lt_asymm ha)

/-- Searching finds nothing where no place has a way to match. -/
theorem search?_eq_none_iff : p.search? w = none ↔
    ∀ b ≤ w.length, p.outcomes ((Cursor.ofInput w).advance b) = [] := by
  rw [search?_eq_findSome?, List.findSome?_eq_none_iff]
  simp only [List.mem_range, Option.map_eq_none_iff, List.head?_eq_none_iff, Nat.lt_succ_iff]

/-- The preferred way through a whole input is its match. -/
theorem WellFormed.match?_of_preferred (h : p.WellFormed) {u : Bytes} {o : Outcome}
    (ho : Preferred p.outcomes (.ofInput u) o)
    (hend : o.cursor = (Cursor.ofInput u).advance u.length) :
    p.match? u = some (⟨0, u.length⟩, o.records) := by
  have hlast : ∀ i ∈ p.outcomes (.ofInput u), (i.cursor == o.cursor) = (i.cursor.left == 0) := by
    intro i hi
    rw [Bool.eq_iff_iff, beq_iff_eq, beq_iff_eq, h.cursor_of_left_eq_zero hi, hend]
  rw [Preferred, ← List.head?_filter, List.filter_congr hlast, List.head?_filter] at ho
  rw [match?_eq_find?, ho, Option.map_some, hend]
  exact congrArg (fun stop => some (Span.mk 0 stop, o.records)) (Nat.zero_add u.length)

/-- **A preferred way that stays inside a part** of the input is the preferred way there:
so does every other way to the same end. -/
theorem WellFormed.exists_preferred_of_widen (h : p.WellFormed) {front : Nat} {behind : Bytes}
    {c : Cursor} (hc : c.Coherent) {o : Outcome}
    (ho : Preferred p.outcomes (c.widen front behind) o) (hleft : behind.length ≤ o.cursor.left) :
    ∃ o', Preferred p.outcomes c o' ∧ o = o'.widen front behind := by
  have hfind : ((p.outcomes c).map (Outcome.widen front behind)).find?
      (fun o' => o'.cursor == o.cursor) = some o := by
    rw [h.outcomes_widen c hc, List.find?_filter, ← ho]
    refine congrArg (List.find? · _) (funext fun o' => ?_)
    rw [Bool.eq_iff_iff, decide_eq_true_eq, beq_iff_eq]
    refine ⟨And.right, fun hsame => ⟨?_, hsame⟩⟩
    rw [leaves, hsame]
    exact decide_eq_true hleft
  rw [List.find?_map, Option.map_eq_some_iff] at hfind
  obtain ⟨o', hfind, rfl⟩ := hfind
  refine ⟨o', ?_, rfl⟩
  rw [Preferred, ← hfind]
  refine congrArg (List.find? · _) (funext fun i => ?_)
  rw [Bool.eq_iff_iff, Function.comp_apply, beq_iff_eq, beq_iff_eq]
  exact Cursor.widen_injective.eq_iff.symm

/-- **The preferred way is that of the stretch alone.**  Matching just the bytes between
the start and the end of a preferred outcome finds it again, as far to the left as the
bytes are. -/
theorem WellFormed.exists_match?_of_preferred (h : p.WellFormed) {b : Nat} (hb : b ≤ w.length)
    {o : Outcome} (ho : Preferred p.outcomes ((Cursor.ofInput w).advance b) o) :
    b ≤ o.cursor.pos ∧ o.cursor.pos ≤ w.length ∧
      ∃ u t', Span.bytes? ⟨b, o.cursor.pos⟩ w = some u ∧
        p.match? u = some (⟨0, o.cursor.pos - b⟩, t') ∧ t'.shift b = o.records := by
  obtain ⟨n, hn, hcursor⟩ := h.exists_advance ((Cursor.coherent_ofInput w).advance b) ho.mem
  have hn : n ≤ w.length - b := hn
  have hpos : o.cursor.pos = b + n := by
    rw [hcursor]
    show 0 + b + n = b + n
    omega
  have hbytes : Span.bytes? ⟨b, b + n⟩ w = some ((w.drop b).take n) := by
    rw [Span.bytes?, if_pos hb, Span.size, if_pos (Nat.le_add_right b n), Nat.add_sub_cancel_left]
  refine ⟨by omega, by omega, ?_⟩
  have hsplit := (List.take_append_drop n (w.drop b)).symm
  have hlen : ((w.drop b).take n).length = n := by
    rw [List.length_take, List.length_drop, Nat.min_eq_left hn]
  rw [hpos, hbytes, Nat.add_sub_cancel_left]
  generalize (w.drop b).take n = u at hsplit hlen
  generalize (w.drop b).drop n = behind at hsplit
  have hcoherent := Cursor.coherent_ofInput u
  have hpart : (Cursor.ofInput u).widen b behind = (Cursor.ofInput w).advance b :=
    Cursor.widen_ofInput hsplit
  have hend : o.cursor = ((Cursor.ofInput u).advance u.length).widen b behind := by
    have hall : u.length ≤ (Cursor.ofInput u).left := Nat.le_refl _
    rw [Cursor.widen_advance hcoherent hall, hpart, hlen, hcursor]
  have hleft : behind.length ≤ o.cursor.left := by
    rw [hend, Cursor.left_widen]
    exact Nat.le_add_left _ _
  obtain ⟨o', ho', rfl⟩ := h.exists_preferred_of_widen hcoherent (hpart ▸ ho) hleft
  refine ⟨u, o'.records, rfl, ?_, rfl⟩
  rw [← hlen]
  exact h.match?_of_preferred ho' (Cursor.widen_injective hend)

end Located

end CaptureTree
