import CaptureTree.Proofs.Flattening
import CaptureTree.Proofs.Value.Summaries

/-!
# Matching, without a trace

The value and the results of a match are read from the trace that the search has recorded.
They are known without it.  `Pattern.matched?` and `Pattern.searched?` tell from the pattern
and the input what matching and searching come to, and what `Regex.match?` and
`Regex.search?` return has the results and the value that these say
(`Regex.Compiled.hasResults`, `Regex.Compiled.hasValue`).

The argument goes through the trace once more.  What is found is the first of the outcomes,
and this tells of the first of the ways to match (`Located.WellFormed.match?_tells`).
Evaluating its trace gives what the trace comes to.
-/

namespace CaptureTree

/-! ## The first of two lists side by side -/

section Option

variable {α β γ δ ι : Type} {R : α → β → Prop}

theorem rel_map {S : γ → δ → Prop} {f : α → γ} {g : β → δ} {x : Option α} {y : Option β}
    (h : Option.Rel R x y) (hstep : ∀ a b, R a b → S (f a) (g b)) :
    Option.Rel S (x.map f) (y.map g) := by
  cases h with
  | none => exact .none
  | some hab => exact .some (hstep _ _ hab)

theorem rel_head? {xs : List α} {ys : List β} (h : List.Forall₂ R xs ys) :
    Option.Rel R xs.head? ys.head? := by
  cases h with
  | nil => exact .none
  | cons hab _ => exact .some hab

theorem rel_find? {P : α → Bool} {Q : β → Bool} (hsame : ∀ a b, R a b → P a = Q b)
    {xs : List α} {ys : List β} (h : List.Forall₂ R xs ys) :
    Option.Rel R (xs.find? P) (ys.find? Q) := by
  induction h with
  | nil => exact .none
  | @cons a b xs ys hab _ ih =>
    rw [List.find?_cons, List.find?_cons, hsame a b hab]
    cases Q b with
    | true => exact .some hab
    | false => exact ih

theorem rel_findSome? {f : ι → Option α} {g : ι → Option β}
    (hstep : ∀ i, Option.Rel R (f i) (g i)) (is : List ι) :
    Option.Rel R (is.findSome? f) (is.findSome? g) := by
  induction is with
  | nil => exact .none
  | cons i is ih =>
    have hi := hstep i
    rw [List.findSome?_cons, List.findSome?_cons]
    revert hi
    generalize f i = x
    generalize g i = y
    intro hi
    cases hi with
    | none => exact ih
    | some hab => exact .some hab

end Option

/-! ## What is found -/

namespace Located

variable {β : Type} {S : Summary β} {p : Located}

/-- **Does what was found come to this?**  It has the same span, and its records come to
the sum. -/
structure FoundTells (S : Summary β) (p : Located) (found : Span × Trace) (e : Span × β) :
    Prop where
  whole : found.1 = e.1
  comesTo : Trace.ComesTo S p found.2 e.2

theorem foundTells_of_tells {o : Outcome} {v : Way β} (h : Outcome.Tells S p o v) (b : Nat) :
    FoundTells S p (⟨b, o.cursor.pos⟩, o.records) (⟨b, v.1.pos⟩, v.2) :=
  ⟨congrArg (fun c : Cursor => Span.mk b c.pos) h.cursor, h.comesTo⟩

/-- **What matching finds** comes to what the preferred way comes to. -/
theorem WellFormed.match?_tells (h : p.WellFormed) (hd : p.Distinct) (S : Summary β) (w : Bytes) :
    Option.Rel (FoundTells S p) (p.match? w) (p.erase.matched? S w) := by
  rw [match?_eq_find?, Pattern.matched?]
  refine rel_map (rel_find? (fun o v hv => ?_) (h.tells_ways hd (.ofInput w)))
    fun o v hv => foundTells_of_tells hv 0
  rw [hv.cursor]

/-- **What searching finds** comes to what the first of the ways at its place comes to. -/
theorem WellFormed.search?_tells (h : p.WellFormed) (hd : p.Distinct) (S : Summary β) (w : Bytes) :
    Option.Rel (FoundTells S p) (p.search? w) (p.erase.searched? S w) := by
  rw [search?_eq_findSome?, Pattern.searched?]
  refine rel_findSome? (fun b => ?_) _
  exact rel_map (rel_head? (h.tells_ways hd _)) fun o v hv => foundTells_of_tells hv b

end Located

/-! ## What is returned -/

namespace Match

/-- Does a match have this span and these results? -/
structure HasResults (m : Match) (e : Span × List Value) : Prop where
  whole : m.whole = e.1
  flat : m.flat = .leaf (some e.1) :: e.2

/-- Does a match have this span and this value? -/
structure HasValue (m : Match) (e : Span × Value) : Prop where
  whole : m.whole = e.1
  value : m.value = e.2

end Match

/-- The flat shapes in the table of captures. -/
theorem CaptureInfo.map_flat_table (p : Located) (s : Shape) :
    (table p s).map flat = (p.capturesIn []).map fun e => .flat e.2 e.1 := by
  rw [table, List.map_map]
  nth_rewrite 2 [← List.zipIdx_map_fst 0 (p.capturesIn [])]
  rw [List.map_map]
  rfl

namespace Regex

variable {β : Type} {S : Summary β} {R : Match → Span × β → Prop} {r : Regex} {w : Bytes}
  {t : Trace} {whole : Span} {m : Match}

theorem Compiled.length_captures_eq (h : r.Compiled) :
    r.captures.length = r.pattern.erase.absentResults.length := by
  rw [h.captures, Located.absentResults_erase, CaptureInfo.table, List.length_map,
    List.length_zipIdx, List.length_map]

/-- **The results of a match** are what its trace comes to. -/
theorem Compiled.hasResults_of_comesTo (h : r.Compiled) (hm : r.evaluate whole t w = .ok m)
    {us : List Value} (hus : Trace.ComesTo .results r.pattern t us) :
    m.HasResults (whole, us) := by
  obtain ⟨-, -, v, hv, flat, hflat, rfl⟩ := evaluate_eq_ok.mp hm
  rw [h.shape] at hv
  rw [h.captures, h.shape] at hflat
  obtain ⟨rs, hrs, rfl⟩ := (CaptureInfo.flatten_eq_ok_iff h.wellFormed h.distinct hv).mp hflat
  have hresults := hus.assemble_flats
  rw [← List.forall₂_map_left_iff (f := fun e : Located × List Located => Shape.flat e.2 e.1)
    (R := fun s u => Value.assemble s t = .ok u), ← CaptureInfo.map_flat_table _ (.infer r.pattern),
    List.forall₂_map_left_iff, ← mapM_eq_ok] at hresults
  obtain rfl : us = rs := Except.ok.inj (hresults.symm.trans hrs)
  exact ⟨rfl, rfl⟩

/-- **The value of a match** is what its trace comes to. -/
theorem Compiled.hasValue_of_comesTo (h : r.Compiled) (hm : r.evaluate whole t w = .ok m)
    {v : Value} (hv : Trace.ComesTo .value r.pattern t v) : m.HasValue (whole, v) := by
  obtain ⟨-, -, v', hv', flat, -, rfl⟩ := evaluate_eq_ok.mp hm
  rw [h.shape, hv.assemble_infer h.wellFormed] at hv'
  exact ⟨rfl, (Except.ok.inj hv').symm⟩

/-- Does matching return no error, and a match only where there should be one, related to
what there should be? -/
def Returns (R : Match → Span × β → Prop) (x : Except ReadError (Option Match))
    (e : Option (Span × β)) : Prop :=
  ∃ found, x = .ok found ∧ Option.Rel R found e

/-- What evaluation reads from traces is read from what was found. -/
theorem returns_ofFound
    (hread : ∀ whole t m b, r.evaluate whole t w = .ok m → Trace.ComesTo S r.pattern t b →
      R m (whole, b))
    {found : Option (Span × Trace)}
    (heval : ∀ whole t, found = some (whole, t) → ∃ m, r.evaluate whole t w = .ok m)
    {e : Option (Span × β)} (hrel : Option.Rel (Located.FoundTells S r.pattern) found e) :
    Returns R (r.ofFound w found) e := by
  cases hrel with
  | none => exact ⟨none, rfl, .none⟩
  | @some found e htells =>
    obtain ⟨m, hm⟩ := heval found.1 found.2 rfl
    refine ⟨some m, map_eq_ok.mpr ⟨m, hm, rfl⟩, .some ?_⟩
    have hR := hread _ _ m e.2 hm htells.comesTo
    rwa [htells.whole] at hR

/-- What evaluation reads from traces is known for matching and for searching. -/
theorem Compiled.returns (h : r.Compiled)
    (hread : ∀ whole t m b, r.evaluate whole t w = .ok m → Trace.ComesTo S r.pattern t b →
      R m (whole, b)) :
    Returns R (r.match? w) (r.pattern.erase.matched? S w) ∧
      Returns R (r.search? w) (r.pattern.erase.searched? S w) :=
  ⟨returns_ofFound hread (fun _ _ hfound => h.exists_evaluate (.inl hfound))
      (h.wellFormed.match?_tells h.distinct S w),
    returns_ofFound hread (fun _ _ hfound => h.exists_evaluate (.inr hfound))
      (h.wellFormed.search?_tells h.distinct S w)⟩

/-- **The results of matching and searching** are known without a trace. -/
theorem Compiled.hasResults (h : r.Compiled) (w : Bytes) :
    Returns Match.HasResults (r.match? w) (r.pattern.erase.matched? .results w) ∧
      Returns Match.HasResults (r.search? w) (r.pattern.erase.searched? .results w) :=
  h.returns fun _ _ _ _ hm hus => h.hasResults_of_comesTo hm hus

/-- **The value of what matching and searching find** is known without a trace. -/
theorem Compiled.hasValue (h : r.Compiled) (w : Bytes) :
    Returns Match.HasValue (r.match? w) (r.pattern.erase.matched? .value w) ∧
      Returns Match.HasValue (r.search? w) (r.pattern.erase.searched? .value w) :=
  h.returns fun _ _ _ _ hm hv => h.hasValue_of_comesTo hm hv

end Regex

end CaptureTree
