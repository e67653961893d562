import CaptureTree.Proofs.Denotation
import CaptureTree.Proofs.Regrouping.Basic

/-!
# Regrouping does not change results

How the parts of a pattern are grouped shows in its shape, in the paths to its captures and
in the branches that a trace records.  It does not show in what a match says of the
captures: `Regex.regroup_keeps_results`.

Regrouped patterns have the same ways to match, with the same results
(`Pattern.interchangeable_of_regroups`), and what a match says is what these ways come to
(`Regex.Compiled.hasResults`).  Groups alone do not even show in the shape and in the value.
-/

namespace CaptureTree

/-! ## Matches that say the same -/

/-- **Do two matches have the same results?** -/
structure Match.SameResults (m m' : Match) : Prop where
  whole : m'.whole = m.whole
  size : m'.size = m.size
  results : ∀ k, m'.get k = m.get k

/-- The results are known from the list of them. -/
theorem Match.sameResults_of_flat {m m' : Match} (hwhole : m'.whole = m.whole)
    (hflat : m'.flat = m.flat) : m.SameResults m' where
  whole := hwhole
  size := congrArg List.length hflat
  results k := by
    rw [Match.get, Match.get, Match.noResult, Match.noResult, Match.size, Match.size, hflat]

namespace Regex

/-- Do two attempts to match both find nothing, or both a match, and are these matches
related? -/
def Agree (R : Match → Match → Prop) (x x' : Except ReadError (Option Match)) : Prop :=
  (x = .ok none ∧ x' = .ok none) ∨ ∃ m m', x = .ok (some m) ∧ x' = .ok (some m') ∧ R m m'

variable {β : Type} {R : Match → Span × β → Prop} {R' : Match → Match → Prop}
  {x x' : Except ReadError (Option Match)} {e : Option (Span × β)}

/-- Attempts that return what there should be agree. -/
theorem Returns.agree (h : Returns R x e) (h' : Returns R x' e)
    (hsame : ∀ m m' e, R m e → R m' e → R' m m') : Agree R' x x' := by
  obtain ⟨found, rfl, hrel⟩ := h
  obtain ⟨found', rfl, hrel'⟩ := h'
  cases hrel with
  | none =>
    cases hrel'
    exact .inl ⟨rfl, rfl⟩
  | @some m e hm =>
    cases hrel' with
    | @some m' _ hm' => exact .inr ⟨m, m', rfl, rfl, hsame m m' e hm hm'⟩

/-! ## Patterns that may stand for each other -/

variable {S : Summary β} {r r' : Regex} {w : Bytes}

/-- **Patterns with the same ways to match agree** in what the ways tell. -/
theorem agree_of_ways
    (h : Returns R (r.match? w) (r.pattern.erase.matched? S w) ∧
      Returns R (r.search? w) (r.pattern.erase.searched? S w))
    (h' : Returns R (r'.match? w) (r'.pattern.erase.matched? S w) ∧
      Returns R (r'.search? w) (r'.pattern.erase.searched? S w))
    (hways : r'.pattern.erase.ways S = r.pattern.erase.ways S)
    (hsame : ∀ m m' e, R m e → R m' e → R' m m') :
    Agree R' (r.match? w) (r'.match? w) ∧ Agree R' (r.search? w) (r'.search? w) := by
  rw [Pattern.matched?, Pattern.searched?, hways] at h'
  exact ⟨h.1.agree h'.1 hsame, h.2.agree h'.2 hsame⟩

/-- The same ways, the same results. -/
theorem Compiled.agree_results (h : r.Compiled) (h' : r'.Compiled)
    (hways : r'.pattern.erase.ways .results = r.pattern.erase.ways .results) (w : Bytes) :
    Agree Match.SameResults (r.match? w) (r'.match? w) ∧
      Agree Match.SameResults (r.search? w) (r'.search? w) :=
  agree_of_ways (h.hasResults w) (h'.hasResults w) hways fun _ _ _ hm hm' =>
    Match.sameResults_of_flat (hm'.whole.trans hm.whole.symm) (hm'.flat.trans hm.flat.symm)

/-- The same ways, the same value. -/
theorem Compiled.agree_value (h : r.Compiled) (h' : r'.Compiled)
    (hways : r'.pattern.erase.ways .value = r.pattern.erase.ways .value) (w : Bytes) :
    Agree (fun m m' => m'.value = m.value) (r.match? w) (r'.match? w) ∧
      Agree (fun m m' => m'.value = m.value) (r.search? w) (r'.search? w) :=
  agree_of_ways (h.hasValue w) (h'.hasValue w) hways fun _ _ _ hm hm' =>
    hm'.value.trans hm.value.symm

/-! ## Regrouping -/

/-- **Regrouping does not change results.**  Put groups around nodes of a compiled pattern
or take them away, and splice concatenations into concatenations and alternations into
alternations, as often as you like.  The result compiles, and has as many captures.  On
every input, matching and searching find nothing with either pattern, or find a match with
both, with the same whole span and the same results.

With groups alone, the shape is printed alike and the value is the same as well. -/
theorem regroup_keeps_results {p p' : Pattern} {r : Regex} (h : compile p = .ok r)
    (hregroup : Relation.ReflTransGen Pattern.Regroups p p') :
    ∃ r', compile p' = .ok r' ∧ r'.captures.length = r.captures.length ∧
      (∀ w, Agree Match.SameResults (r.match? w) (r'.match? w) ∧
        Agree Match.SameResults (r.search? w) (r'.search? w)) ∧
      (Relation.ReflTransGen (Pattern.Somewhere Pattern.Wraps) p p' →
        r'.shape.text = r.shape.text ∧
          ∀ w, Agree (fun m m' => m'.value = m.value) (r.match? w) (r'.match? w) ∧
            Agree (fun m m' => m'.value = m.value) (r.search? w) (r'.search? w)) := by
  obtain ⟨hcompiled, hpattern⟩ := compiled_of_compile h
  have hinter := Pattern.interchangeable_of_regroups hregroup
  obtain ⟨r', hr'⟩ := exists_compile (hinter.validate (validate_of_compile h))
  obtain ⟨hcompiled', hpattern'⟩ := compiled_of_compile hr'
  have herase : r.pattern.erase = p := by rw [hpattern, Pattern.erase_locate]
  have herase' : r'.pattern.erase = p' := by rw [hpattern', Pattern.erase_locate]
  refine ⟨r', hr', ?_, fun w => ?_, fun hwraps => ⟨?_, fun w => ?_⟩⟩
  · rw [hcompiled.length_captures_eq, hcompiled'.length_captures_eq, herase, herase',
      hinter.absentResults]
  · refine hcompiled.agree_results hcompiled' ?_ w
    rw [herase, herase', hinter.ways]
  · rw [hcompiled.shape, hcompiled'.shape]
    refine Shape.text_infer_congr ?_
    rw [herase, herase', Pattern.shapeText_of_wraps hwraps]
  · refine hcompiled.agree_value hcompiled' ?_ w
    have hsame := Pattern.Interchangeable.of_reflTransGen
      (fun _ _ hstep => Pattern.Wraps.interchangeable .value hstep) hwraps
    rw [herase, herase', hsame.ways]

/-- A concatenation and an alternation, each inside one of its kind, and a loop. -/
def nestedParts : Pattern :=
  .concat [.concat [(Pattern.exact [0x61]).capture,
      .alternation [.alternation [(Pattern.exact [0x62]).capture, (Pattern.exact [0x63]).capture],
        (Pattern.exact [0x64]).capture]],
    (Pattern.exact [0x65]).capture.star]

/-- The parts of `nestedParts` side by side, and a group around the loop. -/
def splicedParts : Pattern :=
  .concat [(Pattern.exact [0x61]).capture,
    .alternation [(Pattern.exact [0x62]).capture, (Pattern.exact [0x63]).capture,
      (Pattern.exact [0x64]).capture],
    (Pattern.exact [0x65]).capture.star.group]

/-- `nestedParts` with a group around what is repeated. -/
def groupedParts : Pattern :=
  .concat [.concat [(Pattern.exact [0x61]).capture,
      .alternation [.alternation [(Pattern.exact [0x62]).capture, (Pattern.exact [0x63]).capture],
        (Pattern.exact [0x64]).capture]],
    (Pattern.exact [0x65]).capture.group.star]

theorem regroup_keeps_results_nestedParts :
    let w : Bytes := [0x61, 0x63, 0x65, 0x65]
    ∃ (r r' r'' : Regex) (m m' m'' : Match), compile nestedParts = .ok r ∧
      Relation.ReflTransGen Pattern.Regroups nestedParts splicedParts ∧
      Relation.ReflTransGen (Pattern.Somewhere Pattern.Wraps) nestedParts groupedParts ∧
      compile splicedParts = .ok r' ∧ compile groupedParts = .ok r'' ∧
      r.match? w = .ok (some m) ∧ r'.match? w = .ok (some m') ∧ m.SameResults m' ∧
      r''.shape.text = r.shape.text ∧ r''.match? w = .ok (some m'') ∧ m''.value = m.value := by
  intro w
  obtain ⟨r, hr⟩ := exists_compile (p := nestedParts) rfl
  have hspliced : Relation.ReflTransGen Pattern.Regroups nestedParts splicedParts := by
    refine .head (.inside _ [] _ (.inside _ [_] [] (.here (.inr
      (.alternation _ _ [] _ [_] rfl rfl))))) ?_
    refine .head (.here (.inr (.concat _ _ [] _ [_] rfl rfl))) ?_
    exact .single (.inside _ [_, _] [] (.here (.inl (.wrap _ _ rfl))))
  have hgrouped : Relation.ReflTransGen (Pattern.Somewhere Pattern.Wraps) nestedParts
      groupedParts :=
    .single (.inside _ [_] [] (.inside _ [] [] (.here (.wrap _ _ rfl))))
  obtain ⟨r', hr', -, hresults, -⟩ := regroup_keeps_results hr hspliced
  obtain ⟨r'', hr'', -, -, hsame⟩ :=
    regroup_keeps_results hr (Pattern.regroups_of_wraps hgrouped)
  obtain ⟨htext, hvalue⟩ := hsame hgrouped
  have hfound : (nestedParts.locate.match? w).isSome = true := by
    rw [Located.match?_eq_find?]
    decide +kernel
  obtain ⟨found, hfound⟩ := Option.isSome_iff_exists.mp hfound
  rcases (hresults w).1 with ⟨hnone, -⟩ | ⟨m, m', hm, hm', hagree⟩
  · rw [Regex.match?, (compiled_of_compile hr).2, hfound] at hnone
    obtain ⟨m, -, heq⟩ := map_eq_ok.mp hnone
    cases heq
  rcases (hvalue w).1 with ⟨hnone, -⟩ | ⟨n, m'', hn, hm'', hagree'⟩
  · rw [hm] at hnone
    cases hnone
  obtain rfl : m = n := Option.some.inj (Except.ok.inj (hm.symm.trans hn))
  exact ⟨r, r', r'', m, m', m'', hr, hspliced, hgrouped, hr', hr'', hm, hm', hagree, htext, hm'',
    hagree'⟩

end Regex

end CaptureTree
