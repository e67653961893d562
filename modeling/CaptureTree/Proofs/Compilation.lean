import CaptureTree.Proofs.Numbering
import CaptureTree.Proofs.Validation

/-!
# What compiling refuses

Compiling has nothing to add to validation.  The table of names looks for repeated names once more,
but it is made for every pattern that validation accepts, and in it **a name is found if and only
if a capture carries it** (`Regex.FindsNames`).  Names that are unknown are refused alike by the
compiled pattern and by its matches.
-/

namespace CaptureTree

/-! ## The table of names -/

namespace CaptureInfo

variable {p : Located} {s : Shape} {name : String} {i k : Nat}

/-- An entry of the table is for the capture at its place, and numbered from 1. -/
theorem of_getElem?_table {c : CaptureInfo} (h : (table p s)[i]? = some c) :
    c.index = i + 1 ∧ p.captures[i]? = some c.node := by
  rw [← map_node_table p s, List.getElem?_map, h]
  rw [getElem?_table, Option.map_eq_some_iff] at h
  obtain ⟨entry, -, rfl⟩ := h
  exact ⟨rfl, rfl⟩

/-- **The table of names lists the named captures**, with their numbers. -/
theorem mem_named_table : (name, k) ∈ named (table p s) ↔
    ∃ i c, k = i + 1 ∧ p.captures[i]? = some c ∧ Located.name c = some name := by
  rw [named, List.mem_filterMap]
  constructor
  · rintro ⟨c, hc, hnamed⟩
    obtain ⟨i, hi⟩ := List.mem_iff_getElem?.mp hc
    obtain ⟨hindex, hcapture⟩ := of_getElem?_table hi
    obtain ⟨name', hname, hpair⟩ := Option.map_eq_some_iff.mp hnamed
    obtain ⟨rfl, rfl⟩ := Prod.mk.inj hpair
    exact ⟨i, c.node, hindex, hcapture, hname⟩
  · rintro ⟨i, node, rfl, hcapture, hname⟩
    rw [← map_node_table p s, List.getElem?_map, Option.map_eq_some_iff] at hcapture
    obtain ⟨c, hi, rfl⟩ := hcapture
    refine ⟨c, List.mem_of_getElem? hi, ?_⟩
    rw [(of_getElem?_table hi).1, CaptureInfo.name, hname, Option.map_some]

end CaptureInfo

/-! ## Compiled patterns -/

namespace Regex

variable {p : Pattern} {r : Regex} {e : PatternError} {s : String} {k : Nat}

/-- Compiling refuses what validation refuses, for the same reason. -/
theorem compile_eq_error_iff : compile p = .error e ↔ p.validate = .error e := by
  constructor
  · intro h
    cases hvalid : p.validate with
    | error e' =>
      rw [compile, hvalid] at h
      exact congrArg Except.error (Except.error.inj h)
    | ok u =>
      obtain ⟨r, hr⟩ := exists_compile hvalid
      rw [hr] at h
      cases h
  · intro h
    rw [compile, h]
    rfl

theorem indexOf?_eq_some_iff (h : compile p = .ok r) : r.indexOf? s = some k ↔
    ∃ i c, k = i + 1 ∧ p.locate.captures[i]? = some c ∧ Located.name c = some s := by
  obtain ⟨hnames, hnodup⟩ := names_of_compile h
  rw [indexOf?, lookup_eq_some_iff_mem hnodup, hnames, CaptureInfo.mem_named_table]

theorem indexOf?_eq_none_iff (h : compile p = .ok r) :
    r.indexOf? s = none ↔ ∀ c ∈ p.locate.captures, Located.name c ≠ some s := by
  rw [Option.eq_none_iff_forall_ne_some]
  constructor
  · intro hnone c hc hname
    obtain ⟨i, hi⟩ := List.mem_iff_getElem?.mp hc
    exact hnone (i + 1) ((indexOf?_eq_some_iff h).mpr ⟨i, c, rfl, hi, hname⟩)
  · intro hnone k hk
    obtain ⟨i, c, -, hi, hname⟩ := (indexOf?_eq_some_iff h).mp hk
    exact hnone c (List.mem_of_getElem? hi) hname

/-- A number that is found is that of a capture. -/
theorem exists_capture_of_indexOf? (h : compile p = .ok r) (hk : r.indexOf? s = some k) :
    ∃ c, r.capture k = .ok c ∧ c.name = some s := by
  obtain ⟨i, node, rfl, hi, hname⟩ := (indexOf?_eq_some_iff h).mp hk
  obtain ⟨hcompiled, hpattern⟩ := compiled_of_compile h
  rw [← hpattern, ← CaptureInfo.map_node_table r.pattern r.shape, ← hcompiled.captures,
    List.getElem?_map, Option.map_eq_some_iff] at hi
  obtain ⟨c, hc, rfl⟩ := hi
  exact ⟨c, capture_eq_ok.mpr ⟨i, rfl, hc⟩, hname⟩

/-- What a match says of a name is what its pattern says of it. -/
theorem named_of_evaluate {whole : Span} {t : Trace} {w : Bytes} {m : Match}
    (hm : r.evaluate whole t w = .ok m) (s : String) :
    m.named s = match r.indexOf? s with
      | some k => m.get k
      | none => .error (.lookup (.unknownName s)) := by
  obtain ⟨-, -, v, -, flat, -, rfl⟩ := evaluate_eq_ok.mp hm
  rw [Match.named, Match.lookup, require]
  cases r.indexOf? s with
  | none => rfl
  | some k => rfl

/-- **Are names found exactly if captures carry them?** -/
structure FindsNames (p : Pattern) (r : Regex) : Prop where
  /-- The number of a name is that of the capture that carries it. -/
  index : ∀ s k, r.indexOf? s = some k ↔
    ∃ i c, k = i + 1 ∧ p.locate.captures[i]? = some c ∧ Located.name c = some s
  /-- A name has no number if no capture carries it. -/
  missing : ∀ s, r.indexOf? s = none ↔ ∀ c ∈ p.locate.captures, Located.name c ≠ some s
  /-- A number that is demanded is this one. -/
  required : ∀ s k, r.require s = .ok k ↔ r.indexOf? s = some k
  /-- Otherwise the name is unknown. -/
  unknown : ∀ s e, r.require s = .error e ↔ r.indexOf? s = none ∧ e = .unknownName s
  /-- Every match has a result under the name of a capture, that of the capture. -/
  result : ∀ {whole t w m}, r.evaluate whole t w = .ok m → ∀ s k, r.indexOf? s = some k →
    ∃ v, m.get k = .ok v ∧ m.named s = .ok v
  /-- No match has a result under another name. -/
  noResult : ∀ {whole t w m}, r.evaluate whole t w = .ok m → ∀ s, r.indexOf? s = none →
    m.named s = .error (.lookup (.unknownName s))

/-- **Names are found exactly if captures carry them.** -/
theorem findsNames_of_compile (h : compile p = .ok r) : r.FindsNames p := by
  refine ⟨fun s k => indexOf?_eq_some_iff h, fun s => indexOf?_eq_none_iff h, fun s k => ?_,
    fun s e => ?_, fun hm s k hk => ?_, fun hm s hnone => ?_⟩
  · rw [require]
    cases r.indexOf? s <;> simp
  · rw [require]
    cases r.indexOf? s with
    | none => simp [eq_comm]
    | some k => simp
  · obtain ⟨c, hc, -⟩ := exists_capture_of_indexOf? h hk
    obtain ⟨v, hget, -⟩ := exists_get_of_evaluate hm hc
    refine ⟨v, hget, ?_⟩
    rw [named_of_evaluate hm, hk]
    exact hget
  · rw [named_of_evaluate hm, hnone]

/-- **What is refused, and nothing else.**  For every pattern:

* validation succeeds if and only if every node is in order by itself, and no two captures carry
  the same name;
* it fails with what is wrong with the first node in pre-order that is not in order by itself, or
  carries the name of a capture before it;
* compiling fails exactly if validation does, for the same reason, and otherwise the compiled
  pattern and its matches find a name if and only if a capture carries it. -/
theorem compile_refuses_exactly (p : Pattern) :
    (p.validate = .ok () ↔ (∀ q ∈ p.subtrees, Pattern.LocallyWellFormed q) ∧
      p.subtrees.Pairwise fun a b : Pattern => ∀ name, a.Carries name → ¬ b.Carries name) ∧
      (∀ e, p.validate = .error e ↔ ∃ before q after, p.subtrees = before ++ q :: after ∧
        Pattern.Sound before ∧ Pattern.Offends before q e) ∧
      (∀ e, compile p = .error e ↔ p.validate = .error e) ∧
      (p.validate = .ok () → ∃ r, compile p = .ok r ∧ r.FindsNames p) := by
  refine ⟨?_, fun e => Pattern.validate_eq_error_iff, fun e => compile_eq_error_iff, fun h => ?_⟩
  · rw [Pattern.validate_eq_ok_iff_sound]
    exact ⟨fun h => ⟨h.nodes, h.names⟩, fun h => ⟨h.1, h.2⟩⟩
  · obtain ⟨r, hr⟩ := exists_compile h
    exact ⟨r, hr, findsNames_of_compile hr⟩

/-- Three captures, the first and the last of them with names. -/
def namedEnds : Pattern :=
  .concat [(Pattern.exact [0x61]).capture "first", (Pattern.exact [0x62]).capture,
    ((Pattern.exact [0x63]).capture "last").plus]

/-- The captures of `namedEnds`, where the last one has the name of the first. -/
def nameTwice : Pattern :=
  .concat [(Pattern.exact [0x61]).capture "first", (Pattern.exact [0x62]).capture,
    ((Pattern.exact [0x63]).capture "first").plus, .alternation []]

theorem compile_refuses_exactly_namedEnds :
    (∃ r, compile namedEnds = .ok r ∧ r.indexOf? "last" = some 3 ∧ r.indexOf? "middle" = none) ∧
      compile nameTwice = .error (.duplicateName "first") ∧
      ∃ before q after, nameTwice.subtrees = before ++ q :: after ∧
        Pattern.Carries q "first" ∧ ∃ a ∈ before, Pattern.Carries a "first" := by
  obtain ⟨-, -, -, haccepted⟩ := compile_refuses_exactly namedEnds
  obtain ⟨-, hfirst, hrefused, -⟩ := compile_refuses_exactly nameTwice
  refine ⟨?_, (hrefused _).mpr rfl, ?_⟩
  · obtain ⟨r, hr, hnames⟩ := haccepted rfl
    have hmissing : ∀ c ∈ namedEnds.locate.captures, Located.name c ≠ some "middle" := by decide
    exact ⟨r, hr, (hnames.index "last" 3).mpr ⟨2, _, rfl, rfl, rfl⟩,
      (hnames.missing "middle").mpr hmissing⟩
  · obtain ⟨before, q, after, hsplit, -, hoffends⟩ := (hfirst (.duplicateName "first")).mp rfl
    cases hoffends with
    | duplicateName hname _ hagain => exact ⟨before, q, after, hsplit, hname, hagain⟩

end Regex

end CaptureTree
