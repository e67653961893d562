import CaptureTree.Proofs.Matching.Outcomes
import Mathlib.Algebra.BigOperators.Group.List.Basic
import Mathlib.Computability.Language
import Mathlib.Order.CompletePartialOrder

/-!
# The language of a pattern

What a pattern matches, as a set of byte strings and without any search: an
exact literal denotes its text, a class the strings of one byte that it accepts,
a concatenation the products of its parts, an alternation the union of its
branches, and a quantifier the union of the powers of its body that its bounds
allow.  Captures and groups do not count.

Matching decides this language.  The two halves of the argument are of different
kinds.

* *Soundness* reads an outcome as a word: it is a chain of outcomes of the parts
  (`Outcome.Steps`), and words of the parts put one behind the other are a word
  of the product (`Outcome.Steps.exists_word`).
* *Completeness* has to find an outcome for a given word, although a loop refuses
  an iteration that consumes nothing once no more are required.  Leaving such an
  iteration out shortens the power but not the word, and the iterations that are
  left are still enough (`Loop.exists_mem_rounds`).

Both are packed into `Outcome.Decides`, which says that outcomes end exactly
behind the words of a language, and `Located.decides_language` goes through the
kinds of nodes.
-/

namespace CaptureTree

/-! ## Languages -/

/-- The words of a literal: its text, or each accepted byte. -/
def Literal.language (l : Literal) : Language UInt8 :=
  if l.isClass then ⨆ (b : UInt8) (_ : l.accepts b = true), {[b]} else {l.text}

theorem Literal.mem_language_class {l : Literal} (h : l.isClass = true) {u : Bytes} :
    u ∈ l.language ↔ ∃ b, l.accepts b = true ∧ u = [b] := by
  simp only [language, if_pos h, Language.mem_iSup, exists_prop]
  rfl

theorem Literal.mem_language_exact {l : Literal} (h : ¬ l.isClass = true) {u : Bytes} :
    u ∈ l.language ↔ u = l.text := by
  rw [language, if_neg h]
  rfl

/-- The language of a node, given those of its children. -/
def Node.language (n : Node) (parts : List (Language UInt8)) : Language UInt8 :=
  match n.kind with
  | .literal => n.literal.language
  | .capture => parts.headD 1
  | .group => parts.headD 1
  | .concat => parts.prod
  | .alternation => parts.sum
  | .quantifier => ⨆ (k : Nat) (_ : n.bounds.Allow k), parts.headD 1 ^ k

/-- **The language of a pattern**, by induction on the pattern. -/
def Pattern.language (p : Pattern) : Language UInt8 :=
  p.fold fun q parts => q.label.language parts

theorem Pattern.language_eq (p : Pattern) :
    p.language = p.label.language (p.children.map language) :=
  Tree.fold_eq _ p

/-- The language of a located pattern, which its positions do not matter to. -/
theorem Located.language_erase (p : Located) :
    p.erase.language =
      p.label.toNode.language (p.children.map fun q : Located => q.erase.language) := by
  rw [Pattern.language_eq, erase_eq, Tree.label_node, Tree.children_node, List.map_map]
  rfl

theorem mem_sum_language {α : Type} {ls : List (Language α)} {u : List α} :
    u ∈ ls.sum ↔ ∃ l ∈ ls, u ∈ l := by
  induction ls with
  | nil => simp
  | cons l ls ih => simp [Language.mem_add, ih]

/-! ## Prefixes -/

/-- Two words one behind the other are a prefix if each is one in its turn. -/
theorem append_prefix_iff {u v w : Bytes} : u ++ v <+: w ↔ u <+: w ∧ v <+: w.drop u.length := by
  constructor
  · rintro ⟨r, rfl⟩
    refine ⟨⟨v ++ r, List.append_assoc u v r ▸ rfl⟩, r, ?_⟩
    rw [List.append_assoc, List.drop_left]
  · rintro ⟨⟨r, rfl⟩, hv⟩
    rw [List.drop_left] at hv
    exact (List.prefix_append_right_inj u).mpr hv

/-- A literal matches where one of its words comes next. -/
theorem Cursor.match?_eq_some_iff {c d : Cursor} {l : Literal} :
    c.match? l = some d ↔ ∃ u ∈ l.language, u <+: c.rest ∧ d = c.advance u.length := by
  rw [match?]
  split
  · rename_i hclass
    simp only [Literal.mem_language_class hclass]
    cases hrest : c.rest with
    | nil =>
      simp only [List.prefix_nil, reduceCtorEq, false_iff]
      rintro ⟨u, ⟨b, -, rfl⟩, hnil, -⟩
      cases hnil
    | cons b rest =>
      simp only [Option.ite_none_right_eq_some, Option.some.injEq]
      constructor
      · rintro ⟨hb, rfl⟩
        exact ⟨[b], ⟨b, hb, rfl⟩, ⟨rest, rfl⟩, rfl⟩
      · rintro ⟨u, ⟨b', hb', rfl⟩, hstart, rfl⟩
        obtain rfl : b' = b := (List.cons_prefix_cons.mp hstart).1
        exact ⟨hb', rfl⟩
  · rename_i hexact
    simp only [Literal.mem_language_exact hexact, Option.ite_none_right_eq_some,
      Option.some.injEq, List.isPrefixOf_iff_prefix]
    constructor
    · rintro ⟨hstart, rfl⟩
      exact ⟨l.text, rfl, hstart, rfl⟩
    · rintro ⟨u, rfl, hstart, rfl⟩
      exact ⟨hstart, rfl⟩

/-! ## Outcomes and words -/

namespace Outcome

/-- Do the outcomes end exactly behind the words of the language? -/
def Decides (f : Cursor → List Outcome) (L : Language UInt8) : Prop :=
  ∀ c, c.Coherent → ∀ d,
    (∃ o ∈ f c, o.cursor = d) ↔ ∃ u ∈ L, u <+: c.rest ∧ d = c.advance u.length

/-- **A chain of outcomes spells a word of the product.** -/
theorem Steps.exists_word {fs : List (Cursor → List Outcome)} {Ls : List (Language UInt8)}
    (hdecides : List.Forall₂ Decides fs Ls) {c d : Cursor} (hc : c.Coherent) {os : List Outcome}
    (h : Steps fs c os d) : ∃ u ∈ Ls.prod, u <+: c.rest ∧ d = c.advance u.length := by
  induction h generalizing Ls with
  | nil c =>
    cases hdecides
    exact ⟨[], rfl, List.nil_prefix, rfl⟩
  | cons hhead _ ih =>
    cases hdecides with
    | cons hf hfs =>
      obtain ⟨u, hu, hstart, hcursor⟩ := (hf _ hc _).mp ⟨_, hhead, rfl⟩
      rw [hcursor] at ih
      obtain ⟨v, hv, hrest, rfl⟩ := ih hfs (hc.advance u.length)
      refine ⟨u ++ v, ?_, append_prefix_iff.mpr ⟨hstart, hrest⟩, ?_⟩
      · rw [List.prod_cons]
        exact Language.mem_mul.mpr ⟨u, hu, v, hv, rfl⟩
      · rw [Cursor.advance_advance, List.length_append]

/-- Every word of the product has its outcome. -/
theorem exists_mem_inSequence {fs : List (Cursor → List Outcome)} {Ls : List (Language UInt8)}
    (hdecides : List.Forall₂ Decides fs Ls) {c : Cursor} (hc : c.Coherent) {u : Bytes}
    (hu : u ∈ Ls.prod) (hstart : u <+: c.rest) :
    ∃ o ∈ inSequence fs c, o.cursor = c.advance u.length := by
  induction hdecides generalizing c u with
  | nil =>
    obtain rfl : u = [] := hu
    exact ⟨here c, List.mem_singleton_self _, rfl⟩
  | @cons f L fs Ls hf hfs ih =>
    rw [List.prod_cons] at hu
    obtain ⟨v, hv, w, hw, rfl⟩ := Language.mem_mul.mp hu
    obtain ⟨hvstart, hwstart⟩ := append_prefix_iff.mp hstart
    obtain ⟨first, hfirst, hcursor⟩ := (hf c hc _).mpr ⟨v, hv, hvstart, rfl⟩
    obtain ⟨rest, hrest, hend⟩ := ih (hc.advance v.length) hw hwstart
    refine ⟨after first.records rest, ?_, ?_⟩
    · rw [inSequence, List.mem_flatMap]
      exact ⟨first, hfirst, List.mem_map.mpr ⟨rest, hcursor ▸ hrest, rfl⟩⟩
    · rw [after_cursor, hend, Cursor.advance_advance, List.length_append]

theorem decides_inSequence {fs : List (Cursor → List Outcome)} {Ls : List (Language UInt8)}
    (hdecides : List.Forall₂ Decides fs Ls) : Decides (inSequence fs) Ls.prod := by
  intro c hc d
  constructor
  · rintro ⟨o, ho, rfl⟩
    obtain ⟨os, hsteps, -⟩ := exists_steps ho
    exact hsteps.exists_word hdecides hc
  · rintro ⟨u, hu, hstart, rfl⟩
    exact exists_mem_inSequence hdecides hc hu hstart

end Outcome

namespace Loop

variable {l : Loop} {body : Cursor → List Outcome} {L : Language UInt8}

/-- **Refusing idle iterations loses no match.**  A word of a power of the body's
language has its outcome, as long as the bounds allow that power. -/
theorem exists_mem_rounds (hbody : Outcome.Decides body L) {k count : Nat} {c : Cursor}
    (hc : c.Coherent) (hmin : l.bounds.min ≤ count + k)
    (hmax : ∀ max ∈ l.bounds.max, count + k ≤ max) {u : Bytes} (hu : u ∈ L ^ k)
    (hstart : u <+: c.rest) : ∃ o ∈ l.rounds body count c, o.cursor = c.advance u.length := by
  induction k generalizing count c u with
  | zero =>
    rw [pow_zero] at hu
    obtain rfl : u = [] := hu
    exact ⟨.here c, (rounds_eq l body count c ▸ (mem_round l body).mpr (.inl ⟨rfl, .inr hmin⟩)),
      rfl⟩
  | succ k ih =>
    rw [pow_succ'] at hu
    obtain ⟨v, hv, w, hw, rfl⟩ := Language.mem_mul.mp hu
    obtain ⟨hvstart, hwstart⟩ := append_prefix_iff.mp hstart
    obtain ⟨first, hfirst, hcursor⟩ := (hbody c hc _).mpr ⟨v, hv, hvstart, rfl⟩
    have hnotFull : l.bounds.isFull count = false := by
      refine Bool.eq_false_iff.mpr fun hfull => ?_
      obtain ⟨max, hmem, hle⟩ := l.bounds.isFull_iff.mp hfull
      have hroom := hmax max hmem
      omega
    by_cases hcounts : l.counts count c first.cursor = true
    · have hroom : ∀ max ∈ l.bounds.max, count + 1 + k ≤ max := by
        intro max hmem
        have := hmax max hmem
        omega
      obtain ⟨rest, hrest, hend⟩ := ih (hc.advance v.length) (by omega) hroom hw hwstart
      refine ⟨.after (l.entry first.records) rest, ?_, ?_⟩
      · rw [rounds_eq, mem_round]
        exact .inr ⟨hnotFull, first, hfirst, hcounts, rest, hcursor ▸ hrest, rfl⟩
      · rw [Outcome.after_cursor, hend, Cursor.advance_advance, List.length_append]
    · -- the iteration is idle and not required: its word is empty and can be left out
      have hleft : first.cursor.left = c.left - v.length := by rw [hcursor, Cursor.left_advance]
      have hlen : v.length ≤ c.left := by
        rw [hc]
        exact hvstart.length_le
      rw [counts_iff] at hcounts
      obtain rfl : v = [] := List.length_eq_zero_iff.mp (by omega)
      have hroom : ∀ max ∈ l.bounds.max, count + k ≤ max := by
        intro max hmem
        have := hmax max hmem
        omega
      exact ih hc (by omega) hroom hw hwstart

/-- The outcomes of a loop end behind the words of those powers that the bounds
allow. -/
theorem decides_rounds (hbody : Outcome.Decides body L)
    (hroom : ∀ max ∈ l.bounds.max, l.bounds.min ≤ max) :
    Outcome.Decides (l.rounds body 0) (⨆ (k : Nat) (_ : l.bounds.Allow k), L ^ k) := by
  intro c hc d
  simp only [Language.mem_iSup, exists_prop]
  constructor
  · rintro ⟨o, ho, rfl⟩
    obtain ⟨os, hsteps, -, hallow, -⟩ := l.exists_iterations body hroom ho
    have hall : List.Forall₂ Outcome.Decides (List.replicate os.length body)
        (List.replicate os.length L) := by
      rw [List.forall₂_iff_get]
      refine ⟨by simp, fun i _ _ => ?_⟩
      simpa using hbody
    obtain ⟨u, hu, hstart, hend⟩ := hsteps.exists_word hall hc
    rw [List.prod_replicate] at hu
    exact ⟨u, ⟨os.length, hallow, hu⟩, hstart, hend⟩
  · rintro ⟨u, ⟨k, ⟨hmin, hmax⟩, hu⟩, hstart, rfl⟩
    exact exists_mem_rounds hbody hc (by omega) (fun max hmem => by
      have := hmax max hmem
      omega) hu hstart

end Loop

namespace Located

/-- **The outcomes of a pattern end exactly behind the words of its
language.** -/
theorem WellFormed.decides_language {p : Located} (h : p.WellFormed) :
    Outcome.Decides p.outcomes p.erase.language := by
  induction h with
  | @literal p hk hc _ =>
    have hlang : p.erase.language = p.label.literal.language := by
      rw [language_erase, Node.language, show p.label.toNode.kind = .literal from hk]
    intro c _ d
    rw [hlang, ← Cursor.match?_eq_some_iff, outcomes_literal hk]
    cases c.match? p.label.literal with
    | none => simp
    | some e => simp
  | @capture p q hk hc _ ih =>
    have hlang : p.erase.language = q.erase.language := by
      rw [language_erase, Node.language, show p.label.toNode.kind = .capture from hk, hc]
      rfl
    intro c hcoh d
    rw [hlang, ← ih c hcoh d, outcomes_capture hk hc]
    simp only [List.mem_map, exists_exists_and_eq_and]
  | @group p q hk hc _ ih =>
    have hlang : p.erase.language = q.erase.language := by
      rw [language_erase, Node.language, show p.label.toNode.kind = .group from hk, hc]
      rfl
    rw [hlang, outcomes_group hk hc]
    exact ih
  | @concat p hk _ ih =>
    have hlang : p.erase.language =
        (p.children.map fun q : Located => q.erase.language).prod := by
      rw [language_erase, Node.language, show p.label.toNode.kind = .concat from hk]
    rw [hlang, outcomes_concat hk]
    refine Outcome.decides_inSequence ?_
    rw [List.forall₂_map_left_iff, List.forall₂_map_right_iff, List.forall₂_same]
    exact ih
  | @alternation p hk hne _ ih =>
    have hlang : p.erase.language =
        (p.children.map fun q : Located => q.erase.language).sum := by
      rw [language_erase, Node.language, show p.label.toNode.kind = .alternation from hk]
    intro c hcoh d
    rw [hlang]
    constructor
    · rintro ⟨o, ho, rfl⟩
      obtain ⟨i, b, hb, o', ho', rfl⟩ := (mem_outcomes_alternation hk hne).mp ho
      have hmem : b ∈ p.children := List.mem_of_getElem? hb
      obtain ⟨u, hu, hend⟩ := (ih b hmem c hcoh _).mp ⟨o', ho', rfl⟩
      exact ⟨u, mem_sum_language.mpr ⟨_, List.mem_map_of_mem hmem, hu⟩, hend⟩
    · rintro ⟨u, hu, hend⟩
      obtain ⟨L, hL, hu⟩ := mem_sum_language.mp hu
      obtain ⟨b, hmem, rfl⟩ := List.mem_map.mp hL
      obtain ⟨i, hb⟩ := List.mem_iff_getElem?.mp hmem
      obtain ⟨o', ho', hcursor⟩ := (ih b hmem c hcoh d).mpr ⟨u, hu, hend⟩
      exact ⟨_, (mem_outcomes_alternation hk hne).mpr ⟨i, b, hb, o', ho', rfl⟩, hcursor⟩
  | @quantifier p q hk hc hroom _ ih =>
    have hlang : p.erase.language =
        ⨆ (k : Nat) (_ : p.bounds.Allow k), q.erase.language ^ k := by
      rw [language_erase, Node.language, show p.label.toNode.kind = .quantifier from hk, hc]
      rfl
    rw [hlang, outcomes_quantifier hk hc]
    exact Loop.decides_rounds (l := Loop.ofNode p) ih hroom

/-- Every outcome ends at a place further on in the input, or where it began. -/
theorem WellFormed.exists_advance {p : Located} (h : p.WellFormed) {c : Cursor} (hc : c.Coherent)
    {o : Outcome} (ho : o ∈ p.outcomes c) : ∃ n ≤ c.left, o.cursor = c.advance n := by
  obtain ⟨u, -, hstart, hcursor⟩ := (h.decides_language c hc o.cursor).mp ⟨o, ho, rfl⟩
  refine ⟨u.length, ?_, hcursor⟩
  rw [hc]
  exact hstart.length_le

/-- Matching the whole input takes the first outcome that leaves nothing. -/
theorem match?_eq_find? (p : Located) (w : Bytes) :
    p.match? w = ((p.outcomes (.ofInput w)).find? fun o => o.cursor.left == 0).map fun o =>
      (⟨0, o.cursor.pos⟩, o.records) :=
  p.matchFrom?_eq_find? _ _

/-- An outcome that leaves nothing of the input has read all of it. -/
theorem WellFormed.cursor_of_left_eq_zero {p : Located} (h : p.WellFormed) {w : Bytes}
    {o : Outcome} (ho : o ∈ p.outcomes (.ofInput w)) :
    o.cursor.left = 0 ↔ o.cursor = (Cursor.ofInput w).advance w.length := by
  obtain ⟨n, hn, hcursor⟩ := h.exists_advance (Cursor.coherent_ofInput w) ho
  have hleft : (Cursor.ofInput w).left = w.length := rfl
  rw [hleft] at hn
  rw [hcursor]
  constructor
  · intro hzero
    rw [Cursor.left_advance, hleft] at hzero
    rw [show n = w.length by omega]
  · intro heq
    rw [heq, Cursor.left_advance, hleft, Nat.sub_self]

/-- **A match is an outcome that reads the whole input**, and its trace holds the
records of that outcome. -/
theorem WellFormed.exists_outcome_of_match? {p : Located} (h : p.WellFormed) {w : Bytes}
    {s : Span} {t : Trace} (hmatch : p.match? w = some (s, t)) :
    ∃ o ∈ p.outcomes (.ofInput w), o.cursor = (Cursor.ofInput w).advance w.length ∧
      s = ⟨0, w.length⟩ ∧ t = o.records := by
  rw [match?_eq_find?, Option.map_eq_some_iff] at hmatch
  obtain ⟨o, hfind, heq⟩ := hmatch
  obtain ⟨rfl, rfl⟩ := Prod.mk.inj heq
  have ho : o ∈ p.outcomes (.ofInput w) := List.mem_of_find?_eq_some hfind
  have hleft := List.find?_some hfind
  have hend := (h.cursor_of_left_eq_zero ho).mp (beq_iff_eq.mp hleft)
  refine ⟨o, ho, hend, ?_, rfl⟩
  rw [hend]
  exact congrArg (Span.mk 0) (Nat.zero_add w.length)

end Located

/-! ## Matching decides the language -/

/-- **Matching decides the language.**  The whole input is matched exactly when it
is a word of the pattern, and the match then spans all of it. -/
theorem match?_iff_mem_language {p : Pattern} (h : p.validate = .ok ()) (w : Bytes) :
    ((∃ s t, p.locate.match? w = some (s, t)) ↔ w ∈ p.language) ∧
      ∀ s t, p.locate.match? w = some (s, t) → s = ⟨0, w.length⟩ := by
  have hwell := Pattern.wellFormed_locate h
  have hdecides := hwell.decides_language (.ofInput w) (Cursor.coherent_ofInput w)
    ((Cursor.ofInput w).advance w.length)
  rw [Pattern.erase_locate] at hdecides
  refine ⟨⟨?_, ?_⟩, ?_⟩
  · rintro ⟨s, t, hmatch⟩
    obtain ⟨o, ho, hend, -, -⟩ := hwell.exists_outcome_of_match? hmatch
    obtain ⟨u, hu, hstart, hcursor⟩ := hdecides.mp ⟨o, ho, hend⟩
    have hlen : u.length = w.length := by
      have hpos := congrArg Cursor.pos hcursor
      simpa [Cursor.advance] using hpos.symm
    obtain rfl : u = w := hstart.eq_of_length hlen
    exact hu
  · intro hw
    obtain ⟨o, ho, hend⟩ := hdecides.mpr ⟨w, hw, List.prefix_rfl, rfl⟩
    have hsome : ((p.locate.outcomes (.ofInput w)).find? fun o => o.cursor.left == 0).isSome := by
      refine List.find?_isSome.mpr ⟨o, ho, ?_⟩
      exact beq_iff_eq.mpr ((hwell.cursor_of_left_eq_zero ho).mpr hend)
    obtain ⟨found, hfind⟩ := Option.isSome_iff_exists.mp hsome
    refine ⟨⟨0, found.cursor.pos⟩, found.records, ?_⟩
    rw [Located.match?_eq_find?, hfind, Option.map_some]
  · intro s t hmatch
    obtain ⟨_, -, -, hspan, -⟩ := hwell.exists_outcome_of_match? hmatch
    exact hspan

/-- Two nested loops around an optional byte, of which the outer one has to go
round more often than there are bytes. -/
def nestedLoops : Pattern :=
  (Pattern.exact [0x61]).optional.capture.star.repeated 2 (some 3)

theorem match?_iff_mem_language_nestedLoops :
    nestedLoops.validate = .ok () ∧
      ((∃ s t, nestedLoops.locate.match? [0x61] = some (s, t)) ↔ [0x61] ∈ nestedLoops.language) ∧
      ∀ s t, nestedLoops.locate.match? [0x61] = some (s, t) → s = ⟨0, 1⟩ :=
  ⟨rfl, match?_iff_mem_language rfl [0x61]⟩

end CaptureTree
