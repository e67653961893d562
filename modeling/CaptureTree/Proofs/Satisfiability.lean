import CaptureTree.Proofs.ByteClasses

/-!
# Which patterns match something

Validation refuses alternations without branches, bounds that leave no room, and the class of no
bytes.  A negated class that has all bytes in its set accepts no byte either, and this one is not
refused (`noByte_never_matches`).

It is the only way to write a pattern that matches nothing.  Whether a valid pattern matches some
input is worked out from the leaves up, where only literals have to be looked at
(`Pattern.canMatch`, `Pattern.exists_match_iff_canMatch`): a sequence needs all of its parts, an
alternation one of its branches, and a loop needs its body unless it may go round no time.
-/

namespace CaptureTree

/-! ## Languages that have words -/

section

variable {α : Type}

/-- A product has words if every factor has. -/
theorem exists_mem_prod_iff {ls : List (Language α)} :
    (∃ w, w ∈ ls.prod) ↔ ∀ l ∈ ls, ∃ w, w ∈ l := by
  induction ls with
  | nil => simp
  | cons l ls ih =>
    rw [List.prod_cons, List.forall_mem_cons, ← ih]
    constructor
    · rintro ⟨w, hw⟩
      obtain ⟨u, hu, v, hv, -⟩ := Language.mem_mul.mp hw
      exact ⟨⟨u, hu⟩, v, hv⟩
    · rintro ⟨⟨u, hu⟩, v, hv⟩
      exact ⟨u ++ v, Language.mem_mul.mpr ⟨u, hu, v, hv, rfl⟩⟩

theorem exists_mem_sum_iff {ls : List (Language α)} :
    (∃ w, w ∈ ls.sum) ↔ ∃ l ∈ ls, ∃ w, w ∈ l := by
  simp only [mem_sum_language]
  constructor
  · rintro ⟨w, l, hl, hw⟩
    exact ⟨l, hl, w, hw⟩
  · rintro ⟨l, hl, w, hw⟩
    exact ⟨w, l, hl, hw⟩

/-- A power has words if it is of no factors, or its factor has. -/
theorem exists_mem_pow_iff {l : Language α} {k : Nat} :
    (∃ w, w ∈ l ^ k) ↔ k = 0 ∨ ∃ w, w ∈ l := by
  rw [← List.prod_replicate, exists_mem_prod_iff, List.forall_mem_replicate]

end

/-! ## Literals -/

namespace Literal

variable {l : Literal}

/-- Does the literal match anything?  A text does, and a class that accepts some byte. -/
def canMatch (l : Literal) : Bool :=
  !l.isClass || Bytes.all.any l.accepts

theorem canMatch_iff : l.canMatch = true ↔ ∃ w, w ∈ l.language := by
  cases hclass : l.isClass with
  | false =>
    refine iff_of_true (by rw [canMatch, hclass]; rfl) ⟨l.text, ?_⟩
    exact (mem_language_exact (by rw [hclass]; decide)).mpr rfl
  | true =>
    rw [canMatch, hclass, Bool.not_true, Bool.false_or, List.any_eq_true]
    simp only [mem_language_class hclass]
    constructor
    · rintro ⟨b, -, hb⟩
      exact ⟨[b], b, hb, rfl⟩
    · rintro ⟨_, b, hb, rfl⟩
      exact ⟨b, Bytes.mem_all b, hb⟩

/-- **Is it a negated class with all bytes in its set**, which accepts none? -/
def Saturated (l : Literal) : Prop :=
  l.isClass = true ∧ l.negated = true ∧ ∀ c, c ∈ l.text

/-- All other literals match something, apart from the class of no bytes. -/
theorem canMatch_of_not_saturated
    (hempty : l.isClass = true → l.negated = false → l.text ≠ []) (h : ¬ l.Saturated) :
    l.canMatch = true := by
  cases hclass : l.isClass with
  | false => rw [canMatch, hclass]; rfl
  | true =>
    rw [canMatch, hclass, Bool.not_true, Bool.false_or, List.any_eq_true]
    cases hnegated : l.negated with
    | false =>
      obtain ⟨c, cs, htext⟩ := List.exists_cons_of_ne_nil (hempty hclass hnegated)
      refine ⟨c, Bytes.mem_all c, ?_⟩
      rw [accepts, hnegated, htext, Bool.bne_false, List.contains_iff_mem]
      exact List.mem_cons_self
    | true =>
      obtain ⟨c, hc⟩ := not_forall.mp fun hall => h ⟨hclass, hnegated, hall⟩
      refine ⟨c, Bytes.mem_all c, ?_⟩
      rw [accepts, hnegated, Bool.bne_true, Bool.not_eq_true', ← Bool.not_eq_true,
        List.contains_iff_mem]
      exact hc

end Literal

/-! ## Patterns -/

/-- Does a node match anything, given whether its children do? -/
def Node.canMatch (a : Node) (parts : List Bool) : Bool :=
  match a.kind with
  | .literal => a.literal.canMatch
  | .capture | .group => parts.headD true
  | .concat => parts.all fun part => part
  | .alternation => parts.any fun part => part
  | .quantifier => a.bounds.min == 0 || parts.headD true

/-- **Does the pattern match anything?** -/
def Pattern.canMatch (p : Pattern) : Bool :=
  p.fold fun q parts => q.label.canMatch parts

theorem Pattern.canMatch_eq (p : Pattern) :
    p.canMatch = p.label.canMatch (p.children.map canMatch) :=
  Tree.fold_eq _ p

namespace Located

variable {p q : Located}

theorem canMatch_erase (p : Located) : p.erase.canMatch =
    p.label.toNode.canMatch (p.children.map fun q : Located => q.erase.canMatch) := by
  rw [Pattern.canMatch_eq, erase_eq, Tree.label_node, Tree.children_node, List.map_map]
  rfl

theorem canMatch_literal (hk : p.kind = .literal) :
    p.erase.canMatch = p.label.literal.canMatch := by
  rw [canMatch_erase, Node.canMatch, show p.label.toNode.kind = .literal from hk]

/-- A capture or a group can match if what is inside can. -/
theorem canMatch_inside (hk : p.kind = .capture ∨ p.kind = .group) (hc : p.children = [q]) :
    p.erase.canMatch = q.erase.canMatch := by
  rw [canMatch_erase, Node.canMatch, hc]
  rcases hk with hk | hk
  · rw [show p.label.toNode.kind = .capture from hk]
    rfl
  · rw [show p.label.toNode.kind = .group from hk]
    rfl

theorem canMatch_concat (hk : p.kind = .concat) :
    p.erase.canMatch = true ↔ ∀ q ∈ p.children, (erase q).canMatch = true := by
  rw [canMatch_erase, Node.canMatch, show p.label.toNode.kind = .concat from hk]
  show (p.children.map _).all (fun part => part) = true ↔ _
  rw [List.all_map, List.all_eq_true]
  rfl

theorem canMatch_alternation (hk : p.kind = .alternation) :
    p.erase.canMatch = true ↔ ∃ q ∈ p.children, (erase q).canMatch = true := by
  rw [canMatch_erase, Node.canMatch, show p.label.toNode.kind = .alternation from hk]
  show (p.children.map _).any (fun part => part) = true ↔ _
  rw [List.any_map, List.any_eq_true]
  rfl

theorem canMatch_quantifier (hk : p.kind = .quantifier) (hc : p.children = [q]) :
    p.erase.canMatch = true ↔ p.bounds.min = 0 ∨ q.erase.canMatch = true := by
  rw [canMatch_erase, Node.canMatch, show p.label.toNode.kind = .quantifier from hk, hc]
  show (p.bounds.min == 0 || q.erase.canMatch) = true ↔ _
  rw [Bool.or_eq_true, beq_iff_eq]

/-- **A pattern has words exactly if it can match.** -/
theorem WellFormed.canMatch_iff (h : p.WellFormed) :
    p.erase.canMatch = true ↔ ∃ w, w ∈ p.erase.language := by
  induction h with
  | @literal p hk hc _ =>
    rw [canMatch_literal hk, language_erase, Node.language,
      show p.label.toNode.kind = .literal from hk]
    exact Literal.canMatch_iff
  | @capture p q hk hc _ ih =>
    rw [canMatch_inside (.inl hk) hc, language_erase, Node.language,
      show p.label.toNode.kind = .capture from hk, hc]
    exact ih
  | @group p q hk hc _ ih =>
    rw [canMatch_inside (.inr hk) hc, language_erase, Node.language,
      show p.label.toNode.kind = .group from hk, hc]
    exact ih
  | @concat p hk _ ih =>
    rw [canMatch_concat hk, language_erase, Node.language,
      show p.label.toNode.kind = .concat from hk]
    show _ ↔ ∃ w, w ∈ (p.children.map _).prod
    rw [exists_mem_prod_iff, List.forall_mem_map]
    exact forall₂_congr ih
  | @alternation p hk _ _ ih =>
    rw [canMatch_alternation hk, language_erase, Node.language,
      show p.label.toNode.kind = .alternation from hk]
    show _ ↔ ∃ w, w ∈ (p.children.map _).sum
    rw [exists_mem_sum_iff]
    simp only [List.mem_map, exists_exists_and_eq_and]
    exact exists_congr fun q => and_congr_right (ih q)
  | @quantifier p q hk hc hroom _ ih =>
    have hlanguage : p.erase.language =
        ⨆ (k : Nat) (_ : p.bounds.Allow k), q.erase.language ^ k := by
      rw [language_erase, Node.language, show p.label.toNode.kind = .quantifier from hk, hc]
      rfl
    rw [hlanguage, canMatch_quantifier hk hc, ih]
    simp only [Language.mem_iSup, exists_prop]
    constructor
    · intro h
      -- the least number of rounds that is asked for is allowed
      obtain ⟨w, hw⟩ := exists_mem_pow_iff.mpr h
      exact ⟨w, p.bounds.min, ⟨Nat.le_refl _, hroom⟩, hw⟩
    · rintro ⟨w, k, hallow, hw⟩
      refine (exists_mem_pow_iff.mp ⟨w, hw⟩).imp_left fun hk => ?_
      exact Nat.le_zero.mp (hk ▸ hallow.1)

/-- **Where no literal is saturated, the pattern can match.** -/
theorem WellFormed.canMatch_of_not_saturated (h : p.WellFormed)
    (hnone : ∀ a ∈ p.subtrees, kind a = .literal → ¬ a.label.literal.Saturated) :
    p.erase.canMatch = true := by
  have hchild : ∀ {p q : Located}, q ∈ p.children →
      (∀ a ∈ p.subtrees, kind a = .literal → ¬ a.label.literal.Saturated) →
      ∀ a ∈ q.subtrees, kind a = .literal → ¬ a.label.literal.Saturated :=
    fun hq hnone a ha => hnone a (Tree.mem_subtrees_of_mem_children hq ha)
  induction h with
  | @literal p hk hc hempty =>
    rw [canMatch_literal hk]
    exact Literal.canMatch_of_not_saturated hempty (hnone p (Tree.mem_subtrees_self p) hk)
  | @capture p q hk hc _ ih =>
    rw [canMatch_inside (.inl hk) hc]
    exact ih (hchild (mem_children_of_eq hc) hnone)
  | @group p q hk hc _ ih =>
    rw [canMatch_inside (.inr hk) hc]
    exact ih (hchild (mem_children_of_eq hc) hnone)
  | @concat p hk _ ih =>
    exact (canMatch_concat hk).mpr fun q hq => ih q hq (hchild hq hnone)
  | @alternation p hk hne _ ih =>
    obtain ⟨q, hq⟩ := List.exists_mem_of_ne_nil _ hne
    exact (canMatch_alternation hk).mpr ⟨q, hq, ih q hq (hchild hq hnone)⟩
  | @quantifier p q hk hc _ _ ih =>
    exact (canMatch_quantifier hk hc).mpr (.inr (ih (hchild (mem_children_of_eq hc) hnone)))

/-- **A pattern has words exactly if it matches some input.** -/
theorem WellFormed.exists_match?_iff (h : p.WellFormed) :
    (∃ w t, p.match? w = some (⟨0, w.length⟩, t)) ↔ ∃ w, w ∈ p.erase.language := by
  constructor
  · rintro ⟨w, t, hmatch⟩
    obtain ⟨o, ho, hend, -, -⟩ := h.exists_outcome_of_match? hmatch
    obtain ⟨u, hu, -, -⟩ := (h.decides_language _ (Cursor.coherent_ofInput w) _).mp ⟨o, ho, rfl⟩
    exact ⟨u, hu⟩
  · rintro ⟨w, hw⟩
    obtain ⟨o, ho, hend⟩ := (h.decides_language _ (Cursor.coherent_ofInput w) _).mpr
      ⟨w, hw, List.prefix_rfl, rfl⟩
    have hsome : ((p.outcomes (.ofInput w)).find? fun o => o.cursor.left == 0).isSome :=
      List.find?_isSome.mpr ⟨o, ho, beq_iff_eq.mpr ((h.cursor_of_left_eq_zero ho).mpr hend)⟩
    obtain ⟨found, hfind⟩ := Option.isSome_iff_exists.mp hsome
    have hmatch : p.match? w = some (⟨0, found.cursor.pos⟩, found.records) := by
      rw [match?_eq_find?, hfind, Option.map_some]
    obtain ⟨-, -, -, hspan, -⟩ := h.exists_outcome_of_match? hmatch
    exact ⟨w, found.records, hspan ▸ hmatch⟩

end Located

/-- **A valid pattern matches some input exactly if it can**, as worked out from its literals, and
it does unless one of them is a negated class with all bytes in its set. -/
theorem Pattern.exists_match_iff_canMatch {p : Pattern} (h : p.validate = .ok ()) :
    ((∃ w t, p.locate.match? w = some (⟨0, w.length⟩, t)) ↔ p.canMatch = true) ∧
      ((∀ q ∈ p.subtrees, q.label.kind = .literal → ¬ q.label.literal.Saturated) →
        ∃ w t, p.locate.match? w = some (⟨0, w.length⟩, t)) := by
  have hwell := wellFormed_locate h
  constructor
  · rw [hwell.exists_match?_iff, ← hwell.canMatch_iff, erase_locate]
  · intro hnone
    rw [hwell.exists_match?_iff, ← hwell.canMatch_iff]
    refine hwell.canMatch_of_not_saturated fun a ha hk => ?_
    have hlabel := hnone (Located.erase a) (p.erase_locate ▸ Located.erase_mem_subtrees ha)
    rw [Located.erase_eq] at hlabel
    exact hlabel hk

/-- The negation of the class of all bytes, `[^\x00-\xff]`. -/
def noByte : Pattern :=
  .node { kind := .literal, literal := { text := Bytes.all, isClass := true, negated := true } } []

theorem noByte_never_matches : Pattern.noneOf [0x00, 0x2d, 0xff] = .ok noByte ∧
    noByte.validate = .ok () ∧ ∀ w, noByte.locate.match? w = none := by
  have hexpand : ByteClass.expand [0x00, 0x2d, 0xff] = .ok Bytes.all := by
    rw [ByteClass.expand_eq]
    decide +kernel
  have hnone : noByte.AcceptsOne fun _ => False := by
    refine Pattern.acceptsOne_class rfl fun c => iff_of_false ?_ not_false
    rw [Literal.accepts, Bool.bne_true, List.contains_iff_mem.mpr (Bytes.mem_all c)]
    exact Bool.false_ne_true
  refine ⟨by rw [Pattern.noneOf, hexpand]; rfl, rfl, fun w => ?_⟩
  refine Option.eq_none_iff_forall_ne_some.mpr fun found hmatch => ?_
  obtain ⟨_, hfalse, -⟩ := (hnone.whole w found).mp hmatch
  exact hfalse

/-- A loop around the class that accepts no byte, which may go round no time: `a[^\x00-\xff]*`. -/
def thenNoByte : Pattern :=
  .concat [.exact [0x61], noByte.star]

theorem exists_match_iff_canMatch_thenNoByte : thenNoByte.validate = .ok () ∧
    thenNoByte.canMatch = true ∧
    ((∃ w t, thenNoByte.locate.match? w = some (⟨0, w.length⟩, t)) ↔
      thenNoByte.canMatch = true) ∧
    ((∀ q ∈ thenNoByte.subtrees, q.label.kind = .literal → ¬ q.label.literal.Saturated) →
      ∃ w t, thenNoByte.locate.match? w = some (⟨0, w.length⟩, t)) :=
  ⟨rfl, rfl, Pattern.exists_match_iff_canMatch rfl⟩

end CaptureTree
