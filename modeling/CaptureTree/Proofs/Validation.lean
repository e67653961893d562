import CaptureTree.Proofs.Naming

/-!
# What validation complains of

Validation is one walk through the nodes of a pattern that carries the names it has passed, and
stops at the first complaint.  Without the walk:

* what it accepts are the patterns whose nodes are all in order by themselves, and in which no two
  captures carry the same name (`Pattern.Sound`, `Pattern.validate_eq_ok_iff_sound`);
* what it complains of is the first node in pre-order that is not in order, or carries the name of
  a capture before it (`Pattern.Offends`, `Pattern.validate_eq_error_iff`).
-/

namespace CaptureTree

/-! ## Identifiers -/

/-- Is it a letter, or an underscore? -/
def IsLetter (c : Char) : Prop :=
  ('A' ≤ c ∧ c ≤ 'Z') ∨ ('a' ≤ c ∧ c ≤ 'z') ∨ c = '_'

/-- Is it a digit? -/
def IsDigit (c : Char) : Prop :=
  '0' ≤ c ∧ c ≤ '9'

/-- **Is the text an identifier?**  It matches `[A-Za-z_][A-Za-z0-9_]*`. -/
def IsIdentifier (s : String) : Prop :=
  ∃ c cs, s.toList = c :: cs ∧ IsLetter c ∧ ∀ d ∈ cs, IsLetter d ∨ IsDigit d

theorem isStart_iff {c : Char} : isIdentifier.isStart c = true ↔ IsLetter c := by
  have hupper : c.isUpper = true ↔ 'A' ≤ c ∧ c ≤ 'Z' := decide_eq_true_iff
  have hlower : c.isLower = true ↔ 'a' ≤ c ∧ c ≤ 'z' :=
    Bool.and_eq_true_iff.trans (and_congr decide_eq_true_iff decide_eq_true_iff)
  have halpha : c.isAlpha = true ↔ c.isUpper = true ∨ c.isLower = true := Bool.or_eq_true_iff
  rw [isIdentifier.isStart, Bool.or_eq_true, halpha, hupper, hlower, beq_iff_eq, or_assoc, IsLetter]

theorem isRest_iff {c : Char} : isIdentifier.isRest c = true ↔ IsLetter c ∨ IsDigit c := by
  have hsplit : isIdentifier.isRest c = (isIdentifier.isStart c || c.isDigit) :=
    Bool.or_right_comm c.isAlpha c.isDigit (c == '_')
  have hdigit : c.isDigit = true ↔ IsDigit c :=
    Bool.and_eq_true_iff.trans (and_congr decide_eq_true_iff decide_eq_true_iff)
  rw [hsplit, Bool.or_eq_true, isStart_iff, hdigit]

theorem isIdentifier_iff {s : String} : isIdentifier s = true ↔ IsIdentifier s := by
  rw [isIdentifier, IsIdentifier]
  cases s.toList with
  | nil => simp
  | cons c cs => simp [isStart_iff, isRest_iff]

/-! ## Nodes in order -/

/-- The class without members, which accepts no byte. -/
def Literal.emptyClass : Literal :=
  { text := [], isClass := true, negated := false }

theorem Literal.eq_emptyClass_iff {l : Literal} :
    l = emptyClass ↔ (l.isClass && l.text.isEmpty && !l.negated) = true := by
  cases l
  simp [emptyClass, and_assoc, and_left_comm, and_comm]

namespace Pattern

variable {q : Pattern} {before qs : List Pattern} {seen : List String} {name : String}
  {e : PatternError}

/-- Is the root a capture with this name? -/
def Carries (q : Pattern) (name : String) : Prop :=
  q.label.kind = .capture ∧ q.label.name = some name

/-- Is the root of a kind that needs exactly one child? -/
def NeedsChild (q : Pattern) : Prop :=
  q.label.kind = .capture ∨ q.label.kind = .group ∨ q.label.kind = .quantifier

/-- **Is the root in order by itself**, whatever else there is in the pattern? -/
structure LocallyWellFormed (q : Pattern) : Prop where
  literal : q.label.kind = .literal → q.children = [] ∧ q.label.literal ≠ .emptyClass
  child : q.NeedsChild → q.children.length = 1
  bounds : q.label.kind = .quantifier → ∀ max ∈ q.label.bounds.max, q.label.bounds.min ≤ max
  branches : q.label.kind = .alternation → q.children ≠ []
  name : ∀ name, q.Carries name → IsIdentifier name

/-- **Are all nodes in order**, and is no name carried twice? -/
structure Sound (qs : List Pattern) : Prop where
  nodes : ∀ q ∈ qs, q.LocallyWellFormed
  names : qs.Pairwise fun a b => ∀ name, a.Carries name → ¬ b.Carries name

/-- **What is wrong with the root**, when these nodes come before it.  Of several complaints
about a node, that about its name comes first, and that about its bounds last. -/
inductive Offends (before : List Pattern) (q : Pattern) : PatternError → Prop
  | literalWithChildren (kind : q.label.kind = .literal) (children : q.children ≠ []) :
      Offends before q .literalWithChildren
  | emptyClass (kind : q.label.kind = .literal) (children : q.children = [])
      (literal : q.label.literal = .emptyClass) : Offends before q .emptyClass
  | invalidName {name : String} (carries : q.Carries name) (invalid : ¬ IsIdentifier name) :
      Offends before q (.invalidName name)
  | duplicateName {name : String} (carries : q.Carries name) (valid : IsIdentifier name)
      (again : ∃ a ∈ before, a.Carries name) : Offends before q (.duplicateName name)
  | childCount (kind : q.NeedsChild) (count : q.children.length ≠ 1)
      (name : ∀ name, q.Carries name → IsIdentifier name ∧ ¬ ∃ a ∈ before, a.Carries name) :
      Offends before q (.childCount q.label.kind q.children.length)
  | reversedBounds {max : Nat} (kind : q.label.kind = .quantifier)
      (child : q.children.length = 1) (bound : q.label.bounds.max = some max)
      (reversed : max < q.label.bounds.min) :
      Offends before q (.reversedBounds q.label.bounds.min max)
  | noBranches (kind : q.label.kind = .alternation) (children : q.children = []) :
      Offends before q .noBranches

/-- Nothing is wrong with a node that is in order by itself, and no other node is in order. -/
theorem locallyWellFormed_iff : q.LocallyWellFormed ↔ ∀ e, ¬ q.Offends [] e := by
  constructor
  · intro h e he
    cases he with
    | literalWithChildren hk hchildren => exact hchildren (h.literal hk).1
    | emptyClass hk _ hliteral => exact (h.literal hk).2 hliteral
    | invalidName hname hinvalid => exact hinvalid (h.name _ hname)
    | duplicateName _ _ hagain =>
      obtain ⟨a, ha, -⟩ := hagain
      exact List.not_mem_nil ha
    | childCount hk hcount => exact hcount (h.child hk)
    | reversedBounds hk _ hmax hlt => exact absurd (h.bounds hk _ hmax) (Nat.not_le_of_lt hlt)
    | noBranches hk hchildren => exact h.branches hk hchildren
  · intro h
    have hname : ∀ name, q.Carries name → IsIdentifier name := by
      intro name hcarries
      by_contra hinvalid
      exact h _ (.invalidName hcarries hinvalid)
    have hchild : q.NeedsChild → q.children.length = 1 := by
      intro hk
      by_contra hcount
      refine h _ (.childCount hk hcount fun name hcarries => ⟨hname name hcarries, ?_⟩)
      rintro ⟨a, ha, -⟩
      exact List.not_mem_nil ha
    refine ⟨fun hk => ?_, hchild, fun hk max hmax => ?_, fun hk hchildren => ?_, hname⟩
    · by_cases hchildren : q.children = []
      · exact ⟨hchildren, fun hliteral => h _ (.emptyClass hk hchildren hliteral)⟩
      · exact absurd (.literalWithChildren hk hchildren) (h _)
    · by_contra hlt
      exact h _ (.reversedBounds hk (hchild (.inr (.inr hk))) hmax (Nat.lt_of_not_le hlt))
    · exact h _ (.noBranches hk hchildren)

/-! ## One node -/

theorem captureName_eq_some_iff : q.captureName = some name ↔ q.Carries name := by
  rw [captureName, Carries]
  split
  · rename_i hk
    exact (and_iff_right hk).symm
  · rename_i hk
    exact iff_of_false (fun h => by cases h) fun h => hk h.1

theorem nameDefect_eq_some_iff : nameDefect seen name = some e ↔
    (¬ IsIdentifier name ∧ .invalidName name = e) ∨
      (IsIdentifier name ∧ name ∈ seen ∧ .duplicateName name = e) := by
  rw [nameDefect, ← isIdentifier_iff]
  cases isIdentifier name <;> simp

theorem childDefect_eq_some_iff : q.childDefect = some e ↔
    q.children.length ≠ 1 ∧ .childCount q.label.kind q.children.length = e := by
  rw [childDefect]
  split <;> simp_all

theorem boundsDefect_eq_some_iff {b : Bounds} : boundsDefect b = some e ↔
    ∃ max, b.max = some max ∧ max < b.min ∧ .reversedBounds b.min max = e := by
  rw [boundsDefect]
  cases b.max with
  | none => simp
  | some max => simp

/-- Nodes of other kinds carry no names. -/
theorem not_carries {k : NodeKind} (hk : q.label.kind = k) (hother : k ≠ .capture) :
    ¬ q.Carries name :=
  fun h => hother (hk.symm.trans h.1)

theorem offends_of_childDefect (hk : q.NeedsChild) (h : q.childDefect = some e)
    (hname : ∀ name, q.Carries name → IsIdentifier name ∧ ¬ ∃ a ∈ before, a.Carries name) :
    q.Offends before e := by
  obtain ⟨hcount, rfl⟩ := childDefect_eq_some_iff.mp h
  exact .childCount hk hcount hname

/-- The complaint about a node says what is wrong with it. -/
theorem offends_of_defect (hseen : ∀ name, name ∈ seen ↔ ∃ a ∈ before, a.Carries name)
    (h : q.defect seen = some e) : q.Offends before e := by
  rw [defect] at h
  cases hk : q.label.kind with
  | literal =>
    simp only [hk, Bool.not_eq_true', List.isEmpty_eq_false_iff] at h
    split at h
    · rename_i hchildren
      rw [← Option.some.inj h]
      exact .literalWithChildren hk hchildren
    · rename_i hchildren
      split at h
      · rename_i hliteral
        rw [← Option.some.inj h]
        exact .emptyClass hk (not_not.mp hchildren) (Literal.eq_emptyClass_iff.mpr hliteral)
      · cases h
  | capture =>
    simp only [hk, Option.or_eq_some_iff, Option.bind_eq_some_iff, Option.bind_eq_none_iff,
      nameDefect_eq_some_iff, nameDefect_eq_none, isIdentifier_iff] at h
    rcases h with ⟨name, hname, ⟨hinvalid, rfl⟩ | ⟨hvalid, hagain, rfl⟩⟩ | ⟨hnamed, hchild⟩
    · exact .invalidName ⟨hk, hname⟩ hinvalid
    · exact .duplicateName ⟨hk, hname⟩ hvalid ((hseen name).mp hagain)
    · refine offends_of_childDefect (.inl hk) hchild fun name hcarries => ?_
      rw [← hseen]
      exact hnamed name hcarries.2
  | group =>
    simp only [hk] at h
    exact offends_of_childDefect (.inr (.inl hk)) h fun name hname =>
      absurd hname (not_carries hk (by decide))
  | concat =>
    simp only [hk] at h
    cases h
  | alternation =>
    simp only [hk, List.isEmpty_iff] at h
    split at h
    · rename_i hchildren
      rw [← Option.some.inj h]
      exact .noBranches hk hchildren
    · cases h
  | quantifier =>
    simp only [hk, Option.or_eq_some_iff, boundsDefect_eq_some_iff] at h
    rcases h with hchild | ⟨hchild, max, hmax, hlt, rfl⟩
    · exact offends_of_childDefect (.inr (.inr hk)) hchild fun name hname =>
        absurd hname (not_carries hk (by decide))
    · exact .reversedBounds hk (childDefect_eq_none hchild) hmax hlt

/-- What is wrong with a node is complained of. -/
theorem defect_of_offends (hseen : ∀ name, name ∈ seen ↔ ∃ a ∈ before, a.Carries name)
    (h : q.Offends before e) : q.defect seen = some e := by
  rw [defect]
  cases h with
  | literalWithChildren hk hchildren => simp [hk, hchildren]
  | emptyClass hk hchildren hliteral => simp [hk, hchildren, hliteral, Literal.emptyClass]
  | @invalidName name hname hinvalid =>
    have hdefect : nameDefect seen name = some (.invalidName name) :=
      nameDefect_eq_some_iff.mpr (.inl ⟨hinvalid, rfl⟩)
    simp [hname.1, hname.2, hdefect]
  | @duplicateName name hname hvalid hagain =>
    have hdefect : nameDefect seen name = some (.duplicateName name) :=
      nameDefect_eq_some_iff.mpr (.inr ⟨hvalid, (hseen name).mpr hagain, rfl⟩)
    simp [hname.1, hname.2, hdefect]
  | childCount hk hcount hname =>
    have hdefect := childDefect_eq_some_iff.mpr ⟨hcount, rfl⟩
    rcases hk with hk | hk | hk
    · have hnone : q.label.name.bind (nameDefect seen) = none := by
        refine Option.bind_eq_none_iff.mpr fun name hlabel => ?_
        rw [nameDefect_eq_none, isIdentifier_iff, hseen]
        exact hname name ⟨hk, hlabel⟩
      simp only [hk, hnone, Option.none_or, hdefect]
    · simp only [hk, hdefect]
    · simp only [hk, hdefect, Option.some_or]
  | @reversedBounds max hk hchild hmax hlt =>
    have hnone : q.childDefect = none := if_pos hchild
    have hdefect := boundsDefect_eq_some_iff.mpr ⟨max, hmax, hlt, rfl⟩
    simp only [hk, hnone, Option.none_or, hdefect]
  | noBranches hk hchildren => simp [hk, hchildren]

/-- **A node is complained of** exactly if something is wrong with it. -/
theorem defect_eq_some_iff (hseen : ∀ name, name ∈ seen ↔ ∃ a ∈ before, a.Carries name) :
    q.defect seen = some e ↔ q.Offends before e :=
  ⟨offends_of_defect hseen, defect_of_offends hseen⟩

theorem defect_nil_eq_none_iff : q.defect [] = none ↔ q.LocallyWellFormed := by
  rw [locallyWellFormed_iff, Option.eq_none_iff_forall_ne_some]
  exact forall_congr' fun e => not_congr (defect_eq_some_iff (by simp))

/-! ## All nodes -/

/-- The names that a walk has passed after some nodes. -/
theorem mem_passed : name ∈ (before.filterMap captureName).reverse ↔
    ∃ a ∈ before, a.Carries name := by
  simp only [List.mem_reverse, List.mem_filterMap, captureName_eq_some_iff]

theorem passed_cons (q : Pattern) (qs : List Pattern) (seen : List String) :
    ((q :: qs).filterMap captureName).reverse ++ seen =
      (qs.filterMap captureName).reverse ++ (q.captureName.toList ++ seen) := by
  rw [List.filterMap_cons]
  cases q.captureName with
  | none => rfl
  | some name => simp

/-- **The walk stops at the first complaint**, after nodes without any. -/
theorem firstDefect_eq_some_iff : firstDefect seen qs = some e ↔
    ∃ before q after, qs = before ++ q :: after ∧ firstDefect seen before = none ∧
      q.defect ((before.filterMap captureName).reverse ++ seen) = some e := by
  induction qs generalizing seen with
  | nil => simp [firstDefect]
  | cons p ps ih =>
    rw [firstDefect, Option.or_eq_some_iff, ih]
    constructor
    · rintro (hroot | ⟨hroot, before, q, after, rfl, hbefore, hq⟩)
      · exact ⟨[], p, ps, rfl, rfl, hroot⟩
      · refine ⟨p :: before, q, after, rfl, ?_, ?_⟩
        · rw [firstDefect, hroot, Option.none_or, hbefore]
        · rw [passed_cons, hq]
    · rintro ⟨before, q, after, hsplit, hbefore, hq⟩
      cases before with
      | nil =>
        obtain ⟨rfl, rfl⟩ := List.cons.inj hsplit
        exact .inl hq
      | cons p' before =>
        obtain ⟨rfl, rfl⟩ := List.cons.inj hsplit
        rw [firstDefect, Option.or_eq_none_iff] at hbefore
        rw [passed_cons] at hq
        exact .inr ⟨hbefore.1, before, q, after, rfl, hbefore.2, hq⟩

/-- **The walk finds nothing** exactly if all nodes are in order. -/
theorem firstDefect_nil_eq_none_iff : firstDefect [] qs = none ↔ Sound qs := by
  have hnames : (qs.filterMap captureName).Nodup ↔
      qs.Pairwise fun a b => ∀ name, a.Carries name → ¬ b.Carries name := by
    rw [List.Nodup, List.pairwise_filterMap]
    simp only [captureName_eq_some_iff]
    refine List.Pairwise.iff fun a b => ⟨fun h name ha hb => h name ha name hb rfl, ?_⟩
    rintro h name ha _ hb rfl
    exact h name ha hb
  simp only [firstDefect_eq_none_iff, defect_nil_eq_none_iff, hnames, List.not_mem_nil,
    not_false_eq_true, implies_true, true_and]
  exact ⟨fun h => ⟨h.1, h.2⟩, fun h => ⟨h.nodes, h.names⟩⟩

theorem validate_eq_ok_iff_sound : q.validate = .ok () ↔ Sound q.subtrees := by
  rw [← firstDefect_nil_eq_none_iff, validate]
  cases firstDefect [] q.subtrees <;> simp

theorem validate_eq_error_iff : q.validate = .error e ↔
    ∃ before a after, q.subtrees = before ++ a :: after ∧ Sound before ∧ a.Offends before e := by
  have herror : q.validate = .error e ↔ firstDefect [] q.subtrees = some e := by
    rw [validate]
    cases firstDefect [] q.subtrees <;> simp
  simp only [herror, firstDefect_eq_some_iff, firstDefect_nil_eq_none_iff, List.append_nil,
    defect_eq_some_iff fun _ => mem_passed]

end Pattern

end CaptureTree
