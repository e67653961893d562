import CaptureTree.Proofs.Numbering
import CaptureTree.Proofs.Regrouping

/-!
# Chains of joined patterns

`a.followedBy b` extends `a` if it is a concatenation, and `a.orElse b` extends it if it is an
alternation.  A right operand stays a node of its own, whatever its kind.  So it matters for the
tree where the parentheses are in a chain of operands: `Chain.build_eq_iff` says that the tree
tells all of them.

It does not matter for what is collected from the operands, such as the captures
(`Joining.Collects.build`), nor for the ways to match and their results, which are those of the
operands side by side in one node (`Chain.ways_build`).  Validation looks at the operands, and
minds the parentheses only where an operand is an alternation without branches
(`Chain.faultless_build_iff`): behind an `orElse` it is refused, and in front of one it is extended.
-/

namespace CaptureTree

/-! ## Joining two patterns -/

/-- The operations that join two patterns. -/
inductive Joining where
  | followedBy
  | orElse
  deriving DecidableEq, Repr

namespace Joining

/-- The kind of the nodes that the operation extends. -/
def kind : Joining → NodeKind
  | followedBy => .concat
  | orElse => .alternation

/-- The joined pattern. -/
def join : Joining → Pattern → Pattern → Pattern
  | followedBy => Pattern.followedBy
  | orElse => Pattern.orElse

/-- What stands side by side in a left operand: its children if it is extended, and otherwise the
operand itself. -/
def parts (op : Joining) (p : Pattern) : List Pattern :=
  if p.label.kind = op.kind then p.children else [p]

/-- The root that a left operand brings along, or gets. -/
def root (op : Joining) (p : Pattern) : Node :=
  if p.label.kind = op.kind then p.label else { kind := op.kind }

variable {op : Joining} {p q : Pattern}

theorem join_eq_extend (op : Joining) (p q : Pattern) :
    op.join p q = Pattern.extend op.kind p q := by
  cases op <;> rfl

/-- **A joined pattern** has the parts of the left operand, and behind them the right operand. -/
theorem join_eq (op : Joining) (p q : Pattern) :
    op.join p q = .node (op.root p) (op.parts p ++ [q]) := by
  rw [join_eq_extend, Pattern.extend, root, parts]
  split <;> rfl

theorem kind_root (op : Joining) (p : Pattern) : (op.root p).kind = op.kind := by
  rw [root]
  split
  · assumption
  · rfl

theorem kind_join (op : Joining) (p q : Pattern) : (op.join p q).label.kind = op.kind := by
  rw [join_eq, Tree.label_node, kind_root]

/-- A joined pattern is extended in turn. -/
theorem parts_join (op : Joining) (p q : Pattern) :
    op.parts (op.join p q) = op.parts p ++ [q] := by
  rw [parts, if_pos (kind_join op p q), join_eq, Tree.children_node]

end Joining

/-! ## Chains -/

/-- **A chain of operands with its parentheses.** -/
inductive Chain where
  | operand (p : Pattern)
  | joined (left right : Chain)

namespace Chain

/-- The operands from left to right. -/
def operands : Chain → List Pattern
  | operand p => [p]
  | joined left right => left.operands ++ right.operands

/-- The first operand. -/
def first : Chain → Pattern
  | operand p => p
  | joined left _ => left.first

/-- **The pattern that a chain stands for.** -/
def build (op : Joining) : Chain → Pattern
  | operand p => p
  | joined left right => op.join (left.build op) (right.build op)

variable {op : Joining} {t t' l r : Chain}

theorem exists_operands_eq (t : Chain) : ∃ ps, t.operands = t.first :: ps := by
  induction t with
  | operand p => exact ⟨[], rfl⟩
  | joined left right ih _ =>
    obtain ⟨ps, hps⟩ := ih
    exact ⟨ps ++ right.operands, by rw [operands, hps]; rfl⟩

/-! ### The tree tells the parentheses -/

/-- The parts of the first operand are in front. -/
theorem length_parts_first_le (op : Joining) (t : Chain) :
    (op.parts t.first).length ≤ (op.parts (t.build op)).length := by
  induction t with
  | operand p => exact Nat.le_refl _
  | joined left right ih _ =>
    rw [build, Joining.parts_join, List.length_append]
    exact Nat.le_add_right_of_le ih

/-- Joining adds a part. -/
theorem parts_first_ne (op : Joining) (l r : Chain) :
    op.parts (joined l r).first ≠ op.parts ((joined l r).build op) := by
  intro heq
  have hle := length_parts_first_le op l
  have hlength := congrArg List.length heq
  rw [build, Joining.parts_join, List.length_append, List.length_singleton, first] at hlength
  omega

/-- Chains that begin with the same operands, and build trees with the same parts, are the same.
They need not have the same operands from the start: where a right operand ends is not known until
the trees are compared. -/
theorem eq_of_parts_eq (op : Joining) {us us' : List Pattern}
    (hoperands : t.operands ++ us = t'.operands ++ us')
    (hparts : op.parts (t.build op) = op.parts (t'.build op)) : t = t' := by
  induction t generalizing t' us us' with
  | operand p =>
    cases t' with
    | operand p' => exact congrArg operand (List.cons.inj hoperands).1
    | joined l' r' =>
      obtain ⟨ps, hps⟩ := (joined l' r').exists_operands_eq
      rw [hps] at hoperands
      obtain rfl : p = (joined l' r').first := (List.cons.inj hoperands).1
      exact absurd hparts (parts_first_ne op l' r')
  | joined l r ihl ihr =>
    cases t' with
    | operand p' =>
      obtain ⟨ps, hps⟩ := (joined l r).exists_operands_eq
      rw [hps] at hoperands
      obtain rfl : (joined l r).first = p' := (List.cons.inj hoperands).1
      exact absurd hparts.symm (parts_first_ne op l r)
    | joined l' r' =>
      rw [operands, operands, List.append_assoc, List.append_assoc] at hoperands
      rw [build, build, Joining.parts_join, Joining.parts_join] at hparts
      obtain ⟨hleft, hright⟩ := List.append_inj' hparts rfl
      obtain rfl := ihl hoperands hleft
      obtain rfl := ihr (List.append_cancel_left hoperands)
        (congrArg op.parts (List.cons.inj hright).1)
      rfl

/-- **The tree tells the parentheses**: of all chains with the same operands, no two build the same
tree. -/
theorem build_eq_iff (h : t.operands = t'.operands) : t.build op = t'.build op ↔ t = t' := by
  constructor
  · intro hbuild
    have hnothing : t.operands ++ [] = t'.operands ++ [] := congrArg (· ++ []) h
    exact eq_of_parts_eq op hnothing (congrArg op.parts hbuild)
  · rintro rfl
    rfl

end Chain

/-! ## What is collected from the operands -/

namespace Joining

variable {γ : Type} {op : Joining} {f : Pattern → List γ}

/-- **Is a list collected from the children**, at nodes of the kind that is extended? -/
def Collects (op : Joining) (f : Pattern → List γ) : Prop :=
  ∀ (a : Node) (ps : List Pattern), a.kind = op.kind → f (.node a ps) = ps.flatMap f

/-- Then the left operand comes first, and the right one behind it. -/
theorem Collects.join (h : op.Collects f) (p q : Pattern) : f (op.join p q) = f p ++ f q := by
  have hparts : (op.parts p).flatMap f = f p := by
    rw [parts]
    split
    · rename_i hk
      rw [← h _ _ hk, Tree.node_label_children]
    · exact List.flatMap_singleton ..
  rw [join_eq, h _ _ (op.kind_root p), List.flatMap_append, hparts, List.flatMap_singleton]

/-- **From a chain it is collected operand by operand**, wherever the parentheses are. -/
theorem Collects.build (h : op.Collects f) (t : Chain) :
    f (t.build op) = t.operands.flatMap f := by
  induction t with
  | operand p => exact (List.flatMap_singleton ..).symm
  | joined l r ihl ihr => rw [Chain.build, h.join, ihl, ihr, Chain.operands, List.flatMap_append]

theorem kind_ne_capture (op : Joining) : op.kind ≠ .capture := by
  cases op <;> decide

theorem kind_ne_quantifier (op : Joining) : op.kind ≠ .quantifier := by
  cases op <;> decide

theorem collects_absentResults (op : Joining) : op.Collects Pattern.absentResults := by
  intro a ps hk
  rw [Pattern.absentResults_inner (hk ▸ op.kind_ne_capture) (hk ▸ op.kind_ne_quantifier),
    List.flatMap_def]

end Joining

/-! ## Captures -/

/-- The captures of a pattern in pre-order. -/
def Pattern.captures (p : Pattern) : List Pattern :=
  p.subtrees.filter fun q => q.label.kind == .capture

theorem Joining.collects_captures (op : Joining) : op.Collects Pattern.captures := by
  intro a ps hk
  have hne : a.kind ≠ .capture := hk ▸ op.kind_ne_capture
  rw [Pattern.captures, Tree.subtrees_eq, List.filter_cons, Tree.label_node, beq_false_of_ne hne,
    if_neg Bool.false_ne_true, Tree.children_node, List.filter_flatMap]
  rfl

/-- The names of a pattern are those of its captures. -/
theorem Pattern.captureNames_eq (p : Pattern) :
    p.captureNames = p.captures.filterMap (·.label.name) := by
  rw [captureNames, captures, List.filterMap_filter]
  refine List.filterMap_congr fun q _ => ?_
  simp only [captureName, beq_iff_eq]

/-- The captures of a located pattern are those of the pattern. -/
theorem Located.map_erase_captures (p : Located) :
    p.captures.map erase = p.erase.captures := by
  rw [captures, Pattern.captures, subtrees_erase, List.filter_map]
  refine congrArg (List.map erase) (List.filter_congr fun q _ => ?_)
  rw [Function.comp_apply, kind_erase]
  rfl

/-- **The entries of the table** of a compiled pattern are for its captures, in order. -/
theorem Regex.map_node_captures {p : Pattern} {r : Regex} (h : compile p = .ok r) :
    r.captures.map (fun c => c.node.erase) = p.captures := by
  obtain ⟨hcompiled, hpattern⟩ := compiled_of_compile h
  rw [hcompiled.captures]
  show (CaptureInfo.table r.pattern r.shape).map (Located.erase ∘ CaptureInfo.node) = _
  rw [← List.map_map, CaptureInfo.map_node_table, Located.map_erase_captures, hpattern,
    Pattern.erase_locate]

/-! ## Validation -/

namespace Pattern

variable {op : Joining} {p q : Pattern}

/-- Is the pattern no alternation without branches? -/
def HasBranches (p : Pattern) : Prop :=
  p.label.kind = .alternation → p.children ≠ []

theorem hasBranches_join (op : Joining) (p q : Pattern) : (op.join p q).HasBranches := by
  rw [HasBranches, Joining.join_eq, Tree.children_node]
  exact fun _ => List.append_ne_nil_of_right_ne_nil _ (List.cons_ne_nil _ _)

/-- There is nothing wrong with the root of a joined pattern, nor with that of another one that is
extended. -/
theorem defect_of_hasBranches (hk : p.label.kind = op.kind) (hp : p.HasBranches) :
    defect [] p = none := by
  rw [defect, hk]
  cases op with
  | followedBy => rfl
  | orElse => exact if_neg fun hempty => hp hk (List.isEmpty_iff.mp hempty)

/-- **What is wrong with a joined pattern** is wrong with a part of the left operand, or with the
right one. -/
theorem faultless_join (op : Joining) (p q : Pattern) :
    (op.join p q).Faultless ↔ (∀ x ∈ op.parts p, Faultless x) ∧ q.Faultless := by
  have hroot := defect_of_hasBranches (op.kind_join p q) (hasBranches_join op p q)
  rw [Joining.join_eq] at hroot ⊢
  rw [faultless_node, List.forall_mem_append, List.forall_mem_singleton]
  exact and_iff_right hroot

/-- There is nothing wrong with the parts of a pattern if there is nothing wrong with itself. -/
theorem Faultless.parts (h : p.Faultless) (op : Joining) : ∀ x ∈ op.parts p, Faultless x := by
  rw [Joining.parts]
  split
  · rw [← Tree.node_label_children p] at h
    exact (faultless_node.mp h).2
  · exact List.forall_mem_singleton.mpr h

/-- The converse needs the branches of an alternation. -/
theorem faultless_of_parts (hp : p.HasBranches) (h : ∀ x ∈ op.parts p, Faultless x) :
    p.Faultless := by
  rw [Joining.parts] at h
  split at h
  · rename_i hk
    rw [← Tree.node_label_children p, faultless_node, Tree.node_label_children]
    exact ⟨defect_of_hasBranches hk hp, h⟩
  · exact List.forall_mem_singleton.mp h

end Pattern

namespace Chain

variable {op : Joining} {t t' : Chain}

theorem hasBranches_build (h : ∀ p ∈ t.operands, p.HasBranches) :
    (t.build op).HasBranches := by
  cases t with
  | operand p => exact h p List.mem_cons_self
  | joined l r => exact Pattern.hasBranches_join op _ _

/-- **What is wrong with a chain** is wrong with one of the operands. -/
theorem faultless_build_iff (h : ∀ p ∈ t.operands, p.HasBranches) :
    (t.build op).Faultless ↔ ∀ p ∈ t.operands, p.Faultless := by
  induction t with
  | operand p => exact List.forall_mem_singleton.symm
  | joined l r ihl ihr =>
    rw [operands, List.forall_mem_append] at h ⊢
    rw [build, Pattern.faultless_join, ← ihl h.1, ihr h.2]
    exact and_congr_left fun _ =>
      ⟨Pattern.faultless_of_parts (hasBranches_build h.1), fun hl => hl.parts op⟩

/-- **Validation accepts a chain wherever its parentheses are**, if none of the operands is an
alternation without branches. -/
theorem validate_build (hoperands : t.operands = t'.operands)
    (h : ∀ p ∈ t.operands, p.HasBranches) (hvalid : (t.build op).validate = .ok ()) :
    (t'.build op).validate = .ok () := by
  obtain ⟨hfaultless, hnames⟩ := Pattern.validate_eq_ok_iff.mp hvalid
  refine Pattern.validate_eq_ok_iff.mpr ⟨?_, ?_⟩
  · have hall := (faultless_build_iff h).mp hfaultless
    rw [hoperands] at h hall
    exact (faultless_build_iff h).mpr hall
  · have hsame : (t'.build op).captureNames = (t.build op).captureNames := by
      rw [Pattern.captureNames_eq, Pattern.captureNames_eq, op.collects_captures.build,
        op.collects_captures.build, hoperands]
    rw [Pattern.captureNames, Pattern.captureNames] at hsame
    rw [hsame]
    exact hnames

end Chain

/-! ## Results -/

namespace Pattern

variable {β : Type} {S : Summary β} {op : Joining} {p q : Pattern} {a b : Node}
  {before inner after ps qs : List Pattern}

/-- The ways to match a node are known from those of its children. -/
theorem ways_congr (hways : ps.map (ways S) = qs.map (ways S))
    (habsent : ps.map absentResults = qs.map absentResults) (a : Node) :
    ways S (.node a ps) = ways S (.node a qs) := by
  rw [ways_node, ways_node, hways, habsent]

/-- Of the root of a joined pattern, only the kind matters. -/
theorem ways_relabel (ha : a.kind = op.kind) (hb : b.kind = op.kind) (ps : List Pattern) :
    ways S (.node a ps) = ways S (.node b ps) := by
  funext c
  rw [ways_node, ways_node, nodeWays, nodeWays, ha, hb]
  cases op <;> rfl

theorem ways_splice (op : Joining) (ha : a.kind = op.kind) (hb : b.kind = op.kind) :
    ways .results (.node a (before ++ inner ++ after)) =
      ways .results (.node a (before ++ .node b inner :: after)) := by
  cases op with
  | followedBy => exact ways_splice_concat ha hb
  | orElse => exact ways_splice_alternation ha hb

/-- A single part is all there is. -/
theorem ways_single (ha : a.kind = op.kind) (p : Pattern) :
    ways .results (.node a [p]) = ways .results p := by
  funext c
  rw [ways_node, nodeWays, ha]
  cases op with
  | followedBy =>
    show (Way.inSequence [ways .results p] c).map (Way.map List.flatten) = _
    simp [Way.inSequence, Way.map, List.map_flatMap]
  | orElse =>
    have hbranch : Summary.results.branch [p.absentResults] 0 = id := by
      funext rs
      simp [Summary.results_branch]
    show Way.inBranches (Summary.results.branch [p.absentResults]) [ways .results p] c = _
    rw [Way.inBranches_cons, hbranch]
    exact (List.append_nil _).trans (List.map_id _)

/-- **A joined pattern matches like its operands side by side**, with the same results. -/
theorem ways_join (op : Joining) (p q : Pattern) :
    ways .results (op.join p q) = ways .results (.node { kind := op.kind } [p, q]) := by
  rw [Joining.join_eq, ways_relabel (b := { kind := op.kind }) (op.kind_root p) rfl,
    Joining.parts]
  split
  · rename_i hk
    have hsplice : ways .results (.node { kind := op.kind } ([] ++ p.children ++ [q])) =
        ways .results (.node { kind := op.kind } ([] ++ .node p.label p.children :: [q])) :=
      ways_splice op rfl hk
    rwa [Tree.node_label_children] at hsplice
  · rfl

end Pattern

namespace Chain

variable {op : Joining} {t t' : Chain}

theorem absentResults_build (op : Joining) (t : Chain) :
    (t.build op).absentResults =
      Pattern.absentResults (.node { kind := op.kind } t.operands) := by
  rw [op.collects_absentResults.build, op.collects_absentResults _ _ rfl]

/-- **A chain matches like its operands side by side**, with the same results. -/
theorem ways_build (op : Joining) (t : Chain) :
    (t.build op).ways .results = Pattern.ways .results (.node { kind := op.kind } t.operands) := by
  induction t with
  | operand p => exact (Pattern.ways_single rfl p).symm
  | joined l r ihl ihr =>
    let side (ps : List Pattern) : Pattern := .node { kind := op.kind } ps
    have hleft (ps qs : List Pattern) : Pattern.ways .results (side ([] ++ ps ++ qs)) =
        Pattern.ways .results (side ([] ++ side ps :: qs)) :=
      Pattern.ways_splice op rfl rfl
    calc Pattern.ways .results (op.join (l.build op) (r.build op))
      _ = Pattern.ways .results (side [l.build op, r.build op]) := Pattern.ways_join ..
      _ = Pattern.ways .results (side [side l.operands, side r.operands]) := by
        refine Pattern.ways_congr ?_ ?_ _
        · simp only [List.map_cons, List.map_nil, ihl, ihr, side]
        · simp only [List.map_cons, List.map_nil, absentResults_build, side]
      _ = Pattern.ways .results (side (l.operands ++ [side r.operands])) := (hleft _ _).symm
      _ = Pattern.ways .results (side (l.operands ++ r.operands ++ [])) :=
        (Pattern.ways_splice op rfl rfl).symm
      _ = Pattern.ways .results (side (l.operands ++ r.operands)) := by rw [List.append_nil]

/-- **Chains with the same operands agree** on every input, wherever their parentheses are. -/
theorem agree_results {r r' : Regex} (hoperands : t.operands = t'.operands)
    (h : Regex.compile (t.build op) = .ok r) (h' : Regex.compile (t'.build op) = .ok r')
    (w : Bytes) :
    Regex.Agree Match.SameResults (r.match? w) (r'.match? w) ∧
      Regex.Agree Match.SameResults (r.search? w) (r'.search? w) := by
  obtain ⟨hcompiled, hpattern⟩ := Regex.compiled_of_compile h
  obtain ⟨hcompiled', hpattern'⟩ := Regex.compiled_of_compile h'
  refine hcompiled.agree_results hcompiled' ?_ w
  rw [hpattern, hpattern', Pattern.erase_locate, Pattern.erase_locate, ways_build, ways_build,
    hoperands]

end Chain

end CaptureTree
