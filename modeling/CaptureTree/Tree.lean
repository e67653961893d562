/-!
# Rose trees

Patterns and values are both trees whose nodes carry a label and any number of
children.  This module holds that one shape and the few ways in which the rest
of the library walks it.

* `Tree.induction`: a property that passes from the children of a node to the
  node holds of every tree.
* `Tree.fold`: recursion from the leaves up, where a node sees its own subtree
  and the results of its children; `fold_eq` is its only equation.
* `Tree.subtrees`: the subtrees in pre-order, the tree itself first;
  `subtrees_eq` is its equation.
* `Tree.numbered`: relabelling by pre-order position, as
  `map_label_subtrees_numbered` says.
* `Tree.agree`: node by node comparison of two trees.

The walks are written as pairs of structural recursions, one for a tree and one
for a list of trees, so that they compute inside proofs as well.
-/

namespace CaptureTree

universe u v

/-- A node with a label, over a list of trees. -/
inductive Tree (α : Type u) where
  | node (label : α) (children : List (Tree α))

namespace Tree

variable {α : Type u} {β : Type v}

/-- What the root carries. -/
def label : Tree α → α
  | node a _ => a

/-- The trees directly below the root. -/
def children : Tree α → List (Tree α)
  | node _ ts => ts

@[simp] theorem label_node (a : α) (ts : List (Tree α)) : (node a ts).label = a := rfl

@[simp] theorem children_node (a : α) (ts : List (Tree α)) : (node a ts).children = ts := rfl

@[simp] theorem node_label_children (t : Tree α) : node t.label t.children = t := by
  cases t; rfl

/-- What passes from the children of a node to the node holds of every tree. -/
@[elab_as_elim, induction_eliminator]
theorem induction {motive : Tree α → Prop}
    (node : ∀ a ts, (∀ t ∈ ts, motive t) → motive (node a ts)) (t : Tree α) : motive t :=
  @Tree.rec α motive (fun ts => ∀ t ∈ ts, motive t)
    (fun a ts h => node a ts h) (fun _ h => absurd h List.not_mem_nil)
    (fun _ _ h hs _ hmem => by
      rcases List.mem_cons.mp hmem with rfl | hmem
      · exact h
      · exact hs _ hmem) t

/-! ## Folding -/

mutual
/-- Recursion from the leaves up: a node is given its own subtree and the
results of its children, in order. -/
def fold (f : Tree α → List β → β) : Tree α → β
  | node a ts => f (node a ts) (foldAll f ts)

/-- The results of a list of trees. -/
def foldAll (f : Tree α → List β → β) : List (Tree α) → List β
  | [] => []
  | t :: ts => fold f t :: foldAll f ts
end

theorem foldAll_eq_map (f : Tree α → List β → β) (ts : List (Tree α)) :
    foldAll f ts = ts.map (fold f) := by
  induction ts with
  | nil => rfl
  | cons t ts ih => simp [foldAll, ih]

/-- The equation of a fold. -/
theorem fold_eq (f : Tree α → List β → β) (t : Tree α) :
    t.fold f = f t (t.children.map (fold f)) := by
  cases t; simp [fold, foldAll_eq_map]

/-- The number of nodes. -/
def size (t : Tree α) : Nat :=
  t.fold fun _ sizes => sizes.foldr (· + ·) 1

theorem size_eq (t : Tree α) : t.size = (t.children.map size).foldr (· + ·) 1 :=
  fold_eq _ t

/-! ## Subtrees -/

mutual
/-- The subtrees of a tree in pre-order, and then `rest`. -/
def subtreesOnto (rest : List (Tree α)) : Tree α → List (Tree α)
  | node a ts => node a ts :: subtreesAllOnto rest ts

/-- The subtrees of several trees in pre-order, and then `rest`. -/
def subtreesAllOnto (rest : List (Tree α)) : List (Tree α) → List (Tree α)
  | [] => rest
  | t :: ts => subtreesOnto (subtreesAllOnto rest ts) t
end

/-- All subtrees in pre-order: a tree comes before what is inside it, and that
before its later siblings. -/
def subtrees (t : Tree α) : List (Tree α) :=
  t.subtreesOnto []

theorem subtreesOnto_eq (t : Tree α) (rest : List (Tree α)) :
    t.subtreesOnto rest = t.subtrees ++ rest := by
  induction t generalizing rest with
  | node a ts ih =>
    have hall : ∀ us : List (Tree α), (∀ u ∈ us, u ∈ ts) →
        ∀ rest, subtreesAllOnto rest us = subtreesAllOnto [] us ++ rest := by
      intro us hus
      induction us with
      | nil => intro rest; rfl
      | cons u us ihus =>
        intro rest
        have hu := ih u (hus u List.mem_cons_self)
        have hrest := ihus fun v hv => hus v (List.mem_cons_of_mem u hv)
        simp only [subtreesAllOnto]
        rw [hu, hrest, hu (subtreesAllOnto [] us), List.append_assoc]
    simp only [subtrees, subtreesOnto, List.cons_append]
    rw [hall ts (fun _ h => h) rest]

theorem subtreesAllOnto_eq (ts rest : List (Tree α)) :
    subtreesAllOnto rest ts = ts.flatMap subtrees ++ rest := by
  induction ts with
  | nil => rfl
  | cons t ts ih =>
    simp only [subtreesAllOnto, ih, subtreesOnto_eq, List.flatMap_cons, List.append_assoc]

theorem subtrees_eq (t : Tree α) : t.subtrees = t :: t.children.flatMap subtrees := by
  cases t
  simp [subtrees, subtreesOnto, subtreesAllOnto_eq]

theorem mem_subtrees_self (t : Tree α) : t ∈ t.subtrees := by
  rw [subtrees_eq]
  exact List.mem_cons_self

theorem mem_subtrees_of_mem_children {s t u : Tree α} (hs : s ∈ t.children)
    (hu : u ∈ s.subtrees) : u ∈ t.subtrees := by
  rw [subtrees_eq]
  exact List.mem_cons_of_mem t (List.mem_flatMap.mpr ⟨s, hs, hu⟩)

/-- A subtree of a subtree is a subtree. -/
theorem mem_subtrees_trans {s t u : Tree α} (hu : u ∈ s.subtrees) (hs : s ∈ t.subtrees) :
    u ∈ t.subtrees := by
  induction t with
  | node a ts ih =>
    rw [subtrees_eq, List.mem_cons, List.mem_flatMap] at hs
    rcases hs with rfl | ⟨c, hc, hs⟩
    · exact hu
    · exact mem_subtrees_of_mem_children hc (ih c hc hs)

theorem length_subtrees (t : Tree α) : t.subtrees.length = t.size := by
  induction t with
  | node a ts ih =>
    have hall : ∀ us : List (Tree α), (∀ u ∈ us, u ∈ ts) →
        (us.flatMap subtrees).length + 1 = (us.map size).foldr (· + ·) 1 := by
      intro us hus
      induction us with
      | nil => rfl
      | cons u us ihus =>
        have hrest := ihus fun v hv => hus v (List.mem_cons_of_mem u hv)
        rw [List.flatMap_cons, List.length_append, ih u (hus u List.mem_cons_self),
          List.map_cons, List.foldr_cons, ← hrest, Nat.add_assoc]
    rw [subtrees_eq, size_eq, List.length_cons]
    exact hall ts fun _ h => h

/-! ## Numbering -/

mutual
/-- Relabels in pre-order, giving each label its position counted from `k`. -/
def numbered (f : Nat → α → β) (k : Nat) : Tree α → Tree β
  | node a ts => node (f k a) (numberedAll f (k + 1) ts)

/-- Relabels neighbouring trees, each counted on from the end of the one
before it. -/
def numberedAll (f : Nat → α → β) (k : Nat) : List (Tree α) → List (Tree β)
  | [] => []
  | t :: ts => numbered f k t :: numberedAll f (k + t.size) ts
end

theorem numbered_eq (f : Nat → α → β) (k : Nat) (t : Tree α) :
    t.numbered f k = node (f k t.label) (numberedAll f (k + 1) t.children) := by
  cases t; rfl

/-- **Numbering is by pre-order position.**  The labels in pre-order are relabelled
one after the other. -/
theorem map_label_subtrees_numbered (f : Nat → α → β) (k : Nat) (t : Tree α) :
    (t.numbered f k).subtrees.map label =
      (t.subtrees.zipIdx k).map fun s => f s.2 s.1.label := by
  induction t generalizing k with
  | node a ts ih =>
    have hall : ∀ us : List (Tree α), (∀ u ∈ us, u ∈ ts) → ∀ k,
        ((numberedAll f k us).flatMap subtrees).map label =
          ((us.flatMap subtrees).zipIdx k).map fun s => f s.2 s.1.label := by
      intro us hus
      induction us with
      | nil => intro k; rfl
      | cons u us ihus =>
        intro k
        rw [numberedAll, List.flatMap_cons, List.map_append, ih u (hus u List.mem_cons_self),
          ihus fun v hv => hus v (List.mem_cons_of_mem u hv), List.flatMap_cons,
          List.zipIdx_append, List.map_append, length_subtrees]
    rw [numbered_eq, subtrees_eq, subtrees_eq, List.map_cons, List.zipIdx_cons, List.map_cons]
    exact congrArg _ (hall ts (fun _ h => h) (k + 1))

theorem size_numbered (f : Nat → α → β) (k : Nat) (t : Tree α) :
    (t.numbered f k).size = t.size := by
  have h := congrArg List.length (map_label_subtrees_numbered f k t)
  simpa only [List.length_map, List.length_zipIdx, length_subtrees] using h

/-! ## Comparing -/

mutual
/-- Do two trees have the same outline, with labels related by `r`? -/
def agree (r : α → α → Bool) : Tree α → Tree α → Bool
  | node a ts, node b us => r a b && agreeAll r ts us

/-- Do two lists of trees agree one to one? -/
def agreeAll (r : α → α → Bool) : List (Tree α) → List (Tree α) → Bool
  | [], [] => true
  | t :: ts, u :: us => agree r t u && agreeAll r ts us
  | _, _ => false
end

end Tree

end CaptureTree
