import CaptureTree.Matching.Attempt

/-!
# Why every search ends

Every attempt has a *cost*, a number that exceeds the costs of all attempts
taking its place together.  A search therefore ends after at most as many steps
as its first attempt costs.

The cost of a task depends on what comes after it, so it is a function of the
cost of the rest; and that in turn depends on the number of bytes left.  A
sequence composes the functions of its parts, and an alternation adds those of
its branches.  A loop can go round only so often: every iteration is either one
of the required ones or leaves fewer bytes, so that the number of required
iterations and the number of bytes left, taken together, go down each time
(`Loop.budget`).

All these functions are monotone (`MonotoneCost`), which is why going on from a
later place never costs more than from an earlier one.

The main statement is `totalCost_step_lt`.
-/

namespace CaptureTree

/-- The cost of what is still to be done, by the number of bytes left. -/
abbrev RestCost := Nat → Nat

/-- The cost of a task, given that of the rest. -/
abbrev TaskCost := RestCost → RestCost

/-- The cost of a loop whose body costs `body`, with a budget of `m`. -/
def loopCost (body : TaskCost) (k : RestCost) : Nat → RestCost
  | 0, r => 1 + k r + body (fun _ => 1) r
  | m + 1, r => 1 + k r + body (fun r => 1 + loopCost body k m r) r

/-- The cost of a node, given those of its children. -/
def nodeCost (p : Located) (parts : List TaskCost) : TaskCost := fun k r =>
  match p.kind with
  | .literal => 1 + k r
  | .capture => 1 + parts.head?.getD id (fun r => 1 + k r) r
  | .group => 1 + parts.head?.getD id k r
  | .concat => 1 + parts.foldr (fun f k => f k) k r
  | .alternation => 1 + k r + parts.foldr (fun f n => f k r + n) 0
  | .quantifier => 1 + loopCost (parts.head?.getD id) k (p.bounds.min + r) r

/-- The cost of matching a pattern. -/
def Located.cost (p : Located) : TaskCost :=
  p.fold nodeCost

theorem Located.cost_eq (p : Located) : p.cost = nodeCost p (p.children.map Located.cost) :=
  Tree.fold_eq _ p

namespace Loop

/-- The cost of one run through the body. -/
def bodyCost (l : Loop) : TaskCost :=
  (l.body.map Located.cost).getD id

/-- A bound on the number of further iterations after `count` of them, with `r`
bytes left. -/
def budget (l : Loop) (count r : Nat) : Nat :=
  (l.bounds.min - count) + r

end Loop

/-- The cost of a task. -/
def Task.cost : Task → TaskCost
  | .visit p => p.cost
  | .close _ _ => fun k r => 1 + k r
  | .turn l count => fun k r => loopCost l.bodyCost k (l.budget count r) r
  | .finish l count start _ => fun k r =>
    match l.budget count start with
    | 0 => 1
    | m + 1 => 1 + loopCost l.bodyCost k m r

/-- The cost of a list of tasks. -/
def tasksCost (ts : List Task) : RestCost :=
  ts.foldr (fun t k => t.cost k) fun _ => 1

/-- The cost of an attempt. -/
def Attempt.cost (a : Attempt) : Nat :=
  tasksCost a.tasks a.cursor.left

/-- The cost of several attempts together. -/
def totalCost (as : List Attempt) : Nat :=
  as.foldr (fun a n => a.cost + n) 0

@[simp] theorem totalCost_nil : totalCost [] = 0 := rfl

@[simp] theorem totalCost_cons (a : Attempt) (as : List Attempt) :
    totalCost (a :: as) = a.cost + totalCost as := rfl

@[simp] theorem totalCost_append (as bs : List Attempt) :
    totalCost (as ++ bs) = totalCost as + totalCost bs := by
  induction as with
  | nil => rw [List.nil_append, totalCost_nil, Nat.zero_add]
  | cons a as ih => rw [List.cons_append, totalCost_cons, totalCost_cons, ih, Nat.add_assoc]

/-! ## Monotonicity -/

/-- `k` is nowhere above `k'`, not even at an earlier place, as long as at most
`n` bytes are left. -/
def CostBelow (n : Nat) (k k' : RestCost) : Prop :=
  ∀ r r', r ≤ r' → r' ≤ n → k r ≤ k' r'

/-- A cost that grows with that of the rest and with the number of bytes
left. -/
def MonotoneCost (f : TaskCost) : Prop :=
  ∀ k k' r r', r ≤ r' → CostBelow r' k k' → f k r ≤ f k' r'

theorem CostBelow.mono {m n : Nat} {k k' : RestCost} (h : CostBelow n k k') (hmn : m ≤ n) :
    CostBelow m k k' :=
  fun r r' hr hr' => h r r' hr (Nat.le_trans hr' hmn)

theorem CostBelow.const_add {n : Nat} {k k' : RestCost} (h : CostBelow n k k') (a : Nat) :
    CostBelow n (fun r => a + k r) (fun r => a + k' r) :=
  fun r r' hr hr' => Nat.add_le_add_left (h r r' hr hr') a

theorem MonotoneCost.below {f : TaskCost} (hf : MonotoneCost f) {n : Nat} {k k' : RestCost}
    (h : CostBelow n k k') : CostBelow n (f k) (f k') :=
  fun r r' hr hr' => hf k k' r r' hr (h.mono hr')

theorem monotoneCost_id : MonotoneCost id :=
  fun _ _ r r' hr h => h r r' hr (Nat.le_refl r')

theorem monotoneCost_head {fs : List TaskCost} (h : ∀ f ∈ fs, MonotoneCost f) :
    MonotoneCost (fs.head?.getD id) := by
  cases fs with
  | nil => exact monotoneCost_id
  | cons f fs => exact h f List.mem_cons_self

theorem monotoneCost_foldr {fs : List TaskCost} (h : ∀ f ∈ fs, MonotoneCost f) :
    MonotoneCost fun k => fs.foldr (fun f k => f k) k := by
  induction fs with
  | nil => exact monotoneCost_id
  | cons f fs ih =>
    intro k k' r r' hr hk
    have hrest := ih fun g hg => h g (List.mem_cons_of_mem f hg)
    exact h f List.mem_cons_self _ _ r r' hr (hrest.below hk)

theorem monotoneCost_sum {fs : List TaskCost} (h : ∀ f ∈ fs, MonotoneCost f) :
    MonotoneCost fun k r => fs.foldr (fun f n => f k r + n) 0 := by
  induction fs with
  | nil => intro _ _ _ _ _ _; exact Nat.le_refl _
  | cons f fs ih =>
    intro k k' r r' hr hk
    exact Nat.add_le_add (h f List.mem_cons_self k k' r r' hr hk)
      (ih (fun g hg => h g (List.mem_cons_of_mem f hg)) k k' r r' hr hk)

/-- The cost of a loop grows with its budget as well. -/
theorem loopCost_le {body : TaskCost} (hbody : MonotoneCost body) {k k' : RestCost}
    {m m' r r' : Nat} (hm : m ≤ m') (hr : r ≤ r') (hk : CostBelow r' k k') :
    loopCost body k m r ≤ loopCost body k' m' r' := by
  induction m generalizing m' r r' with
  | zero =>
    have h1 := hk r r' hr (Nat.le_refl r')
    cases m' with
    | zero =>
      have h2 := hbody (fun _ => 1) (fun _ => 1) r r' hr fun _ _ _ _ => Nat.le_refl 1
      simp only [loopCost]
      omega
    | succ m' =>
      have h2 := hbody (fun _ => 1) (fun r => 1 + loopCost body k' m' r) r r' hr
        fun _ _ _ _ => Nat.le_add_right 1 _
      simp only [loopCost]
      omega
  | succ m ih =>
    cases m' with
    | zero => omega
    | succ m' =>
      have h1 := hk r r' hr (Nat.le_refl r')
      have h2 := hbody (fun r => 1 + loopCost body k m r) (fun r => 1 + loopCost body k' m' r)
        r r' hr fun s s' hs hs' =>
          Nat.add_le_add_left (ih (Nat.le_of_succ_le_succ hm) hs (hk.mono hs')) 1
      simp only [loopCost]
      omega

theorem monotoneCost_nodeCost (p : Located) {parts : List TaskCost}
    (h : ∀ f ∈ parts, MonotoneCost f) : MonotoneCost (nodeCost p parts) := by
  intro k k' r r' hr hk
  have hkr := hk r r' hr (Nat.le_refl r')
  unfold nodeCost
  split
  · omega
  · exact Nat.add_le_add_left
      (monotoneCost_head h _ _ r r' hr (hk.const_add 1)) 1
  · exact Nat.add_le_add_left (monotoneCost_head h k k' r r' hr hk) 1
  · exact Nat.add_le_add_left (monotoneCost_foldr h k k' r r' hr hk) 1
  · exact Nat.add_le_add (Nat.add_le_add_left hkr 1) (monotoneCost_sum h k k' r r' hr hk)
  · exact Nat.add_le_add_left
      (loopCost_le (monotoneCost_head h) (Nat.add_le_add_left hr _) hr hk) 1

theorem Located.monotoneCost (p : Located) : MonotoneCost p.cost := by
  induction p using Tree.induction with
  | node a ts ih =>
    rw [Located.cost_eq]
    refine monotoneCost_nodeCost _ fun f hf => ?_
    obtain ⟨t, ht, rfl⟩ := List.mem_map.mp hf
    exact ih t ht

theorem Loop.monotoneCost (l : Loop) : MonotoneCost l.bodyCost := by
  unfold Loop.bodyCost
  cases l.body with
  | none => exact monotoneCost_id
  | some p => exact p.monotoneCost

theorem Task.monotoneCost (t : Task) : MonotoneCost t.cost := by
  cases t with
  | visit p => exact p.monotoneCost
  | close n start =>
    exact fun _ _ r r' hr hk => Nat.add_le_add_left (hk r r' hr (Nat.le_refl r')) 1
  | turn l count =>
    exact fun _ _ r r' hr hk =>
      loopCost_le l.monotoneCost (Nat.add_le_add_left hr _) hr hk
  | finish l count start outer =>
    intro k k' r r' hr hk
    simp only [Task.cost]
    split
    · exact Nat.le_refl 1
    · exact Nat.add_le_add_left (loopCost_le l.monotoneCost (Nat.le_refl _) hr hk) 1

/-- Going on from a later place costs no more. -/
theorem tasksCost_le {ts : List Task} {r r' : Nat} (hr : r ≤ r') :
    tasksCost ts r ≤ tasksCost ts r' := by
  induction ts generalizing r r' with
  | nil => exact Nat.le_refl 1
  | cons t ts ih => exact t.monotoneCost _ _ r r' hr fun _ _ h _ => ih h

/-! ## Every step lowers the cost -/

@[simp] theorem tasksCost_cons (t : Task) (ts : List Task) :
    tasksCost (t :: ts) = t.cost (tasksCost ts) := rfl

theorem tasksCost_visits (ps : List Located) (ts : List Task) :
    tasksCost (ps.map .visit ++ ts) =
      (ps.map Located.cost).foldr (fun f k => f k) (tasksCost ts) := by
  induction ps with
  | nil => rfl
  | cons p ps ih => simp only [List.map_cons, List.cons_append, List.foldr_cons, tasksCost_cons,
      ih, Task.cost]

theorem tasksCost_body (b : Option Located) (ts : List Task) :
    tasksCost (b.toList.map .visit ++ ts) = (b.map Located.cost).getD id (tasksCost ts) := by
  cases b <;> rfl

/-- The branches of an alternation, tried one by one. -/
theorem totalCost_branches (f : Nat → List Record) (rest : List Task) (c : Cursor)
    (ps : List Located) (i : Nat) :
    totalCost ((ps.zipIdx i).map fun e => ⟨.visit e.1 :: rest, c, f e.2⟩) =
      (ps.map Located.cost).foldr (fun g n => g (tasksCost rest) c.left + n) 0 := by
  induction ps generalizing i with
  | nil => rfl
  | cons p ps ih =>
    simp only [List.zipIdx_cons, List.map_cons, totalCost_cons, List.foldr_cons, ih]
    rfl

theorem totalCost_visit_lt (p : Located) (rest : List Task) (c : Cursor)
    (records : List Record) :
    totalCost (Attempt.visit p rest c records) < p.cost (tasksCost rest) c.left := by
  rw [Located.cost_eq]
  unfold Attempt.visit nodeCost
  cases p.kind with
  | literal =>
    -- a literal moves forward, or fails
    cases h : c.match? p.label.literal with
    | none => simp only [Option.toList_none, List.map_nil, totalCost_nil]; omega
    | some d =>
      have := @tasksCost_le rest _ _ (Cursor.left_le_of_match? h)
      simp only [Option.toList_some, List.map_cons, List.map_nil, totalCost_cons, totalCost_nil,
        Attempt.cost]
      omega
  | capture =>
    simp only [totalCost_cons, totalCost_nil, Attempt.cost, tasksCost_body, List.head?_map,
      Located.body, Nat.add_zero]
    exact Nat.lt_add_of_pos_left Nat.one_pos
  | group =>
    simp only [totalCost_cons, totalCost_nil, Attempt.cost, tasksCost_body, List.head?_map,
      Located.body, Nat.add_zero]
    exact Nat.lt_add_of_pos_left Nat.one_pos
  | concat =>
    simp only [totalCost_cons, totalCost_nil, Attempt.cost, tasksCost_visits, Nat.add_zero]
    exact Nat.lt_add_of_pos_left Nat.one_pos
  | alternation =>
    simp only
    split
    · simp only [totalCost_cons, totalCost_nil, Attempt.cost]
      omega
    · refine Nat.lt_of_le_of_lt (Nat.le_of_eq (totalCost_branches
        (fun i => if p.hasCapture then .choice p.id i :: records else records)
        rest c p.children 0)) ?_
      omega
  | quantifier =>
    simp only [totalCost_cons, totalCost_nil, Attempt.cost, tasksCost_cons, Task.cost,
      Loop.bodyCost, Loop.budget, Loop.ofNode, Located.body, List.head?_map, Nat.sub_zero,
      Nat.add_zero]
    exact Nat.lt_add_of_pos_left Nat.one_pos

/-- One more time round a loop, and then the rest, is what the cost of the loop
accounts for. -/
theorem cost_goOn (l : Loop) (count : Nat) (rest : List Task) (c : Cursor)
    (records : List Record) :
    1 + tasksCost rest c.left + (Attempt.goOn l count rest c records).cost =
      loopCost l.bodyCost (tasksCost rest) (l.budget count c.left) c.left := by
  simp only [Attempt.goOn, Attempt.cost, tasksCost_body]
  unfold tasksCost
  simp only [List.foldr_cons, Task.cost]
  cases l.budget count c.left <;> rfl

/-- **Every step lowers the cost.**  The attempts that take the place of one
attempt cost less than it, all together. -/
theorem totalCost_step_lt (task : Task) (rest : List Task) (c : Cursor)
    (records : List Record) :
    totalCost (Attempt.step task rest c records) < tasksCost (task :: rest) c.left := by
  rw [tasksCost_cons]
  cases task with
  | visit p => exact totalCost_visit_lt p rest c records
  | close n start =>
    simp only [Attempt.step, totalCost_cons, totalCost_nil, Attempt.cost, Task.cost]
    omega
  | turn l count =>
    have h := cost_goOn l count rest c records
    simp only [Attempt.step, Task.cost, ← h]
    split
    · simp only [totalCost_cons, totalCost_nil, Attempt.cost]; omega
    · split
      · simp only [totalCost_cons, totalCost_nil]; omega
      · simp only [totalCost_cons, totalCost_nil]
        simp only [Attempt.cost] at h ⊢
        omega
  | finish l count start outer =>
    simp only [Attempt.step]
    split
    · rename_i hc
      simp only [totalCost_cons, totalCost_nil, Attempt.cost, tasksCost_cons, Task.cost]
      -- the iteration consumed something or was required, so the budget is not used up
      obtain ⟨m, hm⟩ : ∃ m, l.budget count start = m + 1 :=
        Nat.exists_eq_add_one.mpr (by unfold Loop.budget; omega)
      have hle : l.budget (count + 1) c.left ≤ m := by
        unfold Loop.budget at hm ⊢
        omega
      have hrest : CostBelow c.left (tasksCost rest) (tasksCost rest) :=
        fun _ _ h _ => tasksCost_le h
      have := loopCost_le l.monotoneCost hle (Nat.le_refl c.left) hrest
      simp only [hm]
      omega
    · simp only [totalCost_nil, Task.cost]
      split <;> omega

end CaptureTree
