import CaptureTree.Matching.Instruction
import CaptureTree.Proofs.Positions

/-!
# Where the instructions of a node stand

The compiler emits instructions one after the other and fills in places later.  What comes out is
put together from the instructions of the parts, node by node: `Located.code` says how, given the
place of the first instruction.  A program is the code of its pattern at the first place, followed
by the instruction that accepts (`Located.program_eq`).

So a machine that has come to the instructions of a node finds them as `Located.code` says, wherever
in the program this is (`Code.Holds`).
-/

namespace CaptureTree

/-- The code of a part, given the place of its first instruction. -/
abbrev Block := Nat → Code

namespace Block

/-- The code of parts that stand one behind the other. -/
def inSequence : List Block → Block
  | [], _ => []
  | f :: fs, place => f place ++ inSequence fs (place + (f place).length)

/-- The code of the branches of `p` from branch `index` on, with jumps to `finish`. -/
def branches (p : Located) (finish : Nat) : Nat → List Block → Block
  | _, [], _ => []
  | index, f :: fs, place =>
    let next := place + (f (place + 1)).length + 2
    .branch p index (if fs.isEmpty then none else some next) p.hasCapture ::
      (f (place + 1) ++ .jump p finish :: branches p finish (index + 1) fs next)

/-- The places of the jumps at the ends of branches. -/
def jumps : List Block → Nat → List Nat
  | [], _ => []
  | f :: fs, place =>
    (place + (f (place + 1)).length + 1) :: jumps fs (place + (f (place + 1)).length + 2)

/-- Where the jumps lead to makes no difference for where the instructions stand. -/
theorem length_branches (p : Located) (finish finish' index : Nat) (fs : List Block)
    (place : Nat) :
    (branches p finish index fs place).length = (branches p finish' index fs place).length := by
  induction fs generalizing index place with
  | nil => rfl
  | cons f fs ih => simp only [branches, List.length_cons, List.length_append, ih]

end Block

namespace Located

/-- The code of a node, given that of its children. -/
def nodeCode (p : Located) (parts : List Block) : Block := fun place =>
  match p.kind with
  | .literal => [if p.label.literal.isClass then .byteClass p else .text p]
  | .capture =>
    .openCapture p :: (Block.inSequence (parts.take 1) (place + 1) ++ [.closeCapture p])
  | .group => Block.inSequence (parts.take 1) place
  | .concat => Block.inSequence parts place
  | .alternation =>
    Block.branches p (place + (Block.branches p 0 0 parts place).length) 0 parts place
  | .quantifier =>
    let traced := p.body.any hasCapture
    let round := Block.inSequence (parts.take 1) (place + 3)
    .openLoop p :: .test p (place + round.length + 4) :: .beginRound p traced ::
      (round ++ [.endRound p (place + 1) traced, .closeLoop p])

/-- **The code of a pattern**, given the place of its first instruction. -/
def code (p : Located) : Block :=
  p.fold nodeCode

theorem code_eq (p : Located) : p.code = p.nodeCode (p.children.map code) :=
  Tree.fold_eq _ p

/-! ## The code of each kind of node -/

variable {p q : Located}

/-- The code of the first child alone, where a node has only one. -/
theorem inSequence_code (hc : p.children = [q]) (place : Nat) :
    Block.inSequence ((p.children.map code).take 1) place = q.code place := by
  rw [hc]
  exact List.append_nil _

theorem code_literal (hk : p.kind = .literal) (place : Nat) :
    p.code place = [if p.label.literal.isClass then .byteClass p else .text p] := by
  rw [code_eq, nodeCode, hk]

theorem code_capture (hk : p.kind = .capture) (hc : p.children = [q]) (place : Nat) :
    p.code place = .openCapture p :: (q.code (place + 1) ++ [.closeCapture p]) := by
  rw [code_eq, nodeCode, hk, ← inSequence_code hc]

theorem code_group (hk : p.kind = .group) (hc : p.children = [q]) : p.code = q.code := by
  funext place
  rw [code_eq, nodeCode, hk, ← inSequence_code hc]

theorem code_concat (hk : p.kind = .concat) :
    p.code = Block.inSequence (p.children.map code) := by
  funext place
  rw [code_eq, nodeCode, hk]

theorem code_alternation (hk : p.kind = .alternation) (place : Nat) :
    p.code place = Block.branches p (place + (p.code place).length) 0 (p.children.map code)
      place := by
  rw [code_eq, nodeCode, hk]
  simp only [Block.length_branches p _ 0 0]

theorem code_quantifier (hk : p.kind = .quantifier) (hc : p.children = [q]) (place : Nat) :
    p.code place = .openLoop p :: .test p (place + (q.code (place + 3)).length + 4) ::
      .beginRound p (p.body.any hasCapture) :: (q.code (place + 3) ++
        [.endRound p (place + 1) (p.body.any hasCapture), .closeLoop p]) := by
  rw [code_eq, nodeCode, hk, ← inSequence_code hc]

end Located

/-! ## What the compiler emits -/

theorem modify_append_cons {α : Type} (f : α → α) {pre : List α} {n : Nat} (h : pre.length = n)
    (x : α) (post : List α) : (pre ++ x :: post).modify n f = pre ++ f x :: post := by
  subst h
  induction pre with
  | nil => rfl
  | cons y pre ih =>
    rw [List.cons_append, List.length_cons, List.modify_succ_cons, ih, List.cons_append]

namespace Code

variable {code pre post : Code} {p : Located} {ts : List Located}

/-- The jumps at the ends of branches are filled in one after the other. -/
theorem foldl_setTarget (target index : Nat) (fs : List Block) {place : Nat}
    (h : pre.length = place) :
    (Block.jumps fs place).foldl (fun code n => code.setTarget n target)
        (pre ++ Block.branches p 0 index fs place) =
      pre ++ Block.branches p target index fs place := by
  induction fs generalizing pre index place with
  | nil => rfl
  | cons f fs ih =>
    rw [Block.jumps, List.foldl_cons, Block.branches, Block.branches]
    generalize Op.branch p index _ p.hasCapture = op
    -- the first branch counts as what stands before, once its jump is filled in
    let front : Code := pre ++ op :: f (place + 1)
    have hfront : front.length = place + (f (place + 1)).length + 1 := by
      simp only [front, List.length_append, List.length_cons, h]
      omega
    have hjump : ∀ (n : Nat) (rest : Code),
        pre ++ op :: (f (place + 1) ++ Op.jump p n :: rest) = front ++ Op.jump p n :: rest := by
      intro n rest
      simp only [front, List.append_assoc, List.cons_append]
    have hbehind : (front ++ [Op.jump p target]).length = place + (f (place + 1)).length + 2 := by
      rw [List.length_append, hfront]
      rfl
    have hpast : ∀ rest : Code,
        front ++ Op.jump p target :: rest = (front ++ [Op.jump p target]) ++ rest :=
      fun rest => List.append_cons front (Op.jump p target) rest
    rw [hjump, hjump, setTarget, modify_append_cons _ hfront,
      hpast (Block.branches p 0 _ _ _), hpast (Block.branches p target _ _ _)]
    exact ih (index + 1) hbehind

/-- A target that is the length of the code stays the same while targets are filled in. -/
theorem foldl_setTarget_length (places : List Nat) (code : Code) :
    places.foldl (fun code n => code.setTarget n code.length) code =
      places.foldl (fun c n => c.setTarget n code.length) code := by
  induction places generalizing code with
  | nil => rfl
  | cons n places ih =>
    rw [List.foldl_cons, List.foldl_cons, ih]
    have hlength : (code.setTarget n code.length).length = code.length := List.length_modify _ _ _
    rw [hlength]

theorem emitFirst_eq (h : ∀ t ∈ ts, ∀ code, emit code t = code ++ t.code code.length)
    (code : Code) :
    emitFirst code ts = code ++ Block.inSequence ((ts.map Located.code).take 1) code.length := by
  cases ts with
  | nil => exact (List.append_nil code).symm
  | cons t ts =>
    have hone : Block.inSequence (((t :: ts).map Located.code).take 1) code.length =
        t.code code.length := List.append_nil _
    rw [emitFirst, h t List.mem_cons_self, hone]

theorem emitAll_eq (h : ∀ t ∈ ts, ∀ code, emit code t = code ++ t.code code.length)
    (code : Code) :
    emitAll code ts = code ++ Block.inSequence (ts.map Located.code) code.length := by
  induction ts generalizing code with
  | nil => exact (List.append_nil code).symm
  | cons t ts ih =>
    obtain ⟨ht, hts⟩ := List.forall_mem_cons.mp h
    rw [emitAll, ht, ih hts, List.length_append, List.map_cons, Block.inSequence,
      List.append_assoc]

/-- The branches, with jumps that lead nowhere yet. -/
theorem emitBranches_eq (h : ∀ t ∈ ts, ∀ code, emit code t = code ++ t.code code.length)
    (index : Nat) (code : Code) :
    emitBranches p p.hasCapture index code ts =
      (code ++ Block.branches p 0 index (ts.map Located.code) code.length,
        Block.jumps (ts.map Located.code) code.length) := by
  induction ts generalizing code index with
  | nil => exact congrArg₂ Prod.mk (List.append_nil code).symm rfl
  | cons t ts ih =>
    obtain ⟨ht, hts⟩ := List.forall_mem_cons.mp h
    let place := code.length
    let round := t.code (place + 1)
    have hemit : ∀ op, emit (code ++ [op]) t = code ++ op :: round := by
      intro op
      rw [ht, List.append_assoc, List.length_append]
      rfl
    have hlength : ∀ op, (code ++ op :: round).length = place + round.length + 1 := by
      intro op
      rw [List.length_append, List.length_cons]
      omega
    have hnext : ∀ op,
        (code ++ op :: round ++ [Op.jump p 0]).length = place + round.length + 2 := by
      intro op
      rw [List.length_append, hlength]
      rfl
    -- the place of the next branch is filled in unless there is none
    have hfill : (if ts.isEmpty then
          code ++ .branch p index none p.hasCapture :: round ++ [.jump p 0]
        else setNext (code ++ .branch p index none p.hasCapture :: round ++ [.jump p 0]) place
          (place + round.length + 2)) =
        code ++ .branch p index (if ts.isEmpty then none else some (place + round.length + 2))
          p.hasCapture :: round ++ [.jump p 0] := by
      cases ts.isEmpty with
      | true => rfl
      | false =>
        simp only [Bool.false_eq_true, if_false, List.append_assoc, List.cons_append]
        exact modify_append_cons _ rfl _ _
    simp only [emitBranches, hemit, hnext, hlength]
    rw [hfill, ih hts, hnext, List.map_cons, Block.branches, Block.jumps, List.isEmpty_map]
    simp only [List.append_assoc, List.cons_append, List.nil_append]
    rfl

/-- **The compiler emits the code of the node**, behind what is there. -/
theorem emit_eq (p : Located) (code : Code) : emit code p = code ++ p.code code.length := by
  induction p using Tree.induction generalizing code with
  | node a ts ih =>
    rw [Located.code_eq, Tree.children_node]
    cases hk : a.kind with
    | literal =>
      simp only [emit, Located.nodeCode, Located.kind, Tree.label_node, hk]
      rfl
    | capture =>
      simp only [emit, Located.nodeCode, Located.kind, Tree.label_node, hk, emitFirst_eq ih,
        List.length_append, List.append_assoc]
      rfl
    | group =>
      simp only [emit, Located.nodeCode, Located.kind, Tree.label_node, hk, emitFirst_eq ih]
    | concat =>
      simp only [emit, Located.nodeCode, Located.kind, Tree.label_node, hk, emitAll_eq ih]
    | alternation =>
      simp only [emit, Located.nodeCode, Located.kind, Tree.label_node, hk, emitBranches_eq ih]
      rw [foldl_setTarget_length, foldl_setTarget _ _ _ rfl, List.length_append]
    | quantifier =>
      let p : Located := .node a ts
      let front : Code := code ++ [.openLoop p]
      let round := Block.inSequence ((ts.map Located.code).take 1) (code.length + 3)
      let behind : Code := .beginRound p (p.body.any Located.hasCapture) :: round ++
        [.endRound p (code.length + 1) (p.body.any Located.hasCapture)]
      have hfront : front.length = code.length + 1 := List.length_append
      have hemit : emit code p = (front ++ .test p 0 :: behind).setTarget (code.length + 1)
          (front ++ .test p 0 :: behind).length ++ [.closeLoop p] := by
        simp only [p, emit, hk, emitFirst_eq ih, List.length_append, List.append_assoc, front,
          behind, round, List.cons_append, List.nil_append, List.length_cons, List.length_nil]
      have hlength : (front ++ .test p 0 :: behind).length = code.length + round.length + 4 := by
        simp only [behind, List.length_append, hfront, List.length_cons, List.length_nil]
        omega
      rw [hemit, hlength, setTarget, modify_append_cons _ hfront]
      simp only [Located.nodeCode, Located.kind, Tree.label_node, hk, front, behind,
        List.append_assoc, List.cons_append, List.nil_append]
      rfl

/-! ## Finding the instructions -/

/-- **Does this code stand at a place** of a program? -/
def Holds (code : Code) (place : Nat) (part : Code) : Prop :=
  ∃ front behind, code = front ++ part ++ behind ∧ front.length = place

namespace Holds

variable {place : Nat} {part part' : Code} {op : Op}

theorem left (h : code.Holds place (part ++ part')) : code.Holds place part := by
  obtain ⟨front, behind, rfl, hlength⟩ := h
  exact ⟨front, part' ++ behind, by simp only [List.append_assoc], hlength⟩

theorem right (h : code.Holds place (part ++ part')) :
    code.Holds (place + part.length) part' := by
  obtain ⟨front, behind, rfl, rfl⟩ := h
  exact ⟨front ++ part, behind, by simp only [List.append_assoc], List.length_append⟩

/-- The first instruction is found at the place. -/
theorem head (h : code.Holds place (op :: part)) : code[place]? = some op := by
  obtain ⟨front, behind, rfl, rfl⟩ := h
  rw [List.append_assoc, List.getElem?_append_right (Nat.le_refl _), Nat.sub_self]
  rfl

theorem tail (h : code.Holds place (op :: part)) : code.Holds (place + 1) part := by
  have h : code.Holds place ([op] ++ part) := h
  exact h.right

end Holds

/-- **The instructions of a loop**, and where they stand.  The exit is where the loop is closed. -/
structure Loops (code : Code) (p q : Located) (place exit : Nat) : Prop where
  openLoop : code[place]? = some (.openLoop p)
  test : code[place + 1]? = some (.test p exit)
  beginRound : code[place + 2]? = some (.beginRound p (p.body.any Located.hasCapture))
  body : code.Holds (place + 3) (q.code (place + 3))
  endRound : code[place + 3 + (q.code (place + 3)).length]? =
    some (.endRound p (place + 1) (p.body.any Located.hasCapture))
  closeLoop : code[exit]? = some (.closeLoop p)

/-- The code of a quantifier is a loop. -/
theorem Holds.exists_loops {q : Located} {place : Nat} (h : code.Holds place (p.code place))
    (hk : p.kind = .quantifier) (hc : p.children = [q]) :
    ∃ exit, code.Loops p q place exit ∧ place + (p.code place).length = exit + 1 := by
  rw [Located.code_quantifier hk hc] at h ⊢
  have hend := h.tail.tail.tail.right
  refine ⟨place + (q.code (place + 3)).length + 4,
    ⟨h.head, h.tail.head, h.tail.tail.head, h.tail.tail.tail.left, hend.head, ?_⟩, ?_⟩
  · have hexit : place + (q.code (place + 3)).length + 4 =
        place + 1 + 1 + 1 + (q.code (place + 3)).length + 1 := by omega
    rw [hexit]
    exact hend.tail.head
  · simp only [List.length_cons, List.length_append, List.length_nil]
    omega

end Code

/-- **A program is the code of its pattern, and then accepts.** -/
theorem Located.program_eq (p : Located) : p.program = p.code 0 ++ [.accept] := by
  rw [program, Code.emit_eq]
  rfl

end CaptureTree
