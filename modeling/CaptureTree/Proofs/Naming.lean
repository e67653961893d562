import CaptureTree.Proofs.Nesting
import CaptureTree.Proofs.Results
import CaptureTree.Proofs.WellFormed
import CaptureTree.Regex

/-!
# Names are used once

A name that is used twice is looked for in two places: by validation, which goes through
all nodes and finds other complaints on the way, and by the table of names, which goes
through the captures.  Both remember the names that they have passed.

Read without the walk, each says that a list of names has no repetition
(`Pattern.firstDefect_eq_none_iff`, `CaptureInfo.firstRepeated_eq_none_iff`), and the list
is the same one.  So compiling has nothing to add to validation
(`Regex.exists_compile`).
-/

namespace CaptureTree

/-! ## The names that validation passes -/

namespace Pattern

variable {p : Pattern} {ps : List Pattern} {seen : List String}

theorem nameDefect_eq_none {name : String} :
    nameDefect seen name = none ↔ isIdentifier name = true ∧ name ∉ seen := by
  rw [nameDefect]
  cases isIdentifier name with
  | false => simp
  | true =>
    simp only [Bool.not_true, Bool.false_eq_true, if_false, true_and, List.contains_iff_mem]
    split
    · rename_i hmem
      exact iff_of_false (fun h => by cases h) fun h => h hmem
    · rename_i hmem
      exact iff_of_true rfl hmem

/-- The names that came before matter to a node only if it carries one of them. -/
theorem defect_eq_none_iff :
    p.defect seen = none ↔ p.defect [] = none ∧ ∀ name ∈ p.captureName, name ∉ seen := by
  rw [defect, defect, captureName]
  cases p.label.kind with
  | capture =>
    cases p.label.name with
    | none => simp
    | some name =>
      simp only [Option.bind_some, Option.or_eq_none_iff, nameDefect_eq_none, if_true,
        Option.mem_some_iff, forall_eq', List.not_mem_nil, not_false_eq_true, and_true]
      exact and_right_comm
  | literal | group | concat | alternation | quantifier => simp

/-- What is wrong with a node shows in its fields and in the number of its children. -/
theorem defect_congr {q : Pattern} (hlabel : p.label = q.label)
    (hlength : p.children.length = q.children.length) : p.defect seen = q.defect seen := by
  have hempty : p.children.isEmpty = q.children.isEmpty := by
    rw [Bool.eq_iff_iff, List.isEmpty_iff_length_eq_zero, List.isEmpty_iff_length_eq_zero, hlength]
  simp only [defect, childDefect, hlabel, hlength, hempty]

/-- **Validation goes through the nodes** and finds nothing wrong when there is nothing
wrong with any of them and no name occurs twice. -/
theorem firstDefect_eq_none_iff : firstDefect seen ps = none ↔
    (∀ p ∈ ps, p.defect [] = none) ∧ (∀ name ∈ ps.filterMap captureName, name ∉ seen) ∧
      (ps.filterMap captureName).Nodup := by
  induction ps generalizing seen with
  | nil => simp [firstDefect]
  | cons p ps ih =>
    rw [firstDefect, Option.or_eq_none_iff, ih, defect_eq_none_iff, List.forall_mem_cons,
      List.filterMap_cons]
    cases p.captureName with
    | none =>
      simp only [Option.mem_def, reduceCtorEq, false_imp_iff, forall_true_iff, and_true,
        Option.toList_none, List.nil_append, and_assoc]
    | some name =>
      rw [List.forall_mem_cons, List.nodup_cons]
      simp only [Option.mem_some_iff, forall_eq', Option.toList_some, List.singleton_append,
        List.mem_cons, not_or]
      constructor
      · rintro ⟨⟨hroot, hname⟩, hrest, hseen, hnodup⟩
        exact ⟨⟨hroot, hrest⟩, ⟨hname, fun n hn => (hseen n hn).2⟩,
          fun hmem => (hseen name hmem).1 rfl, hnodup⟩
      · rintro ⟨⟨hroot, hrest⟩, ⟨hname, hseen⟩, hfresh, hnodup⟩
        refine ⟨⟨hroot, hname⟩, hrest, fun n hn => ⟨?_, hseen n hn⟩, hnodup⟩
        rintro rfl
        exact hfresh hn

/-- **A pattern is accepted** when there is nothing wrong with any of its nodes and no
two captures carry the same name. -/
theorem validate_eq_ok_iff : p.validate = .ok () ↔
    (∀ q ∈ p.subtrees, defect [] q = none) ∧ (p.subtrees.filterMap captureName).Nodup := by
  have hnone : p.validate = .ok () ↔ firstDefect [] p.subtrees = none := by
    rw [validate]
    cases firstDefect [] p.subtrees with
    | none => simp
    | some e => simp
  rw [hnone, firstDefect_eq_none_iff]
  simp

end Pattern

/-! ## The names in the table -/

namespace Located

theorem subtrees_erase (p : Located) : p.erase.subtrees = p.subtrees.map erase := by
  induction p using Located.induction with
  | node p ih =>
    rw [Tree.subtrees_eq, Tree.subtrees_eq, List.map_cons, List.map_flatMap]
    refine congrArg (p.erase :: ·) ?_
    rw [erase_eq, Tree.children_node, List.flatMap_map]
    exact List.flatMap_congr fun q hq => ih q hq

/-- The names that validation passes are those of the captures. -/
theorem filterMap_captureName (p : Located) :
    p.erase.subtrees.filterMap Pattern.captureName = p.captures.filterMap name := by
  rw [subtrees_erase, List.filterMap_map, captures, List.filterMap_filter]
  refine List.filterMap_congr fun a _ => ?_
  rw [Function.comp_apply, Pattern.captureName, erase_eq, Tree.label_node]
  show (if a.kind = .capture then a.name else none) = if a.isCapture = true then a.name else none
  simp only [isCapture, beq_iff_eq]

end Located

namespace CaptureInfo

/-- The walk through a list of names finds no repetition when there is none. -/
theorem firstRepeated_eq_none_iff {seen names : List String} :
    firstRepeated seen names = none ↔ (∀ name ∈ names, name ∉ seen) ∧ names.Nodup := by
  induction names generalizing seen with
  | nil => simp [firstRepeated]
  | cons name names ih =>
    rw [firstRepeated, List.forall_mem_cons, List.nodup_cons]
    by_cases hmem : name ∈ seen
    · rw [if_pos (List.contains_iff_mem.mpr hmem)]
      exact iff_of_false (fun h => by cases h) fun h => h.1.1 hmem
    · rw [if_neg (fun h => hmem (List.contains_iff_mem.mp h)), ih]
      simp only [List.mem_cons, not_or]
      constructor
      · rintro ⟨hseen, hnodup⟩
        exact ⟨⟨hmem, fun n hn => (hseen n hn).2⟩, fun h => (hseen name h).1 rfl, hnodup⟩
      · rintro ⟨⟨-, hseen⟩, hfresh, hnodup⟩
        refine ⟨fun n hn => ⟨?_, hseen n hn⟩, hnodup⟩
        rintro rfl
        exact hfresh hn

/-- The names in the table are those of the captures. -/
theorem map_fst_named (p : Located) (s : Shape) :
    (named (table p s)).map Prod.fst = p.captures.filterMap Located.name := by
  rw [named, List.map_filterMap, table, List.filterMap_map, ← p.map_fst_capturesIn [],
    List.filterMap_map, ← List.zipIdx_map_fst 0 (p.capturesIn []), List.filterMap_map,
    List.zipIdx_map_fst]
  refine List.filterMap_congr fun entry _ => ?_
  simp only [Function.comp_apply, Option.map_map]
  exact Option.map_id'

/-- Names that are used once make a table. -/
theorem nameTable_eq_ok {cs : List CaptureInfo} (h : ((named cs).map Prod.fst).Nodup) :
    nameTable cs = .ok (named cs) := by
  have hnone : firstRepeated [] ((named cs).map (·.1)) = none :=
    firstRepeated_eq_none_iff.mpr ⟨fun _ _ => List.not_mem_nil, h⟩
  simp only [nameTable, hnone]

end CaptureInfo

/-- Compiling starts with validation. -/
theorem Regex.validate_of_compile {p : Pattern} {r : Regex} (h : compile p = .ok r) :
    p.validate = .ok () := by
  rw [compile, bind_unit_eq_ok] at h
  exact h.1

/-- The names of a pattern that validation accepts are used once. -/
theorem CaptureInfo.nodup_named {p : Pattern} (h : p.validate = .ok ()) :
    ((named (table p.locate (.infer p.locate))).map Prod.fst).Nodup := by
  have hnames := (Pattern.validate_eq_ok_iff.mp h).2
  rwa [← p.erase_locate, p.locate.filterMap_captureName,
    ← CaptureInfo.map_fst_named _ (.infer p.locate)] at hnames

/-- **Compiling accepts what validation accepts.** -/
theorem Regex.exists_compile {p : Pattern} (h : p.validate = .ok ()) :
    ∃ r, compile p = .ok r := by
  let captures := CaptureInfo.table p.locate (.infer p.locate)
  refine ⟨⟨p.locate, .infer p.locate, captures, CaptureInfo.named captures⟩, ?_⟩
  rw [compile, bind_unit_eq_ok]
  exact ⟨h, bind_eq_ok.mpr ⟨_, CaptureInfo.nameTable_eq_ok (CaptureInfo.nodup_named h), rfl⟩⟩

/-- The table of names of a compiled pattern lists the names of its captures, each once. -/
theorem Regex.names_of_compile {p : Pattern} {r : Regex} (h : compile p = .ok r) :
    r.names = CaptureInfo.named (CaptureInfo.table p.locate (.infer p.locate)) ∧
      (r.names.map Prod.fst).Nodup := by
  rw [compile, bind_unit_eq_ok, bind_eq_ok] at h
  obtain ⟨hvalid, names, htable, hr⟩ := h
  have hnodup := CaptureInfo.nodup_named hvalid
  rw [CaptureInfo.nameTable_eq_ok hnodup] at htable
  obtain rfl := Except.ok.inj htable
  obtain rfl := pure_eq_ok.mp hr
  exact ⟨rfl, hnodup⟩

end CaptureTree
