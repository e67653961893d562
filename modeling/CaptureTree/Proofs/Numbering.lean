import CaptureTree.Proofs.Ancestors
import CaptureTree.Proofs.Evaluation
import CaptureTree.Proofs.Shape.Leaves
import CaptureTree.Proofs.Shape.Slots

/-!
# Numbering, paths and shapes agree

The table of captures is made from the pattern, but its paths are looked up in the shape.  The
two are walked independently of each other, and the shape has lost a lot: groups, sequences
with one capturing part, everything without captures, and everything inside a capture.

What keeps them together is that the leaves of the shape, from left to right, are those of the
captures that no other capture hides, in pre-order (`Located.WellFormed.leaves_infer`).  So a
capture has a path if and only if it is not hidden, and `CaptureInfo.Fits` says what the path and
the flat shape of an entry are.
-/

namespace CaptureTree

namespace Located

variable {p c : Located}

/-- **The leaves that have a path** are those of the visible captures, in order. -/
theorem map_fst_leafPaths (h : p.WellFormed) (hd : p.Distinct) :
    (Shape.infer p).leafPaths.map Prod.fst = p.visible.map id := by
  rw [Shape.map_fst_leafPaths_eq, h.leaves_infer hd, List.filterMap_map]
  exact List.filterMap_eq_map_iff_forall_eq_some.mpr fun c _ => rfl

/-- No leaf is listed twice. -/
theorem nodup_leafPaths (h : p.WellFormed) (hd : p.Distinct) :
    ((Shape.infer p).leafPaths.map Prod.fst).Nodup := by
  have hsub : (p.visible.map id).Sublist p.ids :=
    (List.filter_sublist.trans List.filter_sublist).map id
  rw [map_fst_leafPaths h hd]
  exact hsub.nodup hd

/-- **A capture has a path exactly if no other capture hides it.** -/
theorem pathTo_isSome (h : p.WellFormed) (hd : p.Distinct) (hc : c ∈ p.captures) :
    ((Shape.infer p).pathTo c.id).isSome = !p.isHidden c.id := by
  have hlisted : c.id ∈ (Shape.infer p).leafPaths.map Prod.fst ↔ p.isHidden c.id = false := by
    rw [map_fst_leafPaths h hd, List.mem_map]
    constructor
    · rintro ⟨c', hc', hid⟩
      obtain ⟨hmem, hvisible⟩ := mem_visible.mp hc'
      rwa [← hid]
    · exact fun hvisible => ⟨c, mem_visible.mpr ⟨hc, hvisible⟩, rfl⟩
  rw [Shape.pathTo, Bool.eq_iff_iff, Bool.not_eq_true', ← hlisted, Option.isSome_iff_ne_none]
  rw [Ne, List.lookup_eq_none_iff, List.mem_map]
  constructor
  · intro hsome
    by_contra hnone
    refine hsome fun e he => bne_iff_ne.mpr fun hid => hnone ⟨e, he, hid.symm⟩
  · rintro ⟨e, he, hid⟩ hnone
    exact bne_iff_ne.mp (hnone e he) hid.symm

end Located

/-! ## The table of captures -/

namespace CaptureInfo

variable {p : Located} {s : Shape} {c d : CaptureInfo}

theorem map_node_table (p : Located) (s : Shape) :
    (table p s).map CaptureInfo.node = p.captures := by
  rw [table, List.map_map, ← Located.map_fst_capturesIn [] p]
  conv_rhs => rw [← List.zipIdx_map_fst 0 (p.capturesIn []), List.map_map]
  rfl

theorem map_index_table (p : Located) (s : Shape) :
    (table p s).map CaptureInfo.index = List.range' 1 (table p s).length := by
  refine List.ext_getElem? fun i => ?_
  rw [List.getElem?_map, getElem?_table, Option.map_map]
  by_cases hi : i < (table p s).length
  · have hplace : i < (p.capturesIn []).length := by
      rwa [table, List.length_map, List.length_zipIdx] at hi
    rw [List.getElem?_range' hi, List.getElem?_eq_getElem hplace, Option.map_some, Nat.one_mul,
      Nat.add_comm]
    rfl
  · have hplace : (p.capturesIn []).length ≤ i := by
      rw [table, List.length_map, List.length_zipIdx] at hi
      exact Nat.le_of_not_lt hi
    rw [List.getElem?_eq_none hplace, List.getElem?_eq_none]
    · rfl
    · rw [List.length_range']
      exact Nat.le_of_not_lt hi

/-- Entries for the same node are the same entry. -/
theorem eq_of_node_eq (hd : p.Distinct) (hc : c ∈ table p s) (hc' : d ∈ table p s)
    (hnode : c.node = d.node) : c = d := by
  obtain ⟨i, hi⟩ := List.mem_iff_getElem?.mp hc
  obtain ⟨j, hj⟩ := List.mem_iff_getElem?.mp hc'
  have hplace := hi
  have hplace' := hj
  rw [getElem?_table, Option.map_eq_some_iff] at hplace hplace'
  obtain ⟨e, he, rfl⟩ := hplace
  obtain ⟨e', he', rfl⟩ := hplace'
  obtain rfl := hd.place_unique he he' (congrArg Located.id hnode)
  exact Option.some.inj (hi.symm.trans hj)

/-- **Do the path and the flat shape of an entry fit the pattern and its shape?** -/
structure Fits (p : Located) (s : Shape) (c : CaptureInfo) : Prop where
  /-- There is a path unless another capture is around this one. -/
  visible : c.path ≠ none ↔ ∀ a ∈ p.ancestors c.node.id, a.kind ≠ .capture
  /-- The path ends at the leaf of the capture. -/
  leaf : ∀ path ∈ c.path, ∃ l, s.follow path = some l ∧ l.kind = .leaf ∧
    l.origin = some c.node ∧ l.label = c.name
  /-- At the core of the flat shape there is the leaf of the capture. -/
  core : c.flat.core = .leaf (some c.node)
  /-- Around it there is one slot for every quantifier around the capture. -/
  layers : c.flat.layers =
    (p.quantifiersAround c.node.id).map fun q => (q.loopKind, some q)
  /-- The path goes through the same slots of quantifiers. -/
  loops : ∀ path ∈ c.path, s.loopsAlong path = c.flat.layers

/-- **Every entry of the table fits.** -/
theorem fits_of_mem_table (hwell : p.WellFormed) (hd : p.Distinct)
    (hc : c ∈ table p (.infer p)) : c.Fits p (.infer p) := by
  obtain ⟨qs, hholds, hflat, hroute⟩ := exists_route hwell hd hc
  obtain ⟨-, -, -, hpath⟩ := exists_holds hc
  have hlayers : c.flat.layers = qs.map fun q => (q.loopKind, some q) := by
    rw [hflat, Shape.layers_flat]
  refine ⟨?_, fun path hmem => ?_, ?_, ?_, fun path hmem => ?_⟩
  · rw [← Option.isSome_iff_ne_none, hpath, Located.pathTo_isSome hwell hd hholds.mem_captures,
      Bool.not_eq_true', Located.isHidden, List.any_eq_false]
    simp only [Located.isCapture, beq_iff_eq, ne_eq]
  · exact ⟨_, (hroute path hmem).follow_eq, rfl, rfl, rfl⟩
  · rw [hflat, Shape.core_flat]
  · rw [hlayers, hholds.quantifiersAround_eq hd]
  · rw [hlayers, (hroute path hmem).loopsAlong_eq]

/-- **Every leaf is that of one capture**, and at the end of its path. -/
theorem existsUnique_of_slotAt (hwell : p.WellFormed) (hd : p.Distinct) {is : List Nat}
    {o : Option Located} (hleaf : (Shape.infer p).slotAt is = some (.leaf o)) :
    ∃! c, c ∈ table p (.infer p) ∧ ∃ path ∈ c.path, path.map Step.index = is := by
  obtain ⟨qs, node, path, rfl, his, hroute⟩ := Shape.exists_route_of_slotAt hwell hleaf
  have hholds := hroute.holds
  have hcapture : node ∈ (table p (.infer p)).map CaptureInfo.node := by
    rw [map_node_table]
    exact hholds.mem_captures
  obtain ⟨c, hc, rfl⟩ := List.mem_map.mp hcapture
  obtain ⟨-, -, -, hpath⟩ := exists_holds hc
  have hlookup : c.path = some path := by
    rw [hpath, Shape.pathTo, lookup_eq_some_iff_mem (Located.nodup_leafPaths hwell hd)]
    exact hroute.mem_leafPaths
  refine ⟨c, ⟨hc, path, hlookup, his⟩, ?_⟩
  rintro d ⟨hd', path', hpath', his'⟩
  -- both paths lead to the same slot, which is the leaf of both captures
  obtain ⟨qs', -, -, hroute'⟩ := exists_route hwell hd hd'
  have hslot := Shape.slotAt_of_follow (hroute' path' hpath').follow_eq
  rw [his', hleaf] at hslot
  refine eq_of_node_eq hd hd' hc ?_
  exact (Option.some.inj (Shape.leaf.inj (Option.some.inj hslot))).symm

/-- **Numbering, paths and shapes agree.**  For a pattern that validation accepts, the table lists
the captures in pre-order and numbers them from 1, every entry fits the pattern and its shape, and
every leaf of the shape is at the end of the path of exactly one capture. -/
theorem table_agrees_with_shape {p : Pattern} (h : p.validate = .ok ()) :
    (table p.locate (.infer p.locate)).map CaptureInfo.node = p.locate.captures ∧
      (table p.locate (.infer p.locate)).map CaptureInfo.index =
        List.range' 1 p.locate.captures.length ∧
      (∀ c ∈ table p.locate (.infer p.locate), c.Fits p.locate (.infer p.locate)) ∧
      ∀ is o, (Shape.infer p.locate).slotAt is = some (.leaf o) →
        ∃! c, c ∈ table p.locate (.infer p.locate) ∧ ∃ path ∈ c.path, path.map Step.index = is := by
  have hwell := Pattern.wellFormed_locate h
  have hd := p.distinct_locate
  refine ⟨map_node_table _ _, ?_, fun c hc => fits_of_mem_table hwell hd hc,
    fun is o hleaf => existsUnique_of_slotAt hwell hd hleaf⟩
  rw [map_index_table, ← map_node_table p.locate (.infer p.locate), List.length_map]

/-- A group, a sequence with a part that captures nothing, and a loop around a capture that hides
another one. -/
def mixedSiblings : Pattern :=
  .concat [.exact [0x61], (Pattern.exact [0x62]).capture.optional.group,
    (Pattern.alternation [.exact [0x63], (Pattern.exact [0x64]).capture.capture]).star]

theorem table_agrees_with_shape_mixedSiblings :
    mixedSiblings.validate = .ok () ∧
      (table mixedSiblings.locate (.infer mixedSiblings.locate)).map CaptureInfo.node =
        mixedSiblings.locate.captures ∧
      (table mixedSiblings.locate (.infer mixedSiblings.locate)).map CaptureInfo.index =
        List.range' 1 mixedSiblings.locate.captures.length ∧
      (∀ c ∈ table mixedSiblings.locate (.infer mixedSiblings.locate),
        c.Fits mixedSiblings.locate (.infer mixedSiblings.locate)) ∧
      ∀ is o, (Shape.infer mixedSiblings.locate).slotAt is = some (.leaf o) →
        ∃! c, c ∈ table mixedSiblings.locate (.infer mixedSiblings.locate) ∧
          ∃ path ∈ c.path, path.map Step.index = is :=
  ⟨rfl, table_agrees_with_shape rfl⟩

end CaptureInfo

end CaptureTree
