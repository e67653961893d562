import CaptureTree.Proofs.Joining.Values

/-!
# Parentheses in a chain of joined patterns

Joining extends its left operand and leaves the right one as it is, so
`a.followedBy (b.followedBy c)` and `(a.followedBy b).followedBy c` are different patterns, and with
`orElse` it is the same.  This is more than a matter of trees: the shapes differ, the paths to the
captures, and the values (`Joining.parentheses_show`).

Where the parentheses are matters for these three only.  Chains of the same operands have the same
captures in the same order, match and find the same parts of every input, and their matches have
the same results; and it is known when the shapes are equal after all
(`Joining.parentheses_keep_results`).
-/

namespace CaptureTree

/-- **Do two compiled patterns agree on every input**, in matching and in searching? -/
structure Regex.AlwaysAgree (R : Match → Match → Prop) (r r' : Regex) : Prop where
  matching : ∀ w, Agree R (r.match? w) (r'.match? w)
  searching : ∀ w, Agree R (r.search? w) (r'.search? w)

/-- Chains with the same operands have the same results. -/
theorem Chain.alwaysAgree {op : Joining} {t t' : Chain} {r r' : Regex}
    (hoperands : t.operands = t'.operands) (h : Regex.compile (t.build op) = .ok r)
    (h' : Regex.compile (t'.build op) = .ok r') :
    Regex.AlwaysAgree Match.SameResults r r' :=
  ⟨fun w => (agree_results hoperands h h' w).1, fun w => (agree_results hoperands h h' w).2⟩

/-- What agrees with an attempt that finds a match finds one as well. -/
theorem Regex.Agree.exists_of_found {R : Match → Match → Prop} {m : Match}
    {x x' : Except ReadError (Option Match)} (h : Agree R x x') (hfound : x = .ok (some m)) :
    ∃ m', x' = .ok (some m') ∧ R m m' := by
  obtain ⟨hnone, -⟩ | ⟨n, m', hn, hm', hrel⟩ := h
  · cases hfound.symm.trans hnone
  · obtain rfl : m = n := Option.some.inj (Except.ok.inj (hfound.symm.trans hn))
    exact ⟨m', hm', hrel⟩

/-- What matching comes to is what is found. -/
theorem Regex.exists_match_of_matched? {p : Pattern} {r : Regex} {w : Bytes} {s : Span} {v : Value}
    (h : compile p = .ok r) (hfound : p.matched? .value w = some (s, v)) :
    ∃ m, r.match? w = .ok (some m) ∧ m.value = v := by
  obtain ⟨hcompiled, hpattern⟩ := compiled_of_compile h
  obtain ⟨found, hmatch, hrel⟩ := (hcompiled.hasValue w).1
  rw [hpattern, p.erase_locate, hfound] at hrel
  cases hrel with
  | some hm => exact ⟨_, hmatch, hm.value⟩

/-- It is printed alike, too. -/
theorem Regex.exists_match_of_text {p : Pattern} {r : Regex} {w : Bytes} {text : String}
    (h : compile p = .ok r) (htext : (p.matched? .value w).map (·.2.text) = some text) :
    ∃ m, r.match? w = .ok (some m) ∧ m.value.text = text := by
  obtain ⟨⟨s, v⟩, hfound, rfl⟩ := Option.map_eq_some_iff.mp htext
  obtain ⟨m, hm, rfl⟩ := exists_match_of_matched? h hfound
  exact ⟨m, hm, rfl⟩

namespace Joining

/-- Operands that are joined without a seam have the same values. -/
theorem Seamless.alwaysAgree {op : Joining} {a b c : Pattern} {r r' : Regex}
    (hseam : op.Seamless a b c) (h : Regex.compile (op.join a (op.join b c)) = .ok r)
    (h' : Regex.compile (op.join (op.join a b) c) = .ok r') :
    Regex.AlwaysAgree (fun m m' => m'.value = m.value) r r' := by
  obtain ⟨hcompiled, hpattern⟩ := Regex.compiled_of_compile h
  obtain ⟨hcompiled', hpattern'⟩ := Regex.compiled_of_compile h'
  have hright := (Pattern.validate_eq_ok_iff.mp (Regex.validate_of_compile h)).1
  have hleft := (Pattern.validate_eq_ok_iff.mp (Regex.validate_of_compile h')).1
  have hways : r'.pattern.erase.ways .value = r.pattern.erase.ways .value := by
    rw [hpattern, hpattern', Pattern.erase_locate, Pattern.erase_locate]
    exact (ways_value_join_join hseam hright hleft).symm
  exact ⟨fun w => (hcompiled.agree_value hcompiled' hways w).1,
    fun w => (hcompiled.agree_value hcompiled' hways w).2⟩

/-- **Parentheses show in the tree, and they may show in the shape, but not in results.**  For
chains of the same operands, joined by the same operation:

* no two of them build the same tree;
* if one compiles then the other does, provided that no operand is an alternation without branches;
* if both compile, they have the same captures in the same order, and on every input, matching and
  searching find nothing with either, or find a match with both, with the same whole span and the
  same results.

For three operands, the shapes are equal up to origins if and only if they are joined without a
seam.  Then the captures have the same paths, and the values are equal on every input. -/
theorem parentheses_keep_results (op : Joining) :
    (∀ t t' : Chain, t.operands = t'.operands →
      (t.build op = t'.build op ↔ t = t') ∧
      ∀ r, Regex.compile (t.build op) = .ok r →
        ((∀ p ∈ t.operands, p.HasBranches) → ∃ r', Regex.compile (t'.build op) = .ok r') ∧
        ∀ r', Regex.compile (t'.build op) = .ok r' →
          r'.captures.map (fun c => c.node.erase) = r.captures.map (fun c => c.node.erase) ∧
          Regex.AlwaysAgree Match.SameResults r r') ∧
    ∀ a b c : Pattern,
      ((Shape.infer (op.join a (op.join b c)).locate).outline =
          (Shape.infer (op.join (op.join a b) c).locate).outline ↔ op.Seamless a b c) ∧
      (op.Seamless a b c → ∀ r r', Regex.compile (op.join a (op.join b c)) = .ok r →
        Regex.compile (op.join (op.join a b) c) = .ok r' →
        r'.captures.map CaptureInfo.path = r.captures.map CaptureInfo.path ∧
        Regex.AlwaysAgree (fun m m' => m'.value = m.value) r r') := by
  refine ⟨fun t t' hoperands => ⟨Chain.build_eq_iff hoperands, fun r hr => ⟨?_, ?_⟩⟩,
    fun a b c => ⟨?_, ?_⟩⟩
  · intro hbranches
    have hvalid := Regex.validate_of_compile hr
    exact Regex.exists_compile (Chain.validate_build hoperands hbranches hvalid)
  · intro r' hr'
    have hcaptures : (t'.build op).captures = (t.build op).captures := by
      rw [op.collects_captures.build, op.collects_captures.build, hoperands]
    refine ⟨?_, Chain.alwaysAgree hoperands hr hr'⟩
    rw [Regex.map_node_captures hr, Regex.map_node_captures hr', hcaptures]
  · rw [Shape.outline_infer_locate, Shape.outline_infer_locate]
    exact outline_join_join_iff op a b c
  · intro hseam r r' hr hr'
    exact ⟨paths_join_join hseam hr hr', hseam.alwaysAgree hr hr'⟩

/-- A literal, a capture and a loop around a capture: `a`, `(b)` and `(c)*`. -/
theorem parentheses_keep_results_bareFirst :
    let a := Pattern.exact [0x61]
    let b := (Pattern.exact [0x62]).capture
    let c := (Pattern.exact [0x63]).capture.star
    let w : Bytes := [0x61, 0x62, 0x63, 0x63]
    ∃ (r r' : Regex) (m m' : Match), Regex.compile (a.followedBy (b.followedBy c)) = .ok r ∧
      Regex.compile ((a.followedBy b).followedBy c) = .ok r' ∧
      a.followedBy (b.followedBy c) ≠ (a.followedBy b).followedBy c ∧
      followedBy.Seamless a b c ∧
      (Shape.infer (a.followedBy (b.followedBy c)).locate).outline =
        (Shape.infer ((a.followedBy b).followedBy c).locate).outline ∧
      r.match? w = .ok (some m) ∧ r'.match? w = .ok (some m') ∧ m.SameResults m' ∧
      m'.value = m.value := by
  intro a b c w
  have hseam : followedBy.Seamless a b c := .inr (.inr ⟨rfl, by decide⟩)
  have hvalid : (a.followedBy (b.followedBy c)).validate = .ok () := rfl
  have hbranches : ∀ p ∈ [a, b, c], p.HasBranches := by
    simp only [List.forall_mem_cons]
    exact ⟨nofun, nofun, nofun, nofun⟩
  have hfound : ((a.followedBy (b.followedBy c)).matched? .value w).isSome := by decide
  -- nothing more has to be computed
  clear_value a b c w
  obtain ⟨hchains, hthree⟩ := parentheses_keep_results followedBy
  obtain ⟨htree, hcompiles⟩ := hchains (.joined (.operand a) (.joined (.operand b) (.operand c)))
    (.joined (.joined (.operand a) (.operand b)) (.operand c)) rfl
  obtain ⟨hshape, hseamless⟩ := hthree a b c
  have hne : a.followedBy (b.followedBy c) ≠ (a.followedBy b).followedBy c := mt htree.mp nofun
  obtain ⟨r, hr⟩ := Regex.exists_compile hvalid
  obtain ⟨hother, hsame⟩ := hcompiles r hr
  obtain ⟨r', hr'⟩ := hother hbranches
  obtain ⟨⟨s, v⟩, hfound⟩ := Option.isSome_iff_exists.mp hfound
  obtain ⟨m, hm, -⟩ := Regex.exists_match_of_matched? hr hfound
  obtain ⟨m', hm', hresults⟩ := ((hsame r' hr').2.matching w).exists_of_found hm
  obtain ⟨n', hn', hvalue⟩ := ((hseamless hseam r r' hr hr').2.matching w).exists_of_found hm
  obtain rfl : m' = n' := Option.some.inj (Except.ok.inj (hm'.symm.trans hn'))
  exact ⟨r, r', m, m', hr, hr', hne, hseam, hshape.mpr hseam, hm, hm', hresults, hvalue⟩

/-- **Joining is not associative**, not even in what is made of it.  Of three captures, the last two
are in a slot of their own if the parentheses are around them. -/
theorem parentheses_show :
    let a := (Pattern.exact [0x61]).capture
    let b := (Pattern.exact [0x62]).capture
    let c := (Pattern.exact [0x63]).capture
    let w : Bytes := [0x61, 0x62, 0x63]
    a.followedBy (b.followedBy c) ≠ (a.followedBy b).followedBy c ∧
    (Shape.infer (a.followedBy (b.followedBy c)).locate).text =
      "Product[Leaf, Product[Leaf, Leaf]]" ∧
    (Shape.infer ((a.followedBy b).followedBy c).locate).text = "Product[Leaf, Leaf, Leaf]" ∧
    a.orElse (b.orElse c) ≠ (a.orElse b).orElse c ∧
    (Shape.infer (a.orElse (b.orElse c)).locate).text = "Sum[Leaf, Sum[Leaf, Leaf]]" ∧
    (Shape.infer ((a.orElse b).orElse c).locate).text = "Sum[Leaf, Leaf, Leaf]" ∧
    ∃ (r r' : Regex) (m m' : Match), Regex.compile (a.followedBy (b.followedBy c)) = .ok r ∧
      Regex.compile ((a.followedBy b).followedBy c) = .ok r' ∧
      r.captures.map CaptureInfo.path =
        [some [.member 0], some [.member 1, .member 0], some [.member 1, .member 1]] ∧
      r'.captures.map CaptureInfo.path =
        [some [.member 0], some [.member 1], some [.member 2]] ∧
      r.match? w = .ok (some m) ∧ m.value.text = "(0..1, (1..2, 2..3))" ∧
      r'.match? w = .ok (some m') ∧ m'.value.text = "(0..1, 1..2, 2..3)" := by
  intro a b c w
  have hlength : ∀ {p q : Pattern}, p.children.length ≠ q.children.length → p ≠ q :=
    fun hne heq => hne (congrArg (fun p : Pattern => p.children.length) heq)
  have hvalid : (a.followedBy (b.followedBy c)).validate = .ok () := rfl
  have hvalid' : ((a.followedBy b).followedBy c).validate = .ok () := rfl
  obtain ⟨r, hr⟩ := Regex.exists_compile hvalid
  obtain ⟨r', hr'⟩ := Regex.exists_compile hvalid'
  have htext : ((a.followedBy (b.followedBy c)).matched? .value w).map (·.2.text) =
      some "(0..1, (1..2, 2..3))" := by decide
  have htext' : (((a.followedBy b).followedBy c).matched? .value w).map (·.2.text) =
      some "(0..1, 1..2, 2..3)" := by decide
  obtain ⟨m, hm, hvalue⟩ := Regex.exists_match_of_text hr htext
  obtain ⟨m', hm', hvalue'⟩ := Regex.exists_match_of_text hr' htext'
  refine ⟨hlength (by decide), by decide, by decide, hlength (by decide), by decide, by decide,
    r, r', m, m', hr, hr', ?_, ?_, hm, hvalue, hm', hvalue'⟩
  · rw [Regex.map_path_captures hr]
    rfl
  · rw [Regex.map_path_captures hr']
    rfl

end Joining

end CaptureTree
