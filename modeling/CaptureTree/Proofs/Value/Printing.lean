import CaptureTree.Proofs.Conservation
import CaptureTree.Proofs.Decoding
import CaptureTree.Proofs.Delimiters
import CaptureTree.Proofs.Shape.NormalForm

/-!
# The printed form of a value

The printed form of a value shows no kinds, and one bracket serves several of them: `()` is an
empty slot, and `(nil, nil)` a product.  Still no two values that are read from traces print the
same (`Value.text_eq_iff_same`).  This rests on what assembling can make (`Value.Built`): a node
holds what its kind needs and nothing else, and a product is never without members, as the shape
of a pattern is in normal form.

* The first two characters announce the form of a value (`Value.Built.announced_chars`), and that
  tells apart what has different forms.
* Values of one form are read back part by part (`Value.Built.readsBack`).  The induction is over
  the first value, with the rest of the text kept general: a number is read up to the dot, the
  colon or the end behind it, and a list up to its bracket.
-/

namespace CaptureTree

namespace Value

variable {s : Shape} {v w : Value} {vs ws : List Value} {t : Trace}

/-! ## What assembling can make -/

/-- **Is the value one that assembling can make?**  Every node holds what its kind needs and
nothing else, and there are two members in a product at least. -/
inductive Built : Value → Prop
  | empty : Built empty
  | nil : Built (leaf none)
  | span (s : Span) : Built (leaf (some s))
  | product {vs : List Value} (several : 2 ≤ vs.length) (members : ∀ v ∈ vs, Built v) :
      Built (product vs)
  | sum (i : Nat) {v : Value} (inside : Built v) : Built (sum i v)
  | repeated {vs : List Value} (items : ∀ v ∈ vs, Built v) : Built (repeated vs)
  | none : Built (opt none)
  | some {v : Value} (inside : Built v) : Built (opt (some v))

end Value

namespace Shape

variable {o : Located} {s : Shape} {ss : List Shape}

/-- Does assembling along the shape make such values only? -/
def Builds (s : Shape) : Prop :=
  ∀ t v, Value.assemble s t = .ok v → v.Built

theorem builds_empty : Builds empty := by
  intro t v h
  obtain rfl : Value.empty = v := Except.ok.inj h
  exact .empty

theorem builds_leaf (c : Option Located) : (leaf c).Builds := by
  intro t v h
  obtain ⟨-, rfl⟩ := Value.assembleLeaf_eq_ok.mp h
  cases ((c.map fun c => t.spans c.id).getD []).head? with
  | none => exact .nil
  | some s => exact .span s

theorem builds_product (several : 2 ≤ ss.length) (h : ∀ s ∈ ss, Builds s) :
    (product o ss).Builds := by
  intro t v hv
  obtain ⟨vs, hall, rfl⟩ := Value.assemble_product_eq_ok.mp hv
  refine .product (hall.length_eq ▸ several) fun w hw => ?_
  obtain ⟨s, hs, hread⟩ := exists_mem_of_forall₂ hall hw
  exact h s hs t w hread

theorem builds_sum (h : ∀ s ∈ ss, Builds s) : (sum o ss).Builds := by
  intro t v hv
  obtain ⟨i, -, s, hs, w, hw, rfl⟩ := Value.assemble_sum_eq_ok.mp hv
  exact .sum i (h s (List.mem_of_getElem? hs) t w hw)

theorem builds_repeated (h : s.Builds) : (repeated o s).Builds := by
  intro t v hv
  obtain ⟨fs, -, vs, hall, rfl⟩ := Value.assemble_repeated_eq_ok.mp hv
  refine .repeated fun w hw => ?_
  obtain ⟨f, -, hread⟩ := exists_mem_of_forall₂ hall hw
  exact h f w hread

theorem builds_opt (h : s.Builds) : (opt o s).Builds := by
  intro t v hv
  obtain ⟨fs, -, hone, vs, hall, rfl⟩ := Value.assemble_opt_eq_ok.mp hv
  rw [hall.length_eq] at hone
  cases vs with
  | nil => exact .none
  | cons w vs =>
    obtain rfl := List.eq_nil_of_length_eq_zero (Nat.le_zero.mp (Nat.le_of_succ_le_succ hone))
    obtain ⟨f, -, hread⟩ := exists_mem_of_forall₂ hall List.mem_cons_self
    exact .some (h f w hread)

/-- **Shapes in normal form have products of two members at least.** -/
theorem Normal.builds (h : s.Normal) : s.Builds := by
  induction h with
  | leaf c => exact builds_leaf c
  | product _ hseveral _ ih => exact builds_product hseveral ih
  | sum _ _ _ _ ih =>
    refine builds_sum fun s hs => ?_
    by_cases hempty : s = empty
    · rw [hempty]
      exact builds_empty
    · exact ih s hs hempty
  | repeated _ _ _ ih => exact builds_repeated ih
  | opt _ _ _ ih => exact builds_opt ih

/-- Flat shapes have no products. -/
theorem builds_flat (qs : List Located) (c : Located) : (flat qs c).Builds := by
  induction qs with
  | nil => exact builds_leaf (some c)
  | cons q qs ih =>
    show (loop q (flat qs c)).Builds
    rw [loop]
    split
    · exact builds_opt ih
    · exact builds_repeated ih

end Shape

theorem Located.WellFormed.builds_infer {p : Located} (h : p.WellFormed) :
    (Shape.infer p).Builds := by
  by_cases hempty : Shape.infer p = .empty
  · rw [hempty]
    exact Shape.builds_empty
  · exact (h.normal_infer hempty).builds

/-- **Is the shape one along which traces are read for the pattern?**  It is the shape of one of
the nodes, or the flat shape of one of the captures. -/
inductive Pattern.Offers (p : Pattern) : Shape → Prop
  | node {n : Located} (node : n ∈ p.locate.subtrees) : Offers p (.infer n)
  | flat {c : CaptureInfo} (capture : c ∈ CaptureInfo.table p.locate (.infer p.locate)) :
      Offers p c.flat

theorem Pattern.Offers.builds {p : Pattern} (hvalid : p.validate = .ok ()) {s : Shape}
    (h : p.Offers s) : s.Builds := by
  cases h with
  | node hn => exact ((wellFormed_locate hvalid).of_mem_subtrees hn).builds_infer
  | flat hc =>
    obtain ⟨qs, -, hflat, -⟩ := CaptureInfo.exists_holds hc
    rw [hflat]
    exact Shape.builds_flat qs _

namespace Value

variable {v w : Value} {vs ws : List Value} {r r' : List Char}

/-! ## Texts, one form after the other -/

/-- The characters of the printed form. -/
def chars (v : Value) : List Char := v.text.toList

theorem chars_empty (r : List Char) : empty.chars ++ r = '(' :: ')' :: r := rfl

theorem chars_nil (r : List Char) : (leaf none).chars ++ r = 'n' :: 'i' :: 'l' :: r := rfl

theorem chars_span (s : Span) (r : List Char) : (leaf (some s)).chars ++ r =
    Nat.toDigits 10 s.start ++ '.' :: '.' :: (Nat.toDigits 10 s.stop ++ r) := by
  show (toString s.start ++ ".." ++ toString s.stop).toList ++ r = _
  rw [toList_enclosed, toList_toString, toList_toString]
  rfl

theorem chars_product (vs : List Value) (r : List Char) :
    (product vs).chars ++ r = '(' :: itemsText chars vs (')' :: r) := by
  rw [chars, text_eq]
  exact toList_enclosed_items "(" ")" text vs r

theorem chars_sum (i : Nat) (v : Value) (r : List Char) :
    (sum i v).chars ++ r = '#' :: (Nat.toDigits 10 i ++ ':' :: (v.chars ++ r)) := by
  rw [chars, text_eq]
  show ("#" ++ toString i ++ ":" ++ v.text).toList ++ r = _
  rw [String.toList_append, List.append_assoc, toList_enclosed, toList_toString]
  rfl

theorem chars_repeated (vs : List Value) (r : List Char) :
    (repeated vs).chars ++ r = '[' :: itemsText chars vs (']' :: r) := by
  rw [chars, text_eq]
  exact toList_enclosed_items "[" "]" text vs r

theorem chars_none (r : List Char) : (opt none).chars ++ r = 'n' :: 'o' :: 'n' :: 'e' :: r := rfl

theorem chars_some (v : Value) (r : List Char) :
    (opt (some v)).chars ++ r = 's' :: 'o' :: 'm' :: 'e' :: '(' :: (v.chars ++ ')' :: r) := by
  rw [chars, text_eq]
  exact toList_enclosed "some(" v.text ")" r

/-- No value has a text that ends where it begins. -/
theorem Built.not_atEnd (h : v.Built) (r : List Char) : ¬ AtEnd (v.chars ++ r) := by
  cases h with
  | empty => rw [chars_empty]; exact not_atEnd_cons (by decide) _
  | nil => rw [chars_nil]; exact not_atEnd_cons (by decide) _
  | span s =>
    obtain ⟨d, ds, hdigits, hd⟩ := exists_digits_cons s.start
    rw [chars_span, hdigits]
    exact not_atEnd_of_isDigit hd _
  | product => rw [chars_product]; exact not_atEnd_cons (by decide) _
  | sum => rw [chars_sum]; exact not_atEnd_cons (by decide) _
  | repeated => rw [chars_repeated]; exact not_atEnd_cons (by decide) _
  | none => rw [chars_none]; exact not_atEnd_cons (by decide) _
  | some => rw [chars_some]; exact not_atEnd_cons (by decide) _

/-! ## How a text begins -/

/-- The forms of values: their kinds, leaves with and without a span apart, and slots that hold a
value and those that do not. -/
inductive Form where
  | empty
  | nil
  | span
  | product
  | sum
  | repeated
  | none
  | some

/-- The form of a value. -/
def form (v : Value) : Form :=
  match v.kind with
  | .empty => .empty
  | .leaf => if v.span.isSome then .span else .nil
  | .product => .product
  | .sum => .sum
  | .repeated => .repeated
  | .opt => if v.present then .some else .none

/-- The form that the first two characters of a text announce. -/
def Form.announced : List Char → Form
  | '(' :: ')' :: _ => .empty
  | '(' :: _ => .product
  | '#' :: _ => .sum
  | '[' :: _ => .repeated
  | 's' :: _ => .some
  | 'n' :: 'i' :: _ => .nil
  | 'n' :: _ => .none
  | _ => .span

theorem Form.announced_of_isDigit {c : Char} (h : c.isDigit = true) (r : List Char) :
    announced (c :: r) = .span := by
  unfold announced
  split
  case h_8 => rfl
  all_goals
    rename_i heq
    rw [(List.cons.inj heq).1] at h
    cases h

/-- A product is told from an empty slot by its first member. -/
theorem Form.announced_bracket (h : ¬ AtEnd r) : announced ('(' :: r) = .product := by
  unfold announced
  split
  case h_1 heq =>
    rw [(List.cons.inj heq).2] at h
    exact absurd (atEnd_closing (.inl rfl) _) h
  case h_2 => rfl
  case h_8 _ hbracket _ _ _ _ _ => exact absurd rfl (hbracket r)
  all_goals
    rename_i heq
    cases (List.cons.inj heq).1

/-- **The first two characters announce the form.** -/
theorem Built.announced_chars (h : v.Built) (r : List Char) :
    Form.announced (v.chars ++ r) = v.form := by
  cases h with
  | empty => rw [chars_empty]; rfl
  | nil => rw [chars_nil]; rfl
  | span s =>
    obtain ⟨d, ds, hdigits, hd⟩ := exists_digits_cons s.start
    rw [chars_span, hdigits]
    exact Form.announced_of_isDigit hd _
  | @product vs hseveral hmembers =>
    rw [chars_product]
    cases vs with
    | nil => cases hseveral
    | cons v vs => exact Form.announced_bracket ((hmembers v List.mem_cons_self).not_atEnd _)
  | sum => rw [chars_sum]; rfl
  | repeated => rw [chars_repeated]; rfl
  | none => rw [chars_none]; rfl
  | some => rw [chars_some]; rfl

theorem Built.form_eq (hv : v.Built) (hw : w.Built) (heq : v.chars ++ r = w.chars ++ r') :
    v.form = w.form := by
  rw [← hv.announced_chars r, heq, hw.announced_chars r']

/-! ## Reading back -/

/-- A span is read back up to the end behind it. -/
theorem span_chars_inj {s s' : Span} (hr : AtEnd r) (hr' : AtEnd r')
    (heq : (leaf (some s)).chars ++ r = (leaf (some s')).chars ++ r') : s = s' ∧ r = r' := by
  rw [chars_span, chars_span] at heq
  obtain ⟨hstart, hdots⟩ := digits_append_inj (noDigit_cons rfl _) (noDigit_cons rfl _) heq
  obtain ⟨hstop, hrest⟩ := digits_append_inj hr.noDigit hr'.noDigit
    (List.cons.inj (List.cons.inj hdots).2).2
  refine ⟨?_, hrest⟩
  cases s
  cases s'
  exact congrArg₂ Span.mk hstart hstop

/-- Values in brackets are read back if each of them is. -/
theorem items_chars_inj (hvs : ∀ v ∈ vs, Built v) (hws : ∀ w ∈ ws, Built w)
    (h : ∀ v ∈ vs, ∀ {w}, Built w → ReadsBack Eq chars v w) {c : Char} (hc : IsClosing c)
    (heq : itemsText chars vs (c :: r) = itemsText chars ws (c :: r')) : vs = ws ∧ r = r' := by
  obtain ⟨hall, hrest⟩ := readsBack_items (fun v hv => (hvs v hv).not_atEnd)
    (fun w hw => (hws w hw).not_atEnd) (fun v hv w hw => h v hv (hws w hw)) hc heq
  rw [List.forall₂_eq_eq_eq] at hall
  exact ⟨hall, hrest⟩

/-- **Values are read back from their texts**, whatever comes behind the end. -/
theorem Built.readsBack (hv : v.Built) (hw : w.Built) : ReadsBack Eq chars v w := by
  intro r r' hr hr' heq
  -- on the first value; the second has the same form, or the texts would begin differently
  have hform := hv.form_eq hw heq
  induction hv generalizing w r r' with
  | empty =>
    cases hw with
    | empty => exact ⟨rfl, List.append_cancel_left heq⟩
    | _ => cases hform
  | nil =>
    cases hw with
    | nil => exact ⟨rfl, List.append_cancel_left heq⟩
    | _ => cases hform
  | span s =>
    cases hw with
    | span s' =>
      obtain ⟨rfl, hrest⟩ := span_chars_inj hr hr' heq
      exact ⟨rfl, hrest⟩
    | _ => cases hform
  | product _ hmembers ih =>
    cases hw with
    | product _ hmembers' =>
      rw [chars_product, chars_product] at heq
      obtain ⟨rfl, hrest⟩ := items_chars_inj hmembers hmembers'
        (fun v hv w hw r r' hr hr' heq => ih v hv hw _ _ hr hr' heq
          ((hmembers v hv).form_eq hw heq)) (.inl rfl) (List.cons.inj heq).2
      exact ⟨rfl, hrest⟩
    | _ => cases hform
  | sum i hinside ih =>
    cases hw with
    | sum i' hinside' =>
      rw [chars_sum, chars_sum] at heq
      obtain ⟨rfl, hcolon⟩ := digits_append_inj (noDigit_cons rfl _) (noDigit_cons rfl _)
        (List.cons.inj heq).2
      have htexts := (List.cons.inj hcolon).2
      obtain ⟨rfl, hrest⟩ := ih hinside' _ _ hr hr' htexts (hinside.form_eq hinside' htexts)
      exact ⟨rfl, hrest⟩
    | _ => cases hform
  | repeated hitems ih =>
    cases hw with
    | repeated hitems' =>
      rw [chars_repeated, chars_repeated] at heq
      obtain ⟨rfl, hrest⟩ := items_chars_inj hitems hitems'
        (fun v hv w hw r r' hr hr' heq => ih v hv hw _ _ hr hr' heq
          ((hitems v hv).form_eq hw heq)) (.inr rfl) (List.cons.inj heq).2
      exact ⟨rfl, hrest⟩
    | _ => cases hform
  | none =>
    cases hw with
    | none => exact ⟨rfl, List.append_cancel_left heq⟩
    | _ => cases hform
  | some hinside ih =>
    cases hw with
    | some hinside' =>
      rw [chars_some, chars_some] at heq
      have htexts := (List.append_cancel_left_eq ['s', 'o', 'm', 'e', '('] _ _).mp heq
      obtain ⟨rfl, hrest⟩ := ih hinside' _ _ (atEnd_closing (.inl rfl) r)
        (atEnd_closing (.inl rfl) r') htexts (hinside.form_eq hinside' htexts)
      exact ⟨rfl, (List.cons.inj hrest).2⟩
    | _ => cases hform

/-! ## Values that are read from traces -/

/-- **Is the value read from a trace?**  It is what assembling returns along a shape that the
pattern offers, whatever the trace, or one of the results of a match. -/
inductive Read : Value → Prop
  | assembled {p : Pattern} (valid : p.validate = .ok ()) {s : Shape} (offers : p.Offers s)
      {t : Trace} {v : Value} (assembled : assemble s t = .ok v) : Read v
  | result {p : Pattern} {x : Regex} (compiled : Regex.compile p = .ok x) {whole : Span}
      {t : Trace} {b : Bytes} {m : Match} (evaluated : x.evaluate whole t b = .ok m) {v : Value}
      (result : v ∈ m.value :: m.flat) : Read v

/-- The results of a match are built along the shape of the pattern and the flat shapes of its
captures, apart from the first, which is the span of the match. -/
theorem built_of_result {p : Pattern} {x : Regex} (h : Regex.compile p = .ok x) {whole : Span}
    {t : Trace} {b : Bytes} {m : Match} (hm : x.evaluate whole t b = .ok m)
    (hv : v ∈ m.value :: m.flat) : v.Built := by
  obtain ⟨hx, -⟩ := Regex.compiled_of_compile h
  obtain ⟨-, -, value, hvalue, flat, hflat, rfl⟩ := Regex.evaluate_eq_ok.mp hm
  obtain ⟨rs, hall, rfl⟩ := Regex.flatten_eq_ok.mp hflat
  rcases List.mem_cons.mp hv with rfl | hv
  · exact hx.wellFormed.builds_infer t _ (hx.shape ▸ hvalue)
  rcases List.mem_cons.mp hv with rfl | hv
  · exact .span whole
  · obtain ⟨c, hc, hresult⟩ := exists_mem_of_forall₂ hall hv
    obtain ⟨qs, -, hshape, -⟩ := hx.exists_route hc
    have hassemble := hx.assemble_flat_of_result hvalue hc hresult
    rw [hshape] at hassemble
    exact Shape.builds_flat qs _ t v hassemble

/-- **Every value that is read from a trace is well built.** -/
theorem Read.built (h : v.Read) : v.Built := by
  cases h with
  | assembled hvalid hoffers hassembled => exact hoffers.builds hvalid _ _ hassembled
  | result hcompiled hevaluated hresult => exact built_of_result hcompiled hevaluated hresult

/-! ## Texts and values -/

theorem same_self (v : Value) : same v v = true := by
  induction v using Tree.induction with
  | node a vs ih =>
    refine same_iff.mpr ⟨rfl, fun _ => rfl, fun _ => rfl, fun _ => rfl, ?_⟩
    exact List.forall₂_same.mpr ih

/-- Equal values print alike, also values that are put together by hand. -/
theorem text_eq_of_same (h : same v w = true) : v.text = w.text := by
  induction v using Tree.induction generalizing w with
  | node a vs ih =>
    obtain ⟨b, ws⟩ := w
    obtain ⟨hkind, hspan, hselected, hpresent, hchildren⟩ := same_iff.mp h
    have hparts : vs.map text = ws.map text := by
      rw [← List.forall₂_eq_eq_eq, List.forall₂_map_left_iff, List.forall₂_map_right_iff]
      exact List.forall₂_iff_zip.mpr ⟨hchildren.length_eq, fun {v w} hpair =>
        ih v (List.of_mem_zip hpair).1 (List.forall₂_zip hchildren hpair)⟩
    rw [text_eq, text_eq]
    show nodeText (.node a vs) (vs.map text) = nodeText (.node b ws) (ws.map text)
    rw [hparts]
    unfold nodeText
    rw [← hkind]
    split
    case h_1 => rfl
    case h_2 hk => rw [hspan hk]
    case h_3 => rfl
    case h_4 hk => rw [hselected hk]
    case h_5 => rfl
    case h_6 hk => rw [hpresent hk]

/-- **Values that are read from traces print the same exactly if they are equal.**  Equality of
values is that of their trees here, since a value that is read has nothing in the fields that its
kind does not use. -/
theorem text_eq_iff_same (hv : v.Read) (hw : w.Read) :
    (v.text = w.text ↔ same v w = true) ∧ (same v w = true ↔ v = w) := by
  have hinj : v.text = w.text → v = w := fun h =>
    (hv.built.readsBack hw.built [] [] atEnd_nil atEnd_nil
      (congrArg (fun s => s.toList ++ []) h)).1
  refine ⟨⟨fun h => hinj h ▸ same_self v, text_eq_of_same⟩,
    fun h => hinj (text_eq_of_same h), fun h => h ▸ same_self v⟩

/-- A loop around a loop, `(?:(a)+)*`. -/
def loopInLoop : Pattern := ((Pattern.exact [0x61]).capture.plus).star

/-- Two items in one iteration. -/
def inOneRound : Trace := [.iteration 0 [.span 2 ⟨0, 1⟩, .span 2 ⟨1, 10⟩]]

/-- The same items, one in each of two iterations. -/
def inTwoRounds : Trace := [.iteration 0 [.span 2 ⟨0, 1⟩], .iteration 0 [.span 2 ⟨1, 10⟩]]

theorem text_eq_iff_same_loopInLoop : ∃ v w,
    assemble (.infer loopInLoop.locate) inOneRound = .ok v ∧
    assemble (.infer loopInLoop.locate) inTwoRounds = .ok w ∧
    v.text = "[[0..1, 1..10]]" ∧ w.text = "[[0..1], [1..10]]" ∧
    (v.text = w.text ↔ same v w = true) ∧ (same v w = true ↔ v = w) := by
  have hvalid : loopInLoop.validate = .ok () := rfl
  have hshape : loopInLoop.Offers (.infer loopInLoop.locate) := .node (Tree.mem_subtrees_self _)
  have hv : assemble (.infer loopInLoop.locate) inOneRound =
      .ok (repeated [repeated [leaf (some ⟨0, 1⟩), leaf (some ⟨1, 10⟩)]]) := rfl
  have hw : assemble (.infer loopInLoop.locate) inTwoRounds =
      .ok (repeated [repeated [leaf (some ⟨0, 1⟩)], repeated [leaf (some ⟨1, 10⟩)]]) := rfl
  exact ⟨_, _, hv, hw, by decide, by decide,
    text_eq_iff_same (.assembled hvalid hshape hv) (.assembled hvalid hshape hw)⟩

end Value

end CaptureTree
