import CaptureTree.Proofs.Delimiters
import CaptureTree.Proofs.Shape.Leaves
import CaptureTree.Proofs.Shape.Printing
import CaptureTree.Proofs.Validation

/-!
# The printed form of a shape says all but the origins

The outline of a shape has the kind and the name of every slot, and nothing of the nodes that the
slots stem from (`Shape.outline`).  It is what the printed form is made from
(`Shape.text_eq_outlineText`), and for the shapes of patterns that validation accepts the printed
form gives it back (`Shape.text_infer_eq_iff_outline`).

The first letter of a printed form is that of the kind.  Brackets serve for names as well as for
what is inside a slot, but only leaves have names, and those are identifiers: a name ends at the
first closing bracket (`Shape.Readable`).
-/

namespace CaptureTree

namespace Shape

variable {s s' : Shape} {ss ss' : List Shape} {r r' : List Char}

/-! ## Outlines -/

mutual
/-- **Kind and name of every slot**, without origins. -/
def outline : Shape → Tree SlotTitle
  | empty => .node { kind := .empty, name := none } []
  | leaf o => .node { kind := .leaf, name := o.bind Located.name } []
  | product _ ss => .node { kind := .product, name := none } (outlines ss)
  | sum _ ss => .node { kind := .sum, name := none } (outlines ss)
  | repeated _ s => .node { kind := .repeated, name := none } [outline s]
  | opt _ s => .node { kind := .opt, name := none } [outline s]

/-- The outlines of several shapes. -/
def outlines : List Shape → List (Tree SlotTitle)
  | [] => []
  | s :: ss => outline s :: outlines ss
end

theorem outlines_eq_map (ss : List Shape) : outlines ss = ss.map outline := by
  induction ss with
  | nil => rfl
  | cons s ss ih => rw [outlines, ih, List.map_cons]

theorem outline_eq (s : Shape) :
    s.outline = .node { kind := s.kind, name := s.label } (s.children.map outline) := by
  cases s with
  | product o ss | sum o ss => rw [outline, outlines_eq_map]; rfl
  | _ => rfl

/-- **Outlines are equal** if the shapes agree in kind and name, and the outlines of their children
are equal one by one. -/
theorem outline_eq_iff : s.outline = s'.outline ↔ s.kind = s'.kind ∧ s.label = s'.label ∧
    List.Forall₂ (fun s s' => s.outline = s'.outline) s.children s'.children := by
  rw [outline_eq, outline_eq, Tree.node.injEq, SlotTitle.mk.injEq, and_assoc,
    ← List.forall₂_eq_eq_eq, List.forall₂_map_left_iff, List.forall₂_map_right_iff]

/-- A property of shapes that passes from the children of a shape to the shape. -/
theorem of_children {motive : Shape → Prop}
    (h : ∀ s : Shape, (∀ child ∈ s.children, motive child) → motive s) (s : Shape) : motive s := by
  induction s with
  | empty | leaf => exact h _ fun _ hchild => absurd hchild List.not_mem_nil
  | product o ss ih | sum o ss ih => exact h _ ih
  | repeated o s ih | opt o s ih => exact h _ (List.forall_mem_singleton.mpr ih)

/-! ## Printing an outline -/

/-- The printed form of a slot behind its kind, given the printed forms of its children. -/
def bodyText (t : SlotTitle) (parts : List String) : String :=
  match t.kind with
  | .empty => ""
  | .leaf => t.name.elim "" fun name => "(" ++ name ++ ")"
  | .product | .sum => "[" ++ ", ".intercalate parts ++ "]"
  | .repeated | .opt => "(" ++ parts.headD "" ++ ")"

/-- The printed form of an outline. -/
def outlineText (t : Tree SlotTitle) : String :=
  t.fold fun t parts => t.label.kind.name ++ bodyText t.label parts

theorem text_eq_body (s : Shape) : s.text =
    s.kind.name ++ bodyText { kind := s.kind, name := s.label } (s.children.map text) := by
  cases s with
  | leaf o =>
    show (leaf o).text = SlotKind.leaf.name ++ (o.bind Located.name).elim "" _
    rw [text]
    cases o.bind Located.name <;> rfl
  | product o ss | sum o ss =>
    rw [text, texts_eq_map, String.append_assoc, String.append_assoc]
    rfl
  | repeated o s | opt o s =>
    rw [text, String.append_assoc, String.append_assoc]
    rfl
  | empty => rfl

/-- **The printed form is that of the outline**, whatever the shape. -/
theorem text_eq_outlineText (s : Shape) : s.text = outlineText s.outline := by
  induction s using of_children with
  | h s ih =>
    rw [text_eq_body, outline_eq, outlineText, Tree.fold_eq, Tree.children_node, List.map_map,
      List.map_congr_left ih]
    rfl

/-! ## Reading a printed form -/

/-- The characters of the printed form. -/
def chars (s : Shape) : List Char := s.text.toList

/-- The characters behind the kind. -/
def body (s : Shape) (rest : List Char) : List Char :=
  (bodyText { kind := s.kind, name := s.label } (s.children.map text)).toList ++ rest

theorem chars_append (s : Shape) (r : List Char) :
    s.chars ++ r = s.kind.name.toList ++ s.body r := by
  rw [chars, text_eq_body, String.toList_append, List.append_assoc]
  rfl

theorem body_leaf (o : Option Located) (r : List Char) : (leaf o).body r =
    (o.bind Located.name).elim r fun name => '(' :: (name.toList ++ ')' :: r) := by
  show ((o.bind Located.name).elim "" _).toList ++ r = _
  cases o.bind Located.name with
  | none => rfl
  | some name =>
    exact toList_enclosed "(" name ")" r

/-- The kind that the first letter of a printed form announces. -/
def announced : List Char → SlotKind
  | 'E' :: _ => .empty
  | 'L' :: _ => .leaf
  | 'P' :: _ => .product
  | 'S' :: _ => .sum
  | 'R' :: _ => .repeated
  | _ => .opt

theorem announced_chars (s : Shape) (r : List Char) : announced (s.chars ++ r) = s.kind := by
  rw [chars_append]
  cases s.kind <;> rfl

/-- No printed form ends where it begins. -/
theorem not_atEnd (s : Shape) (r : List Char) : ¬ AtEnd (s.chars ++ r) := by
  rw [chars_append]
  cases s.kind
  all_goals exact not_atEnd_cons (by decide) _

/-- **Printed forms that go on alike** have the same kind, and agree behind it. -/
theorem kind_eq_and_body_eq (heq : s.chars ++ r = s'.chars ++ r') :
    s.kind = s'.kind ∧ s.body r = s'.body r' := by
  have hkind : s.kind = s'.kind := by rw [← announced_chars s r, heq, announced_chars]
  refine ⟨hkind, ?_⟩
  rw [chars_append, chars_append, hkind] at heq
  exact List.append_cancel_left heq

/-! ## Reading back -/

/-- **Do the names of a shape end where their bracket closes?**  No name of a leaf has a closing
bracket in it. -/
def Readable (s : Shape) : Prop :=
  ∀ l ∈ s.leaves, ∀ name ∈ l.label, ∀ c ∈ name.toList, c ≠ ')'

theorem Readable.child (h : s.Readable) {t : Shape} (ht : t ∈ s.children) : t.Readable := by
  intro l hl
  refine h l ?_
  cases s with
  | empty | leaf => cases ht
  | product o ss | sum o ss =>
    rw [leaves, leavesAll_eq]
    exact List.mem_flatMap.mpr ⟨t, ht, hl⟩
  | repeated o s | opt o s =>
    obtain rfl := List.mem_singleton.mp ht
    exact hl

/-- A name is read back up to its closing bracket, and a leaf without one up to the end. -/
theorem leaf_body_inj {o o' : Option Located} (ho : (leaf o).Readable) (ho' : (leaf o').Readable)
    (hr : AtEnd r) (hr' : AtEnd r') (heq : (leaf o).body r = (leaf o').body r') :
    o.bind Located.name = o'.bind Located.name ∧ r = r' := by
  have hbracket : ∀ l : List Char, ¬ AtEnd ('(' :: l) := not_atEnd_cons (by decide)
  have hname := ho (leaf o) List.mem_cons_self
  have hname' := ho' (leaf o') List.mem_cons_self
  rw [body_leaf, body_leaf] at heq
  rw [label] at hname hname'
  cases h : o.bind Located.name with
  | none =>
    cases h' : o'.bind Located.name with
    | none =>
      rw [h, h'] at heq
      exact ⟨rfl, heq⟩
    | some name' =>
      rw [h, h'] at heq
      obtain rfl : r = '(' :: (name'.toList ++ ')' :: r') := heq
      exact absurd hr (hbracket _)
  | some name =>
    cases h' : o'.bind Located.name with
    | none =>
      rw [h, h'] at heq
      obtain rfl : '(' :: (name.toList ++ ')' :: r) = r' := heq
      exact absurd hr' (hbracket _)
    | some name' =>
      rw [h, h'] at heq
      have hchars : name.toList ++ ')' :: r = name'.toList ++ ')' :: r' := (List.cons.inj heq).2
      obtain ⟨hnames, hrest⟩ := append_inj_of_forall (P := (· != ')'))
        (fun c hc => bne_iff_ne.mpr (hname name h c hc))
        (fun c hc => bne_iff_ne.mpr (hname' name' h' c hc))
        (by rintro _ ⟨⟩; rfl) (by rintro _ ⟨⟩; rfl) hchars
      exact ⟨congrArg some (String.toList_inj.mp hnames), (List.cons.inj hrest).2⟩

/-- Slots side by side are read back one after the other. -/
theorem items_body_inj
    (h : ∀ s ∈ ss, ∀ s' ∈ ss', ReadsBack (fun s s' : Shape => s.outline = s'.outline) chars s s')
    (heq : ("[" ++ ", ".intercalate (ss.map text) ++ "]").toList ++ r =
      ("[" ++ ", ".intercalate (ss'.map text) ++ "]").toList ++ r') :
    List.Forall₂ (fun s s' : Shape => s.outline = s'.outline) ss ss' ∧ r = r' := by
  rw [toList_enclosed_items, toList_enclosed_items] at heq
  exact readsBack_items (fun s _ => s.not_atEnd) (fun s _ => s.not_atEnd) h (.inr rfl)
    (List.cons.inj heq).2

/-- What is inside a slot is read back up to the bracket behind it. -/
theorem inner_body_inj (h : ReadsBack (fun s s' : Shape => s.outline = s'.outline) chars s s')
    (heq : ("(" ++ s.text ++ ")").toList ++ r = ("(" ++ s'.text ++ ")").toList ++ r') :
    s.outline = s'.outline ∧ r = r' := by
  rw [toList_enclosed, toList_enclosed] at heq
  obtain ⟨houtline, hrest⟩ := h _ _ (atEnd_closing (.inl rfl) r) (atEnd_closing (.inl rfl) r')
    (List.cons.inj heq).2
  exact ⟨houtline, (List.cons.inj hrest).2⟩

/-- **Outlines are read back from printed forms**, whatever comes behind the end. -/
theorem Readable.readsBack (hs : s.Readable) (hs' : s'.Readable) :
    ReadsBack (fun s s' : Shape => s.outline = s'.outline) chars s s' := by
  intro r r' hr hr' heq
  induction s using of_children generalizing s' r r' with
  | h s ih =>
    -- the kinds agree already, so that only six of the pairs of constructors are left
    obtain ⟨hkind, hbody⟩ := kind_eq_and_body_eq heq
    have hitems : ∀ t ∈ s.children, ∀ t' ∈ s'.children,
        ReadsBack (fun s s' : Shape => s.outline = s'.outline) chars t t' :=
      fun t ht t' ht' => ih t ht (hs.child ht) (hs'.child ht')
    cases s with
    | empty =>
      cases s' with
      | empty => exact ⟨rfl, hbody⟩
      | _ => cases hkind
    | leaf o =>
      cases s' with
      | leaf o' =>
        obtain ⟨hname, hrest⟩ := leaf_body_inj hs hs' hr hr' hbody
        exact ⟨outline_eq_iff.mpr ⟨rfl, hname, .nil⟩, hrest⟩
      | _ => cases hkind
    | product o ss =>
      cases s' with
      | product o' ss' =>
        obtain ⟨hall, hrest⟩ := items_body_inj hitems hbody
        exact ⟨outline_eq_iff.mpr ⟨rfl, rfl, hall⟩, hrest⟩
      | _ => cases hkind
    | sum o ss =>
      cases s' with
      | sum o' ss' =>
        obtain ⟨hall, hrest⟩ := items_body_inj hitems hbody
        exact ⟨outline_eq_iff.mpr ⟨rfl, rfl, hall⟩, hrest⟩
      | _ => cases hkind
    | repeated o s =>
      cases s' with
      | repeated o' s' =>
        obtain ⟨hinner, hrest⟩ :=
          inner_body_inj (hitems _ List.mem_cons_self _ List.mem_cons_self) hbody
        exact ⟨outline_eq_iff.mpr ⟨rfl, rfl, .cons hinner .nil⟩, hrest⟩
      | _ => cases hkind
    | opt o s =>
      cases s' with
      | opt o' s' =>
        obtain ⟨hinner, hrest⟩ :=
          inner_body_inj (hitems _ List.mem_cons_self _ List.mem_cons_self) hbody
        exact ⟨outline_eq_iff.mpr ⟨rfl, rfl, .cons hinner .nil⟩, hrest⟩
      | _ => cases hkind

/-! ## Shapes of patterns -/

/-- There is no closing bracket in an identifier. -/
theorem ne_bracket_of_isIdentifier {name : String} (h : IsIdentifier name) :
    ∀ c ∈ name.toList, c ≠ ')' := by
  have hletter : ¬ IsLetter ')' := by
    rw [IsLetter]
    decide
  have hdigit : ¬ IsDigit ')' := by
    rw [IsDigit]
    decide
  obtain ⟨first, rest, hname, hfirst, hrest⟩ := h
  rw [hname]
  rintro c hc rfl
  rcases List.mem_cons.mp hc with rfl | hc
  · exact hletter hfirst
  · rcases hrest _ hc with h | h
    · exact hletter h
    · exact hdigit h

/-- **Validation makes names readable**, since it asks for identifiers. -/
theorem readable_infer {p : Pattern} (hvalid : p.validate = .ok ()) :
    (infer p.locate).Readable := by
  intro l hl name hname
  rw [(Pattern.wellFormed_locate hvalid).leaves_infer p.distinct_locate] at hl
  obtain ⟨c, hc, rfl⟩ := List.mem_map.mp hl
  obtain ⟨hmem, hcapture⟩ := List.mem_filter.mp (Located.mem_visible.mp hc).1
  have hsound := (Pattern.validate_eq_ok_iff_sound.mp hvalid).nodes c.erase
    (p.erase_locate ▸ Located.erase_mem_subtrees hmem)
  refine ne_bracket_of_isIdentifier (hsound.name name ⟨?_, ?_⟩)
  · rw [Located.kind_erase]
    exact beq_iff_eq.mp hcapture
  · rw [Located.name_erase]
    exact hname

/-- **The shapes of two patterns print the same exactly if they are equal up to origins**: in kind
and name, and in their children one by one. -/
theorem text_infer_eq_iff_outline {p q : Pattern} (hp : p.validate = .ok ())
    (hq : q.validate = .ok ()) :
    (infer p.locate).text = (infer q.locate).text ↔
      (infer p.locate).outline = (infer q.locate).outline := by
  constructor
  · intro h
    exact ((readable_infer hp).readsBack (readable_infer hq) [] [] atEnd_nil atEnd_nil
      (congrArg (fun s => s.toList ++ []) h)).1
  · intro h
    rw [text_eq_outlineText, text_eq_outlineText, h]

/-- A capture and a loop around a named capture, `(a)(?<x>b)*`. -/
def thenNamed : Pattern :=
  .concat [(Pattern.exact [0x61]).capture, ((Pattern.exact [0x62]).capture (some "x")).star]

/-- The same captures at other places, `0(a)(?<x>b)*`. -/
def laterNamed : Pattern :=
  .concat [.exact [0x30], (Pattern.exact [0x61]).capture,
    ((Pattern.exact [0x62]).capture (some "x")).star]

theorem text_infer_eq_iff_outline_thenNamed :
    thenNamed.validate = .ok () ∧ laterNamed.validate = .ok () ∧
    (infer thenNamed.locate).text = "Product[Leaf, Repeated(Leaf(x))]" ∧
    (infer thenNamed.locate).same (infer laterNamed.locate) = false ∧
    ((infer thenNamed.locate).text = (infer laterNamed.locate).text ↔
      (infer thenNamed.locate).outline = (infer laterNamed.locate).outline) :=
  ⟨rfl, rfl, by decide, by decide, text_infer_eq_iff_outline rfl rfl⟩

end Shape

end CaptureTree
