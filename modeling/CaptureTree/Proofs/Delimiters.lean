import Mathlib.Data.List.Forall2

/-!
# Texts that can be read back

A printed form is read back from the left, and the reader has to know where a part ends.  It
does, because a part is followed by nothing, by a comma or by a closing bracket
(`AtEnd`), and no part begins with one of these.

`ReadsBack R write a b` says that the texts of `a` and `b` can not be told apart by what stands
in front of an end unless `R a b` holds.  A number, or a name, is read up to the first character
that does not belong to it (`append_inj_of_forall`, `digits_append_inj`), and
`readsBack_items` passes the property on from the items of a list to the list.
-/

namespace CaptureTree

/-! ## Reading a word -/

/-- **A word is read up to the first character that does not belong to it.** -/
theorem append_inj_of_forall {P : Char → Bool} {u v r r' : List Char} (hu : ∀ c ∈ u, P c = true)
    (hv : ∀ c ∈ v, P c = true) (hr : ∀ c ∈ r.head?, P c = false)
    (hr' : ∀ c ∈ r'.head?, P c = false) (h : u ++ r = v ++ r') : u = v ∧ r = r' := by
  have hstop : ∀ {l : List Char}, (∀ c ∈ l.head?, P c = false) → l.takeWhile P = [] := by
    intro l hl
    cases l with
    | nil => rfl
    | cons c cs => rw [List.takeWhile_cons, hl c rfl, if_neg Bool.false_ne_true]
  have hword : u = v := by
    have htake := congrArg (List.takeWhile P) h
    rwa [List.takeWhile_append_of_pos hu, List.takeWhile_append_of_pos hv, hstop hr, hstop hr',
      List.append_nil, List.append_nil] at htake
  rw [hword, List.append_cancel_left_eq] at h
  exact ⟨hword, h⟩

theorem toList_toString (n : Nat) : (toString n).toList = Nat.toDigits 10 n := by
  rw [Nat.toString_eq_ofList_toDigits, String.toList_ofList]

theorem isDigit_of_mem_digits {n : Nat} {c : Char} (h : c ∈ Nat.toDigits 10 n) :
    c.isDigit = true :=
  Nat.isDigit_of_mem_toDigits (by decide) (by decide) h

/-- A number begins with a digit. -/
theorem exists_digits_cons (n : Nat) :
    ∃ d ds, Nat.toDigits 10 n = d :: ds ∧ d.isDigit = true := by
  obtain ⟨d, ds, hdigits⟩ :=
    List.exists_cons_of_ne_nil (Nat.toDigits_ne_nil : Nat.toDigits 10 n ≠ [])
  exact ⟨d, ds, hdigits, isDigit_of_mem_digits (hdigits ▸ List.mem_cons_self)⟩

/-- Does no number go on here? -/
def NoDigit (rest : List Char) : Prop := ∀ c ∈ rest.head?, c.isDigit = false

theorem noDigit_cons {c : Char} (h : c.isDigit = false) (rest : List Char) :
    NoDigit (c :: rest) := by
  rintro _ ⟨⟩
  exact h

/-- **A number is read up to the first character that is no digit.** -/
theorem digits_append_inj {m n : Nat} {r r' : List Char} (hr : NoDigit r) (hr' : NoDigit r')
    (h : Nat.toDigits 10 m ++ r = Nat.toDigits 10 n ++ r') : m = n ∧ r = r' := by
  obtain ⟨hdigits, hrest⟩ := append_inj_of_forall (fun _ => isDigit_of_mem_digits)
    (fun _ => isDigit_of_mem_digits) hr hr' h
  have hvalue := congrArg (fun ds => Nat.ofDigitChars 10 ds 0) hdigits
  simp only [Nat.ofDigitChars_toDigits (by decide : 1 < 10) (by decide)] at hvalue
  exact ⟨hvalue, hrest⟩

/-! ## Reading a part -/

/-- Is the character a closing bracket? -/
def IsClosing (c : Char) : Prop := c = ')' ∨ c = ']'

/-- Is this the end of a part, with nothing, a comma or a closing bracket behind it? -/
def AtEnd (rest : List Char) : Prop := ∀ c ∈ rest.head?, c = ',' ∨ IsClosing c

theorem atEnd_nil : AtEnd [] := fun _ hc => by cases hc

theorem atEnd_comma (rest : List Char) : AtEnd (',' :: rest) := by
  rintro _ ⟨⟩
  exact .inl rfl

theorem atEnd_closing {c : Char} (h : IsClosing c) (rest : List Char) : AtEnd (c :: rest) := by
  rintro _ ⟨⟩
  exact .inr h

/-- No number goes on at the end of a part. -/
theorem AtEnd.noDigit {rest : List Char} (h : AtEnd rest) : NoDigit rest := by
  intro c hc
  rcases h c hc with rfl | rfl | rfl
  · rfl
  · rfl
  · rfl

/-- No number begins at the end of a part. -/
theorem not_atEnd_of_isDigit {c : Char} (h : c.isDigit = true) (rest : List Char) :
    ¬ AtEnd (c :: rest) := by
  intro hend
  have hno := hend.noDigit c rfl
  rw [h] at hno
  cases hno

/-- No other character stands at the end of a part. -/
theorem not_atEnd_cons {c : Char} (h : c ∉ [',', ')', ']']) (rest : List Char) :
    ¬ AtEnd (c :: rest) := by
  intro hend
  rcases hend c rfl with rfl | rfl | rfl
  · exact h (by decide)
  · exact h (by decide)
  · exact h (by decide)

variable {α : Type} {R : α → α → Prop} {write : α → List Char}

/-- **Do the texts of two parts agree only if the parts do?**  This is meant for texts that go
on, as long as the parts end where the rest begins. -/
def ReadsBack (R : α → α → Prop) (write : α → List Char) (a b : α) : Prop :=
  ∀ r r', AtEnd r → AtEnd r' → write a ++ r = write b ++ r' → R a b ∧ r = r'

/-- The texts of further parts of a list, each with a separator before it, and then `rest`. -/
def furtherText (write : α → List Char) : List α → List Char → List Char
  | [], rest => rest
  | a :: as, rest => ',' :: ' ' :: (write a ++ furtherText write as rest)

/-- The texts of the parts of a list with separators between them, and then `rest`. -/
def itemsText (write : α → List Char) : List α → List Char → List Char
  | [], rest => rest
  | a :: as, rest => write a ++ furtherText write as rest

theorem intercalate_append (as : List α) (rest : List Char) :
    [',', ' '].intercalate (as.map write) ++ rest = itemsText write as rest := by
  have hcons : ∀ (as : List α) (a : α), [',', ' '].intercalate (write a :: as.map write) ++ rest =
      write a ++ furtherText write as rest := by
    intro as
    induction as with
    | nil => exact fun a => congrArg (· ++ rest) List.intercalate_singleton
    | cons b as ih =>
      intro a
      rw [List.map_cons, List.intercalate_cons_cons, List.append_assoc, List.append_assoc, ih b]
      rfl
  cases as with
  | nil => rfl
  | cons a as => exact hcons as a

theorem toList_enclosed (a s b : String) (rest : List Char) :
    (a ++ s ++ b).toList ++ rest = a.toList ++ (s.toList ++ (b.toList ++ rest)) := by
  rw [String.toList_append, String.toList_append, List.append_assoc, List.append_assoc]

/-- A list in brackets, and then `rest`. -/
theorem toList_enclosed_items (a b : String) (text : α → String) (as : List α)
    (rest : List Char) : (a ++ ", ".intercalate (as.map text) ++ b).toList ++ rest =
      a.toList ++ itemsText (fun x => (text x).toList) as (b.toList ++ rest) := by
  rw [toList_enclosed, String.toList_intercalate, List.map_map]
  exact congrArg (a.toList ++ ·) (intercalate_append as (b.toList ++ rest))

theorem atEnd_furtherText {rest : List Char} (h : AtEnd rest) (as : List α) :
    AtEnd (furtherText write as rest) := by
  cases as with
  | nil => exact h
  | cons a as => exact atEnd_comma _

/-- Further parts are read back one after the other, up to the closing bracket. -/
theorem readsBack_further {as bs : List α} (h : ∀ a ∈ as, ∀ b ∈ bs, ReadsBack R write a b)
    {c : Char} (hc : IsClosing c) {r r' : List Char}
    (heq : furtherText write as (c :: r) = furtherText write bs (c :: r')) :
    List.Forall₂ R as bs ∧ r = r' := by
  have hcomma : c ≠ ',' := by
    rcases hc with rfl | rfl
    · decide
    · decide
  induction as generalizing bs with
  | nil =>
    cases bs with
    | nil => exact ⟨.nil, (List.cons.inj heq).2⟩
    | cons b bs => exact absurd (List.cons.inj heq).1 hcomma
  | cons a as ih =>
    cases bs with
    | nil => exact absurd (List.cons.inj heq).1.symm hcomma
    | cons b bs =>
      have htexts := (List.cons.inj (List.cons.inj heq).2).2
      obtain ⟨hR, hrest⟩ := h a List.mem_cons_self b List.mem_cons_self _ _
        (atEnd_furtherText (atEnd_closing hc r) as) (atEnd_furtherText (atEnd_closing hc r') bs)
        htexts
      obtain ⟨hRs, hend⟩ := ih (fun x hx y hy => h x (List.mem_cons_of_mem a hx) y
        (List.mem_cons_of_mem b hy)) hrest
      exact ⟨.cons hR hRs, hend⟩

/-- **A list is read back part by part**, up to its closing bracket. -/
theorem readsBack_items {as bs : List α} (has : ∀ a ∈ as, ∀ r, ¬ AtEnd (write a ++ r))
    (hbs : ∀ b ∈ bs, ∀ r, ¬ AtEnd (write b ++ r)) (h : ∀ a ∈ as, ∀ b ∈ bs, ReadsBack R write a b)
    {c : Char} (hc : IsClosing c) {r r' : List Char}
    (heq : itemsText write as (c :: r) = itemsText write bs (c :: r')) :
    List.Forall₂ R as bs ∧ r = r' := by
  cases as with
  | nil =>
    cases bs with
    | nil => exact ⟨.nil, (List.cons.inj heq).2⟩
    | cons b bs =>
      have hend : AtEnd (itemsText write (b :: bs) (c :: r')) := heq ▸ atEnd_closing hc r
      exact absurd hend (hbs b List.mem_cons_self _)
  | cons a as =>
    cases bs with
    | nil =>
      have hend : AtEnd (itemsText write (a :: as) (c :: r)) := heq ▸ atEnd_closing hc r'
      exact absurd hend (has a List.mem_cons_self _)
    | cons b bs =>
      obtain ⟨hR, hrest⟩ := h a List.mem_cons_self b List.mem_cons_self _ _
        (atEnd_furtherText (atEnd_closing hc r) as) (atEnd_furtherText (atEnd_closing hc r') bs) heq
      obtain ⟨hRs, hend⟩ := readsBack_further (fun x hx y hy => h x (List.mem_cons_of_mem a hx) y
        (List.mem_cons_of_mem b hy)) hc hrest
      exact ⟨.cons hR hRs, hend⟩

end CaptureTree
