import CaptureTree.Proofs.Matching.Language
import Mathlib.Data.List.Sort

/-!
# What a class text stands for

A class text is read into items from the left, in one way only (`ClassItem.reads_iff`).  The loop
that marks bytes in a table marks those that the items cover (`ByteClass.expand_eq`).  So the class
is the union of its items, listed in ascending order, and it is refused exactly if one of its
ranges runs backwards, for the first of these (`ByteClass.expand_eq_ok_iff`,
`ByteClass.expand_eq_error_iff`).  The message quotes the range, and no two ranges are quoted alike
(`PatternError.quoted_inj`), although a message ends at the first zero byte.

Matching accepts the bytes of the union for the class, and all others for its negation
(`Pattern.AcceptsOne`).
-/

namespace CaptureTree

/-! ## Items -/

/-- One item of a class text. -/
inductive ClassItem where
  | single (byte : UInt8)
  | range (low high : UInt8)
  deriving DecidableEq, Repr

namespace ClassItem

/-- The items of a class text, read from the left. -/
def read : Bytes → List ClassItem
  | [] => []
  | low :: 0x2d :: high :: rest => range low high :: read rest
  | byte :: rest => single byte :: read rest

/-- Is the byte one of those that the item stands for? -/
def covers (c : UInt8) : ClassItem → Bool
  | single byte => c == byte
  | range low high => low ≤ c && c ≤ high

/-- The complaint about an item, if it is a range that runs backwards. -/
def defect : ClassItem → Option PatternError
  | single _ => none
  | range low high => if high < low then some (.reversedRange low high) else none

end ClassItem

/-! ## The loop -/

namespace SeenBytes

variable {seen : SeenBytes} {n : Nat} {c low high : UInt8}

theorem has_eq_getElem (h : c.toNat < 256) : seen.has c = seen[c.toNat] := rfl

theorem has_none (c : UInt8) : none.has c = false := by
  rw [has_eq_getElem c.toNat_lt, none, Vector.getElem_replicate]

theorem has_mark : (seen.mark n).has c = (n == c.toNat || seen.has c) := by
  rw [has_eq_getElem c.toNat_lt, mark, Vector.getElem_setIfInBounds, has_eq_getElem c.toNat_lt]
  by_cases h : n = c.toNat
  · rw [if_pos h, beq_iff_eq.mpr h, Bool.true_or]
  · rw [if_neg h, beq_eq_false_iff_ne.mpr h, Bool.false_or]

theorem has_foldl_mark (ns : List Nat) :
    has (ns.foldl mark seen) c = (ns.contains c.toNat || seen.has c) := by
  induction ns generalizing seen with
  | nil => rfl
  | cons n ns ih =>
    rw [List.foldl_cons, ih, has_mark, List.contains_cons, BEq.comm (a := c.toNat),
      Bool.or_left_comm, Bool.or_assoc]

/-- Marks the bytes that an item stands for. -/
def markItem (seen : SeenBytes) : ClassItem → SeenBytes
  | .single byte => seen.mark byte.toNat
  | .range low high => seen.markRange low high

theorem has_markItem (i : ClassItem) : (seen.markItem i).has c = (i.covers c || seen.has c) := by
  cases i with
  | single byte =>
    rw [markItem, has_mark, ClassItem.covers, Bool.beq_comm, Bool.eq_iff_iff]
    simp only [Bool.or_eq_true, beq_iff_eq, UInt8.toNat_inj]
  | range low high =>
    rw [markItem, markRange, has_foldl_mark]
    congr 1
    rw [Bool.eq_iff_iff, List.contains_iff_mem, List.mem_range'_1, ClassItem.covers,
      Bool.and_eq_true, decide_eq_true_iff, decide_eq_true_iff, UInt8.le_iff_toNat_le,
      UInt8.le_iff_toNat_le]
    omega

theorem has_markItems (items : List ClassItem) :
    has (items.foldl markItem seen) c = (items.any (·.covers c) || seen.has c) := by
  induction items generalizing seen with
  | nil => rfl
  | cons i items ih =>
    rw [List.foldl_cons, ih, has_markItem, List.any_cons, Bool.or_left_comm, Bool.or_assoc]

end SeenBytes

namespace ByteClass

/-- **The loop marks the items one after the other**, up to the first with a defect. -/
theorem scan_eq (seen : SeenBytes) (s : Bytes) : scan seen s =
    ((ClassItem.read s).findSome? ClassItem.defect).elim
      (.ok ((ClassItem.read s).foldl SeenBytes.markItem seen)) .error := by
  fun_induction scan seen s with
  | case1 => rfl
  | case2 seen low high rest hlt =>
    rw [ClassItem.read, List.findSome?_cons, ClassItem.defect, if_pos hlt]
    rfl
  | case3 seen low high rest hle ih =>
    rw [ih, ClassItem.read, List.findSome?_cons, ClassItem.defect, if_neg hle]
    rfl
  | case4 seen byte rest halone ih =>
    rw [ih, ClassItem.read, List.findSome?_cons]
    · rfl
    · exact halone

/-- **A class is what its items cover**, unless one of them has a defect. -/
theorem expand_eq (s : Bytes) : expand s =
    ((ClassItem.read s).findSome? ClassItem.defect).elim
      (.ok (Bytes.all.filter fun c => (ClassItem.read s).any (·.covers c))) .error := by
  rw [expand, scan_eq]
  cases (ClassItem.read s).findSome? ClassItem.defect with
  | some e => rfl
  | none =>
    refine congrArg Except.ok (List.filter_congr fun c _ => ?_)
    rw [SeenBytes.has_markItems, SeenBytes.has_none, Bool.or_false]

end ByteClass

namespace ClassItem

variable {s : Bytes} {items l : List ClassItem} {i : ClassItem} {c low high : UInt8}
  {e : PatternError}

/-! ## Reading a class text -/

/-- **The items of a class text**, read from the left: a range where a dash and at least one more
byte follow, and a single byte otherwise. -/
inductive Reads : Bytes → List ClassItem → Prop
  | done : Reads [] []
  | range {low high : UInt8} {rest : Bytes} {items : List ClassItem} (later : Reads rest items) :
      Reads (low :: 0x2d :: high :: rest) (range low high :: items)
  | single {byte : UInt8} {rest : Bytes} {items : List ClassItem}
      (alone : ¬ (2 ≤ rest.length ∧ rest.head? = some 0x2d)) (later : Reads rest items) :
      Reads (byte :: rest) (single byte :: items)

theorem read_single {byte : UInt8} {rest : Bytes}
    (alone : ¬ (2 ≤ rest.length ∧ rest.head? = some 0x2d)) :
    read (byte :: rest) = single byte :: read rest := by
  rw [read]
  rintro high after rfl
  exact alone ⟨Nat.le_add_left 2 _, rfl⟩

/-- **There is one way to read a class text.** -/
theorem reads_iff : Reads s items ↔ items = read s := by
  constructor
  · intro h
    induction h with
    | done => rfl
    | range _ ih => rw [read, ih]
    | single halone _ ih => rw [read_single halone, ih]
  · rintro rfl
    fun_induction read s with
    | case1 => exact .done
    | case2 low high rest ih => exact .range ih
    | case3 byte rest halone ih =>
      refine .single ?_ ih
      rintro ⟨hlong, hdash⟩
      obtain ⟨high, after, hrest⟩ : ∃ high after, rest = 0x2d :: high :: after := by
        cases rest with
        | nil => cases hdash
        | cons d rest =>
          obtain rfl : d = 0x2d := Option.some.inj hdash
          cases rest with
          | nil => exact absurd hlong (by decide)
          | cons high after => exact ⟨high, after, rfl⟩
      exact halone high after hrest

/-! ## Ranges that run backwards -/

/-- Is the item a range that runs backwards? -/
def Reversed (i : ClassItem) : Prop :=
  ∃ low high, i = range low high ∧ high < low

/-- **Is this the first range that runs backwards?** -/
def FirstReversed (items : List ClassItem) (low high : UInt8) : Prop :=
  high < low ∧ ∃ before after, items = before ++ range low high :: after ∧
    ∀ i ∈ before, ¬ i.Reversed

theorem defect_eq_some_iff : i.defect = some e ↔
    ∃ low high, i = range low high ∧ high < low ∧ e = .reversedRange low high := by
  cases i with
  | single b => simp [defect]
  | range low high => simp [defect, eq_comm]

theorem defect_eq_none_iff : i.defect = none ↔ ¬ i.Reversed := by
  cases i with
  | single b => simp [defect, Reversed]
  | range low high => simp [defect, Reversed]

theorem findSome?_defect_eq_some_iff : items.findSome? defect = some e ↔
    ∃ low high, FirstReversed items low high ∧ e = .reversedRange low high := by
  simp only [List.findSome?_eq_some_iff, defect_eq_some_iff, defect_eq_none_iff]
  constructor
  · rintro ⟨before, i, after, rfl, ⟨low, high, rfl, hlt, rfl⟩, hbefore⟩
    exact ⟨low, high, ⟨hlt, before, after, rfl, hbefore⟩, rfl⟩
  · rintro ⟨low, high, ⟨hlt, before, after, rfl, hbefore⟩, rfl⟩
    exact ⟨before, _, after, rfl, ⟨low, high, rfl, hlt, rfl⟩, hbefore⟩

theorem findSome?_defect_eq_none_iff :
    items.findSome? defect = none ↔ ∀ i ∈ items, ¬ i.Reversed := by
  simp only [List.findSome?_eq_none_iff, defect_eq_none_iff]

/-! ## The bytes of a class -/

/-- **Is the byte in the union of the items?** -/
def InUnion (items : List ClassItem) (c : UInt8) : Prop :=
  single c ∈ items ∨ ∃ low high, range low high ∈ items ∧ low ≤ c ∧ c ≤ high

theorem any_covers_iff : (items.any (·.covers c)) = true ↔ InUnion items c := by
  rw [List.any_eq_true, InUnion]
  constructor
  · rintro ⟨i, hi, hcovers⟩
    cases i with
    | single b =>
      obtain rfl : c = b := beq_iff_eq.mp hcovers
      exact .inl hi
    | range low high =>
      obtain ⟨hlow, hhigh⟩ := Bool.and_eq_true_iff.mp hcovers
      exact .inr ⟨low, high, hi, of_decide_eq_true hlow, of_decide_eq_true hhigh⟩
  · rintro (hsingle | ⟨low, high, hrange, hlow, hhigh⟩)
    · exact ⟨_, hsingle, beq_self_eq_true c⟩
    · exact ⟨_, hrange, Bool.and_eq_true_iff.mpr ⟨decide_eq_true hlow, decide_eq_true hhigh⟩⟩

end ClassItem

namespace Bytes

theorem mem_all (c : UInt8) : c ∈ all :=
  List.mem_map.mpr ⟨c.toNat, List.mem_range.mpr c.toNat_lt, UInt8.ofNat_toNat⟩

theorem pairwise_all : all.Pairwise (· < ·) := by
  rw [all, List.pairwise_map]
  refine List.Pairwise.imp_of_mem (fun {a b} ha hb hlt => ?_) List.pairwise_lt_range
  exact (UInt8.ofNat_lt_iff_lt (List.mem_range.mp ha) (List.mem_range.mp hb)).mpr hlt

end Bytes

namespace ByteClass

open ClassItem

variable {s set : Bytes} {items : List ClassItem} {e : PatternError}

/-- **A class text is refused** for the first of its ranges that runs backwards. -/
theorem expand_eq_error_iff (h : Reads s items) : expand s = .error e ↔
    ∃ low high, FirstReversed items low high ∧ e = .reversedRange low high := by
  obtain rfl := reads_iff.mp h
  rw [← findSome?_defect_eq_some_iff, expand_eq]
  cases (read s).findSome? defect <;> simp

/-- **A class is the union of its items**, in ascending order. -/
theorem expand_eq_ok_iff (h : Reads s items) : expand s = .ok set ↔
    (∀ i ∈ items, ¬ i.Reversed) ∧ set.Pairwise (· < ·) ∧ ∀ c, c ∈ set ↔ InUnion items c := by
  obtain rfl := reads_iff.mp h
  have hmem : ∀ c, c ∈ Bytes.all.filter (fun c => (read s).any (·.covers c)) ↔
      InUnion (read s) c := by
    intro c
    rw [List.mem_filter, any_covers_iff, and_iff_right (Bytes.mem_all c)]
  have hsorted := Bytes.pairwise_all.filter fun c => (read s).any (·.covers c)
  rw [← findSome?_defect_eq_none_iff, expand_eq]
  cases hdefect : (read s).findSome? defect with
  | some e => exact iff_of_false (fun h => by cases h) fun h => by cases h.1
  | none =>
    constructor
    · intro hset
      obtain rfl := Except.ok.inj hset
      exact ⟨rfl, hsorted, hmem⟩
    · rintro ⟨-, hset, hunion⟩
      exact congrArg Except.ok (hsorted.eq_of_mem_iff hset fun c => (hmem c).trans (hunion c).symm)

/-- A class text without ranges that run backwards is expanded. -/
theorem exists_expand (h : Reads s items) (hforward : ∀ i ∈ items, ¬ i.Reversed) :
    ∃ set, expand s = .ok set := by
  cases hexpand : expand s with
  | ok set => exact ⟨set, rfl⟩
  | error e =>
    obtain ⟨low, high, ⟨hlt, before, after, rfl, -⟩, -⟩ := (expand_eq_error_iff h).mp hexpand
    exact absurd ⟨low, high, rfl, hlt⟩ (hforward _ List.mem_append_cons_self)

end ByteClass

/-! ## The message -/

/-- Text without a zero character comes before whatever ends the message. -/
theorem terminated_append {a b : String} (h : '\x00' ∉ a.toList) :
    terminated (a ++ b) = a ++ terminated b := by
  have ha : ∀ c ∈ a.toList, (c != '\x00') = true :=
    fun c hc => bne_iff_ne.mpr fun hzero => h (hzero ▸ hc)
  rw [terminated, String.toList_append, List.takeWhile_append_of_pos ha, String.ofList_append,
    String.ofList_toList]
  rfl

namespace Bytes

theorem toNat_char (c : UInt8) : (Char.ofNat c.toNat).toNat = c.toNat := by
  have hvalid : c.toNat.isValidChar := .inl (Nat.lt_trans c.toNat_lt (by decide))
  rw [Char.ofNat, dif_pos hvalid]
  rfl

/-- Different bytes are shown as different characters. -/
theorem char_inj {c d : UInt8} (h : Char.ofNat c.toNat = Char.ofNat d.toNat) : c = d := by
  have hnat := congrArg Char.toNat h
  rw [toNat_char, toNat_char] at hnat
  exact UInt8.toNat_inj.mp hnat

theorem char_eq_zero_iff {c : UInt8} : Char.ofNat c.toNat = '\x00' ↔ c = 0 :=
  ⟨fun h => char_inj (show _ = Char.ofNat (0 : UInt8).toNat from h), fun h => h ▸ rfl⟩

end Bytes

namespace PatternError

variable {low high low' high' : UInt8}

/-- What a message quotes of a range that runs backwards, up to the first zero byte. -/
def quoted (low high : UInt8) : String :=
  terminated (Bytes.text [low, 0x2d, high] ++ "' is reversed")

theorem message_reversedRange (low high : UInt8) : (reversedRange low high).message =
    "pattern error: class range '" ++ quoted low high := by
  have hmerge : "pattern error: " ++ "class range '" = "pattern error: class range '" := by
    decide +kernel
  have hfront : '\x00' ∉ "pattern error: class range '".toList := by decide +kernel
  have hassoc : ∀ a b c d : String, a ++ (b ++ c ++ d) = (a ++ b) ++ (c ++ d) := by
    intro a b c d
    rw [String.append_assoc, String.append_assoc]
  calc (reversedRange low high).message
      = terminated ("pattern error: " ++
          ("class range '" ++ Bytes.text [low, 0x2d, high] ++ "' is reversed")) := rfl
    _ = terminated ("pattern error: class range '" ++
          (Bytes.text [low, 0x2d, high] ++ "' is reversed")) := by rw [hassoc, hmerge]
    _ = "pattern error: class range '" ++ quoted low high := terminated_append hfront

theorem toList_quoted (h : low ≠ 0) : (quoted low high).toList =
    Char.ofNat low.toNat :: '-' ::
      (Char.ofNat high.toNat :: "' is reversed".toList).takeWhile (· != '\x00') := by
  have hlow : (Char.ofNat low.toNat != '\x00') = true :=
    bne_iff_ne.mpr fun hzero => h (Bytes.char_eq_zero_iff.mp hzero)
  have htext : (Bytes.text [low, 0x2d, high] ++ "' is reversed").toList =
      Char.ofNat low.toNat :: '-' :: Char.ofNat high.toNat :: "' is reversed".toList := by
    rw [String.toList_append, Bytes.text, String.toList_ofList]
    rfl
  rw [quoted, terminated, String.toList_ofList, htext, List.takeWhile_cons, if_pos hlow,
    List.takeWhile_cons, if_pos (show ('-' != '\x00') = true by decide)]

/-- **A quotation names its range**: the first byte of a range that runs backwards is not zero,
and the last byte is zero if nothing stands behind the dash. -/
theorem quoted_inj (h : high < low) (h' : high' < low')
    (heq : quoted low high = quoted low' high') : low = low' ∧ high = high' := by
  have hnonzero : ∀ {a b : UInt8}, b < a → a ≠ 0 := by
    rintro a b hlt rfl
    exact Nat.not_lt_zero _ (UInt8.lt_iff_toNat_lt.mp hlt)
  have hchars := congrArg String.toList heq
  rw [toList_quoted (hnonzero h), toList_quoted (hnonzero h')] at hchars
  obtain ⟨hlow, hrest⟩ := List.cons.inj hchars
  have hhigh := congrArg List.head? (List.cons.inj hrest).2
  rw [List.head?_takeWhile, List.head?_takeWhile, List.head?_cons, List.head?_cons,
    Option.filter_some, Option.filter_some] at hhigh
  refine ⟨Bytes.char_inj hlow, Bytes.char_inj ?_⟩
  split at hhigh
  · split at hhigh
    · exact Option.some.inj hhigh
    · cases hhigh
  · rename_i hzero
    split at hhigh
    · cases hhigh
    · rename_i hzero'
      rw [bne_iff_ne, not_not] at hzero hzero'
      rw [hzero, hzero']

end PatternError

/-! ## Matching -/

namespace Pattern

variable {P : UInt8 → Prop}

/-- **Does the pattern match one byte**, of those for which `P` holds, and nothing else?  This is
said of whole inputs, and of attempts at any place of an input. -/
structure AcceptsOne (p : Pattern) (P : UInt8 → Prop) : Prop where
  whole : ∀ w found, p.locate.match? w = some found ↔ ∃ c, P c ∧ w = [c] ∧ found = (⟨0, 1⟩, [])
  attempt : ∀ place d, (∃ o ∈ p.locate.outcomes place, o.cursor = d) ↔
    ∃ c rest, P c ∧ place.rest = c :: rest ∧ d = place.advance 1

end Pattern

theorem Cursor.match?_class {l : Literal} (h : l.isClass = true) {place d : Cursor} :
    place.match? l = some d ↔
      ∃ c rest, l.accepts c = true ∧ place.rest = c :: rest ∧ d = place.advance 1 := by
  rw [match?, if_pos h]
  cases place.rest with
  | nil => simp
  | cons c rest =>
    show (if l.accepts c = true then some (place.advance 1) else none) = some d ↔ _
    rw [Option.ite_none_right_eq_some]
    constructor
    · rintro ⟨hc, hd⟩
      exact ⟨c, rest, hc, rfl, (Option.some.inj hd).symm⟩
    · rintro ⟨_, _, hc, hrest, rfl⟩
      rw [← (List.cons.inj hrest).1] at hc
      exact ⟨hc, rfl⟩

/-- A class matches one of the bytes that it accepts. -/
theorem Pattern.acceptsOne_class {P : UInt8 → Prop} {l : Literal} (hclass : l.isClass = true)
    (h : ∀ c, l.accepts c = true ↔ P c) :
    AcceptsOne (.node { kind := .literal, literal := l } []) P := by
  have houtcomes : ∀ place : Cursor,
      (locate (.node { kind := .literal, literal := l } [])).outcomes place =
        (place.match? l).toList.map .here := Located.outcomes_literal rfl
  constructor
  · intro w found
    have hmatch : ∀ d, (Cursor.ofInput w).match? l = some d ↔
        ∃ c rest, P c ∧ w = c :: rest ∧ d = (Cursor.ofInput w).advance 1 := by
      intro d
      simp only [Cursor.match?_class hclass, h]
      rfl
    rw [Located.match?_eq_find?, houtcomes]
    cases hm : (Cursor.ofInput w).match? l with
    | none =>
      refine iff_of_false (fun hfound => by cases hfound) ?_
      rintro ⟨c, hc, hw, -⟩
      rw [(hmatch _).mpr ⟨c, [], hc, hw, rfl⟩] at hm
      cases hm
    | some d =>
      obtain ⟨c, rest, hc, rfl, rfl⟩ := (hmatch d).mp hm
      cases rest with
      | nil =>
        constructor
        · intro hfound
          exact ⟨c, hc, rfl, (Option.some.inj hfound).symm⟩
        · rintro ⟨_, -, -, rfl⟩
          rfl
      | cons b rest =>
        refine iff_of_false (fun hfound => by cases hfound) ?_
        rintro ⟨_, -, hw, -⟩
        cases (List.cons.inj hw).2
  · intro place d
    rw [houtcomes]
    simp only [List.mem_map, Option.mem_toList, exists_exists_and_eq_and,
      ← h, ← Cursor.match?_class hclass]
    exact exists_eq_right

namespace Pattern

variable {P : UInt8 → Prop} {s set : Bytes}

/-- The class matches the bytes that it is expanded to. -/
theorem exists_oneOf (h : ByteClass.expand s = .ok set) (hmem : ∀ c, c ∈ set ↔ P c) :
    ∃ p, oneOf s = .ok p ∧ p.AcceptsOne P := by
  let l : Literal := { text := set, isClass := true }
  have haccepts : ∀ c, l.accepts c = true ↔ P c := by
    intro c
    show (set.contains c != false) = true ↔ P c
    rw [Bool.bne_false, List.contains_iff_mem, hmem]
  refine ⟨.node { kind := .literal, literal := l } [], ?_, acceptsOne_class rfl haccepts⟩
  rw [oneOf, h]
  rfl

/-- Its negation matches the others. -/
theorem exists_noneOf (h : ByteClass.expand s = .ok set) (hmem : ∀ c, c ∈ set ↔ P c) :
    ∃ p, noneOf s = .ok p ∧ p.AcceptsOne fun c => ¬ P c := by
  let l : Literal := { text := set, isClass := true, negated := true }
  have haccepts : ∀ c, l.accepts c = true ↔ ¬ P c := by
    intro c
    show (set.contains c != true) = true ↔ ¬ P c
    rw [Bool.bne_true, Bool.not_eq_true', ← Bool.not_eq_true, List.contains_iff_mem, hmem]
  refine ⟨.node { kind := .literal, literal := l } [], ?_, acceptsOne_class rfl haccepts⟩
  rw [noneOf, h]
  rfl

end Pattern

namespace ByteClass

open ClassItem

/-- **A class text stands for the union of its items.**  There is one way to read it from the left,
and then:

* it is refused exactly if a range runs backwards, for the first such range, and the message names
  this range and no other;
* otherwise it is expanded to the bytes of the union, each once and in ascending order;
* the class then matches the bytes of the union, and its negation all other bytes. -/
theorem expand_eq_union (s : Bytes) : ∃ items, (∀ l, Reads s l ↔ l = items) ∧
    (∀ e, expand s = .error e ↔ ∃ low high, FirstReversed items low high ∧
      e = .reversedRange low high) ∧
    (∀ low high, FirstReversed items low high →
      Pattern.oneOf s = .error (.reversedRange low high) ∧
      Pattern.noneOf s = .error (.reversedRange low high) ∧
      (PatternError.reversedRange low high).message = "pattern error: class range '" ++
        terminated (Bytes.text [low, 0x2d, high] ++ "' is reversed") ∧
      ∀ low' high', high' < low' → (PatternError.reversedRange low' high').message =
        (PatternError.reversedRange low high).message → low' = low ∧ high' = high) ∧
    (∀ set, expand s = .ok set ↔ (∀ i ∈ items, ¬ i.Reversed) ∧ set.Pairwise (· < ·) ∧
      ∀ c, c ∈ set ↔ InUnion items c) ∧
    ((∀ i ∈ items, ¬ i.Reversed) → ∃ set p q, expand s = .ok set ∧ Pattern.oneOf s = .ok p ∧
      Pattern.noneOf s = .ok q ∧ p.AcceptsOne (InUnion items) ∧
      q.AcceptsOne fun c => ¬ InUnion items c) := by
  have hreads : Reads s (read s) := reads_iff.mpr rfl
  refine ⟨read s, fun l => reads_iff, fun e => expand_eq_error_iff hreads, ?_,
    fun set => expand_eq_ok_iff hreads, ?_⟩
  · intro low high hfirst
    have hexpand := (expand_eq_error_iff hreads).mpr ⟨low, high, hfirst, rfl⟩
    refine ⟨?_, ?_, PatternError.message_reversedRange low high, ?_⟩
    · rw [Pattern.oneOf, hexpand]
      rfl
    · rw [Pattern.noneOf, hexpand]
      rfl
    · intro low' high' hlt heq
      rw [PatternError.message_reversedRange, PatternError.message_reversedRange] at heq
      exact PatternError.quoted_inj hlt hfirst.1 ((String.append_right_inj _).mp heq)
  · intro hforward
    obtain ⟨set, hset⟩ := exists_expand hreads hforward
    have hmem := ((expand_eq_ok_iff hreads).mp hset).2.2
    obtain ⟨p, hp, haccepts⟩ := Pattern.exists_oneOf hset hmem
    obtain ⟨q, hq, hrejects⟩ := Pattern.exists_noneOf hset hmem
    exact ⟨set, p, q, hset, hp, hq, haccepts, hrejects⟩

/-- A dash is an ordinary byte behind a range, and at the end: `c`, `a-b` and `-`. -/
example : expand [0x63, 0x61, 0x2d, 0x62, 0x2d] = .ok [0x2d, 0x61, 0x62, 0x63] := by
  rw [expand_eq]
  decide +kernel

end ByteClass

end CaptureTree
