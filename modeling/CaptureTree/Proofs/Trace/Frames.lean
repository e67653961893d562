import CaptureTree.Proofs.Trace.Placement
import CaptureTree.Proofs.Value.Alike
import CaptureTree.Trace.Change

/-!
# Replacing one frame of a trace

Two traces that differ in one frame only are told apart by what a reader sees in that
frame.  `Trace.Differ` says that they do, and at which address.

* If the two frames are both or neither in order in their scope, so are the traces
  (`Differ.placed_iff`).
* If the two frames look alike in their scope, and the first trace is in order, the
  traces look alike (`Differ.alike`).

The scope of a frame is the body of the quantifier whose iteration it is
(`Located.scope?`).  The check of a trace gets there from the root and looks every
quantifier up in the scope of the frame around it (`Located.reach`); if it gets through,
it has found the same scope (`Distinct.scope_of_reach`).
-/

namespace CaptureTree

/-! ## Scopes -/

namespace Located

variable {p s : Located} {address : FrameAddress}

/-- **The part of the pattern that the frame at an address belongs to**: the body of the
quantifier whose iteration it is, and the whole pattern for the root frame. -/
def scope? (p : Located) (address : FrameAddress) : Option Located :=
  match address.getLast? with
  | none => some p
  | some (n, _) => (p.find n).bind body

/-- The scope to which the iterations on the way lead, from one scope to the next. -/
def reach (scope : Option Located) : FrameAddress → Option Located
  | [] => scope
  | (n, _) :: address => reach ((scope.bind fun p => p.find n).bind body) address

theorem reach_none (address : FrameAddress) : reach none address = none := by
  induction address with
  | nil => rfl
  | cons entry address ih => exact ih

theorem reach_append (scope : Option Located) (address address' : FrameAddress) :
    reach scope (address ++ address') = reach (reach scope address) address' := by
  induction address generalizing scope with
  | nil => rfl
  | cons entry address ih => exact ih _

/-- One step leads from a pattern to a part of it. -/
theorem mem_subtrees_of_step {n : NodeId} (h : (p.find n).bind body = some s) :
    s ∈ p.subtrees := by
  obtain ⟨a, hfind, hbody⟩ := Option.bind_eq_some_iff.mp h
  have hchild : s ∈ a.children := List.mem_of_head? hbody
  exact Tree.mem_subtrees_trans (mem_subtrees_of_mem_children hchild) (mem_subtrees_of_find hfind).1

theorem mem_subtrees_of_scope (h : p.scope? address = some s) : s ∈ p.subtrees := by
  rw [scope?] at h
  split at h
  · obtain rfl : p = s := Option.some.inj h
    exact Tree.mem_subtrees_self p
  · exact mem_subtrees_of_step h

theorem mem_subtrees_of_reach (h : reach (some p) address = some s) : s ∈ p.subtrees := by
  induction address generalizing p with
  | nil =>
    obtain rfl : p = s := Option.some.inj h
    exact Tree.mem_subtrees_self p
  | cons entry address ih =>
    rw [reach, Option.bind_some] at h
    cases hstep : (p.find entry.1).bind body with
    | none =>
      rw [hstep, reach_none] at h
      cases h
    | some b =>
      rw [hstep] at h
      exact Tree.mem_subtrees_trans (ih h) (mem_subtrees_of_step hstep)

/-- **Whoever gets to a frame from the root finds its scope.** -/
theorem Distinct.scope_of_reach (hd : p.Distinct) (h : reach (some p) address = some s) :
    p.scope? address = some s := by
  rcases List.eq_nil_or_concat address with rfl | ⟨front, ⟨n, i⟩, rfl⟩
  · exact h
  · rw [List.concat_eq_append] at h ⊢
    rw [scope?, List.getLast?_concat]
    rw [reach_append] at h
    obtain ⟨a, hfind, hbody⟩ := Option.bind_eq_some_iff.mp h
    obtain ⟨around, haround, hfind⟩ := Option.bind_eq_some_iff.mp hfind
    show (p.find n).bind body = some s
    rw [hd.find_mono (mem_subtrees_of_reach haround) hfind]
    exact hbody

end Located

/-! ## Traces that differ in one frame -/

namespace Trace

open Located

variable {p a b : Located} {t u f g : Trace} {address : FrameAddress} {n : NodeId}

/-- **Do two traces differ in the frame at this address only**, the first having the one
frame there and the second the other? -/
inductive Differ (f g : Trace) : FrameAddress → Trace → Trace → Prop
  | here : Differ f g [] f g
  | inside {n : NodeId} {i : Nat} {address : FrameAddress} {front back t u : Trace}
      (frame : Differ f g address t u) :
      Differ f g ((n, i) :: address) (front ++ .iteration n t :: back)
        (front ++ .iteration n u :: back)

/-- The record of an iteration stands somewhere in the frame, and can be changed there. -/
theorem exists_mapIteration {i : Nat} (hf : (t.iterations n)[i]? = some f) :
    ∃ front back, t = front ++ .iteration n f :: back ∧ ∀ change g, change f = .ok g →
      mapIteration n change i t = .ok (front ++ .iteration n g :: back) := by
  induction t generalizing i with
  | nil => cases hf
  | cons r t ih =>
    -- a record that is no iteration of the quantifier is passed
    have hpass : ∀ r, r.frameOf? n = none →
        (∀ change i t, mapIteration n change i (r :: t) =
          (r :: ·) <$> mapIteration n change i t) → (iterations (r :: t) n)[i]? = some f →
        ∃ front back, r :: t = front ++ .iteration n f :: back ∧ ∀ change g, change f = .ok g →
          mapIteration n change i (r :: t) = .ok (front ++ .iteration n g :: back) := by
      intro r hnone hstep hf
      rw [iterations, List.filterMap_cons_none hnone] at hf
      obtain ⟨front, back, rfl, hchange⟩ := ih hf
      refine ⟨r :: front, back, rfl, fun change g hg => ?_⟩
      rw [hstep, hchange change g hg]
      rfl
    cases r with
    | span m s => exact hpass _ rfl (fun _ _ _ => rfl) hf
    | choice m j => exact hpass _ rfl (fun _ _ _ => rfl) hf
    | iteration m h =>
      by_cases hm : m = n
      · subst hm
        rw [iterations, List.filterMap_cons_some (by rw [Record.frameOf?, if_pos rfl])] at hf
        cases i with
        | zero =>
          obtain rfl : h = f := Option.some.inj hf
          refine ⟨[], t, rfl, fun change g hg => ?_⟩
          rw [mapIteration, if_pos rfl, hg]
          rfl
        | succ i =>
          obtain ⟨front, back, rfl, hchange⟩ := ih hf
          refine ⟨.iteration m h :: front, back, rfl, fun change g hg => ?_⟩
          rw [mapIteration, if_pos rfl, hchange change g hg]
          rfl
      · refine hpass _ (by rw [Record.frameOf?, if_neg hm]) (fun change i t => ?_) hf
        show (if m = n then _ else _) = _
        rw [if_neg hm]
        rfl

/-- **A frame of a trace can be replaced**, and nothing else changes. -/
theorem exists_mapFrame (change : Trace → Except ChangeError Trace)
    (hf : t.frame? address = some f) (hg : change f = .ok g) :
    ∃ u, mapFrame change address t = .ok u ∧ Differ f g address t u := by
  induction address generalizing t with
  | nil =>
    obtain rfl : t = f := Option.some.inj hf
    exact ⟨g, hg, .here⟩
  | cons entry address ih =>
    obtain ⟨h, hh, hf⟩ := Option.bind_eq_some_iff.mp hf
    obtain ⟨h', hh', hdiffer⟩ := ih hf
    obtain ⟨front, back, rfl, hchange⟩ := exists_mapIteration hh
    exact ⟨_, hchange _ h' hh', .inside hdiffer⟩

/-! ## Placement -/

theorem placed_iteration_iff {size : Nat} {scope : Option Located} :
    Record.Placed size scope (.iteration n f) ↔
      ∃ a, (scope.bind fun p => p.find n) = some a ∧ a.kind = .quantifier ∧
        Placed size a.body f := by
  constructor
  · rintro (_ | _ | ⟨hnode, hkind, hinside⟩)
    exact ⟨_, hnode, hkind, hinside⟩
  · rintro ⟨a, hnode, hkind, hinside⟩
    exact .iteration hnode hkind hinside

/-- **Traces are both in order or both not** if the frames are in which they differ. -/
theorem Differ.placed_iff (h : Differ f g address t u) {size : Nat} {scope : Option Located}
    (hframes : Placed size (reach scope address) f ↔ Placed size (reach scope address) g) :
    Placed size scope t ↔ Placed size scope u := by
  induction h generalizing scope with
  | here => exact hframes
  | @inside n i address front back t u _ ih =>
    have hrecord : Record.Placed size scope (.iteration n t) ↔
        Record.Placed size scope (.iteration n u) := by
      rw [placed_iteration_iff, placed_iteration_iff]
      refine exists_congr fun a => and_congr_right fun hnode => and_congr_right fun _ => ?_
      refine ih ?_
      rwa [reach, hnode, Option.bind_some] at hframes
    simp only [Placed, List.forall_mem_append, List.forall_mem_cons, hrecord]

/-! ## Alikeness -/

/-- Records in front of the iterations of one quantifier and behind them are told apart
by the nodes that they are for. -/
theorem agreeBeside_iteration (ha : a.id = n) (front back : Trace) :
    AgreeBeside p a (front ++ .iteration n f :: back) (front ++ .iteration n g :: back) where
  spans m _ _ := by
    rw [spans_append, spans_append]
    rfl
  choices m _ _ := by
    rw [choices_append, choices_append]
    rfl
  iterations m _ hm := by
    have hne : n ≠ m := fun h => hm (h ▸ ha ▸ id_mem_ids_self a)
    have hnone : ∀ f, Record.frameOf? m (.iteration n f) = none := fun f => if_neg hne
    rw [iterations_append, iterations_append, iterations, iterations,
      List.filterMap_cons_none (hnone f), iterations, List.filterMap_cons_none (hnone g)]
  touches := by
    rw [touches_append, touches_append]
    rfl

/-- One iteration may be replaced by one that looks alike in the body. -/
theorem alike_iteration (hk : a.kind = .quantifier) (hc : a.children = [b]) (hb : b.WellFormed)
    (hinside : Alike b f g) (front back : Trace) :
    Alike a (front ++ .iteration a.id f :: back) (front ++ .iteration a.id g :: back) := by
  have hbody := body_eq_some hc
  have hiterations : ∀ f, iterations (front ++ .iteration a.id f :: back) a.id =
      front.iterations a.id ++ f :: back.iterations a.id := by
    intro f
    rw [iterations_append, iterations, iterations,
      List.filterMap_cons_some (by rw [Record.frameOf?, if_pos rfl])]
    rfl
  have htouches : ∀ f, touches (front ++ .iteration a.id f :: back) b =
      touches (front ++ .iteration a.id [] :: back) b := by
    intro f
    rw [touches_append, touches_append]
    rfl
  have hlength : ∀ f, (front.iterations a.id ++ f :: back.iterations a.id).length =
      (front.iterations a.id ++ [] :: back.iterations a.id).length := by
    intro f
    rw [List.length_append, List.length_append]
    rfl
  cases htouched : touches (front ++ .iteration a.id [] :: back) b with
  | true =>
    -- records of the body beside the iterations: the frames do not matter
    refine .refused hk hc fun slot => ⟨.looseRecords slot
      (front.iterations a.id ++ [] :: back.iterations a.id).length, ?_, ?_⟩
    · rw [frames_of_touched hbody ((htouches f).trans htouched), hiterations, if_neg (by simp),
        hlength]
    · rw [frames_of_touched hbody ((htouches g).trans htouched), hiterations, if_neg (by simp),
        hlength]
  | false =>
    have hframes : ∀ f slot, frames slot a (front ++ .iteration a.id f :: back) =
        .ok (front.iterations a.id ++ f :: back.iterations a.id) := by
      intro f slot
      rw [frames_of_untouched, hiterations]
      intro b' hb'
      obtain rfl := eq_of_mem_body hc hb'
      exact (htouches f).trans htouched
    refine .iterated hk hc (hframes f) (hframes g) ((hlength f).trans (hlength g).symm) ?_
    intro pair hpair
    rw [List.zip_append rfl, List.zip_cons_cons, List.mem_append, List.mem_cons] at hpair
    rcases hpair with hpair | rfl | hpair
    · rw [fst_eq_snd_of_mem_zip hpair]
      exact .refl hb _
    · exact hinside
    · rw [fst_eq_snd_of_mem_zip hpair]
      exact .refl hb _

/-- A pattern reads an iteration of one of its quantifiers only there. -/
theorem alike_of_iteration (hwell : p.WellFormed) (hd : p.Distinct) (ha : a ∈ p.subtrees)
    (hk : a.kind = .quantifier) (hc : a.children = [b]) (hinside : Alike b f g)
    (front back : Trace) :
    Alike p (front ++ .iteration a.id f :: back) (front ++ .iteration a.id g :: back) := by
  have hb : b.WellFormed := (hwell.of_mem_subtrees ha).child (mem_children_of_eq hc)
  have hbeside : AgreeBeside p a (front ++ .iteration a.id f :: back)
    (front ++ .iteration a.id g :: back) := agreeBeside_iteration rfl front back
  refine .of_part hwell hd ha hbeside (alike_iteration hk hc hb hinside front back) ?_
  intro x hx hxk hne hax slot
  have hout : x.id ∉ a.ids := (hd.of_mem_subtrees hx).id_notMem_ids_of_ne hax hne
  refine frames_congr slot (hbeside.iterations x.id (id_mem_ids hx) hout) fun y _ => ⟨?_, ?_⟩
  · rw [touches_append, touches_append]
    rfl
  · intro c _
    rw [spans_append, spans_append]
    rfl

/-- **Traces look alike** if the frames do in which they differ. -/
theorem Differ.alike (h : Differ f g address t u) {size : Nat} (hwell : p.WellFormed)
    (hd : p.Distinct) (ht : t.Placed size (some p))
    (hframes : ∀ s, reach (some p) address = some s → f.Placed size (some s) → Alike s f g) :
    Alike p t u := by
  induction h generalizing p with
  | here => exact hframes p rfl ht
  | @inside n i address front back t u _ ih =>
    have hrecord := ht _ (List.mem_append_right front List.mem_cons_self)
    obtain ⟨a, hnode, hk, hinside⟩ := placed_iteration_iff.mp hrecord
    obtain ⟨ha, rfl⟩ := mem_subtrees_of_find (p := p) hnode
    obtain ⟨b, hc, hb, -⟩ := (hwell.of_mem_subtrees ha).of_quantifier hk
    have hbody := body_eq_some hc
    rw [hbody] at hinside
    have hdb : b.Distinct := (hd.of_mem_subtrees ha).child (mem_children_of_eq hc)
    refine alike_of_iteration hwell hd ha hk hc (ih hb hdb hinside fun s hs => ?_) front back
    refine hframes s ?_
    rw [reach, hnode, Option.bind_some, hbody]
    exact hs

end Trace

end CaptureTree
