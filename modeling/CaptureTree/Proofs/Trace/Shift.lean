import CaptureTree.Trace.Basic

/-!
# Traces with their spans moved

Matching inside a longer input gives the spans that matching the part alone gives, only
further to the right.  `Trace.mapSpans` changes every span of a trace, in all frames,
and leaves everything else as it is; `Trace.shift` moves them all by the same distance.

Each way of reading a frame comes with a lemma that says what it reads after the change:
`spans_mapSpans`, `choices_mapSpans`, `iterations_mapSpans` and `touches_mapSpans`.
-/

namespace CaptureTree

/-- The span moved to the right by `b` positions. -/
def Span.shift (b : Nat) (s : Span) : Span := ⟨b + s.start, b + s.stop⟩

namespace Record

mutual
/-- The record with all spans in it changed, down to those in the frame of an
iteration. -/
def mapSpans (f : Span → Span) : Record → Record
  | .span n s => .span n (f s)
  | .choice n i => .choice n i
  | .iteration n frame => .iteration n (mapSpansAll f frame)

/-- Several records with all spans in them changed. -/
def mapSpansAll (f : Span → Span) : List Record → List Record
  | [] => []
  | r :: rest => mapSpans f r :: mapSpansAll f rest
end

theorem mapSpansAll_eq_map (f : Span → Span) (rs : List Record) :
    mapSpansAll f rs = rs.map (mapSpans f) := by
  induction rs with
  | nil => rfl
  | cons r rs ih => rw [mapSpansAll, ih, List.map_cons]

theorem mapSpans_iteration (f : Span → Span) (n : NodeId) (t : Trace) :
    mapSpans f (.iteration n t) = .iteration n (t.map (mapSpans f)) := by
  rw [mapSpans, mapSpansAll_eq_map]

variable (f : Span → Span) (n : NodeId) (r : Record)

@[simp] theorem node_mapSpans : (r.mapSpans f).node = r.node := by
  cases r <;> rfl

theorem spanOf?_mapSpans : (r.mapSpans f).spanOf? n = (r.spanOf? n).map f := by
  cases r with
  | span m s => by_cases h : m = n <;> simp [mapSpans, spanOf?, h]
  | choice | iteration => rfl

theorem choiceOf?_mapSpans : (r.mapSpans f).choiceOf? n = r.choiceOf? n := by
  cases r <;> rfl

theorem frameOf?_mapSpans :
    (r.mapSpans f).frameOf? n = (r.frameOf? n).map (List.map (mapSpans f)) := by
  cases r with
  | span | choice => rfl
  | iteration m t =>
    rw [mapSpans_iteration]
    by_cases h : m = n <;> simp [frameOf?, h]

end Record

namespace Trace

variable (f : Span → Span) (t u : Trace) (n : NodeId) (p : Located)

/-- The trace with all of its spans changed. -/
def mapSpans : Trace := t.map (Record.mapSpans f)

/-- The trace with all of its spans moved to the right by `b` positions. -/
def shift (b : Nat) (t : Trace) : Trace := t.mapSpans (Span.shift b)

@[simp] theorem mapSpans_nil : mapSpans f [] = [] := rfl

@[simp] theorem mapSpans_append : mapSpans f (t ++ u) = t.mapSpans f ++ u.mapSpans f :=
  List.map_append

theorem spans_mapSpans : (t.mapSpans f).spans n = (t.spans n).map f := by
  rw [mapSpans, spans, spans, List.filterMap_map, List.map_filterMap]
  simp only [Function.comp_def, Record.spanOf?_mapSpans]

theorem choices_mapSpans : (t.mapSpans f).choices n = t.choices n := by
  rw [mapSpans, choices, choices, List.filterMap_map]
  simp only [Function.comp_def, Record.choiceOf?_mapSpans]

theorem iterations_mapSpans :
    (t.mapSpans f).iterations n = (t.iterations n).map (mapSpans f) := by
  rw [mapSpans, iterations, iterations, List.filterMap_map, List.map_filterMap]
  simp only [Function.comp_def, Record.frameOf?_mapSpans]
  rfl

theorem touches_mapSpans : (t.mapSpans f).touches p = t.touches p := by
  rw [touches, touches, mapSpans, List.any_map]
  simp only [Function.comp_def, Record.node_mapSpans]

end Trace

end CaptureTree
