import DottedPath.Proofs.Evaluate.Alike
import DottedPath.Proofs.Evaluate.Retake
import DottedPath.Proofs.Evaluate.Selection

/-!
# Graphs of values

A graph is a set of containers that holds what is inside of its members.  Reading goes from a value
of the graph to values of the graph, or to new sequences of them, which slices make (`Tame`).

## Main statements

- `Context.items_are_real`: what a segment selects is reached in real steps.
- `Context.universe_is_real`: so is what a complement chooses from.
-/

namespace DottedPath

/-- In a list of pairs with different keys each key finds its pair. -/
theorem lookup_of_mem_nodup {α β : Type} [BEq α] [LawfulBEq α] {pairs : List (α × β)}
    (hnodup : (pairs.map Prod.fst).Nodup) {a : α} {b : β} (hmem : (a, b) ∈ pairs) :
    pairs.lookup a = some b := by
  obtain ⟨before, after, rfl⟩ := List.append_of_mem hmem
  refine List.lookup_eq_some_iff.mpr ⟨before, after, rfl, fun p hp => ?_⟩
  rw [List.map_append, List.nodup_append] at hnodup
  rw [bne_iff_ne]
  exact (hnodup.2.2 _ (List.mem_map_of_mem hp) _ (List.mem_cons_self ..)).symm

/-- The containers of a graph are there, and so is what they hold.  Keys are no doubles and have
none inside; no two keys of a dict are the same, and no two attributes of an object. -/
structure Store.ValueGraph (s : Store) (inside : Handle → Prop) : Prop where
  held : ∀ h, inside h → ∃ c, s.get? h = some c
  closed : ∀ h c, inside h → s.get? h = some c → ∀ g, .ref g ∈ c.parts → inside g
  keys : ∀ h es, inside h → s.get? h = some (.dict es) → ∀ e ∈ es, s.IsKey e.1
  distinct : ∀ h es, inside h → s.get? h = some (.dict es) →
    es.Pairwise fun a b => s.sameKey b.1 a.1 = false
  names : ∀ h name attrs frozen, inside h → s.get? h = some (.object name attrs frozen) →
    (attrs.map Prod.fst).Nodup

/-- A scalar, or a container of the graph. -/
def Value.Inside (inside : Handle → Prop) (v : Value) : Prop :=
  ∀ h, v = .ref h → inside h

/-- A value of the graph, or a new sequence of such values. -/
def Tame (inside : Handle → Prop) (s : Store) (v : Value) : Prop :=
  v.Inside inside ∨ ∃ h xs, v = .ref h ∧
    (s.get? h = some (.list xs) ∨ s.get? h = some (.tuple xs)) ∧ ∀ x ∈ xs, x.Inside inside

variable {inside : Handle → Prop} {s t : Store}

namespace Store

namespace ValueGraph

/-- A graph stays one when the store grows. -/
theorem grows (hst : s.GrowsTo t) (hg : s.ValueGraph inside) : t.ValueGraph inside := by
  have hsame : ∀ h c, inside h → t.get? h = some c → s.get? h = some c := by
    intro h c hh hc
    obtain ⟨d, hd⟩ := hg.held h hh
    cases hc.symm.trans (hst h d hd)
    exact hd
  refine ⟨fun h hh => ?_, fun h c hh hc => ?_, fun h es hh hc => ?_, fun h es hh hc => ?_,
    fun h name attrs frozen hh hc => ?_⟩
  · obtain ⟨c, hc⟩ := hg.held h hh
    exact ⟨c, hst h c hc⟩
  · exact hg.closed h c hh (hsame h c hh hc)
  · exact fun e he => (hg.keys h es hh (hsame h _ hh hc) e he).keeps hst.keepsCopied
  · have hkeys := hg.keys h es hh (hsame h _ hh hc)
    refine (hg.distinct h es hh (hsame h _ hh hc)).imp_of_mem fun {a b} ha hb hab => ?_
    rw [sameKey_of_keeps hst.keepsCopied (hkeys b hb) (hkeys a ha), hab]
  · exact hg.names h name attrs frozen hh (hsame h _ hh hc)

end ValueGraph

end Store

namespace Tame

variable {v x : Value}

theorem grows (hst : s.GrowsTo t) (h : Tame inside s v) : Tame inside t v := by
  rcases h with h | ⟨g, xs, rfl, hc, hxs⟩
  · exact .inl h
  · exact .inr ⟨g, xs, rfl, hc.imp (hst g _) (hst g _), hxs⟩

/-- A dict is one of the graph. -/
theorem of_dict (h : Tame inside s v) {es : List (Value × Value)}
    (hc : s.container? v = some (.dict es)) :
    ∃ g, v = .ref g ∧ inside g ∧ s.get? g = some (.dict es) := by
  cases v with
  | scalar x => cases hc
  | ref g =>
    have hget : s.get? g = some (.dict es) := hc
    rcases h with h | ⟨g', xs, he, hlist | htuple, -⟩
    · exact ⟨g, rfl, h g rfl, hget⟩
    · cases he
      cases hget.symm.trans hlist
    · cases he
      cases hget.symm.trans htuple

/-- An object is one of the graph. -/
theorem of_object (h : Tame inside s v) {name : String} {attrs : List (String × Value)}
    {frozen : Bool} (hc : s.container? v = some (.object name attrs frozen)) :
    ∃ g, v = .ref g ∧ inside g ∧ s.get? g = some (.object name attrs frozen) := by
  cases v with
  | scalar x => cases hc
  | ref g =>
    have hget : s.get? g = some (.object name attrs frozen) := hc
    rcases h with h | ⟨g', xs, he, hlist | htuple, -⟩
    · exact ⟨g, rfl, h g rfl, hget⟩
    · cases he
      cases hget.symm.trans hlist
    · cases he
      cases hget.symm.trans htuple

/-- The elements of a sequence are values of the graph. -/
theorem inside_of_mem_elements (hg : s.ValueGraph inside) (h : Tame inside s v)
    (hi : s.isIndexed v = true) (hx : x ∈ s.elements v) : x.Inside inside := by
  rcases Store.cases_of_isIndexed hi with ⟨text, rfl⟩ | ⟨bs, rfl⟩ | ⟨g, xs, rfl, hc⟩
  · obtain ⟨c, -, rfl⟩ := List.mem_map.mp hx
    rintro g ⟨⟩
  · obtain ⟨b, -, rfl⟩ := List.mem_map.mp hx
    rintro g ⟨⟩
  · have helements : s.elements (.ref g) = xs :=
      hc.elim (fun hc => Store.elements_of_list hc) fun hc => Store.elements_of_tuple hc
    rw [helements] at hx
    rcases h with h | ⟨g', ys, he, hc', hys⟩
    · rintro g' rfl
      rcases hc with hc | hc
      · exact hg.closed g _ (h g rfl) hc g' hx
      · exact hg.closed g _ (h g rfl) hc g' hx
    · cases he
      have hsame : xs = ys := by
        rcases hc with hc | hc <;> rcases hc' with hc' | hc' <;> cases hc.symm.trans hc' <;> rfl
      exact hys x (hsame ▸ hx)

/-- The value of an entry is one of the graph. -/
theorem inside_of_mem_entries (hg : s.ValueGraph inside) {g : Handle} (hinside : inside g)
    {es : List (Value × Value)} (hd : s.get? g = some (.dict es)) {k : Value}
    (hmem : (k, x) ∈ es) : x.Inside inside := by
  rintro g' rfl
  refine hg.closed g _ hinside hd g' ?_
  exact List.mem_flatMap.mpr ⟨_, hmem, by simp⟩

/-- The value of an attribute is one of the graph. -/
theorem inside_of_mem_attrs (hg : s.ValueGraph inside) {g : Handle} (hinside : inside g)
    {name : String} {attrs : List (String × Value)} {frozen : Bool}
    (ho : s.get? g = some (.object name attrs frozen)) {attr : String}
    (hmem : (attr, x) ∈ attrs) : x.Inside inside := by
  rintro g' rfl
  exact hg.closed g _ hinside ho g' (List.mem_map.mpr ⟨_, hmem, rfl⟩)

end Tame

end DottedPath

/-!
### Selected parts are real

What a segment selects in a value of a graph can be selected again, by the step that it is reported
with.  This holds of the parts that it selects among as well, which complements report.
-/

namespace DottedPath

/-- A real step, and a value that it leads to out of a value of the graph. -/
structure Context.Reaches (ctx : Context) (inside : Handle → Prop) (s : Store) (node : Value)
    (found : Step × Value) : Prop where
  real : ctx.Real s node found.1 found.2
  tame : Tame inside s found.2

namespace Context

open Eval (Yields)

variable {ctx : Context} {inside : Handle → Prop} {start s t : Store} {node : Value}

theorem Reaches.grows {found : Step × Value} (hst : s.GrowsTo t)
    (h : ctx.Reaches inside s node found) : ctx.Reaches inside t node found :=
  ⟨h.real.grows hst, h.tame.grows hst⟩

/-- A candidate in a value of the graph is reached in a real step. -/
theorem reaches_of_candidate (hg : s.ValueGraph inside) (htame : Tame inside s node)
    {accessor : Accessor} {key : KeyPattern} {part : Value × Value}
    (h : Candidate s node accessor key part) :
    ctx.Reaches inside s node (accessor.step s part.1, part.2) := by
  have heither {k x : Value} (haccessor : accessor ≠ .attr)
      (hreal : ctx.Real s node (.key k) x ∧ ctx.Real s node (.slot k) x) :
      ctx.Real s node (accessor.step s k) x := by
    cases accessor with
    | key => exact hreal.1
    | slot => exact hreal.2
    | attr => exact absurd rfl haccessor
  -- a tame value outside the graph is a new sequence, so a dict or an object is in the graph
  cases h with
  | element haccessor he =>
    refine ⟨heither haccessor (real_index he), .inl ?_⟩
    exact htame.inside_of_mem_elements hg (Store.isIndexed_of_elementAt? he)
      (Store.mem_elements_of_elementAt? he)
  | @entry _ _ es k x haccessor hc hmem =>
    obtain ⟨g, rfl, hinside, hd⟩ := htame.of_dict hc
    have hkeys := hg.keys g es hinside hd
    obtain ⟨l, hl, -⟩ := (hkeys _ hmem).shows
    have hfound := lookup?_of_mem hkeys (hg.distinct g es hinside hd) hmem
    exact ⟨heither haccessor (real_entry hd hkeys hl hfound),
      .inl (Tame.inside_of_mem_entries hg hinside hd hmem)⟩
  | @found _ l es k x haccessor hc hk hfound =>
    obtain ⟨g, rfl, hinside, hd⟩ := htame.of_dict hc
    obtain ⟨e, hmem, rfl⟩ := Store.mem_of_lookup? hfound
    exact ⟨heither haccessor (real_entry hd (hg.keys g es hinside hd) hk hfound),
      .inl (Tame.inside_of_mem_entries hg hinside hd hmem)⟩
  | @attr _ name attrs frozen attr x hc hmem =>
    obtain ⟨g, rfl, hinside, ho⟩ := htame.of_object hc
    have hfound := lookup_of_mem_nodup (hg.names g name attrs frozen hinside ho) hmem
    exact ⟨real_attr ho hfound, .inl (Tame.inside_of_mem_attrs hg hinside ho hmem)⟩

/-- A slice of a value of the graph is a new sequence of values of the graph. -/
theorem slice_reaches (hg : s.ValueGraph inside) (htame : Tame inside s node) {range : SliceRange}
    (hi : s.isIndexed node = true) :
    ctx.Reaches inside (sliceOf range node s).2 node (.slice range, (sliceOf range node s).1) := by
  refine ⟨real_slice hi, ?_⟩
  have hpicked : ∀ x ∈ range.pick (s.elements node), x.Inside inside := fun x hx =>
    htame.inside_of_mem_elements hg hi (SliceRange.mem_of_mem_pick hx)
  rcases Store.cases_of_isIndexed hi with ⟨text, rfl⟩ | ⟨bs, rfl⟩ | ⟨h, xs, rfl, hc | hc⟩
  · exact .inl (by rintro g ⟨⟩)
  · exact .inl (by rintro g ⟨⟩)
  · have hlist : s.container? (.ref h) = some (.list xs) := hc
    rw [sliceOf_list range hlist]
    rw [Store.elements_of_list hlist] at hpicked
    exact .inr ⟨_, _, rfl, .inl (Store.get?_push_next s _), hpicked⟩
  · have htuple : s.container? (.ref h) = some (.tuple xs) := hc
    rw [sliceOf_tuple range htuple]
    rw [Store.elements_of_tuple htuple] at hpicked
    exact .inr ⟨_, _, rfl, .inr (Store.get?_push_next s _), hpicked⟩

theorem Selected.reaches (hg : start.ValueGraph inside) (htame : Tame inside start node)
    {seg : Segment} {p : Step × Value} (hs : start.GrowsTo s) (h : Selected start s node seg p) :
    ctx.Reaches inside s node p := by
  induction h with
  | root => exact ⟨real_stays rfl, htame.grows hs⟩
  | invert => exact ⟨real_stays rfl, htame.grows hs⟩
  | access hstart hs h =>
    exact (reaches_of_candidate (hg.grows hstart) (htame.grows hstart) h).grows hs
  | append he =>
    have h : Candidate start node .slot .wildcard (.int (-1), _) := .element (by decide) he
    exact (reaches_of_candidate hg htame h).grows hs
  | slice hi hs => exact (slice_reaches hg htame hi).grows hs
  | nop _ ih => exact ih
  | guard _ ih => exact ih
  | restrict _ ih => exact ih

/-- **What a segment selects is reached in real steps.** -/
theorem items_are_real (hreg : ctx.registry.Grows) (seg : Segment)
    (hfilter : seg.hasSliceFilter = false) (hg : s.ValueGraph inside) (htame : Tame inside s node) :
    (ctx.items seg node).Yields s fun found t => ∀ p ∈ found, ctx.Reaches inside t node p :=
  (items_selected hreg seg s node hfilter).mono fun _ _ hst h p hp => (h p hp).reaches hg htame hst

/-- The parts that a complement chooses from are reached in real steps. -/
theorem universe_is_real (hg : s.ValueGraph inside) (htame : Tame inside s node) :
    ∀ (seg : Segment), ∀ p ∈ seg.universe s node, ctx.Reaches inside s node p
  | .access accessor key _ _ => by
    intro p hp
    obtain ⟨part, hpart, rfl⟩ := siblings_cases s accessor key node p hp
    exact reaches_of_candidate hg htame hpart
  | .nop inner => universe_is_real hg htame inner
  | .guard inner _ => universe_is_real hg htame inner
  | .restrict inner kinds => by
    intro p hp
    rw [Segment.universe] at hp
    split at hp
    · exact universe_is_real hg htame inner p hp
    · cases hp
  | .root => fun p hp => by cases hp
  | .invert => fun p hp => by cases hp
  | .append _ => fun p hp => by cases hp
  | .slice _ => fun p hp => by cases hp
  | .sliceFilter _ _ => fun p hp => by cases hp
  | .recursive .. => fun p hp => by cases hp
  | .group .. => fun p hp => by cases hp

end Context

end DottedPath
