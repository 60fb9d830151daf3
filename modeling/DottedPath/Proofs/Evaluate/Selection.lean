import DottedPath.Proofs.Evaluate.Alike
import DottedPath.Proofs.Evaluate.Items

/-!
# What a selected part is

What a segment selects in a value is an element by its index, an entry by its key, an attribute by its
name, or a slice (`Candidate`, `Selected`).  This is said once, for reads and for writes.

## Main statements

- `candidates_cases`: what the candidates of an access are.
- `Context.items_selected`: what the parts are that a segment selects.
-/

namespace DottedPath

/-! ### Segments without slice filters -/

mutual

/-- A slice filter is one of the segments of a path, or of the groups and descents in it. -/
def Segment.hasSliceFilter : Segment → Bool
  | .sliceFilter _ _ => true
  | .recursive _ branches _ _ _ => Branch.haveSliceFilter branches
  | .group _ branches _ => Branch.haveSliceFilter branches
  | .nop inner => inner.hasSliceFilter
  | .guard inner _ => inner.hasSliceFilter
  | .restrict inner _ => inner.hasSliceFilter
  | .root => false
  | .invert => false
  | .access .. => false
  | .append _ => false
  | .slice _ => false

def Segment.haveSliceFilter : List Segment → Bool
  | [] => false
  | seg :: segs => seg.hasSliceFilter || Segment.haveSliceFilter segs

def Branch.haveSliceFilter : List Branch → Bool
  | [] => false
  | .mk segs _ :: bs => Segment.haveSliceFilter segs || Branch.haveSliceFilter bs

end

namespace Store

variable {s : Store} {node k x : Value}

theorem isIndexed_of_isListLike (h : s.isListLike node = true) : s.isIndexed node = true := by
  unfold isListLike at h
  unfold isIndexed
  generalize s.kind node = kind at h ⊢
  cases kind <;> first | rfl | cases h

/-- A sequence is as long as it has elements. -/
theorem length?_of_isIndexed (hi : s.isIndexed node = true) :
    s.length? node = some (s.elements node).length := by
  rcases cases_of_isIndexed hi with ⟨text, rfl⟩ | ⟨bs, rfl⟩ | ⟨g, xs, rfl, hc⟩
  · show some text.length = some (text.toList.map _).length
    rw [List.length_map, String.length_toList]
  · show some bs.length = some (bs.map _).length
    rw [List.length_map]
  · rcases hc with hc | hc
    · have hlist : s.container? (.ref g) = some (.list xs) := hc
      rw [elements_of_list hlist]
      show (s.get? g).map Container.size = _
      rw [hc]
      rfl
    · have htuple : s.container? (.ref g) = some (.tuple xs) := hc
      rw [elements_of_tuple htuple]
      show (s.get? g).map Container.size = _
      rw [hc]
      rfl

/-- The number of an element is its index. -/
theorem elementAt?_of_mem_numbered (hi : s.isIndexed node = true) (h : (k, x) ∈ s.numbered node) :
    ∃ i : Int, k = .int i ∧ s.elementAt? node i = some x := by
  obtain ⟨⟨y, i⟩, hmem, heq⟩ := List.mem_map.mp h
  cases heq
  obtain ⟨hlt, hget⟩ := List.mem_zipIdx' hmem
  refine ⟨i, rfl, ?_⟩
  have hstart : fromStart (s.elements node).length i = i := by
    rw [fromStart, if_neg (by omega)]
  rw [elementAt?, if_pos hi, position?, length?_of_isIndexed hi, Option.bind_some, resolveIndex?,
    hstart, if_pos (by omega)]
  show (s.elements node)[i]? = some x
  rw [List.getElem?_eq_getElem hlt, ← hget]

theorem mem_elements_of_elementAt? {i : Int} (h : s.elementAt? node i = some x) :
    x ∈ s.elements node := by
  unfold elementAt? at h
  split at h
  · rw [Option.bind_eq_some_iff] at h
    obtain ⟨j, -, hj⟩ := h
    exact List.mem_of_getElem? hj
  · cases h

/-- What a key finds is the value of an entry. -/
theorem mem_of_lookup? {es : List (Value × Value)} (h : s.lookup? es k = some x) :
    ∃ e ∈ es, e.2 = x := by
  rw [lookup?, Option.map_eq_some_iff] at h
  obtain ⟨e, hfind, he⟩ := h
  exact ⟨e, List.mem_of_find?_eq_some hfind, he⟩

/-- What has attributes is an object, or there is none of them. -/
theorem object_of_isAttributed (h : s.isAttributed node = true) :
    (∃ name attrs frozen, s.container? node = some (.object name attrs frozen)) ∨
      s.container? node = none := by
  cases node with
  | scalar a => cases a <;> cases h
  | ref g =>
    have hkind : (((s.get? g).map Container.kind).getD .object == Kind.object) = true := h
    cases hc : s.get? g with
    | none => exact .inr hc
    | some c =>
      rw [hc] at hkind
      cases c with
      | object name attrs frozen => exact .inl ⟨name, attrs, frozen, hc⟩
      | _ => cases hkind

end Store

/-! ### Candidates -/

/-- What an access can select in a value: an element, an entry, the entry that a literal finds, or an
attribute, each with its key. -/
inductive Candidate (s : Store) (node : Value) : Accessor → KeyPattern → Value × Value → Prop where
  | element {accessor key i x} (haccessor : accessor ≠ .attr) (he : s.elementAt? node i = some x) :
    Candidate s node accessor key (.int i, x)
  | entry {accessor key es k x} (haccessor : accessor ≠ .attr)
    (hc : s.container? node = some (.dict es)) (hmem : (k, x) ∈ es) :
    Candidate s node accessor key (k, x)
  | found {accessor l es k x} (haccessor : accessor ≠ .attr)
    (hc : s.container? node = some (.dict es)) (hk : l.Shows s k)
    (hfound : s.lookup? es k = some x) : Candidate s node accessor (.literal l) (k, x)
  | attr {key name attrs frozen attr x}
    (hc : s.container? node = some (.object name attrs frozen)) (hmem : (attr, x) ∈ attrs) :
    Candidate s node .attr key (.str attr, x)

section Candidates

variable {s : Store} {node : Value} {accessor : Accessor} {key : KeyPattern} {part : Value × Value}

/-- The step to a candidate is the same in every store. -/
theorem Candidate.step_eq (h : Candidate s node accessor key part) (t u : Store) :
    accessor.step t part.1 = accessor.step u part.1 := by
  cases h with
  | attr hc hmem => rfl
  | element haccessor he => cases accessor <;> rfl
  | entry haccessor hc hmem => cases accessor <;> first | rfl | exact absurd rfl haccessor
  | found haccessor hc hk hfound => cases accessor <;> first | rfl | exact absurd rfl haccessor

theorem candidate_of_mem_numbered (haccessor : accessor ≠ .attr) (hi : s.isIndexed node = true)
    (h : part ∈ s.numbered node) : Candidate s node accessor key part := by
  obtain ⟨k, x⟩ := part
  obtain ⟨i, rfl, he⟩ := Store.elementAt?_of_mem_numbered hi h
  exact .element haccessor he

theorem candidate_of_mem_entries (haccessor : accessor ≠ .attr) (hk : s.isKeyed node = true)
    (h : part ∈ s.entries node) : Candidate s node accessor key part := by
  obtain ⟨es, hc⟩ := Store.container?_of_isKeyed hk
  rw [Store.entries, hc] at h
  exact .entry haccessor hc h

theorem candidate_of_mem_attrs (ha : s.isAttributed node = true) (h : part ∈ s.entries node) :
    Candidate s node .attr key part := by
  rw [Store.entries] at h
  rcases Store.object_of_isAttributed ha with ⟨name, attrs, frozen, hc⟩ | hc
  · rw [hc] at h
    obtain ⟨⟨attr, x⟩, hmem, rfl⟩ := List.mem_map.mp h
    exact .attr hc hmem
  · rw [hc] at h
    cases h

theorem candidate_of_dictGet? {l : Literal} {k x : Value} (haccessor : accessor ≠ .attr)
    (hk : l.Shows s k) (hfound : s.dictGet? node k = some x) :
    Candidate s node accessor (.literal l) (k, x) := by
  unfold Store.dictGet? at hfound
  split at hfound
  · rename_i es hc
    exact .found haccessor hc hk hfound
  · cases hfound

theorem candidate_of_attrGet? {attr : String} {x : Value} (hfound : s.attrGet? node attr = some x) :
    Candidate s node .attr key (.str attr, x) := by
  unfold Store.attrGet? at hfound
  split at hfound
  · rename_i name attrs frozen hc
    obtain ⟨before, after, hattrs, -⟩ := List.lookup_eq_some_iff.mp hfound
    refine .attr hc ?_
    rw [hattrs]
    exact List.mem_append_right _ (List.mem_cons_self ..)
  · cases hfound

theorem keyedCandidates_cases (haccessor : accessor ≠ .attr) (key : KeyPattern) (s : Store)
    (node : Value) : ∀ part ∈ (keyedCandidates key node s).1,
      Candidate (keyedCandidates key node s).2 node accessor key part := by
  rw [keyedCandidates, StoreM.run_bind, StoreM.run_get]
  by_cases hk : s.isKeyed node = true
  · have hpattern (p : KeyPattern) : ∀ part ∈ (s.entries node).filter fun e => s.keyMatches p e.1,
        Candidate s node accessor p part := fun part hpart =>
      candidate_of_mem_entries haccessor hk (List.mem_filter.mp hpart).1
    rw [if_pos hk]
    cases key with
    | wildcard => exact hpattern .wildcard
    | regex re => exact hpattern (.regex re)
    | literal l =>
      intro part hpart
      obtain ⟨x, hx, rfl⟩ := Option.map_eq_some_iff.mp (Option.mem_toList.mp hpart)
      exact candidate_of_dictGet? haccessor (l.toValue_shows s).2 hx
  · rw [if_neg hk]
    by_cases hi : s.isIndexed node = true
    · rw [if_pos hi]
      split
      · intro part hpart
        obtain ⟨x, hx, rfl⟩ := Option.map_eq_some_iff.mp (Option.mem_toList.mp hpart)
        exact .element haccessor hx
      · intro part hpart
        cases hpart
    · rw [if_neg hi]
      intro part hpart
      cases hpart

theorem slotCandidates_cases (haccessor : accessor ≠ .attr) (key : KeyPattern) (s : Store)
    (node : Value) : ∀ part ∈ (slotCandidates key node s).1,
      Candidate (slotCandidates key node s).2 node accessor key part := by
  rw [slotCandidates, StoreM.run_bind, StoreM.run_get]
  by_cases hi : s.isIndexed node = true
  · rw [if_pos hi]
    split
    · intro part hpart
      obtain ⟨x, hx, rfl⟩ := Option.map_eq_some_iff.mp (Option.mem_toList.mp hpart)
      exact .element haccessor hx
    · intro part hpart
      cases hpart
    · intro part hpart
      exact candidate_of_mem_numbered haccessor hi (List.mem_filter.mp hpart).1
  · rw [if_neg hi]
    exact keyedCandidates_cases haccessor key s node

theorem attrCandidates_cases (key : KeyPattern) (s : Store) (node : Value) :
    ∀ part ∈ (attrCandidates key node s).1,
      ∃ s₀, s.GrowsTo s₀ ∧ s₀.GrowsTo (attrCandidates key node s).2 ∧
        Candidate s₀ node .attr key part := by
  have hgrows := attrCandidates_grows key node s
  rw [attrCandidates, StoreM.run_bind, StoreM.run_get] at hgrows ⊢
  by_cases ha : s.isAttributed node = true
  · have hpattern (p : KeyPattern) : ∀ part ∈ (s.entries node).filter fun e => s.keyMatches p e.1,
        ∃ s₀, s.GrowsTo s₀ ∧ s₀.GrowsTo s ∧ Candidate s₀ node .attr p part := fun part hpart =>
      ⟨s, .refl s, .refl s, candidate_of_mem_attrs ha (List.mem_filter.mp hpart).1⟩
    rw [if_pos ha] at hgrows ⊢
    cases key with
    | wildcard => exact hpattern .wildcard
    | regex re => exact hpattern (.regex re)
    | literal l =>
      intro part hpart
      obtain ⟨x, hx, rfl⟩ := Option.map_eq_some_iff.mp (Option.mem_toList.mp hpart)
      exact ⟨s, .refl s, hgrows, candidate_of_attrGet? hx⟩
  · rw [if_neg ha]
    intro part hpart
    cases hpart

/-- What the candidates of an access are, in a store between those before and after. -/
theorem candidates_cases (accessor : Accessor) (key : KeyPattern) (s : Store) (node : Value) :
    ∀ part ∈ (candidates accessor key node s).1,
      ∃ s₀, s.GrowsTo s₀ ∧ s₀.GrowsTo (candidates accessor key node s).2 ∧
        Candidate s₀ node accessor key part := by
  intro part hpart
  cases accessor with
  | key =>
    exact ⟨_, candidates_grows .key key node s, .refl _,
      keyedCandidates_cases (by decide) key s node part hpart⟩
  | slot =>
    exact ⟨_, candidates_grows .slot key node s, .refl _,
      slotCandidates_cases (by decide) key s node part hpart⟩
  | attr => exact attrCandidates_cases key s node part hpart

theorem siblings_cases (s : Store) (accessor : Accessor) (key : KeyPattern) (node : Value) :
    ∀ p ∈ siblings s accessor key node,
      ∃ part, Candidate s node accessor key part ∧ p = (accessor.step s part.1, part.2) := by
  have hentries (accessor : Accessor) (haccessor : accessor ≠ .attr) (hk : s.isKeyed node = true) :
      ∀ p ∈ (s.entries node).map fun e => (accessor.step s e.1, e.2),
        ∃ part, Candidate s node accessor key part ∧ p = (accessor.step s part.1, part.2) := by
    intro p hp
    obtain ⟨part, hpart, rfl⟩ := List.mem_map.mp hp
    exact ⟨part, candidate_of_mem_entries haccessor hk hpart, rfl⟩
  have hnumbered (accessor : Accessor) (haccessor : accessor ≠ .attr)
      (hi : s.isIndexed node = true) :
      ∀ p ∈ (s.numbered node).map fun e => (accessor.step s e.1, e.2),
        ∃ part, Candidate s node accessor key part ∧ p = (accessor.step s part.1, part.2) := by
    intro p hp
    obtain ⟨part, hpart, rfl⟩ := List.mem_map.mp hp
    exact ⟨part, candidate_of_mem_numbered haccessor hi hpart, rfl⟩
  cases accessor with
  | key =>
    rw [siblings]
    split
    · exact hentries .key (by decide) (by assumption)
    · split
      · rename_i hi
        exact hnumbered .key (by decide) (Bool.and_eq_true_iff.mp hi).1
      · exact fun p hp => by cases hp
  | slot =>
    rw [siblings]
    split
    · exact hentries .slot (by decide) (by assumption)
    · split
      · exact hnumbered .slot (by decide) (by assumption)
      · exact fun p hp => by cases hp
  | attr =>
    rw [siblings]
    split
    · intro p hp
      obtain ⟨part, hpart, rfl⟩ := List.mem_map.mp hp
      exact ⟨part, candidate_of_mem_attrs (by assumption) hpart, rfl⟩
    · exact fun p hp => by cases hp

end Candidates

/-! ### Segments -/

namespace Context

open Eval (Yields)

/-- What a segment without slice filters can select in a value when the store grows from one to
another. -/
inductive Selected (start s : Store) (node : Value) : Segment → Step × Value → Prop where
  | root : Selected start s node .root (.root, node)
  | invert : Selected start s node .invert (.invert, node)
  | access {accessor key filter first s₀ part} (hstart : start.GrowsTo s₀) (hs : s₀.GrowsTo s)
    (h : Candidate s₀ node accessor key part) :
    Selected start s node (.access accessor key filter first) (accessor.step s₀ part.1, part.2)
  | append {unique x} (he : start.elementAt? node (-1) = some x) :
    Selected start s node (.append unique) (.slot (.int (-1)), x)
  | slice {range} (hi : start.isIndexed node = true) (hs : (sliceOf range node start).2.GrowsTo s) :
    Selected start s node (.slice range) (.slice range, (sliceOf range node start).1)
  | nop {inner p} (h : Selected start s node inner p) : Selected start s node (.nop inner) p
  | guard {inner test p} (h : Selected start s node inner p) :
    Selected start s node (.guard inner test) p
  | restrict {inner kinds p} (h : Selected start s node inner p) :
    Selected start s node (.restrict inner kinds) p

variable {ctx : Context} {start s t : Store} {node : Value}

theorem Selected.grows (hst : s.GrowsTo t) {seg : Segment} {p : Step × Value}
    (h : Selected start s node seg p) : Selected start t node seg p := by
  induction h with
  | root => exact .root
  | invert => exact .invert
  | access hstart hs h => exact .access hstart (hs.trans hst) h
  | append he => exact .append he
  | slice hi hs => exact .slice hi (hs.trans hst)
  | nop _ ih => exact .nop ih
  | guard _ ih => exact .guard ih
  | restrict _ ih => exact .restrict ih

/-- What the parts are that a segment selects. -/
theorem items_selected (hreg : ctx.registry.Grows) : ∀ (seg : Segment) (s : Store) (node : Value),
    seg.hasSliceFilter = false →
    (ctx.items seg node).Yields s fun found t => ∀ p ∈ found, Selected s t node seg p
  | .root, s, node, _ => .pure fun p hp => by
    cases List.mem_singleton.mp hp
    exact .root
  | .invert, s, node, _ => .pure fun p hp => by
    cases List.mem_singleton.mp hp
    exact .invert
  | .recursive .., _, _, _ => .pure fun p hp => by cases hp
  | .group .., _, _, _ => .pure fun p hp => by cases hp
  | .sliceFilter _ _, _, _, hfilter => by cases hfilter
  | .append _, s, node, _ => by
    refine (Yields.store (Q := fun r t => r = s ∧ t = s) ⟨rfl, rfl⟩).bind fun r t _ hr => ?_
    obtain ⟨rfl, rfl⟩ := hr
    refine .pure fun p hp => ?_
    obtain ⟨x, hx, rfl⟩ := Option.map_eq_some_iff.mp (Option.mem_toList.mp hp)
    exact .append hx
  | .access accessor key filter first, s, node, _ => by
    rw [items]
    have hcandidates : (liftM (candidates accessor key node) : Eval _).Yields s fun raw t =>
        ∀ part ∈ raw, ∃ s₀, s.GrowsTo s₀ ∧ s₀.GrowsTo t ∧ Candidate s₀ node accessor key part :=
      .lift (candidates_grows accessor key node s) (candidates_cases accessor key s node)
    refine hcandidates.bind fun raw t hst hraw => ?_
    refine (filterItems_sublist hreg filter Prod.snd raw t).bind fun kept u htu hkept => ?_
    refine (Yields.store rfl).bind (Q := fun r w => r = w) fun r w huw hr => .pure fun p hp => ?_
    obtain ⟨part, hpart, rfl⟩ := List.mem_map.mp hp
    obtain ⟨s₀, hstart, hs, hcandidate⟩ :=
      hraw part (hkept.subset ((firstOnly_sublist first kept).subset hpart))
    show Selected s w node _ (accessor.step r part.1, part.2)
    rw [hcandidate.step_eq r s₀]
    exact .access hstart (hs.trans (htu.trans huw)) hcandidate
  | .slice range, s, node, _ => by
    rw [items]
    refine (Yields.store (Q := fun r t => r = s ∧ t = s) ⟨rfl, rfl⟩).bind fun r t _ hr => ?_
    obtain ⟨rfl, rfl⟩ := hr
    by_cases hi : t.isIndexed node = true
    · have hslice : (liftM (sliceOf range node) : Eval _).Yields t fun v u =>
          v = (sliceOf range node t).1 ∧ u = (sliceOf range node t).2 :=
        .lift (sliceOf_grows range node t) ⟨rfl, rfl⟩
      rw [if_pos hi]
      refine hslice.bind fun v u _ hv => .pure fun p hp => ?_
      cases List.mem_singleton.mp hp
      rw [hv.1]
      exact .slice hi (hv.2 ▸ .refl _)
    · rw [if_neg hi]
      exact .pure fun p hp => by cases hp
  | .nop inner, s, node, hfilter => by
    rw [items]
    exact (items_selected hreg inner s node hfilter).mono fun found t _ h p hp => .nop (h p hp)
  | .guard inner test, s, node, hfilter => by
    rw [items]
    refine (items_selected hreg inner s node hfilter).bind fun found t hst hfound => ?_
    refine (Yields.filterM (fun p => guardHolds_grows hreg test p.2) found t).mono
      fun kept u htu hkept => ?_
    exact fun p hp => .guard ((hfound p (hkept.subset hp)).grows htu)
  | .restrict inner kinds, s, node, hfilter => by
    rw [items]
    refine (Yields.store (Q := fun r t => r = s ∧ t = s) ⟨rfl, rfl⟩).bind fun r t _ hr => ?_
    obtain ⟨rfl, rfl⟩ := hr
    split
    · exact (items_selected hreg inner t node hfilter).mono fun found u _ h p hp =>
        .restrict (h p hp)
    · exact .pure fun p hp => by cases hp

end Context

end DottedPath
