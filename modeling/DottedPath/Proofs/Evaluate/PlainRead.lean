import DottedPath.Proofs.Evaluate.FullDescent
import DottedPath.Proofs.Path.KeyToken

/-!
# Reading plain patterns

A plain pattern is a path of key and slot accesses without filters and of recursive segments without
a window, whose literals have texts that are read back.  Reading it in a graph with keys of this
kind changes nothing in the store and ends well; each place that it finds has a location that the
segments share out among themselves, a recursive segment one or more steps, every other one step
that its pattern matches.

## Main statements

- `Context.walkPath_finds`: reading a plain pattern finds places at locations that it takes.
-/

namespace DottedPath

/-! ### Keys, steps and patterns -/

/-- An integer from zero on, or a plain text. -/
inductive Scalar.PlainKey : Scalar → Prop where
  | int {i : Int} (h0 : 0 ≤ i) (hfits : Word.fits i = true) : PlainKey (.int i)
  | str {key : String} (h : DottedPath.PlainKey key) : PlainKey (.str key)

/-- A step to a plain key, or to any integer in a slot. -/
inductive Step.Plain : Step → Prop where
  | key {x : Scalar} (h : x.PlainKey) : Plain (.key (.scalar x))
  | slot {x : Scalar} (h : x.PlainKey) : Plain (.slot (.scalar x))
  | index {i : Int} (hfits : Word.fits i = true) : Plain (.slot (.int i))

/-- A segment of a plain pattern. -/
inductive Segment.PlainPattern : Segment → Prop where
  | key {p : KeyPattern} {first : Bool}
    (h : ∀ l, p = .literal l → ∃ x, l = .scalar x ∧ (Step.key (.scalar x)).Plain) :
    PlainPattern (.access .key p none first)
  | slot {p : KeyPattern} {first : Bool}
    (h : ∀ l, p = .literal l → ∃ x, l = .scalar x ∧ (Step.slot (.scalar x)).Plain) :
    PlainPattern (.access .slot p none first)
  | descent (first : Bool) : PlainPattern (.recursive .wildcard [] .unbounded none first)

/-- The step that an access to a part takes, an attribute apart. -/
def Accessor.keyStep : Accessor → Value → Step
  | slot, k => .slot k
  | _, k => .key k

/-- A plain key is not a double. -/
theorem Scalar.PlainKey.equals_self {x : Scalar} (h : x.PlainKey) : x.equals x = true := by
  cases h with
  | int => exact Scalar.equals_self (by rintro ⟨⟩)
  | str => exact Scalar.equals_self (by rintro ⟨⟩)

/-- What a plain step goes to is a scalar that is equal to itself. -/
theorem Step.Plain.exists_scalar {accessor : Accessor} {k : Value}
    (h : (accessor.keyStep k).Plain) : ∃ x, k = .scalar x ∧ x.equals x = true := by
  generalize hstep : accessor.keyStep k = step at h
  cases h with
  | @key x hx =>
    cases accessor <;> cases hstep <;> exact ⟨_, rfl, hx.equals_self⟩
  | @slot x hx =>
    cases accessor <;> cases hstep
    exact ⟨_, rfl, hx.equals_self⟩
  | @index i hi =>
    cases accessor <;> cases hstep
    exact ⟨_, rfl, Scalar.equals_self (by rintro ⟨⟩)⟩

namespace Store

/-- All dicts that the value reaches have plain keys, and no sequence is longer than a word can
say. -/
structure Legible (s : Store) (v : Value) : Prop where
  keys : ∀ x es, s.Reaches v x → s.container? x = some (.dict es) →
    ∀ e ∈ es, ∃ k, e.1 = .scalar k ∧ k.PlainKey
  lengths : ∀ x, s.Reaches v x → (s.elements x).length ≤ 2 ^ 63

variable {s : Store} {v x : Value}

namespace Legible

theorem of_reaches (h : s.Legible v) (hx : s.Reaches v x) : s.Legible x :=
  ⟨fun y es hy => h.keys y es (hx.trans hy), fun y hy => h.lengths y (hx.trans hy)⟩

theorem part (h : s.Legible v) (hx : s.Part v x) : s.Legible x := h.of_reaches hx.reaches

/-- A scalar reaches nothing else, so that only its own length counts. -/
theorem scalar {a : Scalar} (h : (s.elements (.scalar a)).length ≤ 2 ^ 63) :
    s.Legible (.scalar a) := by
  constructor
  · intro y es hy hc
    rw [hy.eq_of_scalar] at hc
    cases hc
  · intro y hy
    rw [hy.eq_of_scalar]
    exact h

/-- The elements of a sequence are legible, and so are the characters of a text. -/
theorem element (h : s.Legible v) (hi : s.isIndexed v = true) (hx : x ∈ s.elements v) :
    s.Legible x := by
  rcases cases_of_isIndexed hi with ⟨text, rfl⟩ | ⟨bs, rfl⟩ | ⟨g, xs, rfl, hc | hc⟩
  · obtain ⟨c, -, rfl⟩ := List.mem_map.mp hx
    refine scalar ?_
    show ((String.ofList [c]).toList.map _).length ≤ 2 ^ 63
    rw [String.toList_ofList]
    simp
  · obtain ⟨b, -, rfl⟩ := List.mem_map.mp hx
    exact scalar (Nat.zero_le _)
  · have hlist : s.container? (.ref g) = some (.list xs) := hc
    rw [elements_of_list hlist] at hx
    exact h.part ⟨_, hlist, hx⟩
  · have htuple : s.container? (.ref g) = some (.tuple xs) := hc
    rw [elements_of_tuple htuple] at hx
    exact h.part ⟨_, htuple, hx⟩

/-- The position of an element fits a word. -/
theorem fits_of_lt (h : s.Legible v) {i : Nat} (hi : i < (s.elements v).length) :
    Word.fits i = true := by
  have hle := h.lengths v (.refl s v)
  refine decide_eq_true ?_
  simp only [Word.least, Word.greatest]
  omega

/-- The value of an entry is legible, and its key is plain. -/
theorem entry (h : s.Legible v) {es : List (Value × Value)} (hc : s.container? v = some (.dict es))
    {e : Value × Value} (he : e ∈ es) : (∃ k, e.1 = .scalar k ∧ k.PlainKey) ∧ s.Legible e.2 :=
  ⟨h.keys v es (.refl s v) hc e he, h.part ⟨_, hc, List.mem_flatMap.mpr ⟨e, he, by simp⟩⟩⟩

end Legible

end Store

/-! ### What an access selects -/

section Access

variable {s : Store} {node : Value} {accessor : Accessor} {p : KeyPattern}

/-- A part that a plain access selects: the step to it is plain, its key is one of the pattern, and
what is there is legible. -/
structure Selectable (s : Store) (accessor : Accessor) (p : KeyPattern) (part : Value × Value) :
    Prop where
  plain : (accessor.keyStep part.1).Plain
  taken : s.keyMatches p part.1 = true
  legible : s.Legible part.2

/-- The literals of the pattern are plain keys for the access. -/
def PlainLiteral (accessor : Accessor) (p : KeyPattern) : Prop :=
  ∀ l, p = .literal l → ∃ x, l = .scalar x ∧ (accessor.keyStep (.scalar x)).Plain

theorem plain_of_plainKey (accessor : Accessor) {x : Scalar} (h : x.PlainKey) :
    (accessor.keyStep (.scalar x)).Plain := by
  cases accessor with
  | key => exact .key h
  | attr => exact .key h
  | slot => exact .slot h

/-- A scalar literal matches itself. -/
theorem keyMatches_literal {x : Scalar} (h : x.equals x = true) :
    s.keyMatches (.literal (.scalar x)) (.scalar x) = true :=
  (s.equals_scalar x (.scalar x)).trans h

/-- An element that an index names. -/
theorem selectable_element (hp : PlainLiteral accessor p) (hnode : s.Legible node) {i : Int}
    (hi : p = .literal (.int i)) {x : Value} (hx : s.elementAt? node i = some x) :
    Selectable s accessor p (.int i, x) := by
  obtain ⟨a, ha, hplain⟩ := hp _ hi
  cases ha
  subst hi
  exact ⟨hplain, keyMatches_literal (Scalar.equals_self (by rintro ⟨⟩)),
    hnode.element (Store.isIndexed_of_elementAt? hx) (Store.mem_elements_of_elementAt? hx)⟩

/-- An entry whose key a pattern matches. -/
theorem selectable_entry (hnode : s.Legible node) (hk : s.isKeyed node = true)
    {part : Value × Value} (hpart : part ∈ (s.entries node).filter fun e => s.keyMatches p e.1) :
    Selectable s accessor p part := by
  obtain ⟨es, hc⟩ := Store.container?_of_isKeyed hk
  rw [Store.entries, hc] at hpart
  obtain ⟨hmem, htaken⟩ := List.mem_filter.mp hpart
  obtain ⟨⟨k, hk, hplain⟩, hlegible⟩ := hnode.entry hc hmem
  refine ⟨?_, htaken, hlegible⟩
  rw [hk]
  exact plain_of_plainKey accessor hplain

/-- Selecting by key leaves the store as it is. -/
theorem keyedCandidates_plain (hp : PlainLiteral accessor p) (hnode : s.Legible node) :
    ∃ parts, keyedCandidates p node s = (parts, s) ∧
      ∀ part ∈ parts, Selectable s accessor p part := by
  rw [keyedCandidates, StoreM.run_bind, StoreM.run_get]
  by_cases hk : s.isKeyed node = true
  · rw [if_pos hk]
    cases p with
    | wildcard => exact ⟨_, rfl, fun part => selectable_entry hnode hk⟩
    | regex re => exact ⟨_, rfl, fun part => selectable_entry hnode hk⟩
    | literal l =>
      obtain ⟨x, rfl, hplain⟩ := hp l rfl
      refine ⟨((s.dictGet? node (.scalar x)).map (Value.scalar x, ·)).toList, rfl, ?_⟩
      intro part hpart
      obtain ⟨y, hy, rfl⟩ := Option.map_eq_some_iff.mp (Option.mem_toList.mp hpart)
      obtain ⟨es, hc⟩ := Store.container?_of_isKeyed hk
      rw [Store.dictGet?, hc] at hy
      obtain ⟨e, hmem, rfl⟩ := Store.mem_of_lookup? hy
      obtain ⟨a, ha, hself⟩ := hplain.exists_scalar
      cases ha
      exact ⟨hplain, keyMatches_literal hself, (hnode.entry hc hmem).2⟩
  · rw [if_neg hk]
    by_cases hi : s.isIndexed node = true
    · rw [if_pos hi]
      split
      · refine ⟨_, rfl, fun part hpart => ?_⟩
        obtain ⟨x, hx, rfl⟩ := Option.map_eq_some_iff.mp (Option.mem_toList.mp hpart)
        exact selectable_element hp hnode rfl hx
      · exact ⟨[], rfl, fun part hpart => absurd hpart List.not_mem_nil⟩
    · rw [if_neg hi]
      exact ⟨[], rfl, fun part hpart => absurd hpart List.not_mem_nil⟩

/-- Selecting in a slot leaves the store as it is. -/
theorem slotCandidates_plain (hp : PlainLiteral .slot p) (hnode : s.Legible node) :
    ∃ parts, slotCandidates p node s = (parts, s) ∧ ∀ part ∈ parts, Selectable s .slot p part := by
  rw [slotCandidates, StoreM.run_bind, StoreM.run_get]
  by_cases hi : s.isIndexed node = true
  · rw [if_pos hi]
    split
    · refine ⟨_, rfl, fun part hpart => ?_⟩
      obtain ⟨x, hx, rfl⟩ := Option.map_eq_some_iff.mp (Option.mem_toList.mp hpart)
      exact selectable_element hp hnode rfl hx
    · exact ⟨[], rfl, fun part hpart => absurd hpart List.not_mem_nil⟩
    · refine ⟨_, rfl, fun part hpart => ?_⟩
      obtain ⟨hmem, htaken⟩ := List.mem_filter.mp hpart
      obtain ⟨⟨x, i⟩, hposition, rfl⟩ := List.mem_map.mp hmem
      obtain ⟨hlt, hx⟩ := List.mem_zipIdx' hposition
      exact ⟨.index (hnode.fits_of_lt hlt), htaken,
        hnode.element hi (List.fst_mem_of_mem_zipIdx hposition)⟩
  · rw [if_neg hi]
    exact keyedCandidates_plain hp hnode

end Access

/-! ### What segments take -/

/-- A location that a segment of a plain pattern can take. -/
inductive Segment.Takes (s : Store) : Segment → Location → Prop where
  | access {accessor : Accessor} {p : KeyPattern} {first : Bool} {x : Scalar}
    (haccessor : accessor ≠ .attr) (hplain : (accessor.keyStep (.scalar x)).Plain)
    (htaken : s.keyMatches p (.scalar x) = true) :
    Takes s (.access accessor p none first) [accessor.keyStep (.scalar x)]
  | descent {first : Bool} {run : Location} (hne : run ≠ []) (hplain : ∀ step ∈ run, step.Plain) :
    Takes s (.recursive .wildcard [] .unbounded none first) run

/-- A location that segments share out among themselves, each taking its run of steps. -/
inductive Segment.TakeAll (s : Store) : List Segment → Location → Prop where
  | nil : TakeAll s [] []
  | cons {seg : Segment} {segs : List Segment} {run rest : Location} (h : seg.Takes s run)
    (hrest : TakeAll s segs rest) : TakeAll s (seg :: segs) (run ++ rest)

/-- The steps that a segment takes are plain. -/
theorem Segment.Takes.plain {s : Store} {seg : Segment} {run : Location} (h : seg.Takes s run) :
    ∀ step ∈ run, step.Plain := by
  cases h with
  | access _ hplain _ => exact fun step hstep => List.mem_singleton.mp hstep ▸ hplain
  | descent _ hplain => exact hplain

/-- A segment takes a step at least. -/
theorem Segment.Takes.ne_nil {s : Store} {seg : Segment} {run : Location} (h : seg.Takes s run) :
    run ≠ [] := by
  cases h with
  | access => exact List.cons_ne_nil _ _
  | descent hne => exact hne

theorem Segment.TakeAll.plain {s : Store} {segs : List Segment} {l : Location}
    (h : Segment.TakeAll s segs l) : ∀ step ∈ l, step.Plain := by
  induction h with
  | nil => exact nofun
  | cons h _ ih =>
    intro step hstep
    rcases List.mem_append.mp hstep with hstep | hstep
    · exact h.plain step hstep
    · exact ih step hstep

/-- Segments that take nothing are none. -/
theorem Segment.TakeAll.ne_nil {s : Store} {segs : List Segment} {l : Location}
    (h : Segment.TakeAll s segs l) (hne : segs ≠ []) : l ≠ [] := by
  cases h with
  | nil => exact absurd rfl hne
  | cons h _ => exact fun hnil => h.ne_nil (List.append_eq_nil_iff.mp hnil).1

/-! ### Walks -/

/-- At every legible value the walk ends well, changes nothing, and finds what is at locations of a
kind. -/
def Walk.Finds (s : Store) (takes : Location → Prop) (walk : Walk) : Prop :=
  ∀ base node, s.Legible node →
    ∃ found, walk base node s = (.ok ⟨found, false⟩, s) ∧
      ∀ p ∈ found, ∃ l, p.1 = base ++ l ∧ takes l

/-- Going on from some places. -/
theorem Walk.Finds.each {s : Store} {first takes : Location → Prop} {next : Walk}
    (hnext : next.Finds s takes) (base : Location) : ∀ {places : List Found},
    (∀ p ∈ places, first p.1 ∧ s.Legible p.2) →
    ∃ found, next.each base places s = (.ok ⟨found, false⟩, s) ∧
      ∀ p ∈ found, ∃ l l', p.1 = base ++ (l ++ l') ∧ first l ∧ takes l'
  | [], _ => ⟨[], rfl, nofun⟩
  | (l, v) :: places, hplaces => by
    obtain ⟨⟨hfirst, hlegible⟩, hothers⟩ := List.forall_mem_cons.mp hplaces
    obtain ⟨found, hrun, hfound⟩ := hnext (base ++ l) v hlegible
    obtain ⟨more, hrest, hmore⟩ := hnext.each base hothers
    refine ⟨found ++ more, ?_, fun p hp => ?_⟩
    · rw [Walk.each, Eval.run_bind_of_ok hrun, if_neg Bool.false_ne_true, Eval.run_bind_of_ok hrest]
      rfl
    · rcases List.mem_append.mp hp with hp | hp
      · obtain ⟨l', hl', htakes⟩ := hfound p hp
        exact ⟨l, l', by rw [hl', List.append_assoc], hfirst, htakes⟩
      · exact hmore p hp

namespace Context

variable {ctx : Context} {s : Store}

/-- A plain access finds places at the steps that it takes. -/
theorem items_plain (ctx : Context) {accessor : Accessor} {p : KeyPattern} (first : Bool)
    (haccessor : accessor ≠ .attr) {node : Value}
    (h : ∃ parts, candidates accessor p node s = (parts, s) ∧
      ∀ part ∈ parts, Selectable s accessor p part) :
    ∃ found, ctx.items (.access accessor p none first) node s = (.ok found, s) ∧
      ∀ q ∈ placesOf found,
        (Segment.access accessor p none first).Takes s q.1 ∧ s.Legible q.2 := by
  obtain ⟨parts, hrun, hparts⟩ := h
  refine ⟨_, ctx.items_of_candidates hrun, fun q hq => ?_⟩
  obtain ⟨item, hitem, rfl⟩ := List.mem_map.mp hq
  obtain ⟨part, hpart, rfl⟩ := List.mem_map.mp hitem
  obtain ⟨hplain, htaken, hlegible⟩ := hparts part ((firstOnly_sublist first parts).subset hpart)
  obtain ⟨x, hx, -⟩ := hplain.exists_scalar
  rw [hx] at hplain htaken
  have hstep : accessor.step s part.1 = accessor.keyStep (.scalar x) := by
    rw [hx]
    cases accessor with
    | attr => exact absurd rfl haccessor
    | _ => rfl
  refine ⟨?_, hlegible⟩
  show Segment.Takes s _ [accessor.step s part.1]
  rw [hstep]
  exact .access haccessor hplain htaken

/-- From a legible value a way goes on in a plain step, to a legible value. -/
theorem exit_plain {node : Value} (hnode : s.Legible node) {e : Step × Value}
    (he : e ∈ s.exits node) : e.1.Plain ∧ s.Legible e.2 := by
  rw [Store.exits] at he
  cases hc : s.container? node with
  | none =>
    rw [hc] at he
    cases he
  | some c =>
    rw [hc] at he
    refine ⟨?_, hnode.part ⟨c, hc, Container.mem_parts_of_mem_exits he⟩⟩
    have hposition {xs : List Value} (helements : s.elements node = xs)
        (he : e ∈ xs.zipIdx.map fun p : Value × Nat => (Step.slot (.int p.2), p.1)) :
        e.1.Plain := by
      subst helements
      obtain ⟨⟨x, i⟩, hmem, rfl⟩ := List.mem_map.mp he
      exact .index (hnode.fits_of_lt (List.mem_zipIdx' hmem).1)
    cases c with
    | list xs => exact hposition (Store.elements_of_list hc) he
    | tuple xs => exact hposition (Store.elements_of_tuple hc) he
    | dict es =>
      obtain ⟨e, hmem, rfl⟩ := List.mem_map.mp he
      obtain ⟨⟨k, hk, hplain⟩, -⟩ := hnode.entry hc hmem
      show (Step.key e.1).Plain
      rw [hk]
      exact .key hplain
    | set ms => cases he
    | frozenset ms => cases he
    | object name attrs frozen => cases he

/-- A place that a descent reports: a run of one or more plain steps leads to it from a location. -/
def Below (s : Store) (base : Location) (p : Found) : Prop :=
  ∃ run, p.1 = base ++ run ∧ run ≠ [] ∧ (∀ step ∈ run, step.Plain) ∧ s.Legible p.2

theorem Below.append {base run : Location} {p : Found} (hrun : ∀ step ∈ run, step.Plain)
    (h : Below s (base ++ run) p) : Below s base p := by
  obtain ⟨more, hp, hne, hplain, hlegible⟩ := h
  refine ⟨run ++ more, by rw [hp, List.append_assoc], by simp [hne], ?_, hlegible⟩
  exact List.forall_mem_append.mpr ⟨hrun, hplain⟩

/-- A descent to everything, or to the first place, goes through plain steps only. -/
theorem descend_legible (ctx : Context) (first : Bool) : ∀ (n : Nat) (above : List Handle)
    (base : Location) (depth : Nat) {node : Value} (found : List Found), s.Legible node →
    ∃ more, ctx.descend ⟨.wildcard, [], .unbounded, none, first⟩ n above base depth node found s =
      (.ok (found ++ more), s) ∧ ∀ p ∈ more, Below s base p
  | 0, _, _, _, _, found, _ => ⟨[], by rw [List.append_nil]; rfl, nofun⟩
  | n + 1, above, base, depth, node, found, hnode => by
    have hexits : ∀ (exits : List (Step × Value)) (found : List Found),
        (∀ e ∈ exits, e.1.Plain ∧ s.Legible e.2) →
        ∃ more, (exits.map fun e => (⟨e.1, e.2, true⟩ : Child)).foldlM
          (ctx.descendChild ⟨.wildcard, [], .unbounded, none, first⟩ n above base depth) found s =
            (.ok (found ++ more), s) ∧ ∀ p ∈ more, Below s base p := by
      intro exits
      induction exits with
      | nil => exact fun found _ => ⟨[], by rw [List.append_nil]; rfl, nofun⟩
      | cons e exits ih =>
        intro found hplain
        obtain ⟨⟨hstep, hlegible⟩, hothers⟩ := List.forall_mem_cons.mp hplain
        have hstep : ∀ step ∈ [e.1], step.Plain := fun step h => List.mem_singleton.mp h ▸ hstep
        have hhere : Below s base (base ++ [e.1], e.2) :=
          ⟨[e.1], rfl, List.cons_ne_nil _ _, hstep, hlegible⟩
        -- one exit: nothing after the first place, else the exit and what is below it
        have hchild : ∃ more, ctx.descendChild ⟨.wildcard, [], .unbounded, none, first⟩ n above base
            depth found ⟨e.1, e.2, true⟩ s = (.ok (found ++ more), s) ∧
              ∀ p ∈ more, Below s base p := by
          have hreports : ctx.reports ⟨.wildcard, [], .unbounded, none, first⟩ e.2 depth s =
              (.ok true, s) := rfl
          rw [descendChild]
          dsimp only
          split
          · exact ⟨[], by rw [List.append_nil]; rfl, nofun⟩
          rw [reportsChild, if_pos rfl, Eval.run_bind_of_ok hreports, if_pos rfl, enterChild]
          split
          · exact ⟨[_], rfl, fun p hp => List.mem_singleton.mp hp ▸ hhere⟩
          · obtain ⟨more, hrun, hmore⟩ := descend_legible ctx first n (e.2.handle?.toList ++ above)
              (base ++ [e.1]) (depth + 1) (found ++ [(base ++ [e.1], e.2)]) hlegible
            refine ⟨(base ++ [e.1], e.2) :: more, ?_, ?_⟩
            · rw [hrun, List.append_assoc, List.singleton_append]
            · exact List.forall_mem_cons.mpr ⟨hhere, fun p hp => (hmore p hp).append hstep⟩
        obtain ⟨more, hrun, hmore⟩ := hchild
        obtain ⟨rest, hrest, hbelow⟩ := ih (found ++ more) hothers
        refine ⟨more ++ rest, ?_, List.forall_mem_append.mpr ⟨hmore, hbelow⟩⟩
        rw [List.map_cons, List.foldlM_cons, Eval.run_bind_of_ok hrun, hrest, List.append_assoc]
    rw [descend_succ, Eval.run_bind_of_ok (children_takesAll ⟨rfl, rfl⟩ node)]
    exact hexits _ found fun e he => exit_plain hnode he

/-- A recursive segment finds places in plain steps. -/
theorem collect_plainSteps (ctx : Context) (first : Bool) {node : Value} (hnode : s.Legible node) :
    ∃ found, ctx.collect ⟨.wildcard, [], .unbounded, none, first⟩ node s = (.ok found, s) ∧
      ∀ p ∈ found, (Segment.recursive .wildcard [] .unbounded none first).Takes s p.1 ∧
        s.Legible p.2 := by
  obtain ⟨found, hrun, hfound⟩ :=
    descend_legible ctx first (s.size + 2) node.handle?.toList [] 0 [] hnode
  refine ⟨firstOnly first found, ?_, fun p hp => ?_⟩
  · rw [collect, Eval.run_bind_of_ok (Eval.run_store s), Eval.run_bind_of_ok hrun]
    rfl
  · obtain ⟨run, hp, hne, hplain, hlegible⟩ := hfound p ((firstOnly_sublist first found).subset hp)
    rw [hp]
    exact ⟨.descent hne hplain, hlegible⟩

/-- Reading a segment of a plain pattern finds the places that come after it. -/
theorem walkSegment_finds {seg : Segment} (hseg : seg.PlainPattern) {takes : Location → Prop}
    {next : Walk} (hnext : next.Finds s takes) :
    (ctx.walkSegment seg next).Finds s fun l =>
      ∃ run rest, l = run ++ rest ∧ seg.Takes s run ∧ takes rest := by
  intro base node hnode
  -- what is selected first and what the rest of the path finds there make one location
  have hgo {places : List Found} (hplaces : ∀ p ∈ places, seg.Takes s p.1 ∧ s.Legible p.2) :
      ∃ found, next.each base places s = (.ok ⟨found, false⟩, s) ∧
        ∀ p ∈ found, ∃ l, p.1 = base ++ l ∧
          ∃ run rest, l = run ++ rest ∧ seg.Takes s run ∧ takes rest := by
    obtain ⟨found, hrun, hfound⟩ := hnext.each base hplaces
    refine ⟨found, hrun, fun p hp => ?_⟩
    obtain ⟨run, rest, hp, hruns, hrest⟩ := hfound p hp
    exact ⟨run ++ rest, hp, run, rest, rfl, hruns, hrest⟩
  cases hseg with
  | @key p first h =>
    obtain ⟨found, hrun, hfound⟩ := items_plain ctx first (by decide : Accessor.key ≠ .attr)
      (keyedCandidates_plain h hnode)
    obtain ⟨places, heach, hplaces⟩ := hgo hfound
    refine ⟨places, ?_, hplaces⟩
    show (do next.each base (placesOf (← ctx.items (.access .key p none first) node))) s = _
    rw [Eval.run_bind_of_ok hrun, heach]
  | @slot p first h =>
    obtain ⟨found, hrun, hfound⟩ := items_plain ctx first (by decide : Accessor.slot ≠ .attr)
      (slotCandidates_plain h hnode)
    obtain ⟨places, heach, hplaces⟩ := hgo hfound
    refine ⟨places, ?_, hplaces⟩
    show (do next.each base (placesOf (← ctx.items (.access .slot p none first) node))) s = _
    rw [Eval.run_bind_of_ok hrun, heach]
  | descent first =>
    obtain ⟨found, hrun, hfound⟩ := collect_plainSteps ctx first hnode
    obtain ⟨places, heach, hplaces⟩ := hgo hfound
    refine ⟨places, ?_, hplaces⟩
    show (ctx.collect ⟨.wildcard, [], .unbounded, none, first⟩ node >>= next.each base) s = _
    rw [Eval.run_bind_of_ok hrun, heach]

/-- **Reading a plain pattern finds places at locations that its segments take.** -/
theorem walkPath_finds (ctx : Context) : ∀ {segs : List Segment}, (∀ seg ∈ segs, seg.PlainPattern) →
    (ctx.walkPath segs Walk.done).Finds s (Segment.TakeAll s segs)
  | [], _ => by
    rw [walkPath]
    exact fun base node _ =>
      ⟨[(base, node)], rfl, fun p hp =>
        ⟨[], by rw [List.mem_singleton.mp hp, List.append_nil], .nil⟩⟩
  | seg :: segs, hsegs => by
    obtain ⟨hseg, hothers⟩ := List.forall_mem_cons.mp hsegs
    rw [walkPath]
    intro base node hnode
    obtain ⟨found, hrun, hfound⟩ :=
      walkSegment_finds hseg (walkPath_finds ctx hothers) base node hnode
    refine ⟨found, hrun, fun p hp => ?_⟩
    obtain ⟨l, hp, run, rest, rfl, hruns, hrest⟩ := hfound p hp
    exact ⟨run ++ rest, hp, .cons hruns hrest⟩

end Context

end DottedPath
