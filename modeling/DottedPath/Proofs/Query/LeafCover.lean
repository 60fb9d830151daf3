import DottedPath.Proofs.Evaluate.ChosenSlots
import DottedPath.Proofs.Evaluate.Reported
import DottedPath.Proofs.Query.Expansion
import DottedPath.Query.Flat

/-!
# Flattening covers every route

A route is a location of dict keys and attributes that can be looked up one after the other
(`Store.Route`).  Flattening reports routes, and for any route into a value there is one among them
that it leads to or that leads to it, although the value may hold itself or share its parts.  Of two
reported routes neither leads to the other, since they part at two different keys of a dict or at two
attributes of an object.  Only an empty dict as the whole value has no leaf.

On the way down no container is entered twice, so the way is no longer than the store is large.  This
is the invariant of the descent: the containers above are different ones, and with the levels that are
left they are more than the store has (`Store.Descending`).

## Main statements

- `Store.leavesWithin_covers`: what the leaves below a value are.
- `Context.unpack_covers`: flattening ends, and what it reports covers the value without overlaps.
-/

namespace DottedPath

/-- A location of dict keys and attributes that leads from a value to a value. -/
inductive Store.Route (s : Store) : Value → Location → Value → Prop where
  | here (v : Value) : Route s v [] v
  | key {node k x l v} (hk : s.IsKey k) (hget : s.dictGet? node k = some x)
    (rest : Route s x l v) : Route s node (.key k :: l) v
  | attr {node name x l v} (hget : s.attrGet? node name = some x) (rest : Route s x l v) :
    Route s node (.attr name :: l) v

variable {ctx : Context} {inside : Handle → Prop} {s : Store} {node root k x v : Value}
  {base l : Location}

namespace Store

/-! ### Entries -/

theorem entryStep_of_dict {es : List (Value × Value)} (hc : s.container? node = some (.dict es)) :
    s.entryStep node k = .key k := by
  have hkind : s.isAttributed node = false := by
    cases node with
    | scalar a => cases hc
    | ref h =>
      have hget : s.get? h = some (.dict es) := hc
      rw [isAttributed, kind, hget]
      rfl
  unfold entryStep
  split
  · rw [hkind]
    rfl
  · rfl

theorem entryStep_of_object {name attr : String} {attrs : List (String × Value)} {frozen : Bool}
    (hc : s.container? node = some (.object name attrs frozen)) :
    s.entryStep node (.str attr) = .attr attr := by
  have hkind : s.isAttributed node = true := by
    cases node with
    | scalar a => cases hc
    | ref h =>
      have hget : s.get? h = some (.object name attrs frozen) := hc
      rw [isAttributed, kind, hget]
      rfl
  exact if_pos hkind

/-- A value with entries is a dict or an object. -/
theorem container?_of_entries (h : s.entries node ≠ []) :
    (∃ es, s.container? node = some (.dict es) ∧ s.entries node = es) ∨
      ∃ name attrs frozen, s.container? node = some (.object name attrs frozen) ∧
        s.entries node = attrs.map fun p => (.str p.1, p.2) := by
  unfold entries at h ⊢
  split at h
  · next es hc => exact .inl ⟨es, hc, rfl⟩
  · next name attrs frozen hc => exact .inr ⟨name, attrs, frozen, hc, rfl⟩
  · exact absurd rfl h

/-- The steps to two entries are different ones. -/
theorem entries_apart (hg : s.ValueGraph inside) (hnode : node.Inside inside) :
    (s.entries node).Pairwise fun a b =>
      (s.entryStep node a.1).sameChild s (s.entryStep node b.1) = false := by
  by_cases hne : s.entries node = []
  · rw [hne]
    exact .nil
  rcases container?_of_entries hne with ⟨es, hc, hes⟩ | ⟨name, attrs, frozen, hc, hes⟩
  · obtain ⟨g, rfl, hinside, hd⟩ := Tame.of_dict (.inl hnode) hc
    have hkeys := hg.keys g es hinside hd
    rw [hes]
    refine (hg.distinct g es hinside hd).imp_of_mem fun {a b} ha hb hab => ?_
    rw [entryStep_of_dict hc, entryStep_of_dict hc]
    show s.equals a.1 b.1 = false
    rw [equals, equalsWithin_comm _ (hkeys a ha) (hkeys b hb)]
    exact ((hkeys b hb).findsKey_eq (hkeys a ha) 1).trans hab
  · obtain ⟨g, rfl, hinside, ho⟩ := Tame.of_object (.inl hnode) hc
    have hnames := hg.names g name attrs frozen hinside ho
    rw [hes, List.pairwise_map]
    refine (List.pairwise_map.mp hnames).imp fun {a b} hab => ?_
    rw [entryStep_of_object hc, entryStep_of_object hc]
    exact beq_eq_false_iff_ne.mpr hab

/-- The step to an entry leads to its value. -/
theorem entry_leads (ctx : Context) (hg : s.ValueGraph inside) (hnode : node.Inside inside)
    (hmem : (k, x) ∈ s.entries node) :
    x.Inside inside ∧ ctx.Place inside s node ([s.entryStep node k], x) ∧
      ∀ l v, s.Route x l v → s.Route node (s.entryStep node k :: l) v := by
  rcases container?_of_entries (List.ne_nil_of_mem hmem) with
    ⟨es, hc, hes⟩ | ⟨name, attrs, frozen, hc, hes⟩
  · rw [hes] at hmem
    obtain ⟨g, rfl, hinside, hd⟩ := Tame.of_dict (.inl hnode) hc
    have hkeys := hg.keys g es hinside hd
    have hfound := Context.lookup?_of_mem hkeys (hg.distinct g es hinside hd) hmem
    have hcandidate : Candidate s (.ref g) .key .wildcard (k, x) := .entry (by decide) hc hmem
    rw [entryStep_of_dict hc]
    refine ⟨Tame.inside_of_mem_entries hg hinside hd hmem,
      (Context.reaches_of_candidate hg (.inl hnode) hcandidate).place, fun l v => ?_⟩
    refine .key (hkeys _ hmem) ?_
    rw [dictGet?, hc]
    exact hfound
  · rw [hes] at hmem
    obtain ⟨⟨attr, y⟩, hattr, heq⟩ := List.mem_map.mp hmem
    cases heq
    obtain ⟨g, rfl, hinside, ho⟩ := Tame.of_object (.inl hnode) hc
    have hfound := lookup_of_mem_nodup (hg.names g name attrs frozen hinside ho) hattr
    have hcandidate : Candidate s (.ref g) .attr .wildcard (.str attr, y) := .attr hc hattr
    rw [entryStep_of_object hc]
    refine ⟨Tame.inside_of_mem_attrs hg hinside ho hattr,
      (Context.reaches_of_candidate hg (.inl hnode) hcandidate).place, fun l v => ?_⟩
    refine .attr ?_
    rw [attrGet?, hc]
    exact hfound

/-- A route goes on into an entry, by a step to the same part. -/
theorem Route.entry (hg : s.ValueGraph inside) (hnode : node.Inside inside) {step : Step}
    (h : s.Route node (step :: l) v) :
    ∃ k x, (k, x) ∈ s.entries node ∧ step.sameChild s (s.entryStep node k) = true ∧
      s.Route x l v := by
  cases h with
  | @key _ k x _ _ hk hget rest =>
    unfold dictGet? at hget
    split at hget
    · next es hc =>
      obtain ⟨g, rfl, hinside, hd⟩ := Tame.of_dict (.inl hnode) hc
      obtain ⟨⟨k', y⟩, hfind, rfl⟩ := Option.map_eq_some_iff.mp hget
      have hmem := List.mem_of_find?_eq_some hfind
      have hfinds : s.findsKey es.length k k' = true := by
        have := List.find?_some hfind
        exact this
      refine ⟨k', y, ?_, ?_, rest⟩
      · rwa [entries, hc]
      · rw [entryStep_of_dict hc]
        -- a single key is compared by equality alone, which for keys without doubles is the same
        have hk' := hg.keys g es hinside hd _ hmem
        exact (hk.findsKey_eq hk' 1).trans ((hk.findsKey_eq hk' es.length).symm.trans hfinds)
    · cases hget
  | @attr _ name x _ _ hget rest =>
    unfold attrGet? at hget
    split at hget
    · next oname attrs frozen hc =>
      refine ⟨.str name, x, ?_, ?_, rest⟩
      · rw [entries, hc]
        obtain ⟨before, after, rfl, -⟩ := List.lookup_eq_some_iff.mp hget
        exact List.mem_map.mpr ⟨(name, x), by simp, rfl⟩
      · rw [entryStep_of_object hc]
        exact beq_self_eq_true name
    · cases hget

/-! ### The way down -/

/-- The descent does not go on into the value. -/
def stopsAt (s : Store) (above : List Handle) (node : Value) : Bool :=
  (s.entries node).isEmpty || node.handle?.any above.contains

/-- The leaves below the entries of a value. -/
def entryLeaves (s : Store) (n : Nat) (above : List Handle) (base : Location) (node : Value) :
    List Found :=
  (s.entries node).flatMap fun p =>
    s.leavesWithin n (node.handle?.toList ++ above) (base ++ [s.entryStep node p.1]) p.2

theorem leavesWithin_succ (n : Nat) (above : List Handle) (base : Location) (node : Value) :
    s.leavesWithin (n + 1) above base node =
      if s.stopsAt above node then
        if base.isEmpty && s.isKeyed node then [] else [(base, node)]
      else s.entryLeaves n above base node := rfl

/-- Different containers of the store have been entered, and with the levels that are left they are
more than the store has. -/
structure Descending (s : Store) (n : Nat) (above : List Handle) : Prop where
  nodup : above.Nodup
  there : ∀ h ∈ above, h.index < s.size
  enough : s.size < n + above.length

theorem Descending.pos {n : Nat} {above : List Handle} (h : s.Descending n above) : n ≠ 0 := by
  have hle := length_le_size h.nodup h.there
  have henough := h.enough
  omega

/-- The descent goes on into a container that has not been entered. -/
theorem Descending.enter {n : Nat} {above : List Handle} (h : s.Descending (n + 1) above)
    (hstops : s.stopsAt above node = false) :
    s.Descending n (node.handle?.toList ++ above) := by
  rw [stopsAt, Bool.or_eq_false_iff, List.isEmpty_eq_false_iff] at hstops
  cases node with
  | scalar a =>
    obtain ⟨_, hc, -⟩ | ⟨_, _, _, hc, -⟩ := container?_of_entries hstops.1 <;> cases hc
  | ref g =>
    have hnew : g ∉ above := by simpa [Value.handle?] using hstops.2
    have hlt : g.index < s.size := by
      obtain ⟨_, hc, -⟩ | ⟨_, _, _, hc, -⟩ := container?_of_entries hstops.1
      · exact lt_size_of_get? hc
      · exact lt_size_of_get? hc
    have henough := h.enough
    refine ⟨List.nodup_cons.mpr ⟨hnew, h.nodup⟩, List.forall_mem_cons.mpr ⟨hlt, h.there⟩, ?_⟩
    show s.size < n + (above.length + 1)
    omega

/-- **The descent ends**: more levels than the containers that are left do not change what it
finds. -/
theorem leavesWithin_enough : ∀ (n : Nat) {m : Nat} {above : List Handle} (base : Location)
    (node : Value), s.Descending n above → n ≤ m →
    s.leavesWithin m above base node = s.leavesWithin n above base node
  | 0, _, _, _, _, hdescending, _ => absurd rfl hdescending.pos
  | n + 1, 0, _, _, _, _, hle => absurd hle (Nat.not_succ_le_zero n)
  | n + 1, m + 1, above, base, node, hdescending, hle => by
    rw [leavesWithin_succ, leavesWithin_succ]
    by_cases hstops : s.stopsAt above node = true
    · rw [if_pos hstops, if_pos hstops]
    · rw [if_neg hstops, if_neg hstops, entryLeaves, entryLeaves]
      refine List.flatMap_congr fun p _ => ?_
      exact leavesWithin_enough n _ p.2 (hdescending.enter (Bool.not_eq_true _ ▸ hstops))
        (Nat.le_of_succ_le_succ hle)

/-! ### What the leaves are -/

/-- Locations that part behind a common beginning do not overlap. -/
theorem overlaps_append_false (base : Location) {l m : Location}
    (h : Location.overlaps s l m = false) : Location.overlaps s (base ++ l) (base ++ m) = false := by
  induction base with
  | nil => exact h
  | cons step base ih =>
    rw [List.cons_append, List.cons_append, Location.overlaps, ih, Bool.and_false]

/-- Leaves below a value at a location: each of them is really there, none leads to another, and for
each route into the value there is one that it leads to or that leads to it. -/
structure Covers (ctx : Context) (inside : Handle → Prop) (s : Store) (base : Location)
    (node : Value) (found : List Found) : Prop where
  real : ∀ p ∈ found, ∃ l, p.1 = base ++ l ∧ ctx.Place inside s node (l, p.2) ∧ s.Route node l p.2
  apart : found.Pairwise fun p q => Location.overlaps s p.1 q.1 = false
  covered : ∀ l v, s.Route node l v →
    ∃ p ∈ found, ∃ m, p.1 = base ++ m ∧ Location.overlaps s l m = true

/-- A leaf covers itself. -/
theorem Covers.leaf (ctx : Context) (base : Location) (hnode : node.Inside inside) :
    Covers ctx inside s base node [(base, node)] where
  real p hp := by
    obtain rfl := List.mem_singleton.mp hp
    exact ⟨[], (List.append_nil base).symm, .here (.inl hnode), .here node⟩
  apart := List.pairwise_singleton _ _
  covered l v _ := by
    refine ⟨(base, node), List.mem_singleton_self _, [], (List.append_nil base).symm, ?_⟩
    cases l <;> rfl

/-- What covers the entries of a value covers the value. -/
theorem Covers.entries (hg : s.ValueGraph inside) (hnode : node.Inside inside)
    (hne : s.entries node ≠ []) {found : Value × Value → List Found}
    (h : ∀ p ∈ s.entries node,
      Covers ctx inside s (base ++ [s.entryStep node p.1]) p.2 (found p)) :
    Covers ctx inside s base node ((s.entries node).flatMap found) where
  real q hq := by
    obtain ⟨⟨k, x⟩, hp, hq⟩ := List.mem_flatMap.mp hq
    obtain ⟨-, hplace, hroute⟩ := entry_leads ctx hg hnode hp
    obtain ⟨l, hl, hleads, hrest⟩ := (h (k, x) hp).real q hq
    exact ⟨s.entryStep node k :: l, by rw [hl, List.append_assoc]; rfl, hplace.append hleads,
      hroute l q.2 hrest⟩
  apart := by
    refine List.pairwise_flatMap.mpr ⟨fun p hp => (h p hp).apart, ?_⟩
    -- Leaves below two entries part at the steps to these.
    refine (entries_apart hg hnode).imp_of_mem fun {a b} ha hb hab p hp q hq => ?_
    obtain ⟨l, hl, -⟩ := (h a ha).real p hp
    obtain ⟨m, hm, -⟩ := (h b hb).real q hq
    rw [hl, hm, List.append_assoc, List.append_assoc]
    refine overlaps_append_false base ?_
    show ((s.entryStep node a.1).sameChild s (s.entryStep node b.1) && _) = false
    rw [hab, Bool.false_and]
  covered l v hroute := by
    cases l with
    | nil =>
      -- The value itself leads to any of its leaves.
      obtain ⟨⟨k, x⟩, hp⟩ := List.exists_mem_of_ne_nil _ hne
      obtain ⟨q, hq, m, hm, -⟩ := (h (k, x) hp).covered [] x (.here x)
      exact ⟨q, List.mem_flatMap.mpr ⟨_, hp, hq⟩, s.entryStep node k :: m,
        by rw [hm, List.append_assoc]; rfl, rfl⟩
    | cons step l =>
      obtain ⟨k, x, hp, hsame, hrest⟩ := hroute.entry hg hnode
      obtain ⟨q, hq, m, hm, hoverlaps⟩ := (h (k, x) hp).covered l v hrest
      refine ⟨q, List.mem_flatMap.mpr ⟨_, hp, hq⟩, s.entryStep node k :: m,
        by rw [hm, List.append_assoc]; rfl, ?_⟩
      rw [Location.overlaps, hsame, hoverlaps]
      rfl

/-- **The leaves below a value cover it**, unless it is a dict that is passed over. -/
theorem leavesWithin_covers (ctx : Context) (hg : s.ValueGraph inside) : ∀ (n : Nat)
    {above : List Handle} (base : Location) {node : Value}, s.Descending n above →
    node.Inside inside → (base = [] → s.isKeyed node = true → s.stopsAt above node = false) →
    Covers ctx inside s base node (s.leavesWithin n above base node)
  | 0, _, _, _, hdescending, _, _ => absurd rfl hdescending.pos
  | n + 1, above, base, node, hdescending, hnode, hroot => by
    rw [leavesWithin_succ]
    by_cases hstops : s.stopsAt above node = true
    · have hreported : ¬(base.isEmpty && s.isKeyed node) = true := by
        rw [Bool.and_eq_true, List.isEmpty_iff]
        rintro ⟨hbase, hkeyed⟩
        rw [hroot hbase hkeyed] at hstops
        cases hstops
      rw [if_pos hstops, if_neg hreported]
      exact .leaf ctx base hnode
    · have hstops : s.stopsAt above node = false := Bool.not_eq_true _ ▸ hstops
      have hne : s.entries node ≠ [] := by
        rw [stopsAt, Bool.or_eq_false_iff, List.isEmpty_eq_false_iff] at hstops
        exact hstops.1
      rw [if_neg (by simp [hstops])]
      refine .entries hg hnode hne fun p hp => ?_
      exact leavesWithin_covers ctx hg n _ (hdescending.enter hstops)
        (entry_leads ctx hg hnode hp).1 (by simp)

end Store

/-- An empty dict has no leaves. -/
theorem Store.leaves_of_empty (hc : s.container? root = some (.dict [])) : s.leaves root = [] := by
  have hstops : s.stopsAt [] root = true := by
    rw [stopsAt, entries, hc]
    rfl
  rw [leaves, leavesWithin_succ, if_pos hstops, isKeyed_of_container? hc]
  rfl

/-- The leaves of any other value cover it. -/
theorem Store.leaves_cover (ctx : Context) (hg : s.ValueGraph inside) (hroot : root.Inside inside)
    (hne : s.container? root ≠ some (.dict [])) :
    Covers ctx inside s [] root (s.leaves root) := by
  refine leavesWithin_covers ctx hg _ [] ⟨.nil, by simp, by simp⟩ hroot fun _ hkeyed => ?_
  obtain ⟨es, hc⟩ := container?_of_isKeyed hkeyed
  have hes : es ≠ [] := fun hes => hne (hes ▸ hc)
  rw [stopsAt, entries, hc]
  cases root <;> simpa [Value.handle?] using hes

/-- What goes through keys and attributes ends in no slice. -/
theorem Store.Route.endsInSliceFrom (h : s.Route root l v) : l.endsInSliceFrom false = false := by
  induction h with
  | here => rfl
  | key _ _ _ ih => exact ih
  | attr _ _ ih => exact ih

namespace Context

/-- A leaf is found, alone, by the path of its location. -/
theorem find_leaf (ctx : Context) (hg : s.ValueGraph inside) (hroot : root.Inside inside)
    {p : Found} (hp : p ∈ s.leaves root) :
    s.Route root p.1 p.2 ∧ ∃ l t,
      ctx.find (p.1.path s) root s = (.ok [(l, p.2)], t) ∧ p.1.same t l = true := by
  have hne : s.container? root ≠ some (.dict []) := by
    intro hempty
    rw [Store.leaves_of_empty hempty] at hp
    cases hp
  obtain ⟨l, hl, hplace, hroute⟩ := (Store.leaves_cover ctx hg hroot hne).real p hp
  obtain rfl : p.1 = l := hl
  -- Only behind a slice would the value that is found be another one.
  obtain ⟨l, v, t, hwalk, -, hsame, -, hexact⟩ := walkPath_of_leads hplace.leads (.refl s)
    false [] (.refl s) (.refl s root) fun _ => rfl
  obtain rfl := hexact hroute.endsInSliceFrom
  refine ⟨hroute, l, t, ?_, hsame t (.refl t)⟩
  rw [find, Eval.run_bind_of_ok hwalk]
  rfl

/-- The text that is reported with a leaf below plain keys is read back, and finds the leaf. -/
theorem find_leaf_text (ctx : Context) (hg : s.ValueGraph inside) (hroot : root.Inside inside)
    {p : Found} (hp : p ∈ s.leaves root) (hne : p.1 ≠ []) (hplain : ∀ step ∈ p.1, step.Plain) :
    ∃ e l t, PathExpression.parse (p.1.text s) = .ok e ∧
      ctx.find e.segments root s = (.ok [(l, p.2)], t) := by
  obtain ⟨-, l, t, hfind, -⟩ := find_leaf ctx hg hroot hp
  exact ⟨_, l, t, PathExpression.parse_text_of_plain hne hplain, hfind⟩

/-- **Flattening covers every route, without overlaps.**  The descent ends: more levels than there are
containers do not change what it finds.  No location that is reported leads to another one or is the
same.  Each is a route to the value that is reported with it, and its path finds this value alone.
Each route into the root is overlapped by a location that is reported, unless the root is an empty
dict, which has no leaves. -/
theorem unpack_covers (ctx : Context) (hg : s.ValueGraph inside) (hroot : root.Inside inside) :
    s.unpack root = (s.leaves root).map (fun p => (p.1.text s, p.2)) ∧
      (∀ n, s.size < n → s.leavesWithin n [] [] root = s.leaves root) ∧
      (s.leaves root).Pairwise (fun p q => Location.overlaps s p.1 q.1 = false) ∧
      (∀ p ∈ s.leaves root, s.Route root p.1 p.2 ∧ ∃ l t,
        ctx.find (p.1.path s) root s = (.ok [(l, p.2)], t) ∧ p.1.same t l = true) ∧
      (s.container? root = some (.dict []) → s.leaves root = []) ∧
      (s.container? root ≠ some (.dict []) → ∀ l v, s.Route root l v →
        ∃ p ∈ s.leaves root, Location.overlaps s l p.1 = true) := by
  have hstart (n : Nat) (hn : s.size < n) : s.Descending n [] := ⟨.nil, by simp, hn⟩
  have hends (n : Nat) (hn : s.size < n) : s.leavesWithin n [] [] root = s.leaves root := by
    rcases Nat.le_total n (s.size + 2) with hle | hle
    · exact (Store.leavesWithin_enough n [] root (hstart n hn) hle).symm
    · exact Store.leavesWithin_enough _ [] root (hstart (s.size + 2) (by omega)) hle
  refine ⟨rfl, hends, ?_⟩
  by_cases hempty : s.container? root = some (.dict [])
  · have hnone := Store.leaves_of_empty hempty
    rw [hnone]
    exact ⟨.nil, by simp, fun _ => rfl, fun hne => absurd hempty hne⟩
  · have hcover := Store.leaves_cover ctx hg hroot hempty
    refine ⟨hcover.apart, fun p hp => find_leaf ctx hg hroot hp, fun h => absurd h hempty,
      fun _ l v hroute => ?_⟩
    obtain ⟨p, hp, m, hm, hoverlaps⟩ := hcover.covered l v hroute
    obtain rfl : p.1 = m := hm
    exact ⟨p, hp, hoverlaps⟩

end Context

/-- A dict that holds an object twice, which holds the dict, and itself behind a tuple as its key. -/
def sharedStore : Store :=
  ⟨#[.dict [(.str "a", .ref ⟨1⟩), (.ref ⟨2⟩, .ref ⟨0⟩), (.null, .ref ⟨1⟩)],
    .object "Node" [("x", .int 1), ("up", .ref ⟨0⟩)] false, .tuple [.int 1, .bytes [0x41]]]⟩

/-- The handles of `sharedStore` are a graph. -/
theorem sharedStore_valueGraph : sharedStore.ValueGraph (·.index < 3) := by
  have hcells (h : Handle) (c : Container) (hh : h.index < 3) (hc : sharedStore.get? h = some c) :
      c = .dict [(.str "a", .ref ⟨1⟩), (.ref ⟨2⟩, .ref ⟨0⟩), (.null, .ref ⟨1⟩)] ∨
      c = .object "Node" [("x", .int 1), ("up", .ref ⟨0⟩)] false ∨
      c = .tuple [.int 1, .bytes [0x41]] := by
    obtain ⟨i⟩ := h
    match i, hh with
    | 0, _ => exact .inl (Option.some.inj hc).symm
    | 1, _ => exact .inr (.inl (Option.some.inj hc).symm)
    | 2, _ => exact .inr (.inr (Option.some.inj hc).symm)
  have htuple : sharedStore.IsKey (.ref ⟨2⟩) := by
    refine .tuple rfl fun v hv => ?_
    rcases List.mem_cons.mp hv with rfl | hv
    · exact .scalar (by decide)
    · obtain rfl := List.mem_singleton.mp hv
      exact .scalar (by decide)
  constructor
  · rintro ⟨i⟩ hi
    match i, hi with
    | 0, _ => exact ⟨_, rfl⟩
    | 1, _ => exact ⟨_, rfl⟩
    | 2, _ => exact ⟨_, rfl⟩
  · intro h c hh hc g hg
    rcases hcells h c hh hc with rfl | rfl | rfl <;>
      simp only [Container.parts, List.flatMap_cons, List.flatMap_nil, List.map_cons, List.map_nil,
        List.cons_append, List.nil_append, List.mem_cons, List.not_mem_nil, or_false] at hg
    · rcases hg with hg | hg | hg | hg | hg | hg <;> cases hg <;> decide
    · rcases hg with hg | hg <;> cases hg
      decide
    · rcases hg with hg | hg <;> cases hg
  · intro h es hh hc
    obtain rfl := Container.dict.inj ((hcells h _ hh hc).resolve_right (by rintro (⟨⟨⟩⟩ | ⟨⟨⟩⟩)))
    refine List.forall_mem_cons.mpr ⟨Store.IsKey.scalar (by decide), ?_⟩
    refine List.forall_mem_cons.mpr ⟨htuple, List.forall_mem_singleton.mpr ?_⟩
    exact Store.IsKey.scalar (by decide)
  · intro h es hh hc
    obtain rfl := Container.dict.inj ((hcells h _ hh hc).resolve_right (by rintro (⟨⟨⟩⟩ | ⟨⟨⟩⟩)))
    have hstr : sharedStore.sameKey .null (.str "a") = false := by
      rw [Store.sameKey, Store.comparisonDepth, Value.null, Value.str, Store.equalsWithin]
      decide
    have href (k : Value) (hk : k = .null ∨ k = .str "a") :
        sharedStore.sameKey (.ref ⟨2⟩) k = false ∧ sharedStore.sameKey k (.ref ⟨2⟩) = false := by
      rcases hk with rfl | rfl <;>
        simp [Store.sameKey, Store.comparisonDepth, Value.null, Value.str, Store.equalsWithin]
    refine .cons (List.forall_mem_cons.mpr ⟨(href _ (.inr rfl)).1, ?_⟩) ?_
    · exact List.forall_mem_singleton.mpr hstr
    · exact .cons (List.forall_mem_singleton.mpr (href _ (.inl rfl)).2) (List.pairwise_singleton _ _)
  · intro h name attrs frozen hh hc
    rcases hcells h _ hh hc with ⟨⟨⟩⟩ | ⟨⟨⟩⟩ | ⟨⟨⟩⟩
    decide

/-- What is reported of `sharedStore`: the object is gone through twice, and each time the dict in it
is a leaf, since it is being gone through.  A route that goes on through the dict leads beyond one of
these leaves. -/
theorem unpack_covers_shared :
    let found : List Found :=
      [([.key (.str "a"), .attr "x"], .int 1), ([.key (.str "a"), .attr "up"], .ref ⟨0⟩),
        ([.key (.ref ⟨2⟩)], .ref ⟨0⟩), ([.key .null, .attr "x"], .int 1),
        ([.key .null, .attr "up"], .ref ⟨0⟩)]
    sharedStore.leaves (.ref ⟨0⟩) = found ∧
      found.Pairwise (fun p q => Location.overlaps sharedStore p.1 q.1 = false) ∧
      (∃ l t, (⟨.builtin, false⟩ : Context).find (Location.path sharedStore [.key (.ref ⟨2⟩)])
        (.ref ⟨0⟩) sharedStore = (.ok [(l, .ref ⟨0⟩)], t)) ∧
      ∃ p ∈ found, Location.overlaps sharedStore
        [.key (.str "a"), .attr "up", .key (.str "a"), .attr "x"] p.1 = true := by
  intro found
  have hfound : sharedStore.leaves (.ref ⟨0⟩) = found := rfl
  have hroot : (Value.ref ⟨0⟩).Inside (·.index < 3) := by
    rintro h ⟨⟩
    decide
  obtain ⟨-, -, hapart, hreal, -, hcover⟩ :=
    Context.unpack_covers ⟨.builtin, false⟩ sharedStore_valueGraph hroot
  rw [hfound] at hapart hreal hcover
  refine ⟨hfound, hapart, ?_, ?_⟩
  · obtain ⟨-, l, t, hfind, -⟩ := hreal ([.key (.ref ⟨2⟩)], .ref ⟨0⟩) (by simp [found])
    exact ⟨l, t, hfind⟩
  · have hkey : sharedStore.IsKey (.str "a") := .scalar (by decide)
    have hget : sharedStore.dictGet? (.ref ⟨0⟩) (.str "a") = some (.ref ⟨1⟩) :=
      have hinside : (⟨0⟩ : Handle).index < 3 := by decide
      Context.lookup?_of_mem (sharedStore_valueGraph.keys ⟨0⟩ _ hinside rfl)
        (sharedStore_valueGraph.distinct ⟨0⟩ _ hinside rfl) (List.mem_cons_self ..)
    refine hcover (by rintro ⟨⟩) _ (.int 1) ?_
    exact .key hkey hget (.attr rfl (.key hkey hget (.attr rfl (.here _))))

end DottedPath
