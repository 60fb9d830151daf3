import DottedPath.Proofs.Path.PathText
import DottedPath.Proofs.Query.KeyTree
import DottedPath.Proofs.Value.Reach
import DottedPath.Query.Flat

/-!
# Flattening a tree of keys

A value shows a tree if its dicts hold what the tree says.  `leavesWithin_of_shows`: flattening such
a value finds the leaves of the tree.  On the way down no container is met again, because a value
shows one tree only (`shows_unique`) and each level shows a smaller one; so the bound on the levels
is never reached.
-/

namespace DottedPath

namespace KeyTree

mutual

/-- The value is what the tree describes: a leaf is that very value, without entries, and a node is
a dict with those entries in that order. -/
def Shows (s : Store) : KeyTree → Value → Prop
  | leaf x, v => v = x ∧ s.Holds v ∧ s.entries v = []
  | node es, v => ∃ h fs, v = .ref h ∧ s.get? h = some (.dict fs) ∧ EntriesShow s es fs

/-- The entries of a dict are those of a tree. -/
def EntriesShow (s : Store) : List (String × KeyTree) → List (Value × Value) → Prop
  | [], fs => fs = []
  | (key, t) :: es, fs =>
    ∃ v rest, fs = (.str key, v) :: rest ∧ Shows s t v ∧ EntriesShow s es rest

end

variable {s : Store}

theorem entries_of_get? {h : Handle} {fs : List (Value × Value)}
    (hd : s.get? h = some (.dict fs)) : s.entries (.ref h) = fs := by
  rw [Store.entries, Store.container?, Value.handle?, Option.bind_some, hd]

theorem EntriesShow.ne_nil {es : List (String × KeyTree)} {fs : List (Value × Value)}
    (h : EntriesShow s es fs) (hne : es ≠ []) : fs ≠ [] := by
  cases es with
  | nil => exact absurd rfl hne
  | cons e es =>
    obtain ⟨key, t⟩ := e
    rw [EntriesShow] at h
    obtain ⟨v, rest, rfl, -, -⟩ := h
    exact List.cons_ne_nil _ _

mutual

/-- A value shows one tree at most. -/
theorem shows_unique : ∀ (t u : KeyTree) {v : Value}, t.Plain → u.Plain → t.Shows s v →
    u.Shows s v → t = u
  | leaf x, leaf y, v, _, _, ht, hu => by
    rw [Shows] at ht hu
    rw [← ht.1, ← hu.1]
  -- a leaf has no entries, an inner node of a plain tree has some
  | leaf x, node es, v, _, hp, ht, hu => by
    rw [Plain] at hp
    rw [Shows] at ht
    rw [Shows] at hu
    obtain ⟨h, fs, rfl, hd, hes⟩ := hu
    rw [entries_of_get? hd] at ht
    exact absurd ht.2.2 (hes.ne_nil hp.1)
  | node es, leaf x, v, hp, _, ht, hu => by
    rw [Plain] at hp
    rw [Shows] at ht
    rw [Shows] at hu
    obtain ⟨h, fs, rfl, hd, hes⟩ := ht
    rw [entries_of_get? hd] at hu
    exact absurd hu.2.2 (hes.ne_nil hp.1)
  | node es, node es', v, hp, hp', ht, hu => by
    rw [Plain] at hp hp'
    rw [Shows] at ht hu
    obtain ⟨h, fs, rfl, hd, hes⟩ := ht
    obtain ⟨h', fs', hh, hd', hes'⟩ := hu
    cases hh
    rw [hd] at hd'
    cases hd'
    rw [entriesShow_unique es es' hp.2.2 hp'.2.2 hes hes']

theorem entriesShow_unique : ∀ (es es' : List (String × KeyTree)) {fs : List (Value × Value)},
    PlainEntries es → PlainEntries es' → EntriesShow s es fs → EntriesShow s es' fs → es = es'
  | [], [], _, _, _, _, _ => rfl
  | [], (key, t) :: es', fs, _, _, h, h' => by
    rw [EntriesShow] at h
    exact absurd h (h'.ne_nil (List.cons_ne_nil _ _))
  | (key, t) :: es, [], fs, _, _, h, h' => by
    rw [EntriesShow] at h'
    exact absurd h' (h.ne_nil (List.cons_ne_nil _ _))
  | (key, t) :: es, (key', t') :: es', fs, hp, hp', h, h' => by
    rw [PlainEntries] at hp hp'
    rw [EntriesShow] at h h'
    obtain ⟨v, rest, rfl, hv, hrest⟩ := h
    obtain ⟨v', rest', he, hv', hrest'⟩ := h'
    cases he
    rw [shows_unique t t' hp.2.1 hp'.2.1 hv hv', entriesShow_unique es es' hp.2.2 hp'.2.2 hrest hrest']

end

/-! ### The way down -/

/-- The handle of a dict, and the number of dicts in the tree that it shows. -/
def Ranked (s : Store) (h : Handle) (n : Nat) : Prop :=
  ∃ t : KeyTree, t.Plain ∧ t.Shows s (.ref h) ∧ t.dicts = n

theorem eq_dicts_of_ranked {t : KeyTree} {h : Handle} (hp : t.Plain) (hs : t.Shows s (.ref h))
    (n : Nat) (hn : Ranked s h n) : n = t.dicts := by
  obtain ⟨u, hpu, hsu, rfl⟩ := hn
  rw [shows_unique t u hp hpu hs hsu]

theorem lt_size_of_ranked (h : Handle) (n : Nat) (hn : Ranked s h n) (hpos : 0 < n) :
    h.index < s.size := by
  obtain ⟨t, -, hs, rfl⟩ := hn
  cases t with
  | leaf x =>
    rw [dicts] at hpos
    exact absurd hpos (Nat.lt_irrefl _)
  | node es =>
    rw [Shows] at hs
    obtain ⟨g, fs, he, hd, -⟩ := hs
    cases he
    exact Store.lt_size_of_get? hd

/-! ### Leaves -/

/-- Leaves of a tree as what a descent from a location reports. -/
def located (base : Location) (ps : List (List String × Value)) : List Found :=
  ps.map fun (keys, x) => (base ++ keyLocation keys, x)

theorem located_nil (base : Location) (x : Value) : located base [([], x)] = [(base, x)] := by
  simp [located, keyLocation]

theorem located_under (base : Location) (key : String) (ps : List (List String × Value)) :
    located (base ++ [.key (.str key)]) ps =
      located base (ps.map fun (keys, x) => (key :: keys, x)) := by
  simp [located, keyLocation]

mutual

/-- **Flattening a value that shows a tree finds the leaves of the tree.** -/
theorem leavesWithin_of_shows : ∀ (t : KeyTree) (base : Location) {above : List Handle}
    {v : Value} {n : Nat}, t.Plain → t.Shows s v → Store.Trail (Ranked s) above t.dicts →
    n + above.length = s.size + 2 → (base.isEmpty && s.isKeyed v && (s.entries v).isEmpty) = false →
    s.leavesWithin n above base v = located base t.leaves
  | leaf x, base, above, v, n, _, hs, htrail, hn, hbase => by
    have hle := htrail.length_le lt_size_of_ranked
    obtain ⟨n, rfl⟩ : ∃ m, n = m + 1 := ⟨n - 1, by omega⟩
    rw [Shows] at hs
    obtain ⟨rfl, -, hentries⟩ := hs
    rw [hentries, List.isEmpty_nil, Bool.and_true] at hbase
    rw [Store.leavesWithin, hentries, List.isEmpty_nil, Bool.true_or, if_pos rfl, hbase,
      if_neg Bool.false_ne_true, leaves, located_nil]
  | node es, base, above, v, n, hp, hs, htrail, hn, _ => by
    have hle := htrail.length_le lt_size_of_ranked
    obtain ⟨n, rfl⟩ : ∃ m, n = m + 1 := ⟨n - 1, by omega⟩
    have hshows := hs
    rw [Shows] at hs
    obtain ⟨h, fs, rfl, hd, hes⟩ := hs
    have hunique := eq_dicts_of_ranked hp hshows
    -- trees above have more dicts than this one, so its handle is none of theirs
    have hmem := htrail.not_mem hunique
    have hcons := htrail.cons hunique ⟨node es, hp, hshows, rfl⟩
      (show entryDicts es < (node es).dicts by rw [dicts]; omega)
    rw [Plain] at hp
    have hempty : fs.isEmpty = false := by
      rw [List.isEmpty_eq_false_iff]
      exact hes.ne_nil hp.1
    have habove : (Value.ref h).handle?.any above.contains = false := by
      rw [Value.handle?, Option.any_some]
      simpa using hmem
    rw [Store.leavesWithin, entries_of_get? hd, hempty, habove, Bool.false_or,
      if_neg Bool.false_ne_true, leaves]
    exact leavesWithin_of_entriesShow es base hp.2.2 hd hes hcons
      (by rw [List.length_append]; show n + (1 + above.length) = _; omega)

theorem leavesWithin_of_entriesShow : ∀ (es : List (String × KeyTree)) (base : Location)
    {above : List Handle} {h : Handle} {all fs : List (Value × Value)} {n : Nat}, PlainEntries es →
    s.get? h = some (.dict all) → EntriesShow s es fs → Store.Trail (Ranked s) above (entryDicts es) →
    n + above.length = s.size + 2 →
    (fs.flatMap fun (k, v) => s.leavesWithin n above (base ++ [s.entryStep (.ref h) k]) v) =
      located base (entryLeaves es)
  | [], _, _, _, _, fs, _, _, _, hes, _, _ => by
    rw [EntriesShow] at hes
    rw [hes, entryLeaves]
    rfl
  | (key, t) :: es, base, above, h, all, fs, n, hp, hd, hes, htrail, hn => by
    rw [PlainEntries] at hp
    rw [EntriesShow] at hes
    obtain ⟨v, rest, rfl, hv, hrest⟩ := hes
    rw [entryDicts] at htrail
    have hstep : s.entryStep (.ref h) (.str key) = .key (.str key) := by
      have hkind : s.isAttributed (.ref h) = false := by
        rw [Store.isAttributed, Store.kind, hd]
        rfl
      show (if s.isAttributed (.ref h) then Step.attr key else .key (.str key)) = _
      rw [hkind, if_neg Bool.false_ne_true]
    have hhere := leavesWithin_of_shows t (base ++ [.key (.str key)]) hp.2.1 hv
      (htrail.mono (by omega)) hn (by simp)
    have hmore := leavesWithin_of_entriesShow es base hp.2.2 hd hrest
      (htrail.mono (by omega)) hn
    rw [List.flatMap_cons, hmore]
    show s.leavesWithin n above (base ++ [s.entryStep (.ref h) (.str key)]) v ++ _ = _
    rw [hstep, hhere, located_under, entryLeaves, located, located, located, List.map_append]

end

/-! ### Pairs -/

end KeyTree

end DottedPath
