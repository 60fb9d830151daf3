import DottedPath.Proofs.Query.Expansion
import DottedPath.Proofs.Query.Pack
import DottedPath.Proofs.Query.TreeLeaves

/-!
# Packing in any order

Values written at paths of which none is on the way to another build the same tree in whatever order
they come, but for the order of the entries.  The values themselves are not looked into: what is
built are the dicts above them, so the tree is taken down to the outline of the store.

## Main statements

* `pack_builds`: a value is packed from its pairs as the tree whose leaves they are.
* `pack_perm`: the order of the pairs shows in the order of entries only.
-/

namespace DottedPath

/-- The text is read as a path of literal text keys, without transforms. -/
def ReadsAsKeys (path : String) (keys : List String) : Prop :=
  PathExpression.parse path = .ok ⟨keys.map keySegment, []⟩

theorem ReadsAsKeys.ne_nil {path : String} {keys : List String} (h : ReadsAsKeys path keys) :
    keys ≠ [] := by
  rintro rfl
  exact PathExpression.segments_ne_nil h rfl

namespace Store

/-- The store with its containers emptied: which of them there are, but not what they hold. -/
def outline (s : Store) : Store := ⟨s.cells.map fun _ => .list []⟩

variable {s : Store} {v : Value}

@[simp] theorem size_outline (s : Store) : s.outline.size = s.size := by
  simp [outline, size]

theorem holds_outline (h : s.Holds v) : s.outline.Holds v := by
  intro g hg
  rw [size_outline]
  exact h g hg

theorem entries_outline (s : Store) (v : Value) : s.outline.entries v = [] := by
  cases v with
  | scalar x => rfl
  | ref h =>
    have hc : s.outline.container? (.ref h) = (s.get? h).map fun _ => .list [] := by
      show s.outline.get? h = _
      rw [get?, get?, outline, Array.getElem?_map]
    rw [entries, hc]
    cases s.get? h <;> rfl

/-- The value at some keys, going from dict to dict. -/
def valueAt? (s : Store) (v : Value) (keys : List String) : Option Value :=
  keys.foldlM (fun v key => s.dictGet? v (.str key)) v

mutual

/-- Two values, each in a store of its own, are the same up to the order of the entries of dicts.
The dicts are taken down to values of an original store, which have to be the same. -/
inductive Reordered (origin s t : Store) : Value → Value → Prop where
  | same {v : Value} (held : origin.Holds v) : Reordered origin s t v v
  | dict {g h : Handle} {es fs : List (Value × Value)} (left : s.get? g = some (.dict es))
      (right : t.get? h = some (.dict fs)) (entries : EntriesReordered origin s t es fs) :
      Reordered origin s t (.ref g) (.ref h)

/-- Each entry has one with the same key in the other dict, and their values are the same in this
sense. -/
inductive EntriesReordered (origin s t : Store) :
    List (Value × Value) → List (Value × Value) → Prop where
  | nil : EntriesReordered origin s t [] []
  | cons {k v w : Value} {es before after : List (Value × Value)}
      (value : Reordered origin s t v w)
      (rest : EntriesReordered origin s t es (before ++ after)) :
      EntriesReordered origin s t ((k, v) :: es) (before ++ (k, w) :: after)

end

end Store

namespace KeyTree

open Store (Reordered EntriesReordered)

variable {origin base s t : Store}

/-! ### Built trees with the same leaves -/

/-- No leaf of entries is without keys. -/
theorem nil_not_mem_entryLeaves {es : List (String × KeyTree)} {v : Value} :
    ([], v) ∉ entryLeaves es := by
  intro h
  obtain ⟨key, t, keys, -, -, hnil⟩ := head_mem_of_mem_entryLeaves h
  cases hnil

mutual

/-- Trees with the same leaves that are built in new dicts differ in the order of entries only. -/
theorem Built.reordered (hbase : origin.size ≤ base.size) : ∀ {u u' : KeyTree} {v w : Value}
    {own own' : List Handle}, Built origin s u v own → Built origin t u' w own' → u.Tidy →
    u'.Tidy → u.leaves.Perm u'.leaves → Reordered base s t v w
  | leaf x, leaf y, v, w, own, own', h, h', _, _, hperm => by
    rw [leaves, leaves, List.perm_singleton] at hperm
    cases hperm
    rw [Built] at h h'
    obtain ⟨rfl, -, hheld, -⟩ := h
    obtain ⟨rfl, -⟩ := h'
    exact .same fun g hg => Nat.lt_of_lt_of_le (hheld g hg) hbase
  | leaf x, node es, v, w, own, own', _, _, _, _, hperm => by
    rw [leaves, leaves] at hperm
    exact absurd (hperm.mem_iff.mp (List.mem_singleton_self _)) nil_not_mem_entryLeaves
  | node es, leaf x, v, w, own, own', _, _, _, _, hperm => by
    rw [leaves, leaves] at hperm
    exact absurd (hperm.mem_iff.mpr (List.mem_singleton_self _)) nil_not_mem_entryLeaves
  | node es, node es', v, w, own, own', h, h', htidy, htidy', hperm => by
    rw [Tidy] at htidy htidy'
    rw [leaves, leaves] at hperm
    rw [Built] at h h'
    obtain ⟨g, fs, below, rfl, -, -, hd, hes⟩ := h
    obtain ⟨g', gs, below', rfl, -, -, hd', hes'⟩ := h'
    exact .dict hd hd' (hes.reordered hbase hes' htidy.2 htidy'.2 hperm)

theorem EntriesBuilt.reordered (hbase : origin.size ≤ base.size) :
    ∀ {es es' : List (String × KeyTree)}
    {fs gs : List (Value × Value)} {own own' : List Handle}, EntriesBuilt origin s es fs own →
    EntriesBuilt origin t es' gs own' → TidyEntries es → TidyEntries es' →
    (entryLeaves es).Perm (entryLeaves es') → EntriesReordered base s t fs gs
  | [], [], fs, gs, own, own', h, h', _, _, _ => by
    rw [EntriesBuilt] at h h'
    rw [h.1, h'.1]
    exact .nil
  | [], (key, u) :: es', fs, gs, own, own', _, _, _, htidy', hperm => by
    rw [TidyEntries] at htidy'
    rw [entryLeaves, entryLeaves, List.nil_perm, List.append_eq_nil_iff, List.map_eq_nil_iff]
      at hperm
    exact absurd hperm.1 htidy'.2.1.leaves_ne_nil
  | (key, u) :: es, es', fs, gs, own, own', h, h', htidy, htidy', hperm => by
    -- the other tree has an entry with this key, since it has a leaf below it
    obtain ⟨u', hmem⟩ : ∃ u', (key, u') ∈ es' := by
      have htidyu := htidy
      rw [TidyEntries] at htidyu
      obtain ⟨⟨keys, x⟩, hleaf⟩ := List.exists_mem_of_ne_nil _ htidyu.2.1.leaves_ne_nil
      have hleaf' := hperm.mem_iff.mp (mem_entryLeaves (List.mem_cons_self ..) hleaf)
      obtain ⟨other, u', keys', hmem, -, hkeys⟩ := head_mem_of_mem_entryLeaves hleaf'
      cases hkeys
      exact ⟨u', hmem⟩
    obtain ⟨before, after, rfl⟩ := List.append_of_mem hmem
    have hfirst : TidyEntries ([] ++ (key, u) :: es) := htidy
    obtain ⟨hbelow, hothers⟩ := hfirst.filter_isBelow
    obtain ⟨hbelow', hothers'⟩ := htidy'.filter_isBelow
    have hleaves : u.leaves.Perm u'.leaves := by
      have hbelows := hperm.filter (isBelow key)
      rw [List.nil_append] at hbelow
      rw [hbelow, hbelow'] at hbelows
      have htails := hbelows.map fun p => (p.1.tail, p.2)
      have hid : (fun p : List String × Value => (p.1.tail, p.2)) ∘
          (fun (keys, v) => (key :: keys, v)) = id := rfl
      rwa [List.map_map, List.map_map, hid, List.map_id, List.map_id] at htails
    have hrest : (entryLeaves es).Perm (entryLeaves (before ++ after)) := by
      have hrests := hperm.filter fun p => !isBelow key p
      rw [List.nil_append, List.nil_append] at hothers
      rwa [hothers, hothers'] at hrests
    rw [EntriesBuilt] at h
    obtain ⟨v, fs, here, more, rfl, rfl, hv, hes⟩ := h
    obtain ⟨gs, rest, ownB, ownR, rfl, rfl, hbefore, hat⟩ := entriesBuilt_append.mp h'
    rw [EntriesBuilt] at hat
    obtain ⟨w, gs', here', ownA, rfl, rfl, hw, hafter⟩ := hat
    obtain ⟨-, -, hu', htidyRest⟩ := htidy'.at_entry
    rw [TidyEntries] at htidy
    refine .cons (hv.reordered hbase hw htidy.2.1 hu' hleaves) ?_
    exact hes.reordered hbase (entriesBuilt_append.mpr ⟨_, _, _, _, rfl, rfl, hbefore, hafter⟩)
      htidy.2.2 htidyRest hrest

end

/-- Each leaf of a tree that is built in new dicts is found at its keys. -/
theorem Built.valueAt? : ∀ (keys : List String) {u : KeyTree} {w x : Value} {own : List Handle},
    Built origin s u w own → u.Tidy → (keys, x) ∈ u.leaves → s.valueAt? w keys = some x
  | keys, leaf y, w, x, own, h, _, hmem => by
    rw [leaves, List.mem_singleton] at hmem
    cases hmem
    rw [Built] at h
    rw [h.1]
    rfl
  | [], node es, w, x, own, _, _, hmem => by
    rw [leaves] at hmem
    exact absurd hmem nil_not_mem_entryLeaves
  | key :: keys, node es, w, x, own, h, htidy, hmem => by
    rw [leaves] at hmem
    rw [Tidy] at htidy
    obtain ⟨_, u, _, hentry, hleaf, hkeys⟩ := head_mem_of_mem_entryLeaves hmem
    cases hkeys
    obtain ⟨before, after, rfl⟩ := List.append_of_mem hentry
    obtain ⟨first, -, hu, -⟩ := htidy.2.at_entry
    obtain ⟨g, fs, v, gs, ownB, here, ownA, rfl, -, -, hd, hbefore, hv, -⟩ := h.at_entry
    have hget : s.dictGet? (.ref g) (.str key) = some v := by
      have hc : s.container? (.ref g) = some (.dict (fs ++ (.str key, v) :: gs)) := hd
      rw [Store.dictGet?, hc]
      exact Store.lookup?_of_found (hbefore.lacks first) v
    rw [Store.valueAt?, List.foldlM_cons, hget]
    exact hv.valueAt? keys hu hleaf

/-! ### Writing beside each other -/

variable (ctx : Context) {keysOf : String → List String}

/-- Writes beside each other and beside what is there add their leaves. -/
theorem updates_of_diverge : ∀ (pairs : List (String × Value)) {es : List (String × KeyTree)}
    {w : Value} {own : List Handle} {s : Store},
    (∀ p ∈ pairs, ReadsAsKeys p.1 (keysOf p.1) ∧ origin.Holds p.2 ∧ origin.entries p.2 = []) →
    pairs.Pairwise (fun p q => Diverge (keysOf p.1) (keysOf q.1)) →
    (∀ p ∈ pairs, ∀ q ∈ entryLeaves es, Diverge q.1 (keysOf p.1)) → TidyEntries es →
    origin.size ≤ s.size → Built origin s (node es) w own → own.Nodup →
    ∃ fs own' t, ctx.updateMulti (.value w) pairs s = (.ok w, t) ∧ TidyEntries fs ∧
      (entryLeaves fs).Perm (pairs.map (fun p => (keysOf p.1, p.2)) ++ entryLeaves es) ∧
      Rebuilt origin own s (node fs) w own' t
  | [], es, w, own, s, _, _, _, htidy, _, hbuilt, hnodup =>
    ⟨es, own, s, rfl, htidy, .refl _, hbuilt, hnodup, Nat.le_refl _, fun _ _ _ => rfl,
      fun _ hg => .inl hg⟩
  | (path, v) :: pairs, es, w, own, s, hpairs, hdiverge, hleaves, htidy, hsize, hbuilt, hnodup => by
    obtain ⟨⟨hread, hheld, hentries⟩, hmore⟩ := List.forall_mem_cons.mp hpairs
    obtain ⟨hfirst, hdiverge⟩ := List.pairwise_cons.mp hdiverge
    obtain ⟨hhere, hleaves⟩ := List.forall_mem_cons.mp hleaves
    obtain ⟨es₁, put, -, htidy₁⟩ := exists_put v (keysOf path) hread.ne_nil htidy hhere
    have hput := put.leaves_perm
    rw [leaves, leaves] at hput
    obtain ⟨own₁, s₁, hupdate, hwritten⟩ :=
      update_put ctx put hheld hentries hsize hbuilt hnodup
    -- the leaves that are there now are those from before and the one just written
    have hleaves₁ : ∀ p ∈ pairs, ∀ q ∈ entryLeaves es₁, Diverge q.1 (keysOf p.1) := by
      intro p hp q hq
      rcases List.mem_cons.mp (hput.mem_iff.mp hq) with rfl | hq
      · exact hfirst p hp
      · exact hleaves p hp q hq
    obtain ⟨fs, own', t, hupdates, htidy', hperm, hrest⟩ := updates_of_diverge pairs hmore hdiverge
      hleaves₁ htidy₁ (Nat.le_trans hsize hwritten.size_le) hwritten.built hwritten.nodup
    have hwrite : ctx.updatePath (.value w) path (.value v) s = (.ok w, s₁) := by
      rw [updatePath_of_parse ctx hread]
      exact hupdate
    refine ⟨fs, own', t, ?_, htidy', ?_, hwritten.trans hrest⟩
    · rw [updateMulti_cons ctx hwrite, hupdates]
    · rw [List.map_cons, List.cons_append]
      exact (hperm.trans (hput.append_left _)).trans List.perm_middle

end KeyTree

open KeyTree
open Store (Reordered)

variable (ctx : Context) {keysOf : String → List String} {s : Store}
  {pairs : List (String × Value)}

/-- The first write to no value at all goes to an empty dict. -/
theorem pack_eq_updateMulti (hread : ∀ p ∈ pairs, ReadsAsKeys p.1 (keysOf p.1)) :
    ctx.pack pairs s = ctx.updateMulti (.value (.ref s.next)) pairs (s.push (.dict [])) := by
  cases pairs with
  | nil => rfl
  | cons p pairs =>
    obtain ⟨path, v⟩ := p
    have hkeys := hread (path, v) (List.mem_cons_self ..)
    refine updateMulti_congr ctx ?_ pairs
    rw [updatePath_of_parse ctx hkeys, updatePath_of_parse ctx hkeys]
    obtain ⟨key, keys, hne⟩ := List.exists_cons_of_ne_nil hkeys.ne_nil
    rw [hne]
    rfl

/-- **A value is packed as the tree whose leaves are the pairs.** -/
theorem pack_builds
    (hpairs : ∀ p ∈ pairs, ReadsAsKeys p.1 (keysOf p.1) ∧ s.Holds p.2)
    (hdiverge : pairs.Pairwise fun p q => Diverge (keysOf p.1) (keysOf q.1)) :
    ∃ es w own t, ctx.pack pairs s = (.ok w, t) ∧ s.GrowsTo t ∧ TidyEntries es ∧
      (entryLeaves es).Perm (pairs.map fun p => (keysOf p.1, p.2)) ∧
      Built s.outline t (node es) w own := by
  have hgrows : s.GrowsTo (s.push (.dict [])) := .push s _
  have hempty : Built s.outline (s.push (.dict [])) (node []) (.ref s.next) [s.next] := by
    rw [Built]
    refine ⟨s.next, [], [], rfl, rfl, (Store.size_outline s).le, Store.get?_push_next _ _, ?_⟩
    rw [EntriesBuilt]
    exact ⟨rfl, rfl⟩
  have hnone : TidyEntries [] ∧ entryLeaves [] = [] := by
    rw [TidyEntries, entryLeaves]
    exact ⟨trivial, rfl⟩
  obtain ⟨es, own, t, hupdates, htidy, hperm, hbuilt⟩ := updates_of_diverge ctx pairs
    (fun p hp => ⟨(hpairs p hp).1, Store.holds_outline (hpairs p hp).2, s.entries_outline p.2⟩)
    hdiverge (fun p _ q hq => absurd (hnone.2 ▸ hq) List.not_mem_nil) hnone.1
    ((Store.size_outline s).trans_le hgrows.size_le) hempty (List.pairwise_singleton _ _)
  rw [hnone.2, List.append_nil] at hperm
  refine ⟨es, .ref s.next, own, t, ?_, ?_, htidy, hperm, hbuilt.built⟩
  · rw [pack_eq_updateMulti ctx fun p hp => (hpairs p hp).1, hupdates]
  · intro g c hg
    have hlt := Store.lt_size_of_get? hg
    rw [hbuilt.others g (Nat.lt_of_lt_of_le hlt hgrows.size_le), hgrows g c hg]
    rw [List.mem_singleton]
    exact Store.ne_next_of_lt hlt

/-- **Packing does not depend on the order of the pairs.**  Pairs of a path and a value, none of the
paths leading to another one or on from it, are packed in every order.  The results are the same up
to the order of the entries of dicts, and hold each value at its keys; the containers that were
there stay as they are. -/
theorem pack_perm {pairs' : List (String × Value)}
    (hpairs : ∀ p ∈ pairs, ReadsAsKeys p.1 (keysOf p.1) ∧ s.Holds p.2)
    (hdiverge : pairs.Pairwise fun p q => Diverge (keysOf p.1) (keysOf q.1))
    (hperm : pairs.Perm pairs') :
    ∃ w t w' t', ctx.pack pairs s = (.ok w, t) ∧ ctx.pack pairs' s = (.ok w', t') ∧
      s.GrowsTo t ∧ s.GrowsTo t' ∧ Reordered s t t' w w' ∧
      ∀ p ∈ pairs, t.valueAt? w (keysOf p.1) = some p.2 := by
  obtain ⟨es, w, own, t, hpack, hgrows, htidy, hleaves, hbuilt⟩ := pack_builds ctx hpairs hdiverge
  obtain ⟨es', w', own', t', hpack', hgrows', htidy', hleaves', hbuilt'⟩ := pack_builds ctx
    (fun p hp => hpairs p (hperm.mem_iff.mpr hp))
    (hdiverge.perm hperm fun h => h.symm)
  refine ⟨w, t, w', t', hpack, hpack', hgrows, hgrows', ?_, ?_⟩
  · rw [Built] at hbuilt hbuilt'
    obtain ⟨g, fs, below, rfl, -, -, hd, hes⟩ := hbuilt
    obtain ⟨g', gs, below', rfl, -, -, hd', hes'⟩ := hbuilt'
    refine .dict hd hd' (hes.reordered (Store.size_outline s).le hes' htidy htidy' ?_)
    exact hleaves.trans ((hperm.map _).trans hleaves'.symm)
  · intro p hp
    have hleaf : (keysOf p.1, p.2) ∈ entryLeaves es :=
      hleaves.mem_iff.mpr (List.mem_map.mpr ⟨p, hp, rfl⟩)
    refine hbuilt.valueAt? _ ?_ (by rw [leaves]; exact hleaf)
    rw [Tidy]
    refine ⟨?_, htidy⟩
    rintro rfl
    rw [entryLeaves] at hleaf
    exact absurd hleaf List.not_mem_nil

/-- Three paths in two orders; two of them go through the same dict, and two lead to the same one of
those that were there, which is not empty. -/
theorem pack_perm_sharing :
    let pairs : List (String × Value) :=
      [("a.'b c'", .ref ⟨1⟩), ("x\\.y", .ref ⟨1⟩), ("a.'7'.b", .int 3)]
    let keysOf := fun path : String =>
      if path = "a.'b c'" then ["a", "b c"] else if path = "x\\.y" then ["x.y"] else ["a", "7", "b"]
    ((∀ p ∈ pairs, ReadsAsKeys p.1 (keysOf p.1) ∧ sharingStore.Holds p.2) ∧
      pairs.Pairwise (fun p q => Diverge (keysOf p.1) (keysOf q.1)) ∧ pairs.Perm pairs.reverse) ∧
    ∃ w t w' t', Context.pack ⟨.empty, false⟩ pairs sharingStore = (.ok w, t) ∧
      Context.pack ⟨.empty, false⟩ pairs.reverse sharingStore = (.ok w', t') ∧
      sharingStore.GrowsTo t ∧ sharingStore.GrowsTo t' ∧ Reordered sharingStore t t' w w' ∧
      ∀ p ∈ pairs, t.valueAt? w (keysOf p.1) = some p.2 := by
  intro pairs keysOf
  have hread {path : String} {keys : List String} (htext : pathText (keys.map keySegment) = path)
      (hne : keys ≠ []) (hplain : ∀ key ∈ keys, PlainKey key) : ReadsAsKeys path keys :=
    htext ▸ PathExpression.parse_pathText_keys hne hplain
  have hquoted : ReadsAsKeys "a.'b c'" ["a", "b c"] := hread rfl (by decide) (by decide)
  have hescaped : ReadsAsKeys "x\\.y" ["x.y"] := by rfl
  have hdigit : ReadsAsKeys "a.'7'.b" ["a", "7", "b"] :=
    hread (by decide +kernel) (by decide) (by decide)
  have hpairs : ∀ p ∈ pairs, ReadsAsKeys p.1 (keysOf p.1) ∧ sharingStore.Holds p.2 := by
    simp only [pairs, List.forall_mem_cons]
    exact ⟨⟨hquoted, Store.holds_ref.mpr (by decide)⟩, ⟨hescaped, Store.holds_ref.mpr (by decide)⟩,
      ⟨hdigit, Store.holds_scalar _ _⟩, List.forall_mem_nil _⟩
  have hdiverge : pairs.Pairwise fun p q => Diverge (keysOf p.1) (keysOf q.1) := by
    simp only [pairs, List.pairwise_cons, List.forall_mem_cons]
    exact ⟨⟨⟨by decide, by decide⟩, ⟨by decide, by decide⟩, List.forall_mem_nil _⟩,
      ⟨⟨by decide, by decide⟩, List.forall_mem_nil _⟩, List.forall_mem_nil _, .nil⟩
  have hperm : pairs.Perm pairs.reverse := (List.reverse_perm pairs).symm
  exact ⟨⟨hpairs, hdiverge, hperm⟩, pack_perm _ hpairs hdiverge hperm⟩

end DottedPath
