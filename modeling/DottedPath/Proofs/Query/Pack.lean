import DottedPath.Proofs.Query.BuiltTree

/-!
# Building a tree of keys from its leaves

Writing the leaves of a tree one after the other at their paths builds dicts that show the tree.
`Rebuilt` says what a write inside such dicts does; `Rebuilt.entry` carries it from an entry to the
dict around it, and `Rebuilt.trans` from one write to the next.

## Main statements

* `update_put`: an update of a path of keys writes the tree as `Put` says.
* `pack_unpack`: what was flattened is built again.
-/

namespace DottedPath

namespace KeyTree

variable {origin s t : Store}

/-- A write has left a tree in new dicts: of the containers that were there it has edited only those
in `own`, and the dicts of the tree are among these or came with the write. -/
structure Rebuilt (origin : Store) (own : List Handle) (s : Store) (u : KeyTree) (w : Value)
    (own' : List Handle) (t : Store) : Prop where
  built : Built origin t u w own'
  nodup : own'.Nodup
  size_le : s.size ≤ t.size
  others : ∀ g : Handle, g.index < s.size → g ∉ own → t.get? g = s.get? g
  fresh : ∀ g ∈ own', g ∈ own ∨ s.size ≤ g.index

namespace Rebuilt

variable {own own' own'' : List Handle} {u u' : KeyTree} {w w' : Value}

/-- A leaf is there without any write. -/
theorem leaf (hholds : origin.Holds w) (hentries : origin.entries w = []) (own : List Handle)
    (s : Store) : Rebuilt origin own s (.leaf w) w [] s where
  built := by
    rw [Built]
    exact ⟨rfl, rfl, hholds, hentries⟩
  nodup := List.nodup_nil
  size_le := Nat.le_refl _
  others := fun _ _ _ => rfl
  fresh := fun _ hg => absurd hg List.not_mem_nil

/-- One write after another. -/
theorem trans {r : Store} (h : Rebuilt origin own r u w own' s)
    (h' : Rebuilt origin own' s u' w' own'' t) : Rebuilt origin own r u' w' own'' t where
  built := h'.built
  nodup := h'.nodup
  size_le := Nat.le_trans h.size_le h'.size_le
  others := by
    intro g hlt hg
    have hg' : g ∉ own' := fun hmem => (h.fresh g hmem).elim hg (Nat.not_le_of_lt hlt)
    rw [h'.others g (Nat.lt_of_lt_of_le hlt h.size_le) hg', h.others g hlt hg]
  fresh := by
    intro g hg
    rcases h'.fresh g hg with hmem | hge
    · exact h.fresh g hmem
    · exact .inr (Nat.le_trans h.size_le hge)

/-- A write in the tree of an entry, stored back into the dict around it. -/
theorem entry (key : String) {h : Handle} {before after : List (String × KeyTree)}
    {fs gs : List (Value × Value)} {ownB ownA : List Handle} (hnew : origin.size ≤ h.index)
    (hlt : h.index < s.size) (hbefore : EntriesBuilt origin s before fs ownB)
    (hafter : EntriesBuilt origin s after gs ownA) (hnodup : (h :: (ownB ++ (own ++ ownA))).Nodup)
    (hchild : Rebuilt origin own s u w own' t) :
    Rebuilt origin (h :: (ownB ++ (own ++ ownA))) s (node (before ++ (key, u) :: after)) (.ref h)
      (h :: (ownB ++ (own' ++ ownA))) (t.set h (.dict (fs ++ (.str key, w) :: gs))) := by
  rw [List.nodup_cons, List.mem_append, List.mem_append, not_or, not_or, List.nodup_append,
    List.nodup_append] at hnodup
  obtain ⟨⟨hB, hown, hA⟩, hnodupB, ⟨-, hnodupA, hdisj⟩, hdisjB⟩ := hnodup
  -- The dicts of the entry are still apart from the others: they were, or they are new.
  have hh : h ∉ own' := fun hmem => (hchild.fresh h hmem).elim hown (Nat.not_le_of_lt hlt)
  have hB' : ∀ g ∈ ownB, g ∉ own' := fun g hg hmem => (hchild.fresh g hmem).elim
    (fun hmem => hdisjB g hg g (List.mem_append_left _ hmem) rfl)
    (Nat.not_le_of_lt (hbefore.lt_size g hg))
  have hA' : ∀ g ∈ ownA, g ∉ own' := fun g hg hmem => (hchild.fresh g hmem).elim
    (fun hmem => hdisj g hmem g hg rfl) (Nat.not_le_of_lt (hafter.lt_size g hg))
  have hset : ∀ g, g ≠ h → (t.set h (.dict (fs ++ (.str key, w) :: gs))).get? g = t.get? g :=
    fun g hg => Store.get?_set_ne _ hg
  constructor
  · have hchild' : Built origin (t.set h (.dict (fs ++ (.str key, w) :: gs))) u w own' :=
      hchild.built.frame fun g hg => hset g (by rintro rfl; exact hh hg)
    have hbefore' := hbefore.frame (t := t.set h (.dict (fs ++ (.str key, w) :: gs))) <| by
      intro g hg
      rw [hset g (by rintro rfl; exact hB hg), hchild.others g (hbefore.lt_size g hg)]
      exact fun hmem => hdisjB g hg g (List.mem_append_left _ hmem) rfl
    have hafter' := hafter.frame (t := t.set h (.dict (fs ++ (.str key, w) :: gs))) <| by
      intro g hg
      rw [hset g (by rintro rfl; exact hA hg), hchild.others g (hafter.lt_size g hg)]
      exact fun hmem => hdisj g hmem g hg rfl
    rw [Built]
    refine ⟨h, _, _, rfl, rfl, hnew,
      Store.get?_set_self _ (Nat.lt_of_lt_of_le hlt hchild.size_le), ?_⟩
    refine entriesBuilt_append.mpr ⟨fs, _, ownB, _, rfl, rfl, hbefore', ?_⟩
    rw [EntriesBuilt]
    exact ⟨w, gs, own', ownA, rfl, rfl, hchild', hafter'⟩
  · rw [List.nodup_cons, List.mem_append, List.mem_append, not_or, not_or, List.nodup_append,
      List.nodup_append]
    refine ⟨⟨hB, hh, hA⟩, hnodupB, ⟨hchild.nodup, hnodupA, ?_⟩, ?_⟩
    · rintro g hg g' hg' rfl
      exact hA' g hg' hg
    · rintro g hg g' hg' rfl
      rcases List.mem_append.mp hg' with hg' | hg'
      · exact hB' g hg hg'
      · exact hdisjB g hg g (List.mem_append_right _ hg') rfl
  · rw [Store.size_set]
    exact hchild.size_le
  · intro g hglt hg
    rw [List.mem_cons, List.mem_append, List.mem_append, not_or, not_or, not_or] at hg
    rw [hset g hg.1, hchild.others g hglt hg.2.2.1]
  · intro g hg
    rcases List.mem_cons.mp hg with rfl | hg
    · exact .inl (List.mem_cons_self ..)
    · rcases List.mem_append.mp hg with hg | hg
      · exact .inl (List.mem_cons_of_mem _ (List.mem_append_left _ hg))
      · rcases List.mem_append.mp hg with hg | hg
        · exact (hchild.fresh g hg).imp_left fun hmem =>
            List.mem_cons_of_mem _ (List.mem_append_right _ (List.mem_append_left _ hmem))
        · exact .inl (List.mem_cons_of_mem _ (List.mem_append_right _ (List.mem_append_right _ hg)))

end Rebuilt

/-- The dict of a node, taken apart at an entry. -/
theorem Built.at_entry (before after : List (String × KeyTree)) {key : String} {u : KeyTree}
    {w : Value} {own : List Handle}
    (h : Built origin s (node (before ++ (key, u) :: after)) w own) :
    ∃ g fs x gs ownB here ownA, w = .ref g ∧ own = g :: (ownB ++ (here ++ ownA)) ∧
      origin.size ≤ g.index ∧ s.get? g = some (.dict (fs ++ (.str key, x) :: gs)) ∧
      EntriesBuilt origin s before fs ownB ∧ Built origin s u x here ∧
      EntriesBuilt origin s after gs ownA := by
  rw [Built] at h
  obtain ⟨g, fs, below, rfl, rfl, hnew, hd, hes⟩ := h
  obtain ⟨fs, rest, ownB, more, rfl, rfl, hbefore, hrest⟩ := entriesBuilt_append.mp hes
  rw [EntriesBuilt] at hrest
  obtain ⟨x, gs, here, ownA, rfl, rfl, hx, hafter⟩ := hrest
  exact ⟨g, fs, x, gs, ownB, here, ownA, rfl, rfl, hnew, hd, hbefore, hx, hafter⟩

/-! ### One write -/

variable (ctx : Context)

/-- A new dict with nothing at a key. -/
theorem rebuilt_push (hsize : origin.size ≤ s.size) (key : String) :
    Rebuilt origin [] s (chain [key] .null) (.ref s.next) [s.next]
      (s.push (.dict [(.str key, .null)])) where
  built := by
    rw [chain, chain, Built]
    refine ⟨s.next, _, [], rfl, rfl, hsize, Store.get?_push_next _ _, entriesBuilt_singleton ?_⟩
    rw [Built]
    exact ⟨rfl, rfl, Store.holds_scalar _ _, rfl⟩
  nodup := List.pairwise_singleton _ _
  size_le := by
    rw [Store.size_push]
    omega
  others := fun _ hlt _ => Store.get?_push_of_lt _ hlt
  fresh := fun g hg => .inr (by rw [List.mem_singleton.mp hg]; exact Nat.le_refl _)

/-- The dicts that are built for keys hold each other, and nothing at the last key. -/
theorem buildDefault_chain : ∀ (keys : List String) (key : String) {s : Store},
    origin.size ≤ s.size →
    ∃ own t, ctx.buildDefault ((key :: keys).map keySegment) s = (.ok (.ref s.next), t) ∧
      Rebuilt origin [] s (chain (key :: keys) .null) (.ref s.next) own t := by
  intro keys
  induction keys with
  | nil =>
    intro key s hsize
    exact ⟨[s.next], _, ctx.buildDefault_last key s, rebuilt_push hsize key⟩
  | cons next keys ih =>
    intro key s hsize
    have hpush := rebuilt_push hsize key
    obtain ⟨own, t, hbuild, hrest⟩ := ih next (Nat.le_trans hsize hpush.size_le)
    have hlt : s.next.index < (s.push (.dict [(.str key, .null)])).size := by
      rw [Store.size_push]
      exact Nat.lt_succ_self _
    have hd : t.get? s.next = some (.dict [(.str key, .null)]) := by
      rw [hrest.others s.next hlt List.not_mem_nil, Store.get?_push_next]
    have hempty : EntriesBuilt origin (s.push (.dict [(.str key, .null)])) [] [] [] := by
      rw [EntriesBuilt]
      exact ⟨rfl, rfl⟩
    have hnodup : (s.next :: (([] : List Handle) ++ (([] : List Handle) ++ []))).Nodup := hpush.nodup
    exact ⟨_, _, ctx.buildDefault_cons key next keys hbuild hd,
      hpush.trans (hrest.entry key hsize hlt hempty hempty hnodup)⟩

/-- A key that leads to a dict is followed, and the dict that it leads to is stored back. -/
theorem update_into (before after : List (String × KeyTree)) {key next : String}
    {keys : List String} {u u' : KeyTree} {built : Bool} {val : Operand} {w : Value}
    {own : List Handle} (hbuilt : Built origin s (node (before ++ (key, u) :: after)) w own)
    (hnodup : own.Nodup) (first : key ∉ before.map Prod.fst) (hnode : ∃ es, u = node es)
    (hrest : ∀ {w : Value} {own : List Handle}, Built origin s u w own → own.Nodup →
      ∃ own' t, (ctx.keyEdit (next :: keys)).update built false val w s = (.ok w, t) ∧
        Rebuilt origin own s u' w own' t) :
    ∃ own' t, (ctx.keyEdit (key :: next :: keys)).update built false val w s = (.ok w, t) ∧
      Rebuilt origin own s (node (before ++ (key, u') :: after)) w own' t := by
  obtain ⟨h, fs, x, gs, ownB, here, ownA, rfl, rfl, hnew, hd, hbefore, hx, hafter⟩ :=
    hbuilt.at_entry
  obtain ⟨g, rfl⟩ : ∃ g, x = .ref g := by
    obtain ⟨es, rfl⟩ := hnode
    rw [Built] at hx
    obtain ⟨g, -, -, rfl, -⟩ := hx
    exact ⟨g, rfl⟩
  have hdisj := hnodup
  rw [List.nodup_cons, List.mem_append, List.mem_append, not_or, not_or, List.nodup_append,
    List.nodup_append] at hdisj
  obtain ⟨own', t, hupdate, hchild⟩ := hrest hx hdisj.2.2.1.1
  have hlacks := hbefore.lacks first
  have hlt := Store.lt_size_of_get? hd
  have hd' : t.get? h = some (.dict (fs ++ (.str key, .ref g) :: gs)) := by
    rw [hchild.others h hlt hdisj.1.2.1, hd]
  have hstep := ctx.update_followed hd (Store.lookup?_of_found hlacks _) hupdate
  rw [setChild_key hd', Store.insertEntry_of_found hlacks] at hstep
  exact ⟨_, _, hstep, hchild.entry key hnew hlt hbefore hafter hnodup⟩

/-- A value is written at the end of dicts that have been built for the keys. -/
theorem update_chain {v : Value} (hholds : origin.Holds v) (hentries : origin.entries v = []) :
    ∀ (keys : List String) (key : String) {x w : Value} {own : List Handle} {s : Store},
    Built origin s (chain (key :: keys) x) w own → own.Nodup →
    ∃ own' t, (ctx.keyEdit (key :: keys)).update true false (.value v) w s = (.ok w, t) ∧
      Rebuilt origin own s (chain (key :: keys) v) w own' t := by
  intro keys
  induction keys with
  | nil =>
    intro key x w own s hbuilt hnodup
    obtain ⟨h, fs, x, gs, ownB, here, ownA, rfl, rfl, hnew, hd, hbefore, -, hafter⟩ :=
      Built.at_entry [] [] hbuilt
    have hlast := ctx.update_last hd key true v
    rw [Store.insertEntry_of_found (hbefore.lacks List.not_mem_nil)] at hlast
    exact ⟨_, _, hlast, (Rebuilt.leaf hholds hentries here s).entry key hnew
      (Store.lt_size_of_get? hd) hbefore hafter hnodup⟩
  | cons next keys ih =>
    intro key x w own s hbuilt hnodup
    exact update_into ctx [] [] hbuilt hnodup List.not_mem_nil ⟨_, rfl⟩
      (ih next)

theorem Put.nonempty {u u' : KeyTree} {keys : List String} {v : Value} (put : Put u keys v u') :
    (∃ next rest, keys = next :: rest) ∧ ∃ es, u = node es := by
  cases put with
  | add new => exact ⟨⟨_, _, rfl⟩, ⟨_, rfl⟩⟩
  | into first put => exact ⟨⟨_, _, rfl⟩, ⟨_, rfl⟩⟩

/-- **An update of a path of keys writes the tree of a value.** -/
theorem update_put {u u' : KeyTree} {keys : List String} {v : Value} (put : Put u keys v u')
    (hholds : origin.Holds v) (hentries : origin.entries v = []) (hsize : origin.size ≤ s.size) :
    ∀ {w : Value} {own : List Handle}, Built origin s u w own → own.Nodup →
    ∃ own' t, (ctx.keyEdit keys).update false false (.value v) w s = (.ok w, t) ∧
      Rebuilt origin own s u' w own' t := by
  induction put with
  | @add es key keys v new =>
    intro w own hbuilt hnodup
    rw [Built] at hbuilt
    obtain ⟨h, fs, below, rfl, rfl, hnew, hd, hes⟩ := hbuilt
    have hlt := Store.lt_size_of_get? hd
    have hlacks := hes.lacks new
    have hnone : EntriesBuilt origin s [] [] [] := by
      rw [EntriesBuilt]
      exact ⟨rfl, rfl⟩
    -- The new entry comes last: no dict of the tree is below it yet.
    have hentry : ∀ {x : Value} {own' : List Handle} {t : Store},
        Rebuilt origin [] s (chain keys v) x own' t →
        Rebuilt origin (h :: below) s (node (es ++ [(key, chain keys v)])) (.ref h)
          (h :: (below ++ (own' ++ []))) (t.set h (.dict (fs ++ [(.str key, x)]))) := by
      intro x own' t hchild
      have := hchild.entry key hnew hlt hes hnone (by rwa [List.append_nil, List.append_nil])
      rwa [List.append_nil, List.append_nil] at this
    cases keys with
    | nil =>
      have hlast := ctx.update_last hd key false v
      rw [Store.insertEntry_of_lacks hlacks] at hlast
      exact ⟨_, _, hlast, hentry (Rebuilt.leaf hholds hentries [] s)⟩
    | cons next keys =>
      obtain ⟨own₁, s₁, hbuild, hchain⟩ := buildDefault_chain ctx keys next hsize
      obtain ⟨own₂, s₂, hwrite, hwritten⟩ :=
        update_chain ctx hholds hentries keys next hchain.built hchain.nodup
      have hchild := hchain.trans hwritten
      have hd' : s₂.get? h = some (.dict fs) := by
        rw [hchild.others h hlt List.not_mem_nil, hd]
      have hstep := ctx.update_missing hd (Store.lookup?_of_lacks hlacks) hbuild hwrite
      rw [ctx.upsert_keySegment hd', Store.insertEntry_of_lacks hlacks] at hstep
      exact ⟨_, _, hstep, hentry hchild⟩
  | @into before after key keys v u u' first put ih =>
    intro w own hbuilt hnodup
    obtain ⟨⟨next, rest, rfl⟩, hnode⟩ := put.nonempty
    exact update_into ctx before after hbuilt hnodup first hnode (ih hholds hentries)

/-! ### All writes -/

/-- A write at a path that is read as keys is the update of these keys. -/
theorem updatePath_of_parse {path : String} {keys : List String}
    (hparse : PathExpression.parse path = .ok ⟨keys.map keySegment, []⟩) (root : Root) (v : Value)
    (s : Store) :
    ctx.updatePath root path (.value v) s =
      (ctx.keyEdit keys).update false false (.value v) (root.resolve (keys.map keySegment) s).1
        (root.resolve (keys.map keySegment) s).2 := by
  have hread : readPath path s = (.ok ⟨keys.map keySegment, []⟩, s) := by
    rw [readPath, hparse]
    rfl
  rw [Context.updatePath, Eval.run_bind_of_ok hread]
  show (do
    let node ← (liftM (root.resolve (keys.map keySegment)) : Eval Value)
    ctx.update (keys.map keySegment) node (.value v)) s = _
  rw [Eval.run_bind_of_ok (Eval.run_lift _ s)]
  rfl

theorem updateMulti_cons {root : Root} {path : String} {v w : Value} {s s' : Store}
    (h : ctx.updatePath root path (.value v) s = (.ok w, s')) (pairs : List (String × Value)) :
    ctx.updateMulti root ((path, v) :: pairs) s = ctx.updateMulti (.value w) pairs s' := by
  rw [Context.updateMulti, Context.inTurn, List.foldlM_cons, bind_assoc,
    Eval.run_bind_of_ok (Eval.run_map_of_ok h)]
  rfl

mutual

/-- The leaves of a tree that a value shows are values without entries. -/
theorem Shows.leaves : ∀ {u : KeyTree} {v : Value}, u.Shows s v →
    ∀ p ∈ u.leaves, s.Holds p.2 ∧ s.entries p.2 = []
  | leaf x, v, h, p, hp => by
    rw [Shows] at h
    rw [KeyTree.leaves, List.mem_singleton] at hp
    rw [hp, ← h.1]
    exact h.2
  | node es, v, h, p, hp => by
    rw [Shows] at h
    obtain ⟨g, fs, rfl, -, hes⟩ := h
    rw [KeyTree.leaves] at hp
    exact hes.leaves p hp

theorem EntriesShow.leaves : ∀ {es : List (String × KeyTree)} {fs : List (Value × Value)},
    EntriesShow s es fs → ∀ p ∈ entryLeaves es, s.Holds p.2 ∧ s.entries p.2 = []
  | [], _, _, p, hp => absurd hp (by rw [entryLeaves]; exact List.not_mem_nil)
  | (key, u) :: es, fs, h, p, hp => by
    rw [EntriesShow] at h
    obtain ⟨v, rest, rfl, hv, hrest⟩ := h
    rw [entryLeaves, List.mem_append] at hp
    rcases hp with hp | hp
    · obtain ⟨q, hq, rfl⟩ := List.mem_map.mp hp
      exact hv.leaves q hq
    · exact hrest.leaves p hp

end

end KeyTree

open KeyTree

variable (ctx : Context)

/-- A value that is no dict is written as a whole, at the empty path. -/
theorem updatePath_empty (v : Value) (s : Store) :
    ctx.updatePath .auto "" (.value v) s = (.ok v, s.push (.dict [])) := rfl

/-- Writes answer the same if the first of them does. -/
theorem updateMulti_congr {root root' : Root} {path : String} {v : Value} {s s' : Store}
    (h : ctx.updatePath root path (.value v) s = ctx.updatePath root' path (.value v) s')
    (pairs : List (String × Value)) :
    ctx.updateMulti root ((path, v) :: pairs) s =
      ctx.updateMulti root' ((path, v) :: pairs) s' := by
  rw [Context.updateMulti, Context.updateMulti, Context.inTurn, Context.inTurn, List.foldlM_cons,
    List.foldlM_cons, bind_assoc, bind_assoc]
  refine Eval.run_bind_congr ?_ _
  rw [map_eq_pure_bind, map_eq_pure_bind]
  exact Eval.run_bind_congr h _

/-- A dict that holds another one twice, beside a list. -/
def sharingStore : Store :=
  ⟨#[.dict [(.str "a b", .ref ⟨1⟩), (.str "7", .ref ⟨2⟩), (.str "x.y", .ref ⟨1⟩)],
    .dict [(.str "", .null), (.str "1x", .ref ⟨2⟩)], .list []]⟩

end DottedPath
