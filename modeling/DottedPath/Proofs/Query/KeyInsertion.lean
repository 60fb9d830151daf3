import DottedPath.Proofs.Evaluate.KeyDescent

/-!
# Updates along text keys

An update along a path of text keys descends through the dicts that are there.  Where the path leads
on but there is nothing, or null, it makes dicts of one key each, one inside the other
(`Store.Chain`), and stores them in the last dict that was there.  So one dict only is written, at one
key (`Store.InsertsAt`), and all other paths find what they found.

## Main statements

`Context.update_keys_framed`: what an update along keys does to a tree.
-/

namespace DottedPath

variable {s t u : Store} {b v w x : Value} {key other : String} {es : List (Value × Value)}
  {ks js : List String} {h : Handle}

namespace Store

/-! ### Chains of dicts -/

/-- Dicts of one key each, one inside the other around a value, each at a later place than the one
around it. -/
def Chain (s : Store) : (least : Nat) → List String → Value → Value → Prop
  | _, [], b, v => b = v
  | least, key :: ks, b, v =>
    ∃ h w, b = .ref h ∧ least ≤ h.index ∧ s.get? h = some (.dict [(.str key, w)]) ∧
      s.Chain (h.index + 1) ks w v

namespace Chain

theorem congr : ∀ {ks : List String} {least : Nat} {b v : Value}, s.Chain least ks b v →
    (∀ h, least ≤ h.index → t.get? h = s.get? h) → t.Chain least ks b v
  | [], _, _, _, hchain, _ => hchain
  | key :: ks, least, b, v, hchain, hsame => by
    obtain ⟨h, w, hb, hleast, hd, hrest⟩ := hchain
    refine ⟨h, w, hb, hleast, by rw [hsame h hleast, hd], hrest.congr fun g hg => ?_⟩
    exact hsame g (by omega)

theorem mono {least least' : Nat} (hle : least' ≤ least) (hchain : s.Chain least ks b v) :
    s.Chain least' ks b v := by
  cases ks with
  | nil => exact hchain
  | cons key ks =>
    obtain ⟨h, w, hb, hleast, hrest⟩ := hchain
    exact ⟨h, w, hb, by omega, hrest⟩

/-- The keys of a chain lead to the value in it. -/
theorem atKeys? : ∀ {ks : List String} {least : Nat} {b v : Value}, s.Chain least ks b v →
    s.atKeys? b ks = some v
  | [], _, _, _, hchain => congrArg some hchain
  | key :: ks, least, b, v, hchain => by
    obtain ⟨h, w, rfl, -, hd, hrest⟩ := hchain
    have hlookup : s.lookup? [(.str key, w)] (.str key) = some w := by
      rw [lookup?_str]
      simp [Value.string?]
    rw [atKeys?_cons_of_get? hd, hlookup]
    exact hrest.atKeys?

/-- Other keys lead to nothing. -/
theorem atKeys?_of_apart : ∀ {ks js : List String} {least : Nat} {b v : Value},
    s.Chain least ks b v → ¬ks <+: js → ¬js <+: ks → s.atKeys? b js = none
  | [], js, _, _, _, _, hks, _ => absurd List.nil_prefix hks
  | _ :: _, [], _, _, _, _, _, hjs => absurd List.nil_prefix hjs
  | key :: ks, j :: js, least, b, v, hchain, hks, hjs => by
    obtain ⟨h, w, rfl, -, hd, hrest⟩ := hchain
    rw [atKeys?_cons_of_get? hd, lookup?_str]
    by_cases hj : key = j
    · subst hj
      have hks' : ¬ks <+: js := by simpa using hks
      have hjs' : ¬js <+: ks := by simpa using hjs
      simpa [Value.string?] using hrest.atKeys?_of_apart hks' hjs'
    · simp [Value.string?, hj]

end Chain

/-- Where a text key is inserted does not depend on the store. -/
theorem insertEntry_str_congr (s t : Store) (es : List (Value × Value)) (key : String) (v : Value) :
    t.insertEntry es (.str key) v = s.insertEntry es (.str key) v := by
  have hfind : ∀ e : Value × Value, t.sameKey (.str key) e.1 = s.sameKey (.str key) e.1 := by
    intro e
    rw [sameKey_str_left, sameKey_str_left]
  rw [insertEntry, insertEntry, funext hfind]

theorem insertEntry_singleton (s : Store) (key : String) (w v : Value) :
    s.insertEntry [(.str key, w)] (.str key) v = [(.str key, v)] :=
  insertEntry_of_found (fun _ he => absurd he List.not_mem_nil) w v

end Store

open Store (Chain)

namespace Context

variable (ctx : Context)

/-! ### Single steps -/

/-- Storing back what is there changes nothing. -/
theorem setChild_same (hd : s.get? h = some (.dict es)) (hx : s.lookup? es (.str key) = some x) :
    setChild (.ref h) (.key (.str key)) x s = (.ref h, s) := by
  rw [setChild_key hd, Store.insertEntry_of_lookup? s hx, Store.set_of_get? hd]

/-- A text key writes nothing to what is no dict. -/
theorem setChild_key_of_not_isKeyed (hv : s.isKeyed v = false) (key : String) (w : Value) :
    setChild v (.key (.str key)) w s = (v, s) := by
  show setKeyed v (.str key) w s = (v, s)
  unfold setKeyed
  rw [StoreM.run_bind, StoreM.run_get, hv, if_neg Bool.false_ne_true]
  rfl

theorem upsert_key_of_not_isKeyed (hv : s.isKeyed v = false) (key : String) (w : Value) :
    ctx.upsert (keySegment key) v w s = (.ok v, s) := by
  refine (ctx.upsert_literal .key (.str key) false v w s).trans ?_
  exact congrArg (fun p => (Except.ok p.1, p.2)) (setChild_key_of_not_isKeyed hv key w)

theorem selectsNothing_key (key : String) (node : Value) (s : Store) :
    ctx.selectsNothing (keySegment key) node s = (.ok (s.dictGet? node (.str key)).isNone, s) := by
  show (do pure (← ctx.items (keySegment key) node).isEmpty : Eval Bool) s = _
  rw [Eval.run_bind_of_ok (ctx.items_key key node s)]
  cases s.dictGet? node (.str key) <;> rfl

/-- At a key that is there, what the rest makes of its value is stored back.  A null is replaced by
the dicts of the rest first. -/
theorem update_at_key (hd : s.get? h = some (.dict es)) {c : Value}
    (hc : s.lookup? es (.str key) = some c) {next : String} {built : Bool} {val : Operand}
    (hstart : c = .null ∧ ctx.buildDefault ((next :: ks).map keySegment) s = (.ok b, t) ∨
      c ≠ .null ∧ b = c ∧ t = s)
    (hrest : (ctx.keyEdit (next :: ks)).update built false val b t = (.ok w, u)) :
    (ctx.keyEdit (key :: next :: ks)).update built false val (.ref h) s =
      (.ok (setChild (.ref h) (.key (.str key)) w u).1,
        (setChild (.ref h) (.key (.str key)) w u).2) := by
  have hitems := ctx.items_keySegment hd key
  have hselects := ctx.selectsNothing_keySegment hd key
  have hsegments := ctx.segments_keyEdit (next :: ks)
  rw [hc] at hitems hselects
  rw [update_keyEdit_cons, updateParts, Eval.run_bind_of_ok (Eval.run_store s),
    Store.isEnterable_of_get? hd, Bool.not_true, if_neg Bool.false_ne_true, isEnd_keyEdit_cons,
    if_neg Bool.false_ne_true, Eval.run_bind_of_ok hselects, Option.isNone_some, Bool.and_false,
    if_neg Bool.false_ne_true, Eval.run_bind_of_ok hitems, Option.map_some, Option.toList_some,
    List.foldlM_cons]
  simp only [List.foldlM_nil, bind_pure, hsegments]
  rcases hstart with ⟨rfl, hbuild⟩ | ⟨hne, rfl, rfl⟩
  · refine (Eval.run_bind_of_ok hbuild).trans ?_
    rw [Eval.run_bind_of_ok hrest, Eval.run_lift]
  · split
    · exact absurd rfl hne
    · rw [pure_bind, Eval.run_bind_of_ok hrest, Eval.run_lift]

/-! ### Chains are built and written -/

/-- For a path of keys a chain of dicts around null is built. -/
theorem buildDefault_keys : ∀ (ks : List String) (key : String) (s : Store),
    ∃ b t, ctx.buildDefault ((key :: ks).map keySegment) s = (.ok b, t) ∧ s.GrowsTo t ∧
      t.Chain s.size (key :: ks) b .null
  | [], key, s => by
    refine ⟨_, _, ctx.buildDefault_last key s, .push s _, s.next, .null, rfl, Nat.le_refl _, ?_, rfl⟩
    exact Store.get?_push_next s _
  | next :: ks, key, s => by
    obtain ⟨w, t, hbuild, hgrows, hchain⟩ :=
      buildDefault_keys ks next (s.push (.dict [(.str key, .null)]))
    have hd : t.get? s.next = some (.dict [(.str key, .null)]) :=
      hgrows _ _ (Store.get?_push_next s _)
    have hlt : s.next.index < t.size := Store.lt_size_of_get? hd
    refine ⟨_, _, ctx.buildDefault_cons key next ks hbuild hd, ?_, s.next, w, rfl, Nat.le_refl _, ?_,
      ?_⟩
    · intro h c hc
      have hne : h ≠ s.next := Store.ne_next_of_lt (Store.lt_size_of_get? hc)
      rw [Store.get?_set_ne _ hne]
      exact hgrows h c (Store.GrowsTo.push s _ h c hc)
    · exact Store.get?_set_self _ hlt
    · rw [Store.size_push] at hchain
      refine Chain.congr hchain fun g hg => Store.get?_set_ne _ ?_
      rintro rfl
      exact Nat.not_succ_le_self _ hg

/-- An update along the keys of a chain replaces the value in it, and nothing before the chain. -/
theorem update_chain_value (built : Bool) (v : Value) : ∀ {ks : List String} {key : String}
    {least : Nat} {b : Value} {s : Store}, s.Chain least (key :: ks) b .null →
    ∃ t, (ctx.keyEdit (key :: ks)).update built false (.value v) b s = (.ok b, t) ∧
      t.Chain least (key :: ks) b v ∧ ∀ h, h.index < least → t.get? h = s.get? h
  | [], key, least, b, s, hchain => by
    obtain ⟨h, w, rfl, hleast, hd, -⟩ := hchain
    refine ⟨_, ctx.update_last hd key built v, ⟨h, v, rfl, hleast, ?_, rfl⟩, fun g hg => ?_⟩
    · rw [Store.insertEntry_singleton, Store.get?_set_self _ (Store.lt_size_of_get? hd)]
    · refine Store.get?_set_ne _ ?_
      rintro rfl
      omega
  | next :: ks, key, least, b, s, hchain => by
    obtain ⟨h, w, rfl, hleast, hd, hrest⟩ := hchain
    obtain ⟨t, hupdate, hchain', hbefore⟩ := update_chain_value built v hrest
    have hlookup : s.lookup? [(.str key, w)] (.str key) = some w := by
      rw [Store.lookup?_str]
      simp [Value.string?]
    have hd' : t.get? h = some (.dict [(.str key, w)]) := by
      rw [hbefore h (Nat.lt_succ_self _), hd]
    have hsame : setChild (.ref h) (.key (.str key)) w t = (.ref h, t) :=
      setChild_same hd' ((Store.lookup?_str_congr ..).trans hlookup)
    have hne : w ≠ .null := by
      obtain ⟨g, x, rfl, -⟩ := hrest
      rintro ⟨⟩
    refine ⟨t, ?_, ⟨h, w, rfl, hleast, hd', hchain'⟩, fun g hg => hbefore g (by omega)⟩
    rw [ctx.update_at_key hd hlookup (.inr ⟨hne, rfl, rfl⟩) hupdate, hsame]

/-- What is missing is built around null first, and then written. -/
theorem create_keys (built : Bool) (v : Value) (key : String) (ks : List String) (s : Store) :
    ∃ b t u, ctx.buildDefault ((key :: ks).map keySegment) s = (.ok b, t) ∧
      (ctx.keyEdit (key :: ks)).update built false (.value v) b t = (.ok b, u) ∧ s.GrowsTo u ∧
      u.Chain s.size (key :: ks) b v := by
  obtain ⟨b, t, hbuild, hgrows, hchain⟩ := ctx.buildDefault_keys ks key s
  obtain ⟨u, hupdate, hchain', hbefore⟩ := ctx.update_chain_value built v hchain
  refine ⟨b, t, u, hbuild, hupdate, fun h c hc => ?_, hchain'⟩
  rw [hbefore h (Store.lt_size_of_get? hc)]
  exact hgrows h c hc

/-! ### What is no dict -/

/-- An update along keys leaves alone what is no dict. -/
theorem update_of_not_isKeyed (hw : s.Holds w) (hv : s.isKeyed w = false) (key : String)
    (ks : List String) (built : Bool) (v : Value) :
    ∃ t, (ctx.keyEdit (key :: ks)).update built false (.value v) w s = (.ok w, t) ∧
      s.GrowsTo t := by
  have hget : s.dictGet? w (.str key) = none := Store.dictGet?_of_not_isKeyed hv _
  have hitems := ctx.items_key key w s
  have hselects := ctx.selectsNothing_key key w s
  rw [hget] at hitems hselects
  rw [update_keyEdit_cons, updateParts, Eval.run_bind_of_ok (Eval.run_store s)]
  cases hin : s.isEnterable w with
  | false => exact ⟨s, rfl, .refl s⟩
  | true =>
    rw [Bool.not_true, if_neg Bool.false_ne_true]
    cases ks with
    | nil => exact ⟨s, ctx.upsert_key_of_not_isKeyed hv key v, .refl s⟩
    | cons next ks =>
      have hstarts : (ctx.keyEdit (next :: ks)).startsSilent = false := by
        rw [Edit.startsSilent, segments_keyEdit]
        rfl
      rw [isEnd_keyEdit_cons, if_neg Bool.false_ne_true, Eval.run_bind_of_ok hselects]
      cases built with
      | true =>
        rw [if_neg (by simp), Eval.run_bind_of_ok hitems]
        exact ⟨s, rfl, .refl s⟩
      | false =>
        -- The dicts of the rest are built, but there is no place for them.
        obtain ⟨b, t, u, hbuild, hupdate, hgrows, -⟩ := ctx.create_keys true v next ks s
        have hu : u.isKeyed w = false := by
          refine Bool.eq_false_iff.mpr fun hkeyed => ?_
          obtain ⟨es, hc⟩ := Store.container?_of_isKeyed hkeyed
          rw [hgrows.container?_eq hw] at hc
          simp [Store.isKeyed_of_container? hc] at hv
        refine ⟨u, ?_, hgrows⟩
        rw [if_pos (by simp), hstarts, Bool.or_false, if_neg Bool.false_ne_true, segments_keyEdit,
          Eval.run_bind_of_ok hbuild, Eval.run_bind_of_ok hupdate]
        exact ctx.upsert_key_of_not_isKeyed hu key b

end Context

/-! ### Where an update writes -/

namespace Store

/-- What the keys come through on their way, the end apart, is a dict or null, as far as there is
anything. -/
def Open (s : Store) (v : Value) (ks : List String) : Prop :=
  ∀ ps, ps <+: ks → ps ≠ ks → ∀ w, s.atKeys? v ps = some w → w = .null ∨ s.isKeyed w = true

/-- One dict that was there is written, at one key: it gets the value, or the first dict of a chain
around the value where there was nothing. -/
structure InsertsAt (s t : Store) (root : Value) (before : List String) (g : Handle)
    (gs : List (Value × Value)) (key : String) (behind : List String) (x v : Value) : Prop where
  way : s.atKeys? root before = some (.ref g)
  dict : s.get? g = some (.dict gs)
  written : t.get? g = some (.dict (s.insertEntry gs (.str key) x))
  others : ∀ h c, h ≠ g → s.get? h = some c → t.get? h = some c
  chain : t.Chain s.size behind x v
  vacant : behind ≠ [] → ∀ y, s.lookup? gs (.str key) = some y → y = .null

/-- A chain that has been built elsewhere is stored in a dict. -/
theorem InsertsAt.of_chain {u : Store} {b v : Value} {behind : List String}
    (hd : s.get? h = some (.dict es)) (hgrows : s.GrowsTo u) (hchain : u.Chain s.size behind b v)
    (hvacant : behind ≠ [] → ∀ y, s.lookup? es (.str key) = some y → y = .null) :
    InsertsAt s (u.set h (.dict (s.insertEntry es (.str key) b))) (.ref h) [] h es key behind b v
    where
  way := rfl
  dict := hd
  written := get?_set_self _ (lt_size_of_get? (hgrows _ _ hd))
  others := fun g c hne hc => by rw [get?_set_ne _ hne, hgrows g c hc]
  chain := by
    have hlt : h.index < s.size := lt_size_of_get? hd
    refine hchain.congr fun g hg => get?_set_ne _ ?_
    rintro rfl
    omega
  vacant := hvacant

theorem Open.of_lookup? {y : Value} (hopen : s.Open (.ref h) (key :: ks))
    (hd : s.get? h = some (.dict es)) (hy : s.lookup? es (.str key) = some y) : s.Open y ks := by
  intro ps hbelow hne w hw
  refine hopen (key :: ps) (by simpa using hbelow) (by simpa using hne) w ?_
  rw [atKeys?_cons_of_get? hd, hy]
  exact hw

theorem open_of_lookup? (hd : s.get? h = some (.dict es))
    (hrest : ∀ y, s.lookup? es (.str key) = some y → s.Open y ks) :
    s.Open (.ref h) (key :: ks) := by
  intro ps hbelow hne w hw
  cases ps with
  | nil =>
    cases hw
    exact .inr (isKeyed_of_get? hd)
  | cons p ps =>
    obtain ⟨rfl, hps⟩ : p = key ∧ ps <+: ks := by simpa using hbelow
    rw [atKeys?_cons_of_get? hd, Option.bind_eq_some_iff] at hw
    obtain ⟨y, hy, hw⟩ := hw
    exact hrest y hy ps hps (by simpa using hne) w hw

theorem open_null (s : Store) (ks : List String) : s.Open .null ks := by
  intro ps _ _ w hw
  cases ps with
  | nil =>
    cases hw
    exact .inl rfl
  | cons p ps => cases hw

end Store

open Store (InsertsAt)

namespace Context

variable (ctx : Context)

/-- **An update along keys writes one dict.** -/
theorem update_inserts (v : Value) : ∀ {ks : List String} {key : String} {h : Handle}
    {es : List (Value × Value)}, s.get? h = some (.dict es) → s.IsTree (.ref h) →
    s.Open (.ref h) (key :: ks) →
    ∃ t before g gs last behind x, key :: ks = before ++ last :: behind ∧
      (ctx.keyEdit (key :: ks)).update false false (.value v) (.ref h) s = (.ok (.ref h), t) ∧
      InsertsAt s t (.ref h) before g gs last behind x v
  | [], key, h, es, hd, _, _ =>
    ⟨_, [], h, es, key, [], v, rfl, ctx.update_last hd key false v,
      .of_chain hd (.refl s) rfl fun hnil => absurd rfl hnil⟩
  | next :: ks, key, h, es, hd, htree, hopen => by
    cases hc : s.lookup? es (.str key) with
    | none =>
      obtain ⟨b, t, u, hbuild, hupdate, hgrows, hchain⟩ := ctx.create_keys true v next ks s
      refine ⟨_, [], h, es, key, next :: ks, b, rfl, ?_,
        .of_chain hd hgrows hchain fun _ y hy => by rw [hc] at hy; cases hy⟩
      rw [ctx.update_missing hd hc hbuild hupdate, ctx.upsert_keySegment (hgrows _ _ hd),
        Store.insertEntry_str_congr s u]
    | some c =>
      by_cases hnull : c = .null
      · subst hnull
        obtain ⟨b, t, u, hbuild, hupdate, hgrows, hchain⟩ := ctx.create_keys false v next ks s
        refine ⟨_, [], h, es, key, next :: ks, b, rfl, ?_,
          .of_chain hd hgrows hchain fun _ y hy => by rw [hc] at hy; cases hy; rfl⟩
        rw [ctx.update_at_key hd hc (.inl ⟨rfl, hbuild⟩) hupdate, setChild_key (hgrows _ _ hd),
          Store.insertEntry_str_congr s u]
      · have hkeyed : s.isKeyed c = true := by
          have hcases := hopen [key] (by simp) (by simp) c (by
            rw [Store.atKeys?_cons_of_get? hd, hc]
            rfl)
          exact hcases.resolve_left hnull
        obtain ⟨ds, hds⟩ := Store.container?_of_isKeyed hkeyed
        cases c with
        | scalar a => cases hds
        | ref d =>
          have hget : s.dictGet? (.ref h) (.str key) = some (.ref d) := by
            rw [Store.dictGet?_of_get? hd, hc]
          obtain ⟨t, before, g, gs, last, behind, x, hks, hupdate, hinserts⟩ :=
            update_inserts v hds (htree.of_dictGet? hget) (hopen.of_lookup? hd hc)
          have hway : s.atKeys? (.ref h) (key :: before) = some (.ref g) := by
            rw [Store.atKeys?_cons_of_get? hd, hc]
            exact hinserts.way
          -- The dict that is written is further down, so this one stays as it is.
          have hne : h ≠ g := by
            rintro rfl
            exact htree.no_return key before hway
          have hsame : setChild (.ref h) (.key (.str key)) (.ref d) t = (.ref h, t) :=
            setChild_same (hinserts.others h _ hne hd) ((Store.lookup?_str_congr ..).trans hc)
          refine ⟨t, key :: before, g, gs, last, behind, x, by rw [hks, List.cons_append], ?_,
            { hinserts with way := hway }⟩
          rw [ctx.update_at_key hd hc (.inr ⟨hnull, rfl, rfl⟩) hupdate, hsame]

/-- Where something else than a dict or null is on the way, nothing is written. -/
theorem update_blocked (built : Bool) (v : Value) : ∀ {ks : List String} {key : String} {w : Value},
    s.HoldsGraph w → ¬s.Open w (key :: ks) →
    ∃ t, (ctx.keyEdit (key :: ks)).update built false (.value v) w s = (.ok w, t) ∧
      s.GrowsTo t := by
  intro ks
  induction ks with
  | nil =>
    intro key w hgraph hblocked
    refine ctx.update_of_not_isKeyed hgraph.holds (Bool.eq_false_iff.mpr fun hkeyed => ?_) key []
      built v
    obtain ⟨es, hc⟩ := Store.container?_of_isKeyed hkeyed
    cases w with
    | scalar a => cases hc
    | ref h =>
      refine hblocked (Store.open_of_lookup? hc fun y _ ps hbelow hne => ?_)
      exact absurd (List.prefix_nil.mp hbelow) hne
  | cons next ks ih =>
    intro key w hgraph hblocked
    cases hkeyed : s.isKeyed w with
    | false => exact ctx.update_of_not_isKeyed hgraph.holds hkeyed key (next :: ks) built v
    | true =>
      obtain ⟨es, hc⟩ := Store.container?_of_isKeyed hkeyed
      cases w with
      | scalar a => cases hc
      | ref h =>
        have hd : s.get? h = some (.dict es) := hc
        obtain ⟨y, hy, hrest⟩ :
            ∃ y, s.lookup? es (.str key) = some y ∧ ¬s.Open y (next :: ks) := by
          by_contra hnone
          push Not at hnone
          exact hblocked (Store.open_of_lookup? hd hnone)
        have hnull : y ≠ .null := by
          rintro rfl
          exact hrest (s.open_null _)
        have hpart : s.Part (.ref h) y :=
          ⟨_, hc, List.mem_flatMap.mpr ⟨_, Store.mem_of_lookup?_str hy, by simp⟩⟩
        obtain ⟨t, hupdate, hgrows⟩ := ih (hgraph.of_reaches hpart.reaches) hrest
        -- nothing has changed below, so the same value is written back at its key
        have hsame : setChild (.ref h) (.key (.str key)) y t = (.ref h, t) :=
          setChild_same (hgrows _ _ hd) ((Store.lookup?_str_congr ..).trans hy)
        exact ⟨t, by rw [ctx.update_at_key hd hy (.inr ⟨hnull, rfl, rfl⟩) hupdate, hsame], hgrows⟩

end Context

/-! ### What is found afterwards -/

namespace Store.InsertsAt

variable {root : Value} {before behind : List String} {g : Handle} {gs : List (Value × Value)}
  {last : String}

/-- Every other container that keys lead to is kept. -/
theorem get?_eq (hinserts : InsertsAt s t root before g gs last behind x v)
    (hgraph : s.HoldsGraph root) (htree : s.IsTree root) {ps : List String}
    (hps : s.atKeys? root ps = some (.ref h)) (hne : ps ≠ before) : t.get? h = s.get? h := by
  obtain ⟨way, hway, -⟩ := exists_way_of_atKeys? hps
  obtain ⟨c, hc⟩ := get?_of_lt (holds_ref.mp (hgraph _ (reaches_of_follow? way hway)))
  have hother : h ≠ g := by
    rintro rfl
    exact hne (htree.keys_unique hps hinserts.way)
  rw [hc, hinserts.others h c hother hc]

/-- What is reached without going through the dict that is written stays. -/
theorem atKeys?_of_avoids (hinserts : InsertsAt s t root before g gs last behind x v)
    (hgraph : s.HoldsGraph root) (htree : s.IsTree root) (hjs : ¬(before <+: js ∧ before ≠ js)) :
    t.atKeys? root js = s.atKeys? root js := by
  refine atKeys?_congr fun ps h hbelow hne hps => hinserts.get?_eq hgraph htree hps ?_
  rintro rfl
  exact hjs ⟨hbelow, hne⟩

theorem atKeys?_before (hinserts : InsertsAt s t root before g gs last behind x v)
    (hgraph : s.HoldsGraph root) (htree : s.IsTree root) :
    t.atKeys? root before = some (.ref g) := by
  rw [hinserts.atKeys?_of_avoids hgraph htree fun hboth => hboth.2 rfl, hinserts.way]

/-- The keys of the update lead to the value. -/
theorem atKeys?_self (hinserts : InsertsAt s t root before g gs last behind x v)
    (hgraph : s.HoldsGraph root) (htree : s.IsTree root) :
    t.atKeys? root (before ++ last :: behind) = some v := by
  rw [atKeys?_append, hinserts.atKeys?_before hgraph htree, Option.bind_some,
    atKeys?_cons_of_get? hinserts.written, lookup?_insertEntry_self]
  exact hinserts.chain.atKeys?

/-- All keys that neither go on behind those of the update, nor stop before, lead to what they led
to. -/
theorem atKeys?_of_apart (hinserts : InsertsAt s t root before g gs last behind x v)
    (hgraph : s.HoldsGraph root) (htree : s.IsTree root)
    (hks : ¬(before ++ last :: behind) <+: js) (hjs : ¬js <+: (before ++ last :: behind)) :
    t.atKeys? root js = s.atKeys? root js := by
  by_cases hbefore : before <+: js
  · obtain ⟨js, rfl⟩ := hbefore
    rw [atKeys?_append, atKeys?_append, hinserts.atKeys?_before hgraph htree, hinserts.way,
      Option.bind_some, Option.bind_some]
    have hks : ¬(last :: behind) <+: js := fun h => hks ((List.prefix_append_right_inj _).mpr h)
    have hjs : ¬js <+: (last :: behind) := fun h => hjs ((List.prefix_append_right_inj _).mpr h)
    cases js with
    | nil => exact absurd List.nil_prefix hjs
    | cons j js =>
      rw [atKeys?_cons_of_get? hinserts.written, atKeys?_cons_of_get? hinserts.dict]
      by_cases hj : last = j
      · -- There was nothing or null, and now there is a chain with other keys.
        subst hj
        have hks : ¬behind <+: js := by simpa using hks
        have hjs : ¬js <+: behind := by simpa using hjs
        have hnone : (s.lookup? gs (.str last)).bind (s.atKeys? · js) = none := by
          cases hy : s.lookup? gs (.str last) with
          | none => rfl
          | some y =>
            have hbehind : behind ≠ [] := by
              rintro rfl
              exact hks List.nil_prefix
            have hne : js ≠ [] := by
              rintro rfl
              exact hjs List.nil_prefix
            obtain ⟨j, js, rfl⟩ := List.exists_cons_of_ne_nil hne
            rw [hinserts.vacant hbehind y hy]
            rfl
        rw [hnone, lookup?_insertEntry_self, Option.bind_some]
        exact hinserts.chain.atKeys?_of_apart hks hjs
      · have hlookup : t.lookup? (s.insertEntry gs (.str last) x) (.str j) =
            s.lookup? gs (.str j) := by
          rw [lookup?_insertEntry_of_ne _ _ _ _ (Ne.symm hj), lookup?_str_congr s t]
        rw [hlookup]
        cases hy : s.lookup? gs (.str j) with
        | none => rfl
        | some y =>
          have hdeep (qs : List String) :
              s.atKeys? root (before ++ j :: qs) = s.atKeys? y qs := by
            rw [atKeys?_append, hinserts.way, Option.bind_some,
              atKeys?_cons_of_get? hinserts.dict, hy]
            rfl
          rw [Option.bind_some, Option.bind_some]
          refine atKeys?_congr fun ps h _ _ hps => ?_
          refine hinserts.get?_eq hgraph htree ((hdeep ps).trans hps) fun heq => ?_
          simpa using congrArg List.length heq
  · exact hinserts.atKeys?_of_avoids hgraph htree fun hboth => hbefore hboth.1

/-- The containers on the way are still there. -/
theorem atKeys?_on_way (hinserts : InsertsAt s t root before g gs last behind x v)
    (hgraph : s.HoldsGraph root) (htree : s.IsTree root) {ps : List String}
    (hbelow : ps <+: before ++ last :: behind) (hne : ps ≠ before ++ last :: behind)
    (hps : s.atKeys? root ps = some (.ref h)) : t.atKeys? root ps = some (.ref h) := by
  rcases List.prefix_or_prefix_of_prefix hbelow (List.prefix_append before _) with hle | hle
  · rw [hinserts.atKeys?_of_avoids hgraph htree fun hboth => ?_, hps]
    exact hboth.2 (hboth.1.eq_of_length_le hle.length_le)
  · obtain ⟨qs, rfl⟩ := hle
    cases qs with
    | nil =>
      rw [List.append_nil] at hps ⊢
      rw [hinserts.atKeys?_before hgraph htree, ← hinserts.way, hps]
    | cons q qs =>
      -- Behind the dict that is written there was nothing, or null.
      have hrest : q :: qs <+: last :: behind := (List.prefix_append_right_inj _).mp hbelow
      obtain ⟨rfl, hqs⟩ : q = last ∧ qs <+: behind := by simpa using hrest
      have hbehind : behind ≠ [] := by
        rintro rfl
        exact hne (by rw [List.prefix_nil.mp hqs])
      rw [atKeys?_append, hinserts.way, Option.bind_some, atKeys?_cons_of_get? hinserts.dict,
        Option.bind_eq_some_iff] at hps
      obtain ⟨y, hy, hps⟩ := hps
      rw [hinserts.vacant hbehind y hy] at hps
      cases qs <;> cases hps

end Store.InsertsAt

/-- **An update along text keys is a framed insertion** into a tree of dicts and other containers.

If the way is open, that is if all that it comes through is missing, null or a dict, the value is found
at the keys; every other path of text keys, unless it goes on behind them or stops before, finds what
it found; one dict is written, at one of the keys, where the keys that it had keep their order; and the
dicts on the way are still there.  If the way is blocked, nothing that was there changes. -/
theorem Context.update_keys_framed (ctx : Context) {s : Store} {r : Handle}
    {es : List (Value × Value)} {ks : List String} (v : Value) (hd : s.get? r = some (.dict es))
    (hgraph : s.HoldsGraph (.ref r)) (htree : s.IsTree (.ref r)) (hks : ks ≠ []) :
    (s.Open (.ref r) ks → ∃ t,
      ctx.update (ks.map keySegment) (.ref r) (.value v) s = (.ok (.ref r), t) ∧
      ctx.find (ks.map keySegment) (.ref r) t = (.ok [(keyLocation ks, v)], t) ∧
      (∀ js, ¬ks <+: js → ¬js <+: ks →
        (ctx.find (js.map keySegment) (.ref r) t).1 =
          (ctx.find (js.map keySegment) (.ref r) s).1) ∧
      (∃ g gs key x, key ∈ ks ∧ s.get? g = some (.dict gs) ∧
        t.get? g = some (.dict (s.insertEntry gs (.str key) x)) ∧
        ∀ h c, h ≠ g → s.get? h = some c → t.get? h = some c) ∧
      (∀ h fs, s.get? h = some (.dict fs) → ∃ fs', t.get? h = some (.dict fs') ∧
        fs.map Prod.fst <+: fs'.map Prod.fst) ∧
      ∀ ps h, ps <+: ks → ps ≠ ks → s.atKeys? (.ref r) ps = some (.ref h) →
        (ctx.find (ps.map keySegment) (.ref r) t).1 = .ok [(keyLocation ps, .ref h)]) ∧
    (¬s.Open (.ref r) ks → ∃ t,
      ctx.update (ks.map keySegment) (.ref r) (.value v) s = (.ok (.ref r), t) ∧
      s.GrowsTo t) := by
  obtain ⟨key, ks, rfl⟩ := List.exists_cons_of_ne_nil hks
  refine ⟨fun hopen => ?_, fun hblocked => ctx.update_blocked false v hgraph hblocked⟩
  obtain ⟨t, before, g, gs, last, behind, x, hsplit, hupdate, hinserts⟩ :=
    ctx.update_inserts v hd htree hopen
  refine ⟨t, hupdate, ?_, fun js hkeys hjs => ?_, ⟨g, gs, last, x, ?_, hinserts.dict,
    hinserts.written, hinserts.others⟩, fun h fs hfs => ?_, fun ps h hbelow hne hps => ?_⟩
  · rw [ctx.find_keys, hsplit, hinserts.atKeys?_self hgraph htree]
    rfl
  · rw [hsplit] at hkeys hjs
    rw [ctx.find_keys, ctx.find_keys, hinserts.atKeys?_of_apart hgraph htree hkeys hjs]
  · simp [hsplit]
  · by_cases hg : h = g
    · subst hg
      cases hfs.symm.trans hinserts.dict
      exact ⟨_, hinserts.written, s.keys_prefix_insertEntry ..⟩
    · exact ⟨fs, hinserts.others h _ hg hfs, List.prefix_refl _⟩
  · rw [hsplit] at hbelow hne
    rw [ctx.find_keys, hinserts.atKeys?_on_way hgraph htree hbelow hne hps]
    rfl

/-- A value is written below a null, in a dict that has another key too; and nothing is written into a
list. -/
theorem update_keys_framed_null :
    let ctx : Context := ⟨.empty, false⟩
    let s : Store := ⟨#[.dict [(.str "a", .ref ⟨1⟩), (.int 5, .bool true), (.str "l", .ref ⟨2⟩)],
      .dict [(.str "n", .null), (.str "c", .int 1)], .list [.int 3]]⟩
    let root : Value := .ref ⟨0⟩
    (∃ t, ctx.update (["a", "n", "x"].map keySegment) root (.value (.int 7)) s = (.ok root, t) ∧
      ctx.find (["a", "n", "x"].map keySegment) root t =
        (.ok [(keyLocation ["a", "n", "x"], .int 7)], t) ∧
      (ctx.find (["a", "c"].map keySegment) root t).1 = .ok [(keyLocation ["a", "c"], .int 1)]) ∧
    ∃ t, ctx.update (["l", "x"].map keySegment) root (.value (.int 7)) s = (.ok root, t) ∧
      s.GrowsTo t := by
  intro ctx s root
  have hd : s.get? ⟨0⟩ =
    some (.dict [(.str "a", .ref ⟨1⟩), (.int 5, .bool true), (.str "l", .ref ⟨2⟩)]) := rfl
  have hd' : s.get? ⟨1⟩ = some (.dict [(.str "n", .null), (.str "c", .int 1)]) := rfl
  have hgraph : s.HoldsGraph root :=
    Store.holdsGraph_of_isClosed (by decide) (Store.holds_ref.mpr (by decide))
  have htree : s.IsTree root := Store.isTree_of_isUnshared (by decide)
  have hopen : s.Open root ["a", "n", "x"] := by
    refine Store.open_of_lookup? hd fun y hy => ?_
    rw [Store.lookup?_str] at hy
    cases hy
    refine Store.open_of_lookup? hd' fun y hy => ?_
    rw [Store.lookup?_str] at hy
    cases hy
    exact s.open_null _
  have hblocked : ¬s.Open root ["l", "x"] := by
    intro hopen
    have hlist : s.atKeys? root ["l"] = some (.ref ⟨2⟩) := by
      rw [Store.atKeys?_cons_of_get? hd, Store.lookup?_str]
      rfl
    rcases hopen ["l"] (by simp) (by simp) _ hlist with hnull | hkeyed
    · cases hnull
    · cases hkeyed
  obtain ⟨t, hupdate, hfind, hothers, -⟩ :=
    (ctx.update_keys_framed (.int 7) hd hgraph htree (by simp)).1 hopen
  refine ⟨⟨t, hupdate, hfind, ?_⟩,
    (ctx.update_keys_framed (.int 7) hd hgraph htree (by simp)).2 hblocked⟩
  rw [hothers ["a", "c"] (by simp) (by simp), ctx.find_keys, Store.atKeys?_cons_of_get? hd,
    Store.lookup?_str]
  show (Except.ok (((s.atKeys? (.ref ⟨1⟩) ["c"]).map _).toList) : Except Error _) = _
  rw [Store.atKeys?_cons_of_get? hd', Store.lookup?_str]
  rfl

end DottedPath
