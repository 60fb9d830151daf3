import DottedPath.Proofs.Evaluate.GroupUpdate
import DottedPath.Proofs.Value.Unfolding

/-!
# Paths of text keys in any value

A path of text keys leads from dict to dict, and to nothing where there is no dict or no such key
(`Store.atKeys?`).  That is what reading it finds, in every value (`Context.find_keys`), whatever
other keys the dicts have.

In a tree, two paths of keys lead to the same container only if they are the same
(`Store.IsTree.keys_unique`).
-/

namespace DottedPath

namespace Store

variable {s t : Store} {v w x : Value} {key other : String} {es : List (Value × Value)}
  {ks js : List String}

/-! ### Entries with a text key -/

/-- What a text key leads to does not depend on the store. -/
theorem lookup?_str_congr (s t : Store) (es : List (Value × Value)) (key : String) :
    t.lookup? es (.str key) = s.lookup? es (.str key) := by
  rw [lookup?_str, lookup?_str]

/-- The entry of a text key has this text as its key. -/
theorem mem_of_lookup?_str (h : s.lookup? es (.str key) = some x) : (.str key, x) ∈ es := by
  rw [lookup?_str, Option.map_eq_some_iff] at h
  obtain ⟨⟨k, y⟩, hfind, rfl⟩ := h
  have hk : k.string? = some key := by simpa using List.find?_some hfind
  rw [Value.string?_eq_some.mp hk] at hfind
  exact List.mem_of_find?_eq_some hfind

theorem sameKey_str_left (key : String) (k : Value) :
    s.sameKey (.str key) k = (k.string? == some key) :=
  s.equalsWithin_str_left _ _ key k

/-- What is written at a text key is found there. -/
theorem lookup?_insertEntry_self (s t : Store) (es : List (Value × Value)) (key : String)
    (v : Value) : t.lookup? (s.insertEntry es (.str key) v) (.str key) = some v := by
  rw [lookup?_str]
  induction es with
  | nil => simp [insertEntry, Value.string?]
  | cons e es ih =>
    rw [insertEntry_cons, sameKey_str_left]
    by_cases hk : e.1.string? = some key
    · simp [hk]
    · have hfalse : (e.1.string? == some key) = false := by simp [hk]
      simpa [hfalse] using ih

/-- What is at other text keys stays. -/
theorem lookup?_insertEntry_of_ne (s t : Store) (es : List (Value × Value)) (v : Value)
    (hne : other ≠ key) :
    t.lookup? (s.insertEntry es (.str key) v) (.str other) = t.lookup? es (.str other) := by
  rw [lookup?_str, lookup?_str]
  induction es with
  | nil => simp [insertEntry, Value.string?, hne.symm]
  | cons e es ih =>
    rw [insertEntry_cons, sameKey_str_left]
    by_cases hk : e.1.string? = some key
    · simp [hk, hne.symm]
    · have hfalse : (e.1.string? == some key) = false := by simp [hk]
      cases hother : e.1.string? == some other with
      | true => simp [hfalse, hother]
      | false => simpa [hfalse, hother] using ih

/-- Writing what is there changes nothing. -/
theorem insertEntry_of_lookup? (s : Store) : ∀ {es : List (Value × Value)},
    s.lookup? es (.str key) = some x → s.insertEntry es (.str key) x = es
  | [], h => by simp [lookup?] at h
  | e :: es, h => by
    rw [lookup?_str] at h
    rw [insertEntry_cons, sameKey_str_left]
    cases hk : e.1.string? == some key with
    | true =>
      have hx : e.2 = x := by simpa [hk] using h
      simp [← hx]
    | false =>
      have hrest : s.lookup? es (.str key) = some x := by
        rw [lookup?_str]
        simpa [hk] using h
      simp [insertEntry_of_lookup? s hrest]

/-- The keys that are there keep their order, and a new one comes last. -/
theorem keys_prefix_insertEntry (s : Store) (key v : Value) : ∀ es : List (Value × Value),
    es.map Prod.fst <+: (s.insertEntry es key v).map Prod.fst
  | [] => List.nil_prefix
  | e :: es => by
    rw [insertEntry_cons]
    split
    · exact List.prefix_refl _
    · have htail := keys_prefix_insertEntry s key v es
      simpa using htail

/-! ### Descent by keys -/

/-- What some text keys lead to, each of them a key of a dict. -/
def atKeys? (s : Store) : Value → List String → Option Value
  | v, [] => some v
  | v, key :: keys => (s.dictGet? v (.str key)).bind fun w => s.atKeys? w keys

theorem dictGet?_of_get? {h : Handle} (hd : s.get? h = some (.dict es)) (key : Value) :
    s.dictGet? (.ref h) key = s.lookup? es key := by
  have hc : s.container? (.ref h) = some (.dict es) := hd
  rw [dictGet?, hc]

/-- Only a dict has keys. -/
theorem dict_of_dictGet? {key : Value} (h : s.dictGet? v key = some x) :
    ∃ h es, v = .ref h ∧ s.get? h = some (.dict es) ∧ s.lookup? es key = some x := by
  unfold dictGet? at h
  split at h
  · rename_i es hc
    cases v with
    | scalar a => cases hc
    | ref g => exact ⟨g, es, rfl, hc, h⟩
  · cases h

theorem dictGet?_of_not_isKeyed (hv : s.isKeyed v = false) (key : Value) :
    s.dictGet? v key = none := by
  cases hget : s.dictGet? v key with
  | none => rfl
  | some x =>
    obtain ⟨h, es, rfl, hd, -⟩ := dict_of_dictGet? hget
    rw [isKeyed_of_get? hd] at hv
    cases hv

theorem atKeys?_cons_of_get? {h : Handle} (hd : s.get? h = some (.dict es)) (key : String)
    (ks : List String) :
    s.atKeys? (.ref h) (key :: ks) = (s.lookup? es (.str key)).bind fun w => s.atKeys? w ks := by
  rw [atKeys?, dictGet?_of_get? hd]

theorem atKeys?_append (s : Store) : ∀ (v : Value) (ks js : List String),
    s.atKeys? v (ks ++ js) = (s.atKeys? v ks).bind fun w => s.atKeys? w js
  | v, [], js => rfl
  | v, key :: ks, js => by
    rw [List.cons_append, atKeys?, atKeys?, Option.bind_assoc]
    congr 1
    funext w
    exact atKeys?_append s w ks js

/-- The descent goes the same way where it comes through the same dicts. -/
theorem atKeys?_congr : ∀ {ks : List String} {v : Value},
    (∀ ps h, ps <+: ks → ps ≠ ks → s.atKeys? v ps = some (.ref h) → t.get? h = s.get? h) →
    t.atKeys? v ks = s.atKeys? v ks
  | [], _, _ => rfl
  | key :: ks, v, hsame => by
    have hget : t.dictGet? v (.str key) = s.dictGet? v (.str key) := by
      cases v with
      | scalar a => rfl
      | ref h =>
        have hh : t.get? h = s.get? h :=
          hsame [] h List.nil_prefix (List.cons_ne_nil _ _).symm rfl
        have hc : t.container? (.ref h) = s.container? (.ref h) := hh
        rw [dictGet?, dictGet?, hc]
        split
        · exact lookup?_str_congr ..
        · rfl
    rw [atKeys?, atKeys?, hget]
    cases hx : s.dictGet? v (.str key) with
    | none => rfl
    | some x =>
      refine atKeys?_congr fun ps h hprefix hne hps => ?_
      refine hsame (key :: ps) h ?_ (by simpa using hne) ?_
      · simpa using hprefix
      · rw [atKeys?, hx]
        exact hps

/-! ### Trees -/

/-- The positions of the keys and values of a dict among its parts. -/
theorem getElem?_parts_dict : ∀ (es : List (Value × Value)) (i : Nat),
    (Container.dict es).parts[2 * i + 1]? = (es[i]?).map Prod.snd
  | [], i => by simp [Container.parts]
  | e :: es, 0 => by simp [Container.parts]
  | e :: es, i + 1 => by
    have htail := getElem?_parts_dict es i
    have hshift : 2 * (i + 1) + 1 = 2 * i + 1 + 2 := by omega
    rw [hshift]
    simpa [Container.parts] using htail

/-- A text key leads to one part. -/
theorem exists_step_of_dictGet? (h : s.dictGet? v (.str key) = some x) :
    ∃ es i, s.container? v = some (.dict es) ∧ es[i]? = some (.str key, x) ∧
      ∀ way, s.follow? v ((2 * i + 1) :: way) = s.follow? x way := by
  obtain ⟨g, es, rfl, hd, hlookup⟩ := dict_of_dictGet? h
  obtain ⟨i, hi⟩ := List.getElem?_of_mem (mem_of_lookup?_str hlookup)
  have hc : s.container? (.ref g) = some (.dict es) := hd
  refine ⟨es, i, hc, hi, fun way => ?_⟩
  rw [follow?, hc, Option.bind_eq_bind, Option.bind_some, getElem?_parts_dict, hi]
  rfl

/-- Keys are followed by a way as long as they are. -/
theorem exists_way_of_atKeys? : ∀ {ks : List String} {v : Value}, s.atKeys? v ks = some x →
    ∃ way, s.follow? v way = some x ∧ way.length = ks.length
  | [], v, h => ⟨[], h, rfl⟩
  | key :: ks, v, h => by
    rw [atKeys?, Option.bind_eq_some_iff] at h
    obtain ⟨w, hw, h⟩ := h
    obtain ⟨es, i, -, -, hstep⟩ := exists_step_of_dictGet? hw
    obtain ⟨way, hway, hlength⟩ := exists_way_of_atKeys? h
    exact ⟨(2 * i + 1) :: way, by rw [hstep, hway], by simp [hlength]⟩

namespace IsTree

theorem of_dictGet? (htree : s.IsTree v) (h : s.dictGet? v (.str key) = some x) : s.IsTree x := by
  obtain ⟨es, i, -, -, hstep⟩ := exists_step_of_dictGet? h
  exact htree.of_follow? (hstep [])

/-- No keys lead from a container back to it. -/
theorem no_return {h : Handle} (htree : s.IsTree (.ref h)) (key : String) (ks : List String) :
    s.atKeys? (.ref h) (key :: ks) ≠ some (.ref h) := by
  intro hback
  obtain ⟨way, hway, hlength⟩ := exists_way_of_atKeys? hback
  have hnil : way = [] := htree way [] h hway rfl
  simp [hnil] at hlength

/-- **Different keys lead to different containers.** -/
theorem keys_unique : ∀ {ks js : List String} {v : Value} {h : Handle}, s.IsTree v →
    s.atKeys? v ks = some (.ref h) → s.atKeys? v js = some (.ref h) → ks = js
  | [], [], _, _, _, _, _ => rfl
  | [], j :: js, v, h, htree, hks, hjs => by
    have hv : v = .ref h := by simpa [atKeys?] using hks
    subst hv
    exact absurd hjs (htree.no_return j js)
  | k :: ks, [], v, h, htree, hks, hjs => by
    have hv : v = .ref h := by simpa [atKeys?] using hjs
    subst hv
    exact absurd hks (htree.no_return k ks)
  | k :: ks, j :: js, v, h, htree, hks, hjs => by
    rw [atKeys?, Option.bind_eq_some_iff] at hks hjs
    obtain ⟨x, hx, hks⟩ := hks
    obtain ⟨y, hy, hjs⟩ := hjs
    obtain ⟨es, i, hc, hi, hstep⟩ := exists_step_of_dictGet? hx
    obtain ⟨es', i', hc', hi', hstep'⟩ := exists_step_of_dictGet? hy
    cases hc.symm.trans hc'
    obtain ⟨way, hway, -⟩ := exists_way_of_atKeys? hks
    obtain ⟨way', hway', -⟩ := exists_way_of_atKeys? hjs
    -- Both ways lead to the container, so they begin with the same part, which has one key.
    have hways := htree _ _ h ((hstep way).trans hway) ((hstep' way').trans hway')
    have hpos : i = i' := by
      have hhead := List.head_eq_of_cons_eq hways
      omega
    subst hpos
    have hentry : (Value.str k, x) = (Value.str j, y) := Option.some.inj (hi.symm.trans hi')
    cases hentry
    rw [keys_unique (htree.of_dictGet? hx) hks hjs]

end IsTree

end Store

/-! ### Reading -/

namespace Context

variable (ctx : Context)

/-- A key access selects the value of the key in a dict, and nothing in another value. -/
theorem items_key (key : String) (node : Value) (s : Store) :
    ctx.items (keySegment key) node s =
      (.ok ((s.dictGet? node (.str key)).map fun v => (Step.key (.str key), v)).toList, s) := by
  cases hk : s.isKeyed node with
  | true =>
    obtain ⟨es, hc⟩ := Store.container?_of_isKeyed hk
    cases node with
    | scalar a => cases hc
    | ref h => rw [ctx.items_keySegment hc, Store.dictGet?_of_get? hc]
  | false =>
    have hraw : candidates .key (.literal (.str key)) node s = ([], s) := by
      rw [candidates, keyedCandidates, StoreM.run_bind, StoreM.run_get, hk,
        if_neg Bool.false_ne_true]
      split <;> rfl
    rw [keySegment, Segment.literal, ctx.items_of_candidates hraw, Store.dictGet?_of_not_isKeyed hk]
    rfl

theorem walkPath_keys : ∀ (ks : List String) (base : Location) (v : Value) (s : Store),
    ctx.walkPath (ks.map keySegment) Walk.done base v s =
      (.ok ⟨((s.atKeys? v ks).map fun x => (base ++ keyLocation ks, x)).toList, false⟩, s)
  | [], base, v, s => by
    have hbase : base ++ keyLocation [] = base := List.append_nil base
    rw [hbase]
    rfl
  | key :: ks, base, v, s => by
    show (ctx.items (keySegment key) v >>= fun parts =>
      (ctx.walkPath (ks.map keySegment) Walk.done).each base (placesOf parts)) s = _
    rw [Eval.run_bind_of_ok (ctx.items_key key v s), Store.atKeys?]
    cases s.dictGet? v (.str key) with
    | none => rfl
    | some x =>
      have hrest := walkPath_keys ks (base ++ [.key (.str key)]) x s
      have hlocation : base ++ [.key (.str key)] ++ keyLocation ks =
          base ++ keyLocation (key :: ks) := by simp [keyLocation]
      rw [hlocation] at hrest
      show (Walk.each _ base [([.key (.str key)], x)]) s = _
      rw [Walk.each, Eval.run_bind_of_ok hrest, if_neg Bool.false_ne_true]
      simp [Walk.each, Eval.run_bind_of_ok (Eval.run_pure _ s), Eval.run_pure, Visit.nothing]

/-- **Reading a path of text keys finds what the keys lead to.** -/
theorem find_keys (ks : List String) (v : Value) (s : Store) :
    ctx.find (ks.map keySegment) v s =
      (.ok ((s.atKeys? v ks).map fun x => (keyLocation ks, x)).toList, s) := by
  rw [find, Eval.run_bind_of_ok (ctx.walkPath_keys ks [] v s)]
  rfl

end Context

end DottedPath
