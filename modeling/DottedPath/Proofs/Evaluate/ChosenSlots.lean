import DottedPath.Proofs.Evaluate.Fits
import DottedPath.Proofs.Value.Ways

/-!
# The slots that an access selects

Which slots of a container an access selects can be told from its form (`Form.chosen`): a pattern
goes by the keys, names or positions of the slots, a literal names one slot or none.  So an access
selects the same slots after their values have been written, as long as the tuples among the keys
hold what they held (`Form.chosen_retains`).

## Main statements

- `Context.items_fill`: an access selects the values in the chosen slots, each at a step that leads
  to its slot.
-/

namespace DottedPath

variable {s t : Store}

/-! ### Texts of keys -/

namespace Literal

mutual

/-- Values of one literal have one literal form, in whatever store they are. -/
theorem reprWithin_of_shows : ∀ (l : Literal) {v w : Value} {m n : Nat}, l.Shows s v → l.Shows t w →
    l.height < m → l.height < n → s.reprWithin m v = t.reprWithin n w
  | scalar x, v, w, m, n, hv, hw, _, _ => by
    rw [Shows] at hv hw
    rw [hv, hw, Store.reprWithin, Store.reprWithin]
  | tuple ls, v, w, m, n, hv, hw, hm, hn => by
    rw [Shows] at hv hw
    rw [height] at hm hn
    obtain ⟨g, vs, rfl, hg, hvs⟩ := hv
    obtain ⟨h, ws, rfl, hh, hws⟩ := hw
    obtain ⟨m, rfl⟩ : ∃ k, m = k + 1 := ⟨m - 1, by omega⟩
    obtain ⟨n, rfl⟩ : ∃ k, n = k + 1 := ⟨n - 1, by omega⟩
    have hitems := reprWithin_of_show ls hvs hws (m := m) (n := n) (by omega) (by omega)
    have hlength : vs.length = ws.length := by simpa using congrArg List.length hitems
    -- A tuple of one item is written with a comma behind it.
    match vs, ws, hlength with
    | [], [], _ => simp [Store.reprWithin, hg, hh]
    | [x], [y], _ =>
      have hitem : s.reprWithin m x = t.reprWithin n y := by simpa using hitems
      simp [Store.reprWithin, hg, hh, hitem]
    | x :: x' :: vs, y :: y' :: ws, _ => simp [Store.reprWithin, hg, hh, hitems]

theorem reprWithin_of_show : ∀ (ls : List Literal) {vs ws : List Value} {m n : Nat},
    ItemsShow s ls vs → ItemsShow t ls ws → itemsHeight ls < m → itemsHeight ls < n →
    vs.map (s.reprWithin m) = ws.map (t.reprWithin n)
  | [], vs, ws, m, n, hvs, hws, _, _ => by
    rw [ItemsShow] at hvs hws
    rw [hvs, hws, List.map_nil, List.map_nil]
  | l :: ls, vs, ws, m, n, hvs, hws, hm, hn => by
    rw [ItemsShow] at hvs hws
    rw [itemsHeight] at hm hn
    obtain ⟨v, vs, rfl, hv, hvs⟩ := hvs
    obtain ⟨w, ws, rfl, hw, hws⟩ := hws
    have hitem := reprWithin_of_shows l hv hw (m := m) (n := n) (by omega) (by omega)
    have hitems := reprWithin_of_show ls hvs hws (m := m) (n := n) (by omega) (by omega)
    rw [List.map_cons, List.map_cons, hitem, hitems]

end

/-- So they have one text. -/
theorem text_of_shows {l : Literal} {v w : Value} (hv : l.Shows s v) (hw : l.Shows t w) :
    s.text v = t.text w := by
  cases l with
  | scalar x =>
    rw [Shows] at hv hw
    rw [hv, hw, Store.text, Store.text]
  | tuple ls =>
    have hrepr : s.repr v = t.repr w :=
      reprWithin_of_shows (.tuple ls) hv hw (Nat.lt_succ_of_le hv.height_le)
        (Nat.lt_succ_of_le hw.height_le)
    rw [Shows] at hv hw
    obtain ⟨g, vs, rfl, -, -⟩ := hv
    obtain ⟨h, ws, rfl, -, -⟩ := hw
    exact hrepr

end Literal

namespace Store

/-- A pattern does not look further than the text of a key. -/
theorem IsKey.keyMatches_retains (hst : s.Retains t) {p : KeyPattern} (hp : p.isPattern = true)
    {k : Value} (hk : s.IsKey k) : t.keyMatches p k = s.keyMatches p k := by
  obtain ⟨l, hl, -⟩ := hk.shows
  cases p with
  | literal l => cases hp
  | wildcard => rfl
  | regex re =>
    rw [keyMatches, keyMatches, Literal.text_of_shows (hl.keeps hst.keepsCopied) hl]

/-- A look-up finds a key by the same test as an insertion. -/
theorem IsKey.findsKey_eq {a b : Value} (ha : s.IsKey a) (hb : s.IsKey b) (count : Nat) :
    s.findsKey count a b = s.sameKey a b := by
  rw [findsKey, sameKey]
  cases count != 1 with
  | true => rfl
  | false =>
    -- A dict with one key is searched without hashing, which keys without doubles do not notice.
    obtain ⟨l, hl, -⟩ := ha.shows
    obtain ⟨m, hm, hself⟩ := hb.shows
    have hlax := Literal.equalsWithin_of_shows l m hl hm (hself false) hl.height_lt
    have hstrict := Literal.equalsWithin_of_shows l m hl hm (hself true) hl.height_lt
    rw [Bool.eq_iff_iff]
    refine ⟨equalsWithin_asKey _ ha hb, fun h => ?_⟩
    rw [hstrict] at h
    rw [hlax, Literal.sameAs_of_asKey l m h]

end Store

/-! ### Slots of a form -/

/-- A literal of the pattern has no double in it. -/
def KeyPattern.HasNoDouble : KeyPattern → Prop
  | literal l => l.hasDouble = false
  | _ => True

namespace Form

/-- What a pattern sees of a slot. -/
def label : Form → Nat → Value
  | dict keys, i => keys.getD i .null
  | object _ names _, i => .str (names.getD i "")
  | _, i => .int i

/-- The container takes patterns of an access. -/
def takesPatterns (accessor : Accessor) : Form → Bool
  | dict _ => accessor != .attr
  | object _ _ _ => accessor == .attr
  | _ => accessor == .slot

/-- The slot that a literal names, of a container that has a number of them. -/
def slotOf? (s : Store) (accessor : Accessor) (l : Literal) (n : Nat) : Form → Option Nat
  | dict keys =>
    if accessor = .attr then none else keys.findIdx? ((l.toValue s).2.sameKey (l.toValue s).1)
  | object _ names _ =>
    if accessor = .attr then names.findIdx? (· == (l.toValue s).2.text (l.toValue s).1) else none
  | _ =>
    match l with
    | .int i => if accessor = .attr then none else resolveIndex? n i
    | _ => none

/-- The slots that a key pattern selects. -/
def slots (s : Store) (accessor : Accessor) (key : KeyPattern) (n : Nat) (f : Form) : List Nat :=
  match key with
  | .literal l => (f.slotOf? s accessor l n).toList
  | p =>
    if f.takesPatterns accessor then (List.range n).filter fun i => s.keyMatches p (f.label i)
    else []

/-- The slots that an access selects. -/
def chosen (s : Store) (accessor : Accessor) (key : KeyPattern) (first : Bool) (n : Nat) (f : Form) :
    List Nat :=
  firstOnly first (f.slots s accessor key n)

variable {f : Form} {accessor : Accessor} {key : KeyPattern} {l : Literal} {n i : Nat}

theorem slots_of_isPattern (hkey : key.isPattern = true) :
    f.slots s accessor key n =
      if f.takesPatterns accessor then (List.range n).filter fun i => s.keyMatches key (f.label i)
      else [] := by
  cases key with
  | literal l => cases hkey
  | _ => rfl

theorem nodup_slots (s : Store) (accessor : Accessor) (key : KeyPattern) (n : Nat) (f : Form) :
    (f.slots s accessor key n).Nodup := by
  cases key with
  | literal l =>
    show (f.slotOf? s accessor l n).toList.Nodup
    cases f.slotOf? s accessor l n <;> simp
  | _ =>
    rw [slots_of_isPattern rfl]
    split
    · exact List.nodup_range.filter _
    · exact List.nodup_nil

theorem nodup_chosen (s : Store) (accessor : Accessor) (key : KeyPattern) (first : Bool) (n : Nat)
    (f : Form) : (f.chosen s accessor key first n).Nodup :=
  (f.nodup_slots s accessor key n).sublist (firstOnly_sublist first _)

/-- A named slot is there. -/
theorem slotOf?_lt (hf : f.Suits s n) (h : f.slotOf? s accessor l n = some i) : i < n := by
  cases f with
  | dict keys =>
    rw [slotOf?] at h
    split at h
    · cases h
    · rw [← hf.1]
      exact (List.findIdx?_eq_some_iff_getElem.mp h).1
  | object name names frozen =>
    rw [slotOf?] at h
    split at h
    · rw [← hf.1]
      exact (List.findIdx?_eq_some_iff_getElem.mp h).1
    · cases h
  | _ =>
    simp only [slotOf?] at h
    split at h
    · split at h
      · cases h
      · exact resolveIndex?_lt h
    · cases h

theorem slots_lt (hf : f.Suits s n) (hi : i ∈ f.slots s accessor key n) : i < n := by
  cases key with
  | literal l => exact slotOf?_lt hf (Option.mem_toList.mp hi)
  | _ =>
    rw [slots_of_isPattern rfl] at hi
    split at hi
    · exact List.mem_range.mp (List.mem_filter.mp hi).1
    · cases hi

/-- What a pattern sees of a slot is a key. -/
theorem Keyed.label (hkeyed : f.Keyed s) (hf : f.Suits s n) (hi : i < n) : s.IsKey (f.label i) := by
  cases f with
  | dict keys =>
    have hlt : i < keys.length := by rw [hf.1]; exact hi
    rw [Form.label, List.getD_eq_getElem _ _ hlt]
    exact hkeyed _ (List.getElem_mem hlt)
  | _ => exact .scalar (by rintro ⟨⟩)

end Form

/-- Predicates that agree on the members find the same one. -/
theorem findIdx?_congr_of_mem {α : Type} {p q : α → Bool} : ∀ {xs : List α},
    (∀ x ∈ xs, p x = q x) → xs.findIdx? p = xs.findIdx? q
  | [], _ => rfl
  | x :: xs, h => by
    rw [List.findIdx?_cons, List.findIdx?_cons, h x (List.mem_cons_self ..),
      findIdx?_congr_of_mem fun y hy => h y (List.mem_cons_of_mem _ hy)]

namespace Form

variable {f : Form} {accessor : Accessor} {key : KeyPattern} {l : Literal} {n i : Nat}

/-- Values of one literal are the same as the same keys, in stores that have these keys from a third
one. -/
theorem findIdx?_sameKey {r : Store} (hs : r.KeepsCopied s) (ht : r.KeepsCopied t) {keys : List Value}
    (hkeys : ∀ k ∈ keys, r.IsKey k) {a b : Value} (ha : l.Shows s a) (hb : l.Shows t b) :
    keys.findIdx? (s.sameKey a) = keys.findIdx? (t.sameKey b) := by
  refine findIdx?_congr_of_mem fun k hk => ?_
  obtain ⟨m, hm, hself⟩ := (hkeys k hk).shows
  rw [Store.sameKey, Store.sameKey,
    Literal.equalsWithin_of_shows l m ha (hm.keeps hs) (hself true) ha.height_lt,
    Literal.equalsWithin_of_shows l m hb (hm.keeps ht) (hself true) hb.height_lt]

/-- A literal names the slot of a key that is the same as its value. -/
theorem slotOf?_dict {keys : List Value} (haccessor : accessor ≠ .attr)
    (hkeys : ∀ k ∈ keys, s.IsKey k) (hst : s.KeepsCopied t) {k : Value} (hk : l.Shows t k) :
    (dict keys).slotOf? s accessor l n = keys.findIdx? (t.sameKey k) := by
  obtain ⟨hgrows, hshows⟩ := l.toValue_shows s
  rw [slotOf?, if_neg haccessor, findIdx?_sameKey hgrows.keepsCopied hst hkeys hshows hk]

/-- It names the slot of its text. -/
theorem slotOf?_object {name : String} {names : List String} {frozen : Bool} {k : Value}
    (hk : l.Shows t k) :
    (object name names frozen).slotOf? s .attr l n = names.findIdx? (· == t.text k) := by
  obtain ⟨-, hshows⟩ := l.toValue_shows s
  rw [slotOf?, if_pos rfl, Literal.text_of_shows hshows hk]

theorem slotOf?_sequence (hf : f = .list ∨ f = .tuple) (haccessor : accessor ≠ .attr) (i : Int) :
    f.slotOf? s accessor (.int i) n = resolveIndex? n i := by
  rcases hf with rfl | rfl <;> simp [slotOf?, haccessor]

theorem slotOf?_sequence_eq_none (hf : f = .list ∨ f = .tuple)
    (hl : accessor = .attr ∨ ∀ i, l ≠ .int i) : f.slotOf? s accessor l n = none := by
  have hnone : (match l with
      | .int i => if accessor = .attr then none else resolveIndex? n i
      | _ => none) = none := by
    split
    · rename_i i
      rcases hl with hl | hl
      · rw [if_pos hl]
      · exact absurd rfl (hl i)
    · rfl
  rcases hf with rfl | rfl
  · exact hnone
  · exact hnone

/-- A literal names the same slot. -/
theorem slotOf?_retains (hst : s.Retains t) (hkeyed : f.Keyed s) :
    f.slotOf? t accessor l n = f.slotOf? s accessor l n := by
  obtain ⟨hgrows, hshows⟩ := l.toValue_shows t
  cases f with
  | dict keys =>
    by_cases haccessor : accessor = .attr
    · rw [slotOf?, slotOf?, if_pos haccessor, if_pos haccessor]
    · have hkeys : ∀ k ∈ keys, t.IsKey k := fun k hk => (hkeyed k hk).keeps hst.keepsCopied
      rw [slotOf?_dict haccessor hkeys hgrows.keepsCopied hshows,
        slotOf?_dict haccessor hkeyed (hst.trans hgrows.retains).keepsCopied hshows]
  | object name names frozen =>
    by_cases haccessor : accessor = .attr
    · rw [haccessor, slotOf?_object hshows, slotOf?_object hshows]
    · rw [slotOf?, slotOf?, if_neg haccessor, if_neg haccessor]
  | _ => rfl

theorem mem_chosen_literal {first : Bool} :
    i ∈ f.chosen s accessor (.literal l) first n → f.slotOf? s accessor l n = some i :=
  fun hi => Option.mem_toList.mp ((firstOnly_sublist first _).subset hi)

/-- **An access selects the same slots** while the containers that cannot be edited hold what they
held. -/
theorem chosen_retains (hst : s.Retains t) (hkeyed : f.Keyed s) (hf : f.Suits s n) (first : Bool) :
    f.chosen t accessor key first n = f.chosen s accessor key first n := by
  have hslots : f.slots t accessor key n = f.slots s accessor key n := by
    cases key with
    | literal l => exact congrArg Option.toList (slotOf?_retains hst hkeyed)
    | _ =>
      rw [slots_of_isPattern rfl, slots_of_isPattern rfl]
      split
      · refine List.filter_congr fun i hi => ?_
        exact (hkeyed.label hf (List.mem_range.mp hi)).keyMatches_retains hst rfl
      · rfl
  rw [chosen, chosen, hslots]

end Form

/-! ### What an access finds -/

section Fill

variable {h : Handle} {f : Form} {vs : List Value} {accessor : Accessor} {key : KeyPattern}

/-- The values in the slots, with what a pattern sees of them. -/
def Form.labelled (f : Form) (vs : List Value) : List (Value × Value) :=
  (List.range vs.length).map fun i => (f.label i, vs.getD i .null)

theorem entries_dict {keys : List Value} (hc : s.get? h = some ((Form.dict keys).fill vs))
    (hlength : keys.length = vs.length) : s.entries (.ref h) = (Form.dict keys).labelled vs := by
  have hdict : s.container? (.ref h) = some (.dict (keys.zip vs)) := hc
  rw [Store.entries, hdict]
  refine List.ext_getElem (by simp [Form.labelled, hlength]) fun i hi _ => ?_
  have hi' : i < vs.length := by simpa [hlength] using hi
  simp [Form.labelled, Form.label, hi', hlength]

theorem entries_object {name : String} {names : List String} {frozen : Bool}
    (hc : s.get? h = some ((Form.object name names frozen).fill vs))
    (hlength : names.length = vs.length) :
    s.entries (.ref h) = (Form.object name names frozen).labelled vs := by
  have hobject : s.container? (.ref h) = some (.object name (names.zip vs) frozen) := hc
  rw [Store.entries, hobject]
  refine List.ext_getElem (by simp [Form.labelled, hlength]) fun i hi _ => ?_
  have hi' : i < vs.length := by simpa [hlength] using hi
  simp [Form.labelled, Form.label, hi', hlength]

theorem numbered_fill (hc : s.get? h = some (f.fill vs)) (hf : f = .list ∨ f = .tuple) :
    s.numbered (.ref h) = f.labelled vs := by
  obtain ⟨-, -, helements, -⟩ := sequence_of_fill hc hf
  have hlabel (i : Nat) : f.label i = .int i := by
    rcases hf with rfl | rfl
    · rfl
    · rfl
  rw [Store.numbered, helements]
  refine List.ext_getElem (by simp [Form.labelled]) fun i hi _ => ?_
  have hi' : i < vs.length := by simpa using hi
  simp [Form.labelled, hlabel, hi']

/-- A pattern goes by the keys of a dict. -/
theorem keyedCandidates_pattern (hkey : key.isPattern = true) (node : Value) :
    keyedCandidates key node s =
      (if s.isKeyed node then (s.entries node).filter fun e => s.keyMatches key e.1 else [], s) := by
  unfold keyedCandidates
  rw [StoreM.run_bind, StoreM.run_get]
  cases key with
  | literal l => cases hkey
  | _ => cases s.isKeyed node <;> cases s.isIndexed node <;> rfl

/-- It goes by the positions of a sequence, if the access is to slots. -/
theorem slotCandidates_pattern (hkey : key.isPattern = true) (node : Value) :
    slotCandidates key node s =
      if s.isIndexed node then ((s.numbered node).filter fun e => s.keyMatches key e.1, s)
      else keyedCandidates key node s := by
  unfold slotCandidates
  rw [StoreM.run_bind, StoreM.run_get]
  cases key with
  | literal l => cases hkey
  | _ => cases s.isIndexed node <;> rfl

/-- It goes by the names of the attributes of an object. -/
theorem attrCandidates_pattern (hkey : key.isPattern = true) (node : Value) :
    attrCandidates key node s =
      (if s.isAttributed node then (s.entries node).filter fun e => s.keyMatches key e.1 else [],
        s) := by
  unfold attrCandidates
  rw [StoreM.run_bind, StoreM.run_get]
  cases key with
  | literal l => cases hkey
  | _ => cases s.isAttributed node <;> rfl

theorem filter_labelled (f : Form) (vs : List Value) (p : Value → Bool) :
    ((f.labelled vs).filter fun e => p e.1) =
      ((List.range vs.length).filter fun i => p (f.label i)).map fun i =>
        (f.label i, vs.getD i .null) := by
  rw [Form.labelled, List.filter_map]
  rfl

/-- What a pattern selects, if the container takes it. -/
theorem candidates_pattern (hkey : key.isPattern = true) (hc : s.get? h = some (f.fill vs))
    (hf : f.Suits s vs.length) :
    candidates accessor key (.ref h) s =
      ((f.slots s accessor key vs.length).map fun i => (f.label i, vs.getD i .null), s) := by
  have hkind := Form.kind_of_fill hc
  have hkeyed := keyedCandidates_pattern (s := s) hkey (.ref h)
  have hslot := slotCandidates_pattern (s := s) hkey (.ref h)
  have hattr := attrCandidates_pattern (s := s) hkey (.ref h)
  rw [Form.slots_of_isPattern hkey]
  rw [Store.isKeyed, hkind] at hkeyed
  rw [Store.isIndexed, hkind, hkeyed] at hslot
  rw [Store.isAttributed, hkind] at hattr
  -- the kind of the container decides which of the three selections finds something
  cases f with
  | list =>
    rw [numbered_fill hc (.inl rfl), filter_labelled] at hslot
    cases accessor with
    | key => exact hkeyed
    | slot => exact hslot
    | attr => exact hattr
  | tuple =>
    rw [numbered_fill hc (.inr rfl), filter_labelled] at hslot
    cases accessor with
    | key => exact hkeyed
    | slot => exact hslot
    | attr => exact hattr
  | dict keys =>
    rw [entries_dict hc hf.1, filter_labelled] at hkeyed hslot
    cases accessor with
    | key => exact hkeyed
    | slot => exact hslot
    | attr => exact hattr
  | object name names frozen =>
    rw [entries_object hc hf.1, filter_labelled] at hattr
    cases accessor with
    | key => exact hkeyed
    | slot => exact hslot
    | attr => exact hattr

/-! #### Literals -/

/-- Only objects have attributes. -/
theorem attrCandidates_nothing (key : KeyPattern) {node : Value}
    (hattributed : s.isAttributed node = false) : attrCandidates key node s = ([], s) := by
  unfold attrCandidates
  rw [StoreM.run_bind, StoreM.run_get, hattributed]
  rfl

/-- Only dicts and sequences have keys. -/
theorem keyedCandidates_nothing (key : KeyPattern) {node : Value}
    (hkeyed : s.isKeyed node = false) (hindexed : s.isIndexed node = false) :
    keyedCandidates key node s = ([], s) := by
  unfold keyedCandidates
  rw [StoreM.run_bind, StoreM.run_get, hkeyed, hindexed]
  rfl

variable {l : Literal}

/-- The part in a slot, with its label. -/
theorem toList_getElem?_slot {o : Option Nat} {vs : List Value} (ho : ∀ i ∈ o, i < vs.length)
    (label : Value) : ((o.bind fun i => vs[i]?).map (label, ·)).toList =
      o.toList.map fun i => (label, vs.getD i .null) := by
  cases o with
  | none => rfl
  | some i => simp [ho i rfl]

/-- What a container has in the slot that a literal names, if it has one. -/
structure NamesSlot (s t : Store) (node : Value) (f : Form) (vs : List Value) (accessor : Accessor)
    (l : Literal) (label : Value) : Prop where
  run : candidates accessor (.literal l) node s =
    ((f.slotOf? s accessor l vs.length).toList.map fun i => (label, vs.getD i .null), t)
  grows : s.GrowsTo t
  names : ∀ i, f.slotOf? s accessor l vs.length = some i →
    ∀ u, f.Names t vs.length (accessor.step u label) i
  isKey : t.IsKey label

theorem NamesSlot.of_none {node : Value} (hnone : f.slotOf? s accessor l vs.length = none)
    (hrun : candidates accessor (.literal l) node s = ([], t)) (hst : s.GrowsTo t) :
    NamesSlot s t node f vs accessor l .null := by
  refine ⟨?_, hst, fun i hi => ?_, .scalar (by rintro ⟨⟩)⟩
  · rw [hnone, hrun]
    rfl
  · rw [hnone] at hi
    cases hi

/-- No other literal names a part of a sequence. -/
theorem candidates_of_no_index {node : Value} (haccessor : accessor ≠ .attr)
    (hkeyed : s.isKeyed node = false) (hindexed : s.isIndexed node = true)
    (hother : ∀ i, l ≠ .int i) : candidates accessor (.literal l) node s = ([], s) := by
  cases accessor with
  | attr => exact absurd rfl haccessor
  | key =>
    show keyedCandidates (.literal l) node s = _
    unfold keyedCandidates
    rw [StoreM.run_bind, StoreM.run_get, hkeyed, hindexed, if_neg Bool.false_ne_true, if_pos rfl]
    cases l with
    | tuple ls => rfl
    | scalar x =>
      cases x with
      | int i => exact absurd rfl (hother i)
      | _ => rfl
  | slot =>
    show slotCandidates (.literal l) node s = _
    unfold slotCandidates
    rw [StoreM.run_bind, StoreM.run_get, hindexed, if_pos rfl]
    cases l with
    | tuple ls => rfl
    | scalar x =>
      cases x with
      | int i => exact absurd rfl (hother i)
      | _ => rfl

/-- An access with a key or a slot takes a step with this key. -/
theorem Accessor.step_of_ne_attr (haccessor : accessor ≠ .attr) (u : Store) (k : Value) :
    accessor.step u k = .key k ∨ accessor.step u k = .slot k := by
  cases accessor with
  | attr => exact absurd rfl haccessor
  | key => exact .inl rfl
  | slot => exact .inr rfl

/-- An index names the element at its position. -/
theorem namesSlot_sequence (hc : s.get? h = some (f.fill vs)) (hf : f = .list ∨ f = .tuple) :
    ∃ label, NamesSlot s s (.ref h) f vs accessor l label := by
  obtain ⟨hkeyed, hindexed, helements, hlength⟩ := sequence_of_fill hc hf
  have hattributed : s.isAttributed (.ref h) = false := by
    rw [Store.isAttributed, Form.kind_of_fill hc]
    rcases hf with rfl | rfl
    · rfl
    · rfl
  -- only an index that is no attribute names anything here; otherwise no label is needed
  by_cases haccessor : accessor = .attr
  · refine ⟨.null, .of_none (Form.slotOf?_sequence_eq_none hf (.inl haccessor)) ?_ (.refl s)⟩
    subst haccessor
    exact attrCandidates_nothing (.literal l) hattributed
  by_cases hint : ∃ i, l = .int i
  · obtain ⟨i, rfl⟩ := hint
    have hslot : f.slotOf? s accessor (.int i) vs.length = resolveIndex? vs.length i :=
      Form.slotOf?_sequence hf haccessor i
    have helement : s.elementAt? (.ref h) i = (resolveIndex? vs.length i).bind (vs[·]?) := by
      rw [Store.elementAt?, if_pos hindexed, Store.position?, hlength, helements, Option.bind_some]
    refine ⟨.int i, ?_, .refl s, fun j hj u => ?_, .scalar (by rintro ⟨⟩)⟩
    · rw [candidates_int haccessor hindexed, hslot, helement,
        toList_getElem?_slot fun j hj => resolveIndex?_lt hj]
    · rw [hslot] at hj
      have hstep := Accessor.step_of_ne_attr haccessor u (.int i)
      rcases hf with rfl | rfl
      · exact ⟨i, hstep, hj⟩
      · exact ⟨i, hstep, hj⟩
  · have hother : ∀ i, l ≠ .int i := fun i hi => hint ⟨i, hi⟩
    exact ⟨.null, .of_none (Form.slotOf?_sequence_eq_none hf (.inr hother))
      (candidates_of_no_index haccessor hkeyed hindexed hother) (.refl s)⟩

/-- The value of a key is found where the key is. -/
theorem dictGet?_fill {keys : List Value} (hc : s.get? h = some ((Form.dict keys).fill vs))
    (hlength : keys.length = vs.length) (hkeys : ∀ k ∈ keys, s.IsKey k) {k : Value}
    (hk : s.IsKey k) :
    s.dictGet? (.ref h) k = (keys.findIdx? (s.sameKey k)).bind fun i => vs[i]? := by
  have hdict : s.container? (.ref h) = some (.dict (keys.zip vs)) := hc
  have hfinds : keys.findIdx? (s.findsKey (keys.zip vs).length k) = keys.findIdx? (s.sameKey k) :=
    findIdx?_congr_of_mem fun k' hk' => hk.findsKey_eq (hkeys k' hk') _
  rw [Store.dictGet?, hdict]
  show ((keys.zip vs).find? fun e => s.findsKey (keys.zip vs).length k e.1).map Prod.snd = _
  rw [List.find?_eq_bind_findIdx?_getElem?, findIdx?_zip hlength, hfinds]
  cases hi : keys.findIdx? (s.sameKey k) with
  | none => rfl
  | some i =>
    have hlt := (List.findIdx?_eq_some_iff_getElem.mp hi).1
    simp [hlt, hlength ▸ hlt]

/-- A key names the entry that has it. -/
theorem namesSlot_dict {keys : List Value} (hc : s.get? h = some ((Form.dict keys).fill vs))
    (hlength : keys.length = vs.length) (hkeys : ∀ k ∈ keys, s.IsKey k) (hl : l.hasDouble = false) :
    ∃ label t, NamesSlot s t (.ref h) (.dict keys) vs accessor l label := by
  have hkind := Form.kind_of_fill hc
  have hkeyed := Store.isKeyed_of_get? hc
  have hindexed : s.isIndexed (.ref h) = false := by
    rw [Store.isIndexed, hkind]
    rfl
  have hattributed : s.isAttributed (.ref h) = false := by
    rw [Store.isAttributed, hkind]
    rfl
  by_cases haccessor : accessor = .attr
  · refine ⟨.null, s, .of_none (by rw [Form.slotOf?, if_pos haccessor]) ?_ (.refl s)⟩
    subst haccessor
    exact attrCandidates_nothing (.literal l) hattributed
  -- looking a key up puts the literal into the store, so the labels are those of a larger store
  obtain ⟨hgrows, hshows⟩ := l.toValue_shows s
  have hkey := hshows.isKey hl
  have hslot : (Form.dict keys).slotOf? s accessor l vs.length =
      keys.findIdx? ((l.toValue s).2.sameKey (l.toValue s).1) :=
    Form.slotOf?_dict haccessor hkeys hgrows.keepsCopied hshows
  have hget : (l.toValue s).2.dictGet? (.ref h) (l.toValue s).1 =
      (keys.findIdx? ((l.toValue s).2.sameKey (l.toValue s).1)).bind fun i => vs[i]? :=
    dictGet?_fill (hgrows _ _ hc) hlength (fun k hk => (hkeys k hk).keeps hgrows.keepsCopied) hkey
  refine ⟨(l.toValue s).1, (l.toValue s).2, ?_, hgrows, fun i hi u => ?_, hkey⟩
  · have hboth : candidates accessor (.literal l) (.ref h) s =
        keyedCandidates (.literal l) (.ref h) s := by
      cases accessor with
      | attr => exact absurd rfl haccessor
      | key => rfl
      | slot => exact slotCandidates_of_isIndexed_eq_false (.literal l) hindexed
    rw [hboth, keyedCandidates_literal hkeyed l, hget, hslot, toList_getElem?_slot fun i hi =>
      hlength ▸ (List.findIdx?_eq_some_iff_getElem.mp hi).1]
  · rw [hslot] at hi
    refine ⟨(l.toValue s).1, Accessor.step_of_ne_attr haccessor u _, fun w hw => ?_⟩
    rw [← hi]
    exact Form.findIdx?_sameKey (hgrows.retains.trans hw).keepsCopied hgrows.keepsCopied hkeys
      (hshows.keeps hw.keepsCopied) hshows

/-- The value of a name is found where the name is. -/
theorem lookup_zip (attr : String) : ∀ {names : List String} {vs : List Value},
    names.length = vs.length →
    (names.zip vs).lookup attr = (names.findIdx? (· == attr)).bind fun i => vs[i]?
  | [], _, _ => rfl
  | name :: names, [], hlength => by cases hlength
  | name :: names, v :: vs, hlength => by
    have htail := lookup_zip attr (Nat.succ.inj hlength)
    rw [List.zip_cons_cons, List.lookup_cons, List.findIdx?_cons]
    by_cases hname : name = attr
    · simp [hname]
    · have hne : (attr == name) = false := by simpa using fun heq => hname heq.symm
      simp [hname, hne, htail, Option.bind_map]

/-- A name names the attribute that has it. -/
theorem namesSlot_object {name : String} {names : List String} {frozen : Bool}
    (hc : s.get? h = some ((Form.object name names frozen).fill vs))
    (hlength : names.length = vs.length) :
    ∃ label t, NamesSlot s t (.ref h) (.object name names frozen) vs accessor l label := by
  have hkind := Form.kind_of_fill hc
  have hkeyed : s.isKeyed (.ref h) = false := by
    rw [Store.isKeyed, hkind]
    rfl
  have hindexed : s.isIndexed (.ref h) = false := by
    rw [Store.isIndexed, hkind]
    rfl
  have hattributed : s.isAttributed (.ref h) = true := by
    rw [Store.isAttributed, hkind]
    rfl
  -- attributes are told by the text of the literal, and keys and indexes do not name them
  by_cases haccessor : accessor = .attr
  · subst haccessor
    obtain ⟨hgrows, -⟩ := l.toValue_shows s
    have hslot : (Form.object name names frozen).slotOf? s .attr l vs.length =
        names.findIdx? (· == (l.toValue s).2.text (l.toValue s).1) := rfl
    have hget : s.attrGet? (.ref h) ((l.toValue s).2.text (l.toValue s).1) =
        (names.findIdx? (· == (l.toValue s).2.text (l.toValue s).1)).bind fun i => vs[i]? := by
      have hobject : s.container? (.ref h) = some (.object name (names.zip vs) frozen) := hc
      rw [Store.attrGet?, hobject]
      exact lookup_zip _ hlength
    refine ⟨.str ((l.toValue s).2.text (l.toValue s).1), (l.toValue s).2, ?_, hgrows,
      fun i hi u => ⟨_, rfl, hi⟩, .scalar (by rintro ⟨⟩)⟩
    have hrun : candidates .attr (.literal l) (.ref h) s =
        (((s.attrGet? (.ref h) ((l.toValue s).2.text (l.toValue s).1)).map
          (Value.str ((l.toValue s).2.text (l.toValue s).1), ·)).toList, (l.toValue s).2) :=
      attrCandidates_literal hattributed l
    rw [hrun, hget, hslot, toList_getElem?_slot fun i hi =>
      hlength ▸ (List.findIdx?_eq_some_iff_getElem.mp hi).1]
  · refine ⟨.null, s, .of_none (by rw [Form.slotOf?, if_neg haccessor]) ?_ (.refl s)⟩
    cases accessor with
    | attr => exact absurd rfl haccessor
    | key => exact keyedCandidates_nothing (.literal l) hkeyed hindexed
    | slot =>
      exact (slotCandidates_of_isIndexed_eq_false (.literal l) hindexed).trans
        (keyedCandidates_nothing (.literal l) hkeyed hindexed)

theorem exists_namesSlot (hc : s.get? h = some (f.fill vs)) (hf : f.Suits s vs.length)
    (hkeyed : f.Keyed s) (hl : l.hasDouble = false) :
    ∃ label t, NamesSlot s t (.ref h) f vs accessor l label := by
  cases f with
  | list =>
    obtain ⟨label, hnames⟩ := namesSlot_sequence hc (.inl rfl)
    exact ⟨label, s, hnames⟩
  | tuple =>
    obtain ⟨label, hnames⟩ := namesSlot_sequence hc (.inr rfl)
    exact ⟨label, s, hnames⟩
  | dict keys => exact namesSlot_dict hc hf.1 hkeyed hl
  | object name names frozen => exact namesSlot_object hc hf.1

/-- What a pattern sees of a slot leads to the slot. -/
theorem Form.Suits.names_label (hf : f.Suits s vs.length) {i : Nat} (hi : i < vs.length)
    (htakes : f.takesPatterns accessor = true) (u : Store) :
    f.Names s vs.length (accessor.step u (f.label i)) i := by
  have hnames := hf.names hi
  cases f with
  | list =>
    cases accessor with
    | slot => exact hnames
    | _ => cases htakes
  | tuple =>
    cases accessor with
    | slot => exact hnames
    | _ => cases htakes
  | dict keys =>
    obtain ⟨k, hstep, hfound⟩ := hnames
    have hk : k = (dict keys).label i := by
      rcases hstep with hstep | hstep
      · cases hstep
        rfl
      · cases hstep
    subst hk
    cases accessor with
    | key => exact ⟨_, .inl rfl, hfound⟩
    | slot => exact ⟨_, .inr rfl, hfound⟩
    | attr => cases htakes
  | object name names frozen =>
    cases accessor with
    | attr => exact hnames
    | _ => cases htakes

/-- **An access selects the values in the slots that it chooses**, each at a step to its slot. -/
theorem Context.items_fill (ctx : Context) (accessor : Accessor) (hkey : key.HasNoDouble)
    (first : Bool) (hc : s.get? h = some (f.fill vs)) (hf : f.Suits s vs.length)
    (hkeyed : f.Keyed s) :
    ∃ (step : Nat → Step) (t : Store), ctx.items (.access accessor key none first) (.ref h) s =
        (.ok ((f.chosen s accessor key first vs.length).map fun i => (step i, vs.getD i .null)), t) ∧
      s.GrowsTo t ∧
      ∀ i ∈ f.chosen s accessor key first vs.length, i < vs.length ∧
        f.Names t vs.length (step i) i := by
  have hrun {label : Nat → Value} {t : Store}
      (hcandidates : candidates accessor key (.ref h) s =
        ((f.slots s accessor key vs.length).map fun i => (label i, vs.getD i .null), t)) :
      ctx.items (.access accessor key none first) (.ref h) s =
        (.ok ((f.chosen s accessor key first vs.length).map fun i =>
          (accessor.step t (label i), vs.getD i .null)), t) := by
    rw [ctx.items_of_candidates hcandidates, Form.chosen]
    cases first with
    | false => simp [firstOnly, Function.comp_def]
    | true => simp [firstOnly, Function.comp_def]
  have hlt : ∀ i ∈ f.chosen s accessor key first vs.length, i < vs.length := fun i hi =>
    Form.slots_lt hf ((firstOnly_sublist first _).subset hi)
  -- a pattern labels each slot it takes as the form does, a literal has a label of its own
  by_cases hpattern : key.isPattern = true
  · refine ⟨_, s, hrun (candidates_pattern hpattern hc hf), .refl s, fun i hi => ⟨hlt i hi, ?_⟩⟩
    have hi' := (firstOnly_sublist first _).subset hi
    rw [Form.slots_of_isPattern hpattern] at hi'
    split at hi'
    · rename_i htakes
      exact hf.names_label (hlt i hi) htakes s
    · cases hi'
  · cases key with
    | literal l =>
      obtain ⟨label, t, hnames⟩ : ∃ label t, NamesSlot s t (.ref h) f vs accessor l label :=
        exists_namesSlot hc hf hkeyed hkey
      refine ⟨fun _ => accessor.step t label, t, hrun hnames.run, hnames.grows,
        fun i hi => ⟨hlt i hi, ?_⟩⟩
      have hi' := (firstOnly_sublist first _).subset hi
      exact hnames.names i (Option.mem_toList.mp hi') t
    | wildcard => exact absurd rfl hpattern
    | regex re => exact absurd rfl hpattern

end Fill

end DottedPath
