import DottedPath.Evaluate.Default
import DottedPath.Proofs.Evaluate.Run
import DottedPath.Proofs.Value.Tree

/-!
# Writing to the slots of a container

What a write makes of a container whose form is known: the value of one slot is replaced
(`setChild_slot`), or the slot removed (`popChild_slot`).  The container is edited in place, or
copied if its form asks for it.

The steps of a write name the slots in different ways, by positions, keys or names; the lemmas here
are the only place where these ways are told apart.
-/

namespace DottedPath

variable {s : Store} {h : Handle} {f : Form} {vs : List Value} {step : Step} {i : Nat}

/-! ### Lists and tuples -/

/-- Replacing the elements of a list or a tuple. -/
theorem replaceElements_fill (hc : s.get? h = some (f.fill vs)) (hf : f = .list ∨ f = .tuple)
    (ws : List Value) : replaceElements (.ref h) ws s = f.rewrite h (f.fill ws) s := by
  have hcontainer : s.container? (.ref h) = some (f.fill vs) := hc
  unfold replaceElements
  rw [StoreM.run_bind, StoreM.run_get, hcontainer]
  rcases hf with rfl | rfl
  · rfl
  · show withElements (.ref h) ws s = _
    unfold withElements
    rw [hcontainer]
    rfl

/-- A list or a tuple has positions, and its elements are its values. -/
theorem sequence_of_fill (hc : s.get? h = some (f.fill vs)) (hf : f = .list ∨ f = .tuple) :
    s.isKeyed (.ref h) = false ∧ s.isIndexed (.ref h) = true ∧ s.elements (.ref h) = vs ∧
      s.length? (.ref h) = some vs.length := by
  have hkind := Form.kind_of_fill hc
  rw [Store.isKeyed, Store.isIndexed, hkind, Store.elements, Store.length?, hc]
  rcases hf with rfl | rfl
  · exact ⟨rfl, rfl, rfl, rfl⟩
  · exact ⟨rfl, rfl, rfl, rfl⟩

/-- An index that names an element is written there. -/
theorem setKeyed_element (hc : s.get? h = some (f.fill vs)) (hf : f = .list ∨ f = .tuple) {k : Int}
    (hk : resolveIndex? vs.length k = some i) (y : Value) :
    setKeyed (.ref h) (.int k) y s = f.rewrite h (f.fill (vs.set i y)) s := by
  obtain ⟨hkeyed, hindexed, helements, -⟩ := sequence_of_fill hc hf
  have hlt : ¬ (vs.length : Int) ≤ k := by
    have hbounds := (isSome_resolveIndex? vs.length k).mp (by rw [hk]; rfl)
    omega
  unfold setKeyed
  rw [StoreM.run_bind, StoreM.run_get, hkeyed, if_neg Bool.false_ne_true]
  show setIndexed (.ref h) k y s = _
  unfold setIndexed
  rw [StoreM.run_bind, StoreM.run_get, hindexed, if_pos rfl]
  dsimp only
  rw [helements, if_neg hlt, hk]
  exact replaceElements_fill hc hf _

/-- An index of a value that is no dict takes away what is at the position that it names. -/
theorem popKeyed_index {node : Value} (hkeyed : s.isKeyed node = false) (i : Int) :
    popKeyed node (.int i) s =
      (s.position? node i).elim (node, s) fun p => removePositions node [(p : Int)] s := by
  unfold popKeyed
  rw [StoreM.run_bind, StoreM.run_get, hkeyed, if_neg Bool.false_ne_true]
  dsimp only [Value.int, Scalar.toInt?, Option.bind_some]
  cases s.position? node i <;> rfl

/-- The element at a position is removed. -/
theorem popKeyed_element (hc : s.get? h = some (f.fill vs)) (hf : f = .list ∨ f = .tuple)
    (hi : i < vs.length) :
    popKeyed (.ref h) (.int i) s = f.rewrite h (f.fill (vs.eraseIdx i)) s := by
  obtain ⟨hkeyed, hindexed, helements, hlength⟩ := sequence_of_fill hc hf
  have hposition : s.position? (.ref h) (i : Int) = some i := by
    rw [Store.position?, hlength, Option.bind_some, resolveIndex?_natCast hi]
  rw [popKeyed_index hkeyed, hposition, Option.elim_some]
  unfold removePositions
  rw [StoreM.run_bind, StoreM.run_get, hindexed, helements]
  show replaceElements (.ref h) (without [(i : Int)] vs) s = _
  rw [without_singleton hi, replaceElements_fill hc hf]

/-! ### Entries and attributes -/

section Zip

variable {α : Type}

/-- Of names with values, one gets another value. -/
theorem zip_modify : ∀ (names : List α) (vs : List Value) (i : Nat) (y : Value),
    (names.zip vs).modify i (fun e => (e.1, y)) = names.zip (vs.set i y)
  | [], _, _, _ => by simp
  | _ :: _, [], _, _ => by simp
  | _ :: _, _ :: _, 0, _ => rfl
  | n :: names, v :: vs, i + 1, y => congrArg ((n, v) :: ·) (zip_modify names vs i y)

/-- Of names with values, one goes with its value. -/
theorem zip_eraseIdx : ∀ (names : List α) (vs : List Value) (i : Nat),
    (names.zip vs).eraseIdx i = (names.eraseIdx i).zip (vs.eraseIdx i)
  | [], _, _ => by simp
  | _ :: _, [], _ => by simp
  | _ :: _, _ :: _, 0 => rfl
  | n :: names, v :: vs, i + 1 => congrArg ((n, v) :: ·) (zip_eraseIdx names vs i)

/-- Taking the pairs with a name away takes one. -/
theorem filter_ne_eq_eraseIdx [BEq α] [LawfulBEq α] : ∀ (pairs : List (α × Value)) (i : Nat)
    (hi : i < pairs.length), (pairs.map Prod.fst).Nodup →
    pairs.filter (fun e => e.1 != pairs[i].1) = pairs.eraseIdx i
  | e :: pairs, 0, _, hnodup => by
    rw [List.map_cons, List.nodup_cons] at hnodup
    have hothers : ∀ e' ∈ pairs, (e'.1 != e.1) = true := by
      intro e' he'
      rw [bne_iff_ne]
      exact fun heq => hnodup.1 (heq ▸ List.mem_map_of_mem he')
    rw [List.getElem_cons_zero, List.filter_cons_of_neg (by simp), List.filter_eq_self.mpr hothers,
      List.eraseIdx_cons_zero]
  | e :: pairs, i + 1, hi, hnodup => by
    rw [List.map_cons, List.nodup_cons] at hnodup
    have hi' : i < pairs.length := Nat.lt_of_succ_lt_succ hi
    have hother : (e.1 != pairs[i].1) = true := by
      rw [bne_iff_ne]
      exact fun heq => hnodup.1 (heq ▸ List.mem_map_of_mem (List.getElem_mem hi'))
    rw [List.getElem_cons_succ, List.filter_cons_of_pos (by exact hother),
      filter_ne_eq_eraseIdx pairs i hi' hnodup.2, List.eraseIdx_cons_succ]

theorem findIdx?_zip {names : List α} {vs : List Value} (hlength : names.length = vs.length)
    (p : α → Bool) : (names.zip vs).findIdx? (fun e => p e.1) = names.findIdx? p := by
  conv_rhs => rw [← List.map_fst_zip (Nat.le_of_eq hlength), List.findIdx?_map]
  rfl

end Zip

/-- A key that an entry has is written in that entry. -/
theorem Store.insertEntry_findIdx? {es : List (Value × Value)} {k : Value}
    (hfound : es.findIdx? (fun e => s.sameKey k e.1) = some i) (v : Value) :
    s.insertEntry es k v = es.modify i fun e => (e.1, v) := by
  rw [Store.insertEntry]
  split
  case h_1 j hj =>
    cases hj.symm.trans hfound
    rfl
  case h_2 hnone => cases hnone.symm.trans hfound

/-- So is a name that an attribute has. -/
theorem insertAttr_findIdx? {attrs : List (String × Value)} {attr : String}
    (hfound : attrs.findIdx? (fun a => a.1 == attr) = some i) (v : Value) :
    insertAttr attrs attr v = attrs.modify i fun a => (a.1, v) := by
  rw [insertAttr]
  split
  case h_1 j hj =>
    cases hj.symm.trans hfound
    rfl
  case h_2 hnone => cases hnone.symm.trans hfound

/-- Writing at a key edits the entries of the dict. -/
theorem setKeyed_dict {es : List (Value × Value)} (hc : s.get? h = some (.dict es)) (k y : Value) :
    setKeyed (.ref h) k y s = (.ref h, s.set h (.dict (s.insertEntry es k y))) := by
  have hdict : s.container? (.ref h) = some (.dict es) := hc
  unfold setKeyed editEntries
  rw [StoreM.run_bind, StoreM.run_get, Store.isKeyed_of_get? hc, if_pos rfl, StoreM.run_bind,
    StoreM.run_get, hdict]
  rfl

/-- A key that names an entry is written there. -/
theorem setKeyed_entry {keys : List Value} (hc : s.get? h = some (.dict (keys.zip vs)))
    (hlength : keys.length = vs.length) {k : Value} (hk : keys.findIdx? (s.sameKey k) = some i)
    (y : Value) :
    setKeyed (.ref h) k y s = (.ref h, s.set h (.dict (keys.zip (vs.set i y)))) := by
  have hfound : (keys.zip vs).findIdx? (fun e => s.sameKey k e.1) = some i :=
    (findIdx?_zip hlength (s.sameKey k)).trans hk
  rw [setKeyed_dict hc, Store.insertEntry_findIdx? hfound, zip_modify]

/-- A key that names no entry is written behind the entries. -/
theorem setKeyed_newEntry {keys : List Value} (hc : s.get? h = some (.dict (keys.zip vs)))
    (hlength : keys.length = vs.length) {k : Value} (hk : keys.findIdx? (s.sameKey k) = none)
    (y : Value) :
    setKeyed (.ref h) k y s = (.ref h, s.set h (.dict ((keys ++ [k]).zip (vs ++ [y])))) := by
  have hnone : (keys.zip vs).findIdx? (fun e => s.sameKey k e.1) = none :=
    (findIdx?_zip hlength (s.sameKey k)).trans hk
  rw [setKeyed_dict hc, Store.insertEntry_of_findIdx?_eq_none hnone, List.zip_append hlength]
  rfl

/-- Removing a key takes its entry from the dict. -/
theorem popKeyed_dict {es : List (Value × Value)} (hc : s.get? h = some (.dict es)) (k : Value) :
    popKeyed (.ref h) k s = (.ref h, s.set h (.dict (s.eraseEntry es k))) := by
  have hdict : s.container? (.ref h) = some (.dict es) := hc
  unfold popKeyed editEntries
  rw [StoreM.run_bind, StoreM.run_get, Store.isKeyed_of_get? hc, if_pos rfl, StoreM.run_bind,
    StoreM.run_get, hdict]
  rfl

/-- The entry of a key is removed. -/
theorem popKeyed_entry {keys : List Value} (hc : s.get? h = some (.dict (keys.zip vs)))
    (hlength : keys.length = vs.length) (hapart : s.Apart keys) (hi : i < keys.length) :
    popKeyed (.ref h) keys[i] s =
      (.ref h, s.set h (.dict ((keys.eraseIdx i).zip (vs.eraseIdx i)))) := by
  have hfirst : (keys.zip vs).map Prod.fst = keys := List.map_fst_zip (Nat.le_of_eq hlength)
  have herase : s.eraseEntry (keys.zip vs) keys[i] = (keys.eraseIdx i).zip (vs.eraseIdx i) := by
    rw [Store.eraseEntry, hfirst, hapart.keyIndex? hi]
    exact zip_eraseIdx keys vs i
  rw [popKeyed_dict hc, herase]

/-- A name that no attribute has is written behind the attributes. -/
theorem insertAttr_zip_of_new {names : List String} (hlength : names.length = vs.length)
    {attr : String} (hnone : names.findIdx? (· == attr) = none) (y : Value) :
    insertAttr (names.zip vs) attr y = (names ++ [attr]).zip (vs ++ [y]) := by
  have hmissing : (names.zip vs).findIdx? (fun a => a.1 == attr) = none :=
    (findIdx?_zip hlength (· == attr)).trans hnone
  rw [insertAttr_of_findIdx?_eq_none hmissing, List.zip_append hlength]
  rfl

/-- The attributes of an object are edited. -/
theorem replaceAttrs_fill {name : String} {names : List String} {frozen : Bool}
    (hc : s.get? h = some ((Form.object name names frozen).fill vs))
    {edit : List (String × Value) → List (String × Value)} {ns : List String} {ws : List Value}
    (hedit : edit (names.zip vs) = ns.zip ws) :
    replaceAttrs (.ref h) edit s =
      (Form.object name names frozen).rewrite h (.object name (ns.zip ws) frozen) s := by
  have hobject : s.container? (.ref h) = some (.object name (names.zip vs) frozen) := hc
  unfold replaceAttrs
  rw [StoreM.run_bind, StoreM.run_get, hobject]
  cases frozen with
  | false =>
    show (Value.ref h, s.set h (.object name (edit (names.zip vs)) false)) = _
    rw [hedit]
    rfl
  | true =>
    show (Value.ref s.next, s.push (.object name (edit (names.zip vs)) true)) = _
    rw [hedit]
    rfl

/-- Writing at a literal without a filter writes at its key. -/
theorem Context.upsert_literal (ctx : Context) (accessor : Accessor) (l : Literal) (first : Bool)
    (node v : Value) (s : Store) :
    ctx.upsert (.access accessor (.literal l) none first) node v s =
      (.ok (setChild node (accessor.step (l.toValue s).2 (l.toValue s).1) v (l.toValue s).2).1,
        (setChild node (accessor.step (l.toValue s).2 (l.toValue s).1) v (l.toValue s).2).2) := by
  rw [upsert, Eval.run_bind_of_ok (Eval.run_lift _ s), Eval.run_bind_of_ok (Eval.run_store _)]
  rfl

/-! ### Slots -/

/-- **A write at a step replaces the value in the slot that the step names.** -/
theorem setChild_slot (hc : s.get? h = some (f.fill vs)) (hsuits : f.Suits s vs.length)
    (hnames : f.Names s vs.length step i) (y : Value) :
    setChild (.ref h) step y s = f.rewrite h (f.fill (vs.set i y)) s := by
  have hkeyed {k : Value} (hstep : step = .key k ∨ step = .slot k) :
      setChild (.ref h) step y = setKeyed (.ref h) k y := by
    rcases hstep with rfl | rfl <;> rfl
  cases f with
  | list =>
    obtain ⟨k, hstep, hk⟩ := hnames
    rw [hkeyed hstep, setKeyed_element hc (.inl rfl) hk]
  | tuple =>
    obtain ⟨k, hstep, hk⟩ := hnames
    rw [hkeyed hstep, setKeyed_element hc (.inr rfl) hk]
  | dict keys =>
    obtain ⟨k, hstep, hk⟩ := hnames
    rw [hkeyed hstep, setKeyed_entry hc hsuits.1 (hk s (.refl s))]
    rfl
  | object name names frozen =>
    obtain ⟨attr, rfl, hattr⟩ := hnames
    have hfound : (names.zip vs).findIdx? (fun a => a.1 == attr) = some i :=
      (findIdx?_zip hsuits.1 (· == attr)).trans hattr
    refine replaceAttrs_fill hc ?_
    rw [insertAttr_findIdx? hfound, zip_modify]

/-- **A removal at the step of a slot takes the slot.** -/
theorem popChild_slot (hc : s.get? h = some (f.fill vs)) (hsuits : f.Suits s vs.length)
    (hi : i < vs.length) :
    popChild (.ref h) (f.step i) s = f.rewrite h ((f.erase i).fill (vs.eraseIdx i)) s := by
  cases f with
  | list => exact popKeyed_element hc (.inl rfl) hi
  | tuple => exact popKeyed_element hc (.inr rfl) hi
  | dict keys =>
    obtain ⟨hlength, hapart⟩ := hsuits
    have hi' : i < keys.length := by omega
    rw [Form.step, List.getD_eq_getElem _ _ hi']
    exact popKeyed_entry hc hlength hapart hi'
  | object name names frozen =>
    obtain ⟨hlength, hnodup⟩ := hsuits
    have hi' : i < names.length := by omega
    rw [Form.step, List.getD_eq_getElem _ _ hi']
    show replaceAttrs (.ref h) (fun as => eraseAttr as names[i]) s = _
    refine replaceAttrs_fill hc ?_
    have hfirst : (names.zip vs).map Prod.fst = names := List.map_fst_zip (Nat.le_of_eq hlength)
    have hzip : i < (names.zip vs).length := by
      rw [List.length_zip]
      omega
    have herase := filter_ne_eq_eraseIdx (names.zip vs) i hzip (by rwa [hfirst])
    rw [List.getElem_zip, zip_eraseIdx] at herase
    exact herase

/-! ### Nodes of trees -/

namespace Forest

open DottedPath.Tree

variable {s' : Store} {ts before after : List Tree} {t t' : Tree}

/-- **A part that has turned into another one is written back** at a step that names its slot. -/
theorem Turns.write (hlies : Lies s [.node h f (before ++ t :: after)])
    (hturn : Turns s [t] s' [t'])
    (hnames : f.Names s' (before ++ t :: after).length step before.length) :
    ∃ h' s'', setChild (.ref h) step t'.value s' = (.ref h', s'') ∧ (f.isCopied = false → h' = h) ∧
      Turns s [.node h f (before ++ t :: after)] s'' [.node h' f (before ++ t' :: after)] := by
  have hsplit (t : Tree) : before ++ t :: after = before ++ [t] ++ after := by simp
  obtain ⟨hc, hsuits, hparts, hnot⟩ := hlies.parts
  have hframe : Turns s (before ++ t :: after) s' (before ++ t' :: after) := by
    rw [hsplit] at hparts
    rw [hsplit, hsplit]
    exact hturn.frame hparts
  have hc' := hframe.kept h _ hnot hc
  have hsuits' : f.Suits s' (before ++ t' :: after).length := by
    simpa using hsuits.retains hframe.retains
  have hrun := setChild_slot hc' (by simpa using hsuits') (by simpa using hnames) t'.value
  have hset : ((before ++ t :: after).map value).set before.length t'.value =
      (before ++ t' :: after).map value := by simp
  rw [hset] at hrun
  obtain ⟨h', hvalue, hsame, hnode⟩ := Turns.node hlies hframe hsuits'
  exact ⟨h', _, hrun.trans (Prod.ext hvalue rfl), hsame, hnode⟩

/-- **A part is removed** at the step to its slot. -/
theorem Turns.pop (hlies : Lies s [.node h f ts]) (hi : i < ts.length) :
    ∃ h' s', popChild (.ref h) (f.step i) s = (.ref h', s') ∧ (f.isCopied = false → h' = h) ∧
      Turns s [.node h f ts] s' [.node h' (f.erase i) (ts.eraseIdx i)] := by
  obtain ⟨hc, hsuits, hparts, -⟩ := hlies.parts
  have hrun := popChild_slot hc (by simpa using hsuits) (by simpa using hi)
  have herase : (ts.map value).eraseIdx i = (ts.eraseIdx i).map value := List.eraseIdx_map ..
  have hsuits' := hsuits.erase hi
  rw [← List.length_eraseIdx_of_lt hi] at hsuits'
  rw [herase] at hrun
  obtain ⟨h', hvalue, hsame, hnode⟩ :=
    Turns.node hlies (.sublist (List.eraseIdx_sublist ..) hparts) hsuits'
  exact ⟨h', _, hrun.trans (Prod.ext hvalue rfl), hsame, hnode⟩

/-- Parts are removed one by one, from the last to the first. -/
theorem Turns.popAll {positions : List Int} (hlies : Lies s [.node h f ts])
    (hdesc : positions.Pairwise (· > ·)) (hbound : ∀ p ∈ positions, 0 ≤ p ∧ p < ts.length) :
    ∃ h' s', ((positions.map fun p => f.step p.toNat).foldlM
        (fun node step => (popChild node step : StoreM Value)) (.ref h) : Eval Value) s =
          (.ok (.ref h'), s') ∧ (f.isCopied = false → h' = h) ∧
      Turns s [.node h f ts] s' [.node h' (f.without positions) (without positions ts)] := by
  obtain ⟨-, hsuits, -, -⟩ := hlies.parts
  rw [← Form.foldl_erase hsuits hdesc hbound, ← foldl_eraseIdx_eq_without hdesc hbound]
  clear hsuits
  induction positions generalizing h f ts s with
  | nil => exact ⟨h, s, rfl, fun _ => rfl, .refl hlies⟩
  | cons p positions ih =>
    obtain ⟨hfirst, hdesc⟩ := List.pairwise_cons.mp hdesc
    obtain ⟨⟨h0, hlt⟩, hbound⟩ := List.forall_mem_cons.mp hbound
    have hp : p.toNat < ts.length := by omega
    obtain ⟨h₁, s₁, hpop, hsame, hturn⟩ := Turns.pop hlies hp
    have hlength := List.length_eraseIdx_of_lt hp
    have hbound' : ∀ q ∈ positions, 0 ≤ q ∧ q < ((ts.eraseIdx p.toNat).length : Int) := by
      intro q hq
      have hbelow := hfirst q hq
      have hnonneg := (hbound q hq).1
      omega
    -- The slots before the one that is removed keep their steps.
    have hsteps : (positions.map fun q => (f.erase p.toNat).step q.toNat) =
        positions.map fun q => f.step q.toNat := by
      refine List.map_congr_left fun q hq => Form.step_erase ?_ f
      have hbelow := hfirst q hq
      have hnonneg := (hbound q hq).1
      omega
    obtain ⟨h₂, s₂, hrest, hsame', hturn'⟩ := ih hturn.lies hdesc hbound'
    rw [hsteps] at hrest
    refine ⟨h₂, s₂, ?_, fun hf => ?_, hturn.trans hturn'⟩
    · rw [List.map_cons, List.foldlM_cons, Eval.run_bind_of_ok (Eval.run_lift _ s), hpop]
      exact hrest
    · rw [hsame' (by rwa [Form.isCopied_erase]), hsame hf]

end Forest

end DottedPath
