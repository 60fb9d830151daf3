import DottedPath.Proofs.Evaluate.ChosenSlots
import DottedPath.Proofs.Evaluate.Default

/-!
# Writes into trees

A write at a literal puts a tree into a container: in the slot that the literal names, in a new one,
or nowhere (`Forest.Turns.upsert`).  A write that goes through the slots that an access chooses edits
them one after the other (`Forest.Turns.editSlots`).
-/

namespace DottedPath

open DottedPath.Tree

variable {s s' : Store} {h : Handle} {f : Form} {vs : List Value}

/-! ### What a write at a key makes of a container -/

/-- Behind the last element there is one place more. -/
theorem resolveIndex?_last {n i : Nat} {k : Int} (hk : (n : Int) ≤ k)
    (h : resolveIndex? (n + 1) k = some i) : i = n := by
  have hlt := resolveIndex?_lt h
  have hstart : fromStart (n + 1) k = k := by
    rw [fromStart, if_neg (by omega)]
  rw [resolveIndex?, hstart] at h
  split at h
  · have hi := Option.some.inj h
    omega
  · cases h

/-- A number names the element at its position, or the place behind the last one. -/
theorem setKeyed_number (hc : s.get? h = some (f.fill vs)) (hf : f = .list ∨ f = .tuple) {x : Scalar}
    {k : Int} (hx : x.toInt? = some k) (y : Value) :
    setKeyed (.ref h) (.scalar x) y s =
      if (vs.length : Int) ≤ k then f.rewrite h (f.fill (vs ++ [y])) s
      else (resolveIndex? vs.length k).elim (.ref h, s) fun i =>
        f.rewrite h (f.fill (vs.set i y)) s := by
  obtain ⟨hkeyed, hindexed, helements, -⟩ := sequence_of_fill hc hf
  unfold setKeyed
  rw [StoreM.run_bind, StoreM.run_get, hkeyed, if_neg Bool.false_ne_true]
  dsimp only
  rw [hx]
  show setIndexed (.ref h) k y s = _
  unfold setIndexed
  rw [StoreM.run_bind, StoreM.run_get, hindexed, if_pos rfl]
  dsimp only
  rw [helements]
  by_cases hk : (vs.length : Int) ≤ k
  · rw [if_pos hk, if_pos hk]
    exact replaceElements_fill hc hf _
  · rw [if_neg hk, if_neg hk]
    cases hi : resolveIndex? vs.length k with
    | none => rfl
    | some i => exact replaceElements_fill hc hf _

/-- What is no number writes nothing into a sequence, and no key into what has no elements. -/
theorem setKeyed_of_no_key (hkeyed : s.isKeyed (.ref h) = false) {k : Value}
    (hk : s.isIndexed (.ref h) = false ∨ ∀ x i, k = .scalar x → x.toInt? ≠ some i) (y : Value) :
    setKeyed (.ref h) k y s = (.ref h, s) := by
  unfold setKeyed
  rw [StoreM.run_bind, StoreM.run_get, hkeyed, if_neg Bool.false_ne_true]
  cases k with
  | ref g => rfl
  | scalar x =>
    dsimp only
    cases hx : x.toInt? with
    | none => rfl
    | some i =>
      rcases hk with hindexed | hk
      · show setIndexed (.ref h) i y s = _
        unfold setIndexed
        rw [StoreM.run_bind, StoreM.run_get, hindexed]
        rfl
      · exact absurd hx (hk x i rfl)

/-- A key writes nothing into an object. -/
theorem setKeyed_object {name : String} {names : List String} {frozen : Bool}
    (hc : s.get? h = some ((Form.object name names frozen).fill vs)) (k y : Value) :
    setKeyed (.ref h) k y s = (.ref h, s) := by
  have hkind := Form.kind_of_fill hc
  refine setKeyed_of_no_key ?_ (.inl ?_) y
  · rw [Store.isKeyed, hkind]
    rfl
  · rw [Store.isIndexed, hkind]
    rfl

/-- Only an object has attributes. -/
theorem replaceAttrs_of_no_object (hkind : s.kind (.ref h) ≠ .object)
    (edit : List (String × Value) → List (String × Value)) :
    replaceAttrs (.ref h) edit s = (.ref h, s) := by
  unfold replaceAttrs
  rw [StoreM.run_bind, StoreM.run_get]
  cases hc : s.container? (.ref h) with
  | none => rfl
  | some c =>
    cases c with
    | object name attrs frozen =>
      have hget : s.get? h = some (.object name attrs frozen) := hc
      rw [Store.kind, hget] at hkind
      exact absurd rfl hkind
    | _ => rfl

/-! ### Writing in place or into a copy -/

theorem Form.retains_rewrite (hc : s.get? h = some (f.fill vs)) (c : Container) :
    s.Retains (f.rewrite h c s).2 := by
  rw [rewrite]
  split
  · exact (Store.GrowsTo.push s c).retains
  · rename_i hf
    exact .set hc (by simp [hf]) c

namespace Forest

variable {ts us before after : List Tree} {t u : Tree}

/-! ### Forests with a new tree -/

namespace Turns

/-- A new tree leaves everything as it was. -/
theorem grows (hnew : Turns s [] s' us) : s.GrowsTo s' :=
  fun h c hc => hnew.kept h c List.not_mem_nil hc

/-- A store may grow without a new tree. -/
theorem nothing (hst : s.GrowsTo s') : Turns s [] s' [] :=
  of_grows hst ⟨fun _ ht => absurd ht List.not_mem_nil, List.nodup_nil⟩

/-- A new container is a new tree. -/
theorem alloc (f : Form) (vs : List Value) (hsuits : f.Suits s vs.length) :
    Turns s [] (s.push (f.fill vs)) [.node s.next f (vs.map .leaf)] := by
  have hgrows := Store.GrowsTo.push s (f.fill vs)
  have hvalues : (vs.map Tree.leaf).map value = vs := by
    rw [List.map_map]
    exact List.map_id vs
  have hhandles : handles [.node s.next f (vs.map .leaf)] = [s.next] := by
    simp [handles, Tree.handles, List.flatMap_map]
  refine ⟨⟨fun t ht => ?_, ?_⟩, hgrows.retains, hgrows.size_le, fun h c _ hc => hgrows h c hc,
    fun h hh => .inr ?_⟩
  · rw [List.mem_singleton.mp ht]
    refine .node ?_ ?_ fun t ht => ?_
    · rw [hvalues]
      exact Store.get?_push_next s _
    · rw [List.length_map]
      exact hsuits.retains hgrows.retains
    · obtain ⟨v, -, rfl⟩ := List.mem_map.mp ht
      exact .leaf v
  · rw [hhandles]
    simp
  · rw [hhandles] at hh
    rw [List.mem_singleton.mp hh]
    exact Nat.le_refl _

/-- It may stand beside others. -/
theorem append (hlies : Lies s ts) (hnew : Turns s [] s' [u]) : Turns s ts s' (ts ++ [u]) := by
  have hframe : Turns s (ts ++ [] ++ []) s' (ts ++ [u] ++ []) := hnew.frame (by simpa using hlies)
  simpa using hframe

/-- It may replace another one. -/
theorem replace (hlies : Lies s (before ++ t :: after)) (hnew : Turns s [] s' [u]) :
    Turns s (before ++ t :: after) s' (before ++ u :: after) := by
  have hsplit (t : Tree) : before ++ t :: after = before ++ [t] ++ after := by simp
  rw [hsplit] at hlies ⊢
  rw [hsplit]
  have hlies' : Lies s [t] := hlies.of_mem (by simp)
  exact ((Turns.sublist (List.nil_sublist _) hlies').trans hnew).frame hlies

/-- It may stand in the place of another one. -/
theorem set (hlies : Lies s ts) (hnew : Turns s [] s' [u]) {i : Nat} (hi : i < ts.length) :
    Turns s ts s' (ts.set i u) := by
  have hsplit : ts.take i ++ ts[i] :: ts.drop (i + 1) = ts := by simp
  rw [List.set_eq_take_append_cons_drop, if_pos hi]
  have hreplace := hnew.replace (hsplit ▸ hlies)
  rwa [hsplit] at hreplace

end Turns

/-! ### Writing a new tree at a literal -/

/-- From a store `r` in which a new tree stands beside a container, a write has made a container that
has no other parts than before except for the new one, and what an access chooses of them now is the
new one. -/
inductive Takes (s r : Store) (h : Handle) (f : Form) (ts : List Tree) (u : Tree)
    (accessor : Accessor) (key : KeyPattern) (first : Bool) (h' : Handle) (s' : Store) : Prop where
  | intro (g : Form) (us : List Tree) (turns : Turns s [node h f ts] s' [node h' g us])
    (retains : r.Retains s') (keyed : g.Keyed s') (parts : ∀ w ∈ us, w ∈ ts ∨ w = u)
    (chosen : ∀ i ∈ g.chosen s' accessor key first us.length, us[i]? = some u)

variable {g : Form} {accessor : Accessor} {key : KeyPattern} {first : Bool} {l : Literal} {r : Store}

/-- The container is filled with its parts and the new one. -/
theorem Takes.of_rewrite (hlies : Lies s [node h f ts]) (hturn : Turns s ts r us)
    (hsuits : g.Suits r us.length) (hkeyed : g.Keyed r) (hparts : ∀ w ∈ us, w ∈ ts ∨ w = u)
    (hchosen : ∀ r', r.Retains r' → ∀ i ∈ g.chosen r' accessor key first us.length, us[i]? = some u) :
    ∃ h' s', f.rewrite h (g.fill (us.map value)) r = (.ref h', s') ∧
      Takes s r h f ts u accessor key first h' s' := by
  obtain ⟨hc, -, -, hnot⟩ := hlies.parts
  obtain ⟨h', hvalue, -, hnode⟩ := Turns.node hlies hturn hsuits
  have hretains := Form.retains_rewrite (hturn.kept h _ hnot hc) (g.fill (us.map value))
  exact ⟨h', _, Prod.ext hvalue rfl, g, us, hnode, hretains, hkeyed.retains hretains,
    hparts, hchosen _ hretains⟩

theorem Takes.of_grows {r' : Store} (hr : r'.GrowsTo r) {h' : Handle}
    (htakes : Takes s r h f ts u accessor key first h' s') :
    Takes s r' h f ts u accessor key first h' s' := by
  obtain ⟨g, us, hturns, hretains, hkeyed, hparts, hchosen⟩ := htakes
  exact ⟨g, us, hturns, hr.retains.trans hretains, hkeyed, hparts, hchosen⟩

/-- The container stays as it is, and an access chooses nothing of it. -/
theorem Takes.unchanged (hlies : Lies s [node h f ts]) (hkeyed : f.Keyed s) (hnew : Turns s [] r us)
    (hnone : ∀ r', s.Retains r' → f.chosen r' accessor key first ts.length = []) (u : Tree) :
    Takes s r h f ts u accessor key first h r := by
  refine ⟨f, ts, .of_grows hnew.grows hlies, .refl r, hkeyed.retains hnew.grows.retains,
    fun w hw => .inl hw, fun i hi => ?_⟩
  rw [hnone r hnew.grows.retains] at hi
  cases hi

/-- A literal that names no slot keeps doing so. -/
theorem chosen_eq_nil (hkeyed : f.Keyed s) {n : Nat} (hnone : f.slotOf? s accessor l n = none)
    {r : Store} (hsr : s.Retains r) : f.chosen r accessor (.literal l) first n = [] := by
  refine List.eq_nil_iff_forall_not_mem.mpr fun i hi => ?_
  have hslot := Form.mem_chosen_literal hi
  rw [Form.slotOf?_retains hsr hkeyed, hnone] at hslot
  cases hslot

/-- A new tree stands in the place of a part, and the literal names no other slot. -/
theorem Takes.set (hlies : Lies s [node h f ts]) (hkeyed : f.Keyed s) (hnew : Turns s [] r [u])
    {i : Nat} (hi : i < ts.length) (hslot : ∀ j ∈ f.slotOf? r accessor l ts.length, j = i) :
    ∃ h' s', f.rewrite h (f.fill ((ts.map value).set i u.value)) r = (.ref h', s') ∧
      Takes s r h f ts u accessor (.literal l) first h' s' := by
  obtain ⟨-, hsuits, hparts, -⟩ := hlies.parts
  have hretains := hnew.grows.retains
  have hlength : (ts.set i u).length = ts.length := List.length_set
  have hset : (ts.map value).set i u.value = (ts.set i u).map value := List.map_set.symm
  rw [hset]
  refine Takes.of_rewrite hlies (hnew.set hparts hi) (hlength ▸ hsuits.retains hretains)
    (hkeyed.retains hretains) (fun w hw => List.mem_or_eq_of_mem_set hw) fun r' hr j hj => ?_
  have hj := Form.mem_chosen_literal hj
  rw [hlength, Form.slotOf?_retains hr (hkeyed.retains hretains)] at hj
  rw [hslot j hj]
  exact List.getElem?_set_self hi

/-- A new tree comes behind the parts, and the literal names no slot before it. -/
theorem Takes.append (hlies : Lies s [node h f ts]) (hnew : Turns s [] r [u])
    (hsuits : g.Suits r (ts.length + 1)) (hkeyed : g.Keyed r)
    (hslot : ∀ j ∈ g.slotOf? r accessor l (ts.length + 1), j = ts.length) :
    ∃ h' s', f.rewrite h (g.fill (ts.map value ++ [u.value])) r = (.ref h', s') ∧
      Takes s r h f ts u accessor (.literal l) first h' s' := by
  obtain ⟨-, -, hparts, -⟩ := hlies.parts
  have hlength : (ts ++ [u]).length = ts.length + 1 := by simp
  have happend : ts.map value ++ [u.value] = (ts ++ [u]).map value := by simp
  rw [happend]
  refine Takes.of_rewrite hlies (hnew.append hparts) (hlength ▸ hsuits) hkeyed (by simp)
    fun r' hr j hj => ?_
  have hj := Form.mem_chosen_literal hj
  rw [hlength, Form.slotOf?_retains hr hkeyed] at hj
  rw [hslot j hj]
  exact List.getElem?_concat_length

/-- What is not found among the parts is found behind them. -/
theorem eq_length_of_findIdx?_concat {α : Type} {p : α → Bool} {xs : List α} {x : α} {j : Nat}
    (hnone : xs.findIdx? p = none) (h : (xs ++ [x]).findIdx? p = some j) : j = xs.length := by
  rw [List.findIdx?_append, hnone] at h
  simp [List.findIdx?_cons] at h
  omega

/-- A new tree at a key of a dict. -/
theorem setChild_takes_dict {keys : List Value} (haccessor : accessor ≠ .attr)
    (hl : l.hasDouble = false) (hlies : Lies s [node h (.dict keys) ts])
    (hkeyed : (Form.dict keys).Keyed s) (hnew : Turns s [] r [u]) {k : Value} (hk : l.Shows r k) :
    ∃ h' s', setKeyed (.ref h) k u.value r = (.ref h', s') ∧
      Takes s r h (.dict keys) ts u accessor (.literal l) first h' s' := by
  obtain ⟨hc, hsuits, -, -⟩ := hlies.parts
  have hlength : keys.length = ts.length := hsuits.1
  have hgrows := hnew.grows
  have hc' := hgrows _ _ hc
  have hslot {keys' : List Value} {n : Nat} (hkeys : ∀ k ∈ keys', r.IsKey k) :
      (Form.dict keys').slotOf? r accessor l n = keys'.findIdx? (r.sameKey k) :=
    Form.slotOf?_dict haccessor hkeys (Store.Retains.refl r).keepsCopied hk
  have hkeyed' : ∀ k ∈ keys, r.IsKey k := fun k hk => (hkeyed k hk).keeps hgrows.keepsCopied
  cases hfound : keys.findIdx? (r.sameKey k) with
  | some i =>
    have hi : i < ts.length := hlength ▸ (List.findIdx?_eq_some_iff_getElem.mp hfound).1
    have hrun := setKeyed_entry hc' (by simpa using hlength) hfound u.value
    refine hrun ▸ Takes.set hlies hkeyed hnew hi fun j hj => ?_
    rw [hslot hkeyed', hfound] at hj
    exact (Option.some.inj hj).symm
  | none =>
    have hkeys : ∀ k' ∈ keys ++ [k], r.IsKey k' :=
      List.forall_mem_append.mpr ⟨hkeyed', List.forall_mem_singleton.mpr (hk.isKey hl)⟩
    have hrun := setKeyed_newEntry hc' (by simpa using hlength) hfound u.value
    refine hrun ▸ Takes.append (g := .dict (keys ++ [k])) hlies hnew
      ((hsuits.retains hgrows.retains).concat_key hkeys hfound) hkeys fun j hj => ?_
    -- The keys that were there are other ones, so the slot is the new one.
    rw [hslot hkeys] at hj
    exact hlength ▸ eq_length_of_findIdx?_concat hfound hj

/-- A new tree at a name of an object. -/
theorem setChild_takes_object {name : String} {names : List String} {frozen : Bool}
    (hlies : Lies s [node h (.object name names frozen) ts]) (hnew : Turns s [] r [u]) {k : Value}
    (hk : l.Shows r k) :
    ∃ h' s', setChild (.ref h) (.attr (r.text k)) u.value r = (.ref h', s') ∧
      Takes s r h (.object name names frozen) ts u .attr (.literal l) first h' s' := by
  obtain ⟨hc, hsuits, -, -⟩ := hlies.parts
  have hlength : names.length = ts.length := hsuits.1
  have hlength' : names.length = (ts.map value).length := hlength.trans (List.length_map value).symm
  have hc' := hnew.grows _ _ hc
  have hslot {names' : List String} {n : Nat} :
      (Form.object name names' frozen).slotOf? r .attr l n = names'.findIdx? (· == r.text k) :=
    Form.slotOf?_object hk
  have hrun {names' : List String} {vs : List Value}
      (hedit : insertAttr (names.zip (ts.map value)) (r.text k) u.value = names'.zip vs) :
      setChild (.ref h) (.attr (r.text k)) u.value r =
        (Form.object name names frozen).rewrite h ((Form.object name names' frozen).fill vs) r :=
    replaceAttrs_fill hc' hedit
  cases hfound : names.findIdx? (· == r.text k) with
  | some i =>
    have hi : i < ts.length := hlength ▸ (List.findIdx?_eq_some_iff_getElem.mp hfound).1
    have hedit : insertAttr (names.zip (ts.map value)) (r.text k) u.value =
        names.zip ((ts.map value).set i u.value) := by
      rw [insertAttr_findIdx? ((findIdx?_zip hlength' (· == r.text k)).trans hfound), zip_modify]
    refine hrun hedit ▸ Takes.set hlies trivial hnew hi fun j hj => ?_
    rw [hslot, hfound] at hj
    exact (Option.some.inj hj).symm
  | none =>
    have hedit := insertAttr_zip_of_new hlength' hfound u.value
    have hsuits' := (hsuits.retains hnew.grows.retains).concat_name hfound
    refine hrun hedit ▸ Takes.append hlies hnew hsuits' trivial fun j hj => ?_
    rw [hslot] at hj
    exact hlength ▸ eq_length_of_findIdx?_concat hfound hj

/-- Only an index names a slot of a sequence, and then the one at its position. -/
theorem resolveIndex?_of_slotOf? (hf : f = .list ∨ f = .tuple) (haccessor : accessor ≠ .attr)
    {n j : Nat} (hj : f.slotOf? s accessor l n = some j) :
    ∃ i, l = .int i ∧ resolveIndex? n i = some j := by
  by_cases hint : ∃ i, l = .int i
  · obtain ⟨i, rfl⟩ := hint
    rw [Form.slotOf?_sequence hf haccessor] at hj
    exact ⟨i, rfl, hj⟩
  · rw [Form.slotOf?_sequence_eq_none hf (.inr fun i hi => hint ⟨i, hi⟩)] at hj
    cases hj

/-- A new tree at an index of a list or a tuple. -/
theorem setChild_takes_sequence (hf : f = .list ∨ f = .tuple) (haccessor : accessor ≠ .attr)
    (hlies : Lies s [node h f ts]) (hnew : Turns s [] r [u]) {k : Value} (hk : l.Shows r k) :
    ∃ h' s', setKeyed (.ref h) k u.value r = (.ref h', s') ∧
      Takes s r h f ts u accessor (.literal l) first h' s' := by
  obtain ⟨hc, -, -, -⟩ := hlies.parts
  have hc' := hnew.grows _ _ hc
  have hkeyed (r : Store) : f.Keyed r := by
    rcases hf with rfl | rfl
    · trivial
    · trivial
  have hsuits (r : Store) (n : Nat) : f.Suits r n := by
    rcases hf with rfl | rfl
    · trivial
    · trivial
  have hnothing (hnone : ∀ i, l = .int i → resolveIndex? ts.length i = none) :
      Takes s r h f ts u accessor (.literal l) first h r := by
    refine .unchanged hlies (hkeyed s) hnew (fun r' hr => chosen_eq_nil (hkeyed s) ?_ hr) u
    refine Option.eq_none_iff_forall_ne_some.mpr fun j hj => ?_
    obtain ⟨i, hi, hresolve⟩ := resolveIndex?_of_slotOf? hf haccessor hj
    rw [hnone i hi] at hresolve
    cases hresolve
  have hkeyed' : r.isKeyed (.ref h) = false := (sequence_of_fill hc' hf).1
  cases l with
  | tuple ls =>
    rw [Literal.Shows] at hk
    obtain ⟨g, vs, rfl, -, -⟩ := hk
    refine ⟨h, r, setKeyed_of_no_key hkeyed' (.inr ?_) _, hnothing ?_⟩
    · rintro x i ⟨⟩
    · rintro i ⟨⟩
  | scalar x =>
    rw [Literal.Shows] at hk
    subst hk
    cases hx : x.toInt? with
    | none =>
      refine ⟨h, r, setKeyed_of_no_key hkeyed' (.inr ?_) _, hnothing ?_⟩
      · rintro y i ⟨⟩
        rw [hx]
        rintro ⟨⟩
      · rintro i ⟨⟩
        cases hx
    | some k =>
      have hrun := setKeyed_number hc' hf hx u.value
      rw [List.length_map] at hrun
      have hslot {n j : Nat} (hj : f.slotOf? r accessor (.scalar x) n = some j) :
          resolveIndex? n k = some j := by
        obtain ⟨i, hi, hresolve⟩ := resolveIndex?_of_slotOf? hf haccessor hj
        cases hi
        rw [← Option.some.inj hx]
        exact hresolve
      -- An index behind the end appends, and names the new element only if it is the next one.
      by_cases hlast : (ts.length : Int) ≤ k
      · rw [if_pos hlast] at hrun
        exact hrun ▸ Takes.append hlies hnew (hsuits _ _) (hkeyed r) fun j hj =>
          resolveIndex?_last hlast (hslot hj)
      · rw [if_neg hlast] at hrun
        cases hresolve : resolveIndex? ts.length k with
        | none =>
          rw [hresolve] at hrun
          refine ⟨h, r, hrun, hnothing fun i hi => ?_⟩
          cases hi
          rw [Option.some.inj hx, hresolve]
        | some p =>
          rw [hresolve, Option.elim_some] at hrun
          refine hrun ▸ Takes.set hlies (hkeyed s) hnew (resolveIndex?_lt hresolve) fun j hj => ?_
          exact Option.some.inj ((hslot hj).symm.trans hresolve)

/-- **A write at a literal** puts a new tree into a container, where the access with this literal then
finds it, or leaves the container as it is. -/
theorem Turns.upsert (ctx : Context) (hl : l.hasDouble = false) (hlies : Lies s [Tree.node h f ts])
    (hkeyed : f.Keyed s) (hnew : Turns s [] r [u]) :
    ∃ h' s', ctx.upsert (.access accessor (.literal l) none first) (.ref h) u.value r =
        (.ok (.ref h'), s') ∧ Takes s r h f ts u accessor (.literal l) first h' s' := by
  obtain ⟨hgrows, hk⟩ := l.toValue_shows r
  have hnew' : Turns s [] (l.toValue r).2 [u] := hnew.trans (.of_grows hgrows hnew.lies)
  obtain ⟨hc, -, -, -⟩ := hlies.parts
  have hkind := Form.kind_of_fill (hnew'.grows _ _ hc)
  rw [Context.upsert_literal]
  suffices hset : ∃ h' s', setChild (.ref h) (accessor.step (l.toValue r).2 (l.toValue r).1) u.value
      (l.toValue r).2 = (.ref h', s') ∧
      Takes s (l.toValue r).2 h f ts u accessor (.literal l) first h' s' by
    obtain ⟨h', s', hrun, htakes⟩ := hset
    exact ⟨h', s', by rw [hrun], htakes.of_grows hgrows⟩
  have hstep (haccessor : accessor ≠ .attr) :
      setChild (.ref h) (accessor.step (l.toValue r).2 (l.toValue r).1) u.value =
        setKeyed (.ref h) (l.toValue r).1 u.value := by
    cases accessor with
    | attr => exact absurd rfl haccessor
    | _ => rfl
  have hnothing (hnone : f.slotOf? s accessor l ts.length = none) :
      Takes s (l.toValue r).2 h f ts u accessor (.literal l) first h (l.toValue r).2 :=
    .unchanged hlies hkeyed hnew' (fun r' hr => chosen_eq_nil hkeyed hnone hr) u
  -- An attribute is for objects, a key or a slot for everything else.
  by_cases haccessor : accessor = .attr
  · subst haccessor
    cases f with
    | object name names frozen => exact setChild_takes_object hlies hnew' hk
    | list =>
      refine ⟨h, _, replaceAttrs_of_no_object ?_ _, hnothing ?_⟩
      · rw [hkind]
        rintro ⟨⟩
      · exact Form.slotOf?_sequence_eq_none (.inl rfl) (.inl rfl)
    | tuple =>
      refine ⟨h, _, replaceAttrs_of_no_object ?_ _, hnothing ?_⟩
      · rw [hkind]
        rintro ⟨⟩
      · exact Form.slotOf?_sequence_eq_none (.inr rfl) (.inl rfl)
    | dict keys =>
      refine ⟨h, _, replaceAttrs_of_no_object ?_ _, hnothing rfl⟩
      rw [hkind]
      rintro ⟨⟩
  · rw [hstep haccessor]
    cases f with
    | list => exact setChild_takes_sequence (.inl rfl) haccessor hlies hnew' hk
    | tuple => exact setChild_takes_sequence (.inr rfl) haccessor hlies hnew' hk
    | dict keys => exact setChild_takes_dict haccessor hl hlies hkeyed hnew' hk
    | object name names frozen =>
      refine ⟨h, _, setKeyed_object (hnew'.grows _ _ hc) _ _, hnothing ?_⟩
      rw [Form.slotOf?, if_neg haccessor]

/-! ### Writing through chosen slots -/

/-- A part that has turned into another one is written back in its slot. -/
theorem Turns.writeAt {step : Step} {i : Nat} (hlies : Lies s [Tree.node h f ts])
    (hi : i < ts.length) (hturn : Turns s [ts[i]] r [u]) (hnames : f.Names r ts.length step i) :
    ∃ h' s', setChild (.ref h) step u.value r = (.ref h', s') ∧ (f.isCopied = false → h' = h) ∧
      r.Retains s' ∧ Turns s [Tree.node h f ts] s' [Tree.node h' f (ts.set i u)] := by
  have hsplit : ts.take i ++ ts[i] :: ts.drop (i + 1) = ts := by simp
  have hlength : (ts.take i).length = i := List.length_take_of_le (Nat.le_of_lt hi)
  have hwrite := Turns.write (hsplit.symm ▸ hlies) hturn (by rw [hsplit, hlength]; exact hnames)
  rw [hsplit] at hwrite
  obtain ⟨h', s', hrun, hsame, hturns⟩ := hwrite
  refine ⟨h', s', hrun, hsame, ?_, ?_⟩
  · obtain ⟨hc, hsuits, -, hnot⟩ := hlies.parts
    have hnot' : h ∉ handles [ts[i]] := fun hmem =>
      hnot (((List.singleton_sublist.mpr (List.getElem_mem hi)).flatMap _).subset hmem)
    have hc' := hturn.kept h _ hnot' hc
    have hslot := setChild_slot hc' (by simpa using hsuits.retains hturn.retains)
      (by simpa using hnames) u.value
    have hretains := Form.retains_rewrite hc' (f.fill ((ts.map value).set i u.value))
    rwa [← hslot, hrun] at hretains
  · rwa [List.set_eq_take_append_cons_drop, if_pos hi]

/-- **Parts are edited one after the other and written back**, each at a step to its slot. -/
theorem Turns.editSlots (edit : Value → Eval Value) (before after : Nat → Store → Tree → Prop)
    (hafter : ∀ {i s r t}, s.Retains r → after i s t → after i r t)
    (step : Nat → Step) {is : List Nat}
    (hedit : ∀ i ∈ is, ∀ {s t}, Lies s [t] → before i s t →
      ∃ u r, edit t.value s = (.ok u.value, r) ∧ Turns s [t] r [u] ∧ after i r u)
    (hnodup : is.Nodup) (hlies : Lies s [Tree.node h f ts])
    (hparts : ∀ {r h' us}, Turns s [Tree.node h f ts] r [Tree.node h' f us] →
      ∀ i ∈ is, ∀ t, ts[i]? = some t → before i r t)
    (hnames : ∀ i ∈ is, i < ts.length ∧ f.Names s ts.length (step i) i) :
    ∃ h' us s', ((is.map fun i => (step i, (ts.map value).getD i .null)).foldlM
        (fun node (step, child) => do
          let child ← edit child
          (setChild node step child : StoreM Value)) (.ref h) : Eval Value) s =
        (.ok (.ref h'), s') ∧ (f.isCopied = false → h' = h) ∧
      Turns s [Tree.node h f ts] s' [Tree.node h' f us] ∧ us.length = ts.length ∧
      (∀ i ∈ is, ∀ u, us[i]? = some u → after i s' u) ∧ ∀ i ∉ is, us[i]? = ts[i]? := by
  -- The container may be a copy after each write, so the handle varies along the slots.
  induction is generalizing s h ts with
  | nil =>
    refine ⟨h, ts, s, rfl, fun _ => rfl, .refl hlies, rfl, ?_, fun _ _ => rfl⟩
    intro i hi
    cases hi
  | cons i is ih =>
    obtain ⟨hnot, hnodup⟩ := List.nodup_cons.mp hnodup
    obtain ⟨hi, hname⟩ := hnames i (List.mem_cons_self ..)
    have hget : ts[i]? = some ts[i] := List.getElem?_eq_getElem hi
    obtain ⟨-, -, hlies', -⟩ := hlies.parts
    obtain ⟨u, r, hrun, hturn, hu⟩ := hedit i (List.mem_cons_self ..)
      (hlies'.of_mem (List.getElem_mem hi)) (hparts (.refl hlies) i (List.mem_cons_self ..) _ hget)
    obtain ⟨h₁, s₁, hset, hsame₁, hretains, hturns⟩ :=
      Turns.writeAt hlies hi hturn (hname.retains hturn.retains)
    have hsame {j : Nat} (hj : j ∈ is) : (ts.set i u)[j]? = ts[j]? :=
      List.getElem?_set_ne (by rintro rfl; exact hnot hj)
    obtain ⟨h₂, us, s₂, hrest, hsame₂, hturns', hlength, hdone, hothers⟩ := ih
      (fun j hj => hedit j (List.mem_cons_of_mem _ hj)) hnodup hturns.lies
      (fun hmore j hj t ht => hparts (hturns.trans hmore) j (List.mem_cons_of_mem _ hj) t
        (hsame hj ▸ ht))
      (fun j hj => by
        rw [List.length_set]
        obtain ⟨hj', hname⟩ := hnames j (List.mem_cons_of_mem _ hj)
        exact ⟨hj', hname.retains hturns.retains⟩)
    have hvalues : (is.map fun j => (step j, ((ts.set i u).map value).getD j .null)) =
        is.map fun j => (step j, (ts.map value).getD j .null) := by
      refine List.map_congr_left fun j hj => ?_
      rw [List.getD_eq_getElem?_getD, List.getD_eq_getElem?_getD, List.getElem?_map,
        List.getElem?_map, hsame hj]
    rw [hvalues] at hrest
    refine ⟨h₂, us, s₂, ?_, fun hf => (hsame₂ hf).trans (hsame₁ hf), hturns.trans hturns',
      by simpa using hlength, fun j hj w hw => ?_, fun j hj => ?_⟩
    · have hvalue : (ts.map value).getD i .null = ts[i].value := by simp [hi]
      rw [List.map_cons, List.foldlM_cons, hvalue]
      dsimp only
      rw [bind_assoc, Eval.run_bind_of_ok hrun, Eval.run_bind_of_ok (Eval.run_lift _ r), hset]
      exact hrest
    · rcases List.mem_cons.mp hj with rfl | hj
      · rw [hothers j hnot, List.getElem?_set_self hi] at hw
        cases hw
        exact hafter (hretains.trans hturns'.retains) hu
      · exact hdone j hj w hw
    · rw [List.mem_cons, not_or] at hj
      rw [hothers j hj.2, List.getElem?_set_ne (Ne.symm hj.1)]

end Forest

end DottedPath
