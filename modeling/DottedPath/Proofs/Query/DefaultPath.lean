import DottedPath.Proofs.Query.FindUpdated
import DottedPath.Proofs.Query.KeyInsertion

/-!
# The structure that is built for a path

For a path of literals a structure is built in which the path is to lead to null: a dict with a key, an
object with an attribute, a list with room for an index, one inside the other.  The list at the end of
the path has room for its index; a list on the way has but one element, whatever its index is.  So the
path leads along the structure if and only if all indexes on the way are zero
(`Context.find_default`).  What an update writes into such a structure is found in the same case, and
lost in all others (`Context.find_created`).

## Main statements

- `Context.find_default`: what a reading of the path finds in what is built for it.
- `Context.find_created`: what it finds after an update that had to create the path below a key.
-/

namespace DottedPath

/-- A place that a literal names: a text key, an attribute, or an index from zero on. -/
inductive NamedPlace where
  | key (name : String)
  | attr (name : String)
  | slot (index : Nat)

namespace NamedPlace

/-- The segment that names the place. -/
def segment : NamedPlace → Segment
  | key name => .literal .key (.str name)
  | attr name => .literal .attr (.str name)
  | slot i => .literal .slot (.int i)

/-- The step to the place. -/
def step : NamedPlace → Step
  | key name => .key (.str name)
  | attr name => .attr name
  | slot i => .slot (.int i)

/-- Nothing comes before the place in a container that is built for it. -/
def isFirst : NamedPlace → Bool
  | slot i => i == 0
  | _ => true

/-- The container that is built for the place, before there is a value to go into it. -/
def base : NamedPlace → Container
  | key name => .dict [(.str name, .null)]
  | attr name => .object "namespace" [(name, .null)] false
  | slot _ => .list []

/-- The container that is built for the place on the way of a path, with a value in it. -/
def around (x : Value) : NamedPlace → Container
  | key name => .dict [(.str name, x)]
  | attr name => .object "namespace" [(name, x)] false
  | slot _ => .list [x]

/-- The container that is built for the place at the end of a path, with a value at the place. -/
def room (x : Value) : NamedPlace → Container
  | slot i => .list (List.replicate i .null ++ [x])
  | p => p.around x

theorem room_of_isFirst {p : NamedPlace} (hp : p.isFirst = true) (x : Value) : p.room x = p.around x := by
  cases p with
  | slot i =>
    rw [beq_iff_eq.mp hp]
    rfl
  | _ => rfl

theorem unfiltered (p : NamedPlace) : p.segment.Unfiltered := by
  cases p <;> exact .access rfl

end NamedPlace

variable {s t u : Store} {h : Handle} {x y : Value} {p : NamedPlace} {ps : List NamedPlace}

/-! ### One place -/

/-- The element at an index of a list. -/
theorem Store.elementAt?_of_list {xs : List Value} (hc : s.get? h = some (.list xs)) (i : Nat) :
    s.elementAt? (.ref h) i = xs[i]? := by
  have hi := isIndexed_of_get? (.inl hc)
  have hlist : s.container? (.ref h) = some (.list xs) := hc
  rw [elementAt?, if_pos hi, position?, length?_of_isIndexed hi, Option.bind_some,
    elements_of_list hlist]
  by_cases hlt : i < xs.length
  · rw [resolveIndex?_natCast hlt, Option.bind_some]
  · have hnone : resolveIndex? xs.length i = none := by
      rw [Option.eq_none_iff_forall_ne_some]
      intro j hj
      have hbounds := (isSome_resolveIndex? xs.length i).mp (by rw [hj]; rfl)
      omega
    rw [hnone, Option.bind_none, List.getElem?_eq_none (by omega)]

/-- An attribute that is there keeps its place in the object. -/
theorem replaceAttrs_single {name attr : String} (x : Value)
    (hc : s.get? h = some (.object name [(attr, y)] false)) :
    replaceAttrs (.ref h) (fun as => insertAttr as attr x) s =
      (.ref h, s.set h (.object name [(attr, x)] false)) := by
  have hobject : s.container? (.ref h) = some (.object name [(attr, y)] false) := hc
  have hfound : [(attr, y)].findIdx? (fun a => a.1 == attr) = some 0 := by
    rw [List.findIdx?_cons, if_pos (beq_self_eq_true attr)]
  unfold replaceAttrs
  rw [StoreM.run_bind, StoreM.run_get, hobject]
  show (Value.ref h, s.set h (.object name (insertAttr [(attr, y)] attr x) false)) = _
  rw [insertAttr_findIdx? hfound]
  rfl

/-- A value is written at the place for it. -/
theorem setChild_room (hc : s.get? h = some (p.room y)) (x : Value) :
    setChild (.ref h) p.step x s = (.ref h, s.set h (p.room x)) := by
  cases p with
  | key name =>
    refine (setChild_key hc name x).trans ?_
    rw [Store.insertEntry_singleton]
    rfl
  | attr name => exact replaceAttrs_single x hc
  | slot i =>
    have hlist : s.get? h = some (Form.list.fill (List.replicate i .null ++ [y])) := hc
    have hi : resolveIndex? (List.replicate i Value.null ++ [y]).length i = some i :=
      resolveIndex?_natCast (by simp)
    refine (setKeyed_element hlist (.inl rfl) hi x).trans ?_
    simp [Form.rewrite, Form.isCopied, Form.fill, NamedPlace.room]

/-- What is written at a place for which a container has been built stands alone in it. -/
theorem setChild_base (hc : s.get? h = some p.base) (x : Value) :
    setChild (.ref h) p.step x s = (.ref h, s.set h (p.around x)) := by
  cases p with
  | key name => exact setChild_room (p := .key name) (y := .null) hc x
  | attr name => exact setChild_room (p := .attr name) (y := .null) hc x
  | slot i =>
    have hlist : s.get? h = some (Form.list.fill []) := hc
    have hbehind : (([] : List Value).length : Int) ≤ (i : Int) := Int.natCast_nonneg i
    refine (setKeyed_number hlist (.inl rfl) (x := .int i) rfl x).trans ?_
    rw [if_pos hbehind]
    rfl

namespace Context

variable (ctx : Context)

theorem items_slot_list {xs : List Value} (hc : s.get? h = some (.list xs)) (i : Nat) :
    ctx.items (NamedPlace.slot i).segment (.ref h) s =
      (.ok (xs[i]?.map fun x => ((NamedPlace.slot i).step, x)).toList, s) := by
  have hraw : candidates .slot (.literal (.int i)) (.ref h) s =
      ((xs[i]?.map (Value.int i, ·)).toList, s) := by
    rw [candidates_int (by decide) (Store.isIndexed_of_get? (.inl hc)), Store.elementAt?_of_list hc]
  rw [NamedPlace.segment, Segment.literal, ctx.items_of_candidates hraw]
  cases xs[i]? <;> rfl

/-- The place is found where there is room for it. -/
theorem items_room (hc : s.get? h = some (p.room x)) :
    ctx.items p.segment (.ref h) s = (.ok [(p.step, x)], s) := by
  cases p with
  | key name =>
    refine (ctx.items_keySegment hc name).trans ?_
    rw [Store.lookup?_str]
    simp [Value.string?, NamedPlace.step]
  | attr name => exact items_of_candidate (candidates_object hc)
  | slot i =>
    rw [ctx.items_slot_list hc]
    simp

/-- In a container that is built around a value, the place is found if it is the first one. -/
theorem items_around (hc : s.get? h = some (p.around x)) :
    ctx.items p.segment (.ref h) s =
      (.ok (if p.isFirst then [(p.step, x)] else []), s) := by
  by_cases hp : p.isFirst = true
  · rw [if_pos hp]
    exact ctx.items_room (NamedPlace.room_of_isFirst hp x ▸ hc)
  · cases p with
    | slot i =>
      have hi : i ≠ 0 := fun h => hp (beq_iff_eq.mpr h)
      rw [ctx.items_slot_list hc, if_neg hp]
      simp [hi]
    | _ => exact absurd rfl hp

theorem upsert_place (node x : Value) (s : Store) :
    ctx.upsert p.segment node x s =
      (.ok (setChild node p.step x s).1, (setChild node p.step x s).2) := by
  cases p with
  | key name => exact ctx.upsert_literal .key (.str name) false node x s
  | attr name => exact ctx.upsert_literal .attr (.str name) false node x s
  | slot i => exact ctx.upsert_literal .slot (.int i) false node x s

theorem defaultFor_place (p : NamedPlace) (s : Store) :
    defaultFor p.segment s = (.ref s.next, s.push p.base) := by
  cases p <;> rfl

theorem defaultLeaf_place (p : NamedPlace) (s : Store) :
    defaultLeaf p.segment s = (.ref s.next, s.push (p.room .null)) := by
  cases p with
  | slot i =>
    have hi : (0 : Int) ≤ (i : Int) := Int.natCast_nonneg i
    show (if (0 : Int) ≤ (i : Int) then alloc (.list (List.replicate ((i : Int).toNat + 1) .null))
      else defaultFor (NamedPlace.slot i).segment) s = _
    rw [if_pos hi, Int.toNat_natCast, List.replicate_succ']
    rfl
  | _ => rfl

end Context

/-! ### Structures for paths -/

/-- The value is the structure for a path, with a value at its end: each place has a container of its
own, at a later handle than the one before. -/
inductive Laid (s : Store) (x : Value) : Nat → List NamedPlace → Value → Prop where
  | last {least : Nat} {p : NamedPlace} {h : Handle} (hleast : least ≤ h.index)
    (hc : s.get? h = some (p.room x)) : Laid s x least [p] (.ref h)
  | cons {least : Nat} {p q : NamedPlace} {ps : List NamedPlace} {h : Handle} {y : Value}
    (hleast : least ≤ h.index) (hc : s.get? h = some (p.around y))
    (hrest : Laid s x (h.index + 1) (q :: ps) y) : Laid s x least (p :: q :: ps) (.ref h)

namespace Laid

variable {least : Nat} {v w : Value}

/-- What stands before the structure does not matter. -/
theorem congr (hv : Laid s x least ps v)
    (hsame : ∀ h, least ≤ h.index → t.get? h = s.get? h) : Laid t x least ps v := by
  induction hv with
  | last hleast hc => exact .last hleast ((hsame _ hleast).trans hc)
  | cons hleast hc _ ih =>
    refine .cons hleast ((hsame _ hleast).trans hc) (ih fun g hg => hsame g ?_)
    omega

end Laid

namespace Context

variable (ctx : Context)

/-- **For a path of literals a structure is built**, beside all that is there. -/
theorem buildDefault_laid : ∀ (ps : List NamedPlace) (p : NamedPlace) (s : Store),
    ∃ v t, ctx.buildDefault ((p :: ps).map NamedPlace.segment) s = (.ok v, t) ∧ s.GrowsTo t ∧
      Laid t .null s.size (p :: ps) v
  | [], p, s => by
    have hget := Store.get?_push_next s (p.room .null)
    refine ⟨.ref s.next, s.push (p.room .null), ?_, .push s _, .last (Nat.le_refl _) hget⟩
    show (liftM (defaultLeaf p.segment) : Eval Value) s = _
    rw [Eval.run_lift, defaultLeaf_place]
  | q :: ps, p, s => by
    obtain ⟨y, t, hbuild, hgrows, hlaid⟩ := buildDefault_laid ps q (s.push p.base)
    have hbase : t.get? s.next = some p.base := hgrows _ _ (Store.get?_push_next s _)
    have hlt := Store.lt_size_of_get? hbase
    refine ⟨.ref s.next, t.set s.next (p.around y), ?_, fun h c hc => ?_, ?_⟩
    · show (do
        let built ← (liftM (defaultFor p.segment) : Eval Value)
        let child ← ctx.buildDefault ((q :: ps).map NamedPlace.segment)
        ctx.upsert p.segment built child) s = _
      rw [Eval.run_bind_of_ok (Eval.run_lift _ s), defaultFor_place, Eval.run_bind_of_ok hbuild,
        upsert_place, setChild_base hbase]
    · rw [Store.get?_set_ne _ (Store.ne_next_of_lt (Store.lt_size_of_get? hc))]
      exact hgrows h c (Store.GrowsTo.push s _ h c hc)
    -- The container is written last, but it stands before the structure of the rest.
    · rw [Store.size_push] at hlaid
      refine .cons (Nat.le_refl _) (Store.get?_set_self _ hlt) (hlaid.congr fun g hg => ?_)
      refine Store.get?_set_ne _ ?_
      rintro rfl
      exact Nat.not_succ_le_self _ hg

/-! ### Reading along a structure -/

theorem walkPath_place (p : NamedPlace) (segs : List Segment) (base : Location) (node : Value)
    (s : Store) :
    ctx.walkPath (p.segment :: segs) Walk.done base node s =
      (ctx.items p.segment node >>= fun parts =>
        (ctx.walkPath segs Walk.done).each base (placesOf parts)) s := by
  cases p <;> rfl

/-- What is found below the one part of a value is all that is found. -/
theorem walkPath_through {segs : List Segment} {base : Location} {node : Value} {found : List Found}
    (hitems : ctx.items p.segment node s = (.ok [(p.step, y)], s))
    (hrest : ctx.walkPath segs Walk.done (base ++ [p.step]) y s = (.ok ⟨found, false⟩, s)) :
    ctx.walkPath (p.segment :: segs) Walk.done base node s = (.ok ⟨found, false⟩, s) := by
  rw [walkPath_place, Eval.run_bind_of_ok hitems]
  show (Walk.each _ base [([p.step], y)]) s = _
  rw [Walk.each, Eval.run_bind_of_ok hrest, if_neg Bool.false_ne_true]
  simp [Walk.each, Eval.run_bind_of_ok (Eval.run_pure _ s), Eval.run_pure, Visit.nothing]

/-- A path leads along the structure for it if all places on the way are first ones. -/
theorem walkPath_laid {least : Nat} {v : Value} (hv : Laid s x least ps v) : ∀ base : Location,
    ctx.walkPath (ps.map NamedPlace.segment) Walk.done base v s =
      (.ok ⟨if ps.dropLast.all NamedPlace.isFirst then [(base ++ ps.map NamedPlace.step, x)] else [],
        false⟩, s) := by
  induction hv with
  | last hleast hc =>
    intro base
    rw [List.map_singleton, walkPath_place, Eval.run_bind_of_ok (ctx.items_room hc)]
    rfl
  | @cons least p q ps h y hleast hc _ ih =>
    intro base
    have hlast : (p :: q :: ps).dropLast = p :: (q :: ps).dropLast := rfl
    have hitems := ctx.items_around hc
    rw [List.map_cons, hlast, List.all_cons]
    cases hp : p.isFirst with
    | false =>
      -- The list has one element only, and the index is a later one.
      rw [hp] at hitems
      rw [walkPath_place, Eval.run_bind_of_ok hitems]
      rfl
    | true =>
      rw [hp, if_pos rfl] at hitems
      rw [ctx.walkPath_through hitems (ih _), Bool.true_and, List.append_assoc]
      rfl

/-- **The structure that is built for a path leads along the path if and only if all indexes on the way
are zero**: a reading reports one place, which holds null, or else nothing. -/
theorem find_default (hps : ps ≠ []) (s : Store) :
    ∃ v t, ctx.buildDefault (ps.map NamedPlace.segment) s = (.ok v, t) ∧ s.GrowsTo t ∧
      ctx.find (ps.map NamedPlace.segment) v t =
        (.ok (if ps.dropLast.all NamedPlace.isFirst then [(ps.map NamedPlace.step, .null)] else []),
          t) := by
  obtain ⟨p, ps, rfl⟩ := List.exists_cons_of_ne_nil hps
  obtain ⟨v, t, hbuild, hgrows, hlaid⟩ := ctx.buildDefault_laid ps p s
  refine ⟨v, t, hbuild, hgrows, ?_⟩
  rw [find, Eval.run_bind_of_ok (ctx.walkPath_laid hlaid [])]
  rfl

/-! ### Writing into a structure -/

/-- More places follow, and they are to be written. -/
theorem rest_places (q : NamedPlace) (ps : List NamedPlace) :
    (ctx.pathEdit ((q :: ps).map NamedPlace.segment) .done).isEnd = false ∧
      (ctx.pathEdit ((q :: ps).map NamedPlace.segment) .done).startsSilent = false ∧
      (ctx.pathEdit ((q :: ps).map NamedPlace.segment) .done).segments =
        (q :: ps).map NamedPlace.segment :=
  ctx.rest_unfiltered q.unfiltered (ps.map NamedPlace.segment)

/-- A write into a structure that has been built for its path puts the value at the end of the
structure, if the path leads there, and it changes nothing before the structure. -/
theorem update_laid (v : Value) {least : Nat} {w : Value} (hw : Laid s .null least ps w) :
    ∃ t, (ctx.pathEdit (ps.map NamedPlace.segment) .done).update true false (.value v) w s =
        (.ok w, t) ∧
      Laid t (if ps.dropLast.all NamedPlace.isFirst then v else .null) least ps w ∧
      ∀ h, h.index < least → t.get? h = s.get? h := by
  induction hw with
  | @last least p h hleast hc =>
    refine ⟨s.set h (p.room v), ?_, .last hleast (Store.get?_set_self _ (Store.lt_size_of_get? hc)),
      fun g hg => Store.get?_set_ne _ ?_⟩
    · rw [List.map_singleton, ctx.update_unfiltered p.unfiltered, ctx.updateParts_last hc, upsert_place, setChild_room hc]
    · rintro rfl
      omega
  | @cons least p q ps h y hleast hc hrest ih =>
    obtain ⟨t, hupdate, hlaid, hbefore⟩ := ih
    obtain ⟨hend, hstarts, hsegments⟩ := ctx.rest_places q ps
    have hitems := ctx.items_around hc
    have hlast : (p :: q :: ps).dropLast = p :: (q :: ps).dropLast := rfl
    rw [hlast, List.all_cons]
    have henter := Store.isEnterable_of_get? hc
    rw [List.map_cons, ctx.update_unfiltered p.unfiltered]
    cases hp : p.isFirst with
    | false =>
      rw [hp, if_neg Bool.false_ne_true] at hitems
      have hselects := ctx.selectsNothing_unfiltered p.unfiltered hitems
      refine ⟨s, ?_, .cons hleast hc hrest, fun _ _ => rfl⟩
      rw [ctx.updateParts_rest henter hend hstarts hselects, Bool.not_true, Bool.false_and,
        if_neg Bool.false_ne_true, Eval.run_bind_of_ok hitems]
      rfl
    | true =>
      have hc' : t.get? h = some (p.around y) := by rw [hbefore h (Nat.lt_succ_self _), hc]
      obtain ⟨g, rfl⟩ : ∃ g, y = .ref g := by cases hrest <;> exact ⟨_, rfl⟩
      have hpart : ctx.editPart (ctx.pathEdit ((q :: ps).map NamedPlace.segment) .done) true
          (.value v) (.ref g) s = (.ok (.ref g), t) := hupdate
      -- The part is stored back where it was, so the store is as the rest has left it.
      have hsame : setChild (.ref h) p.step (.ref g) t = (.ref h, t) := by
        have hroom : t.get? h = some (p.room (.ref g)) := by
          rw [NamedPlace.room_of_isFirst hp, hc']
        rw [setChild_room hroom, Store.set_of_get? hroom]
      rw [hp, if_pos rfl] at hitems
      refine ⟨t, ?_, .cons hleast hc' hlaid, fun k hk => hbefore k (by omega)⟩
      rw [ctx.updateParts_single p.unfiltered henter hend hstarts hitems hpart, hsame]

/-- **What an update writes below a key for which it has to create a structure is found if and only if
all indexes on the way are zero**; otherwise it is lost. -/
theorem find_created {es : List (Value × Value)} (hd : s.get? h = some (.dict es)) {key : String}
    (hkey : s.lookup? es (.str key) = none) (hps : ps ≠ []) (v : Value) :
    ∃ t, ctx.update ((NamedPlace.key key :: ps).map NamedPlace.segment) (.ref h) (.value v) s =
        (.ok (.ref h), t) ∧
      ctx.find ((NamedPlace.key key :: ps).map NamedPlace.segment) (.ref h) t =
        (.ok (if ps.dropLast.all NamedPlace.isFirst then
          [((NamedPlace.key key :: ps).map NamedPlace.step, v)] else []), t) := by
  obtain ⟨q, ps, rfl⟩ := List.exists_cons_of_ne_nil hps
  obtain ⟨b, t, hbuild, hgrows, hlaid⟩ := ctx.buildDefault_laid ps q s
  obtain ⟨u, hupdate, hlaid', hbefore⟩ := ctx.update_laid v hlaid
  obtain ⟨hend, hstarts, hsegments⟩ := ctx.rest_places q ps
  have hlt : h.index < s.size := Store.lt_size_of_get? hd
  have hu : u.get? h = some (.dict es) := by rw [hbefore h hlt, hgrows h _ hd]
  have hitems : ctx.items (NamedPlace.key key).segment (.ref h) s = (.ok [], s) := by
    refine (ctx.items_keySegment hd key).trans ?_
    rw [hkey]
    rfl
  have hrun := ctx.updateParts_rest (Store.isEnterable_of_get? hd) hend hstarts
    (ctx.selectsNothing_unfiltered (NamedPlace.key key).unfiltered hitems) false (.value v)
  -- Nothing is at the key, so the structure is built and written before it is put there.
  rw [hsegments, Bool.not_false, Bool.true_and, List.isEmpty_nil, if_pos rfl,
    Eval.run_bind_of_ok hbuild, Eval.run_bind_of_ok hupdate] at hrun
  refine ⟨u.set h (.dict (u.insertEntry es (.str key) b)), ?_, ?_⟩
  · show (ctx.pathEdit ((NamedPlace.key key).segment :: (q :: ps).map NamedPlace.segment) .done).update
      false false (.value v) (.ref h) s = _
    rw [ctx.update_unfiltered (NamedPlace.key key).unfiltered, hrun]
    exact ctx.upsert_keySegment hu key b
  · have hwritten := Store.get?_set_self (.dict (u.insertEntry es (.str key) b))
      (Store.lt_size_of_get? hu)
    have hlaid'' := hlaid'.congr (t := u.set h (.dict (u.insertEntry es (.str key) b)))
      fun g hg => Store.get?_set_ne _ (by rintro rfl; omega)
    have hfound : ctx.items (NamedPlace.key key).segment (.ref h)
        (u.set h (.dict (u.insertEntry es (.str key) b))) =
          (.ok [((NamedPlace.key key).step, b)],
            u.set h (.dict (u.insertEntry es (.str key) b))) := by
      refine (ctx.items_keySegment hwritten key).trans ?_
      rw [Store.lookup?_insertEntry_self]
      rfl
    rw [find, List.map_cons,
      Eval.run_bind_of_ok (ctx.walkPath_through hfound (ctx.walkPath_laid hlaid'' _))]
    cases (q :: ps).dropLast.all NamedPlace.isFirst <;> rfl

end Context

end DottedPath
