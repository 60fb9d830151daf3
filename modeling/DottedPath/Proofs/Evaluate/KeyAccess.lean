import DottedPath.Evaluate.Edit
import DottedPath.Proofs.Evaluate.Items
import DottedPath.Proofs.Evaluate.Slots
import DottedPath.Proofs.Path.PathText
import DottedPath.Proofs.Value.Growth

/-!
# Dicts with text keys, read and written by key

What an access with a text key does to a dict whose keys are texts.  Text keys are the same only if
they are the same text, so a write replaces the one entry of its key or adds one at the end; the
updates of a path of keys follow from this dict by dict.
-/

namespace DottedPath

/-! ### Entries -/

namespace Store

variable (s : Store)

theorem equalsWithin_str (n : Nat) (asKey : Bool) (a b : String) :
    s.equalsWithin (n + 1) asKey (.str a) (.str b) = (a == b) := by
  show s.equalsWithin (n + 1) asKey (.scalar (.str a)) (.scalar (.str b)) = _
  rw [equalsWithin]
  cases asKey with
  | false => rfl
  | true =>
    show ((a == b) && true) = _
    rw [Bool.and_true]

theorem findsKey_str (count : Nat) (a b : String) :
    s.findsKey count (.str a) (.str b) = (a == b) :=
  s.equalsWithin_str _ _ a b

theorem sameKey_str (a b : String) : s.sameKey (.str a) (.str b) = (a == b) :=
  s.equalsWithin_str _ _ a b

/-- The first keys of some entries are texts other than a given one. -/
def Lacks (entries : List (Value × Value)) (key : String) : Prop :=
  ∀ e ∈ entries, ∃ other, e.1 = .str other ∧ other ≠ key

variable {s} {before after : List (Value × Value)} {key : String}

theorem findIdx?_of_lacks (h : Lacks before key) (rest : List (Value × Value)) :
    (before ++ rest).findIdx? (fun (k, _) => s.sameKey (.str key) k) =
      (rest.findIdx? fun (k, _) => s.sameKey (.str key) k).map (· + before.length) := by
  induction before with
  | nil => simp
  | cons e before ih =>
    obtain ⟨k, x⟩ := e
    obtain ⟨other, rfl, hne⟩ : ∃ other, k = .str other ∧ other ≠ key :=
      h (k, x) (List.mem_cons_self ..)
    have hfalse : ¬ s.sameKey (.str key) (.str other) = true := by
      rw [sameKey_str, beq_iff_eq]
      exact hne.symm
    rw [List.cons_append, List.findIdx?_cons]
    rw [if_neg hfalse, ih fun e' he' => h e' (List.mem_cons_of_mem _ he'), Option.map_map, List.length_cons]
    rfl

theorem modify_length {α : Type} (f : α → α) (x : α) (ys : List α) :
    ∀ xs : List α, (xs ++ x :: ys).modify xs.length f = xs ++ f x :: ys
  | [] => rfl
  | y :: xs => congrArg (y :: ·) (modify_length f x ys xs)

/-- A write at a key that is there replaces its value. -/
theorem insertEntry_of_found (h : Lacks before key) (x v : Value) :
    s.insertEntry (before ++ (.str key, x) :: after) (.str key) v =
      before ++ (.str key, v) :: after := by
  have hfound : s.sameKey (.str key) (.str key) = true := by rw [sameKey_str, beq_self_eq_true]
  rw [insertEntry, findIdx?_of_lacks h, List.findIdx?_cons, if_pos hfound]
  show (before ++ (.str key, x) :: after).modify (0 + before.length) _ = _
  rw [Nat.zero_add, modify_length]

/-- A write at a new key adds an entry. -/
theorem insertEntry_of_lacks (h : Lacks before key) (v : Value) :
    s.insertEntry before (.str key) v = before ++ [(.str key, v)] := by
  have hnone := findIdx?_of_lacks (s := s) h []
  rw [List.append_nil] at hnone
  exact insertEntry_of_findIdx?_eq_none hnone v

theorem find?_of_lacks (h : Lacks before key) (count : Nat) (rest : List (Value × Value)) :
    (before ++ rest).find? (fun (k, _) => s.findsKey count (.str key) k) =
      rest.find? fun (k, _) => s.findsKey count (.str key) k := by
  rw [List.find?_append, List.find?_eq_none.mpr, Option.none_or]
  rintro ⟨k, x⟩ he
  obtain ⟨other, rfl, hne⟩ : ∃ other, k = .str other ∧ other ≠ key := h (k, x) he
  show ¬ s.findsKey count (.str key) (.str other) = true
  rw [findsKey_str, beq_iff_eq]
  exact hne.symm

theorem lookup?_of_found (h : Lacks before key) (x : Value) :
    s.lookup? (before ++ (.str key, x) :: after) (.str key) = some x := by
  have hfound : s.findsKey (before ++ (.str key, x) :: after).length (.str key) (.str key) = true := by
    rw [findsKey_str, beq_self_eq_true]
  rw [lookup?, find?_of_lacks h, List.find?_cons_of_pos (by exact hfound)]
  rfl

theorem lookup?_of_lacks (h : Lacks before key) : s.lookup? before (.str key) = none := by
  have hnone := find?_of_lacks (s := s) h before.length []
  rw [List.append_nil] at hnone
  rw [lookup?, hnone]
  rfl

end Store

/-! ### One access -/

variable {s : Store} {h : Handle} {fs : List (Value × Value)}

/-- Writing at a key edits the entries of the dict. -/
theorem setChild_key (hd : s.get? h = some (.dict fs)) (key : String) (v : Value) :
    setChild (.ref h) (.key (.str key)) v s =
      (.ref h, s.set h (.dict (s.insertEntry fs (.str key) v))) :=
  setKeyed_dict hd (.str key) v

namespace Context

variable (ctx : Context)

/-- A key access selects the value of the key. -/
theorem items_keySegment (hd : s.get? h = some (.dict fs)) (key : String) :
    ctx.items (keySegment key) (.ref h) s =
      (.ok ((s.lookup? fs (.str key)).map fun v => (Step.key (.str key), v)).toList, s) := by
  have hraw : candidates .key (.literal (.str key)) (.ref h) s =
      (((s.lookup? fs (.str key)).map (Value.str key, ·)).toList, s) := by
    have hdict : s.container? (.ref h) = some (.dict fs) := hd
    have hget : s.dictGet? (.ref h) (.str key) = s.lookup? fs (.str key) := by
      rw [Store.dictGet?, hdict]
    rw [candidates, keyedCandidates, StoreM.run_bind, StoreM.run_get, Store.isKeyed_of_get? hd,
      if_pos rfl]
    show (((s.dictGet? (.ref h) (.str key)).map (Value.str key, ·)).toList, s) = _
    rw [hget]
  rw [keySegment, Segment.literal, ctx.items_of_candidates hraw]
  cases s.lookup? fs (.str key) <;> rfl

/-- Writing at a key access writes at the key. -/
theorem upsert_keySegment (hd : s.get? h = some (.dict fs)) (key : String) (v : Value) :
    ctx.upsert (keySegment key) (.ref h) v s =
      (.ok (.ref h), s.set h (.dict (s.insertEntry fs (.str key) v))) := by
  have hset : setChild (.ref h) (.key (.str key)) v s = _ := setChild_key hd key v
  refine (ctx.upsert_literal .key (.str key) false (.ref h) v s).trans ?_
  exact congrArg (fun p => (Except.ok p.1, p.2)) hset

/-! ### Paths of keys -/

/-- The edit of a path of keys. -/
def keyEdit (keys : List String) : Edit :=
  ctx.pathEdit (keys.map keySegment) .done

theorem segments_keyEdit (keys : List String) :
    (ctx.keyEdit keys).segments = keys.map keySegment := by
  induction keys with
  | nil => rfl
  | cons key keys ih =>
    show keySegment key :: (ctx.keyEdit keys).segments = _
    rw [ih, List.map_cons]

theorem update_keyEdit_cons (key : String) (keys : List String) (built : Bool) (val : Operand)
    (node : Value) :
    (ctx.keyEdit (key :: keys)).update built false val node =
      ctx.updateParts (keySegment key) (ctx.keyEdit keys) ⟨built, false, false⟩ val node := rfl

theorem isEnd_keyEdit_cons (key : String) (keys : List String) :
    (ctx.keyEdit (key :: keys)).isEnd = false := by
  rw [Edit.isEnd, segments_keyEdit]
  rfl

theorem selectsNothing_keySegment (hd : s.get? h = some (.dict fs)) (key : String) :
    ctx.selectsNothing (keySegment key) (.ref h) s =
      (.ok (s.lookup? fs (.str key)).isNone, s) := by
  show (do pure (← ctx.items (keySegment key) (.ref h)).isEmpty : Eval Bool) s = _
  rw [Eval.run_bind_of_ok (ctx.items_keySegment hd key)]
  cases s.lookup? fs (.str key) <;> rfl

/-- The last key of a path is written. -/
theorem update_last (hd : s.get? h = some (.dict fs)) (key : String) (built : Bool) (v : Value) :
    (ctx.keyEdit [key]).update built false (.value v) (.ref h) s =
      (.ok (.ref h), s.set h (.dict (s.insertEntry fs (.str key) v))) := by
  have hend : (ctx.keyEdit []).isEnd = true := rfl
  rw [update_keyEdit_cons, updateParts, Eval.run_bind_of_ok (Eval.run_store s),
    Store.isEnterable_of_get? hd, Bool.not_true, if_neg Bool.false_ne_true, hend, if_pos rfl,
    if_neg Bool.false_ne_true]
  exact ctx.upsert_keySegment hd key v

/-- A key that leads to a container is followed, and what the rest makes of it is stored back. -/
theorem update_followed (hd : s.get? h = some (.dict fs)) {key : String} {g : Handle}
    (hg : s.lookup? fs (.str key) = some (.ref g)) {next : String} {keys : List String}
    {built : Bool} {val : Operand} {w : Value} {t : Store}
    (hrest : (ctx.keyEdit (next :: keys)).update built false val (.ref g) s = (.ok w, t)) :
    (ctx.keyEdit (key :: next :: keys)).update built false val (.ref h) s =
      (.ok (setChild (.ref h) (.key (.str key)) w t).1,
        (setChild (.ref h) (.key (.str key)) w t).2) := by
  have hitems := ctx.items_keySegment hd key
  have hselects := ctx.selectsNothing_keySegment hd key
  rw [hg] at hitems hselects
  rw [update_keyEdit_cons, updateParts, Eval.run_bind_of_ok (Eval.run_store s),
    Store.isEnterable_of_get? hd, Bool.not_true, if_neg Bool.false_ne_true, isEnd_keyEdit_cons,
    if_neg Bool.false_ne_true]
  rw [Eval.run_bind_of_ok hselects, Option.isNone_some, Bool.and_false,
    if_neg Bool.false_ne_true, Eval.run_bind_of_ok hitems]
  rw [Option.map_some, Option.toList_some, List.foldlM_cons]
  simp only [List.foldlM_nil, bind_pure, pure_bind]
  rw [Eval.run_bind_of_ok hrest, Eval.run_lift]

/-- For a key that is missing the dicts of the rest are built first. -/
theorem update_missing (hd : s.get? h = some (.dict fs)) {key : String}
    (hg : s.lookup? fs (.str key) = none) {next : String} {keys : List String} {val : Operand}
    {b w : Value} {t u : Store}
    (hbuild : ctx.buildDefault ((next :: keys).map keySegment) s = (.ok b, t))
    (hrest : (ctx.keyEdit (next :: keys)).update true false val b t = (.ok w, u)) :
    (ctx.keyEdit (key :: next :: keys)).update false false val (.ref h) s =
      ctx.upsert (keySegment key) (.ref h) w u := by
  have hselects := ctx.selectsNothing_keySegment hd key
  have hstarts : (ctx.keyEdit (next :: keys)).startsSilent = false := by
    rw [Edit.startsSilent, segments_keyEdit]
    rfl
  rw [hg] at hselects
  rw [update_keyEdit_cons, updateParts, Eval.run_bind_of_ok (Eval.run_store s),
    Store.isEnterable_of_get? hd, Bool.not_true, if_neg Bool.false_ne_true, isEnd_keyEdit_cons,
    if_neg Bool.false_ne_true, Eval.run_bind_of_ok hselects, Option.isNone_none, Bool.and_true,
    Bool.not_false, if_pos rfl, hstarts, Bool.or_false, if_neg Bool.false_ne_true,
    segments_keyEdit, Eval.run_bind_of_ok hbuild, Eval.run_bind_of_ok hrest]

/-! ### Dicts built for keys -/

theorem defaultFor_keySegment (key : String) (s : Store) :
    defaultFor (keySegment key) s = (.ref s.next, s.push (.dict [(.str key, .null)])) := rfl

/-- For one key a dict with nothing at the key is built. -/
theorem buildDefault_last (key : String) (s : Store) :
    ctx.buildDefault [keySegment key] s =
      (.ok (.ref s.next), s.push (.dict [(.str key, .null)])) := rfl

/-- For more keys the dict of the first holds what is built for the others. -/
theorem buildDefault_cons (key next : String) (keys : List String) {s t : Store} {w : Value}
    (hrest : ctx.buildDefault ((next :: keys).map keySegment)
      (s.push (.dict [(.str key, .null)])) = (.ok w, t))
    (hd : t.get? s.next = some (.dict [(.str key, .null)])) :
    ctx.buildDefault ((key :: next :: keys).map keySegment) s =
      (.ok (.ref s.next), t.set s.next (.dict [(.str key, w)])) := by
  have hupsert := ctx.upsert_keySegment hd key w
  have hnone : Store.Lacks [] key := fun _ he => absurd he List.not_mem_nil
  have hinsert : t.insertEntry [(.str key, .null)] (.str key) w = [(.str key, w)] :=
    Store.insertEntry_of_found hnone .null w
  rw [hinsert] at hupsert
  show (do
    let built ← (liftM (defaultFor (keySegment key)) : Eval Value)
    let child ← ctx.buildDefault ((next :: keys).map keySegment)
    ctx.upsert (keySegment key) built child) s = _
  rw [Eval.run_bind_of_ok (Eval.run_lift _ s), defaultFor_keySegment, Eval.run_bind_of_ok hrest,
    hupsert]

end Context

end DottedPath
