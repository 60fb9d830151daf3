import DottedPath.Proofs.Evaluate.KeyAccess
import DottedPath.Proofs.Evaluate.KeyGroup

/-!
# Groups of text keys, read and written

What reading and writing a group of text keys do to a dict.  A write goes on from the dict as the
branches before have left it; as their writes change values only, every branch still finds the same
keys (`Eval.Overwrites.bind`).

## Main statements

- `Context.find_keyGroup`, `Context.update_keyGroup`: the places that are reported, and the dict
  that is left, as `KeyGroup.found` and `KeyGroup.written` tell.
- `Context.update_covers_found`: a write replaces the values of all places that reading reports.
- `Context.update_steady`: a write of a steady group replaces these values and no others.
- `Context.update_past_cut`, `Context.update_past_first_match`: groups that are not steady.
-/

namespace DottedPath

/-! ### The text keys of a dict -/

/-- The text that a value is. -/
def Value.string? : Value → Option String
  | .str name => some name
  | _ => none

theorem Value.string?_eq_some {k : Value} {name : String} :
    k.string? = some name ↔ k = .str name := by
  constructor
  · intro h
    unfold string? at h
    split at h
    · cases h
      rfl
    · cases h
  · rintro rfl
    rfl

/-- The text keys of some entries, in their order. -/
def textKeys (es : List (Value × Value)) : List String :=
  es.filterMap fun e => e.1.string?

/-- The value at a text key, null if there is none. -/
def textValue (es : List (Value × Value)) (name : String) : Value :=
  ((es.find? fun e => e.1.string? == some name).map Prod.snd).getD .null

/-- The entries with a value written at the text keys that have some names. -/
def overwritten (names : List String) (v : Value) (es : List (Value × Value)) :
    List (Value × Value) :=
  es.map fun e => if e.1.string?.any names.contains then (e.1, v) else e

theorem textKeys_overwritten (names : List String) (v : Value) (es : List (Value × Value)) :
    textKeys (overwritten names v es) = textKeys es := by
  rw [textKeys, overwritten, List.filterMap_map]
  congr 1
  funext e
  simp only [Function.comp_apply]
  split <;> rfl

/-- Two writes of the same value are one. -/
theorem overwritten_overwritten (names more : List String) (v : Value)
    (es : List (Value × Value)) :
    overwritten more v (overwritten names v es) = overwritten (names ++ more) v es := by
  rw [overwritten, overwritten, overwritten, List.map_map]
  congr 1
  funext e
  simp only [Function.comp_apply]
  cases hk : e.1.string? with
  | none => simp [hk]
  | some name => by_cases hn : name ∈ names <;> simp [hn, hk]

/-- Only the names count, not how often they are given. -/
theorem overwritten_congr {names more : List String} (h : ∀ n, n ∈ names ↔ n ∈ more) (v : Value)
    (es : List (Value × Value)) : overwritten names v es = overwritten more v es := by
  rw [overwritten, overwritten]
  congr 1
  funext e
  cases e.1.string? with
  | none => rfl
  | some name => simp [h name]

theorem mem_textKeys {es : List (Value × Value)} {name : String} :
    name ∈ textKeys es ↔ ∃ e ∈ es, e.1 = .str name := by
  simp only [textKeys, List.mem_filterMap, Value.string?_eq_some]

/-- Names that are no keys do not count. -/
theorem overwritten_of_disjoint {names : List String} {es : List (Value × Value)}
    (h : ∀ n ∈ names, n ∉ textKeys es) (v : Value) : overwritten names v es = es := by
  rw [overwritten, List.map_congr_left (g := id), List.map_id]
  intro e he
  rw [if_neg, id]
  cases hk : e.1.string? with
  | none => exact Bool.false_ne_true
  | some name =>
    have hkey : name ∈ textKeys es := mem_textKeys.mpr ⟨e, he, Value.string?_eq_some.mp hk⟩
    intro hname
    exact h name (by simpa using hname) hkey

theorem overwritten_nil (v : Value) (es : List (Value × Value)) : overwritten [] v es = es :=
  overwritten_of_disjoint (fun _ hn => absurd hn List.not_mem_nil) v

namespace Store

variable (s : Store)

/-- Only a text is the same key as a text. -/
theorem equalsWithin_str_left (n : Nat) (asKey : Bool) (name : String) (k : Value) :
    s.equalsWithin (n + 1) asKey (.str name) k = (k.string? == some name) := by
  show s.equalsWithin (n + 1) asKey (.scalar (.str name)) k = _
  cases k with
  | ref h =>
    rw [equalsWithin]
    · rfl
    · rintro x y - ⟨⟩
    · rintro g h ⟨⟩
  | scalar x =>
    rw [equalsWithin]
    cases x with
    | str other =>
      have hsame : Scalar.sameKey (.str name) (.str other) = (name == other) := Bool.and_true _
      have hequal : Scalar.equals (.str name) (.str other) = (name == other) := rfl
      rw [hsame, hequal, ite_self, Value.string?, Option.some_beq_some, BEq.comm]
    | _ => cases asKey <;> rfl

/-- An entry is looked up by its text. -/
theorem lookup?_str (es : List (Value × Value)) (name : String) :
    s.lookup? es (.str name) = (es.find? fun e => e.1.string? == some name).map Prod.snd := by
  rw [lookup?]
  congr 2
  funext e
  exact s.equalsWithin_str_left _ _ name e.1

theorem insertEntry_cons (e : Value × Value) (es : List (Value × Value)) (key v : Value) :
    s.insertEntry (e :: es) key v =
      if s.sameKey key e.1 then (e.1, v) :: es else e :: s.insertEntry es key v := by
  rw [insertEntry, insertEntry, List.findIdx?_cons]
  by_cases h : s.sameKey key e.1 = true
  · rw [if_pos h, if_pos h]
    rfl
  · rw [if_neg h, if_neg h]
    cases es.findIdx? _ <;> rfl

/-- A write at a text key that is there once is a write at its name. -/
theorem insertEntry_str (name : String) (v : Value) : ∀ {es : List (Value × Value)},
    (textKeys es).Nodup → name ∈ textKeys es →
    s.insertEntry es (.str name) v = overwritten [name] v es
  | [], _, hmem => absurd hmem List.not_mem_nil
  | e :: es, hn, hmem => by
    have hsame : s.sameKey (.str name) e.1 = (e.1.string? == some name) :=
      s.equalsWithin_str_left _ _ name e.1
    rw [insertEntry_cons, hsame, overwritten, List.map_cons, ← overwritten]
    by_cases hk : e.1.string? = some name
    · -- the key is not among the rest, so nothing is written there
      have hkeys : textKeys (e :: es) = name :: textKeys es := List.filterMap_cons_some hk
      rw [hkeys, List.nodup_cons] at hn
      rw [overwritten_of_disjoint (by simpa using hn.1)]
      simp [hk]
    · have hrest : name ∈ textKeys es := by
        obtain ⟨e', he', hk'⟩ := mem_textKeys.mp hmem
        rcases List.mem_cons.mp he' with rfl | he'
        · exact absurd (Value.string?_eq_some.mpr hk') hk
        · exact mem_textKeys.mpr ⟨e', he', hk'⟩
      have hnodup : (textKeys es).Nodup :=
        hn.sublist ((List.sublist_cons_self e es).filterMap _)
      have hother : ¬ (e.1.string?.any [name].contains) = true := by
        cases hk' : e.1.string? with
        | none => simp
        | some other => simpa [hk'] using hk
      rw [insertEntry_str name v hnodup hrest, if_neg hother]
      simp [hk]

end Store

/-- A present key is read with its value. -/
theorem toList_lookup?_str (s : Store) (es : List (Value × Value)) (name : String) :
    (s.lookup? es (.str name)).toList =
      if name ∈ textKeys es then [textValue es name] else [] := by
  rw [Store.lookup?_str, textValue]
  cases hfind : es.find? fun e => e.1.string? == some name with
  | none =>
    rw [if_neg]
    · rfl
    · intro hmem
      obtain ⟨e, he, hk⟩ := mem_textKeys.mp hmem
      have hno := List.find?_eq_none.mp hfind e he
      rw [Value.string?_eq_some.mpr hk, beq_self_eq_true] at hno
      exact hno rfl
  | some e =>
    have hk : e.1.string? = some name := by simpa using List.find?_some hfind
    have hmem : name ∈ textKeys es :=
      mem_textKeys.mpr ⟨e, List.mem_of_find?_eq_some hfind, Value.string?_eq_some.mp hk⟩
    rw [if_pos hmem]
    rfl


/-! ### Stores with a dict overwritten -/

/-- On every dict at a handle with some text keys, an evaluation gives an answer and writes a value
at the keys that have some names. -/
def Eval.Overwrites {α : Type} (x : Eval α) (a : α) (h : Handle) (keys names : List String)
    (v : Value) : Prop :=
  ∀ s es, s.get? h = some (.dict es) → textKeys es = keys →
    x s = (.ok a, s.set h (.dict (overwritten names v es)))

namespace Eval.Overwrites

variable {α β : Type} {x : Eval α} {a : α} {b : β} {h : Handle} {keys names more : List String}
  {v : Value}

/-- What only reads overwrites nothing. -/
theorem of_reads
    (hx : ∀ s es, s.get? h = some (.dict es) → textKeys es = keys → x s = (.ok a, s)) :
    x.Overwrites a h keys [] v := by
  intro s es hd hk
  rw [hx s es hd hk, overwritten_nil, Store.set_of_get? hd]

protected theorem pure (a : α) : (pure a : Eval α).Overwrites a h keys [] v :=
  of_reads fun _ _ _ _ => rfl

/-- The names of a sequence of steps are those of the steps. -/
protected theorem bind {f : α → Eval β} (hx : x.Overwrites a h keys names v)
    (hf : (f a).Overwrites b h keys more v) : (x >>= f).Overwrites b h keys (names ++ more) v := by
  intro s es hd hk
  have hd' := Store.get?_set_self (.dict (overwritten names v es)) (Store.lt_size_of_get? hd)
  rw [run_bind_of_ok (hx s es hd hk), hf _ _ hd' ((textKeys_overwritten ..).trans hk),
    Store.set_set, overwritten_overwritten]

theorem after_read {f : α → Eval β} (hx : x.Overwrites a h keys [] v)
    (hf : (f a).Overwrites b h keys names v) : (x >>= f).Overwrites b h keys names v :=
  hx.bind hf

theorem before_read {f : α → Eval β} (hx : x.Overwrites a h keys names v)
    (hf : (f a).Overwrites b h keys [] v) : (x >>= f).Overwrites b h keys names v := by
  have hboth := hx.bind hf
  rwa [List.append_nil] at hboth

protected theorem map (f : α → β) (hx : x.Overwrites a h keys names v) :
    (f <$> x).Overwrites (f a) h keys names v := by
  intro s es hd hk
  rw [run_map_of_ok (hx s es hd hk)]

end Eval.Overwrites

/-! ### Reading -/

/-- Names as the places of text keys, with the values there. -/
def placesOfNames (es : List (Value × Value)) (names : List String) : List Found :=
  names.map fun name => (keyLocation [name], textValue es name)

theorem overlaps_keyLocation (s : Store) (a b : String) :
    (keyLocation [a]).overlaps s (keyLocation [b]) = (a == b) := by
  show (s.equals (.str a) (.str b) && true) = _
  rw [Bool.and_true]
  exact s.equalsWithin_str _ _ a b

/-- What is hidden is so by its name. -/
theorem any_overlaps (s : Store) (hidden : List String) (name : String) :
    ((hidden.map fun n => keyLocation [n]).any fun h => h.overlaps s (keyLocation [name])) =
      hidden.contains name := by
  rw [List.any_map, List.contains_eq_any_beq]
  congr 1
  funext other
  exact (overlaps_keyLocation s other name).trans BEq.comm

theorem filter_placesOfNames (s : Store) (es : List (Value × Value)) (names hidden : List String) :
    ((placesOfNames es names).filter fun (l, _) =>
        !(hidden.map fun n => keyLocation [n]).any fun h => h.overlaps s l) =
      placesOfNames es (outside hidden names) := by
  rw [placesOfNames, List.filter_map, placesOfNames, outside]
  congr 2
  funext name
  exact congrArg (!·) (any_overlaps s hidden name)

theorem firstOnly_placesOfNames (first : Bool) (es : List (Value × Value)) (names : List String) :
    firstOnly first (placesOfNames es names) = placesOfNames es (firstOnly first names) := by
  cases first with
  | false => rfl
  | true => exact List.map_take.symm

/-- What a soft cut hides is the names that its branch found. -/
theorem map_hides (cut : Cut) (hidden found : List String) :
    (if cut == .soft then
        (hidden.map fun n => keyLocation [n]) ++ found.map fun n => keyLocation [n]
      else hidden.map fun n => keyLocation [n]) =
      (cut.hides hidden found).map fun n => keyLocation [n] := by
  rw [Cut.hides]
  split
  · rw [List.map_append]
  · rfl

theorem locations_placesOfNames (es : List (Value × Value)) (names : List String) :
    (placesOfNames es names).map Prod.fst = names.map fun n => keyLocation [n] := by
  rw [placesOfNames, List.map_map]
  rfl

theorem isEmpty_placesOfNames (es : List (Value × Value)) (names : List String) :
    (placesOfNames es names).isEmpty = names.isEmpty :=
  List.isEmpty_map

namespace Context

variable (ctx : Context) {s : Store} {h : Handle} {es : List (Value × Value)}

theorem walk_key (hd : s.get? h = some (.dict es)) (name : String) :
    ctx.walkSegment (keySegment name) Walk.done [] (.ref h) s =
      (.ok ⟨placesOfNames es (if name ∈ textKeys es then [name] else []), false⟩, s) := by
  have hitems := ctx.items_keySegment hd name
  rw [Option.toList_map, toList_lookup?_str] at hitems
  show (ctx.items (keySegment name) (.ref h) >>= fun parts =>
    Walk.done.each [] (placesOf parts)) s = _
  rw [Eval.run_bind_of_ok hitems]
  split <;> rfl

mutual

/-- Reading a group reports what `found` tells. -/
theorem walk_keyGroup (hd : s.get? h = some (.dict es)) : ∀ g : KeyGroup,
    ctx.walkSegment g.segment Walk.done [] (.ref h) s =
      (.ok ⟨placesOfNames es (g.found (textKeys es)).names, (g.found (textKeys es)).halted⟩, s)
  | .key name => ctx.walk_key hd name
  | .any bs first => by
    rw [KeyGroup.segment, walkSegment, KeyGroup.found]
    exact walk_any hd first bs []
  | .all ts first => by
    rw [KeyGroup.segment, walkSegment, KeyGroup.found]
    show (Walk.conjunction _ _ _ >>= _) s = _
    rw [Eval.run_bind_of_ok (walk_all hd ts)]
    cases ts.foundAll (textKeys es) with
    | none => rfl
    | some f =>
      show (Except.ok (Visit.mk (firstOnly first (placesOfNames es f.names)) f.halted), s) = _
      rw [firstOnly_placesOfNames]
      rfl

theorem walk_any (hd : s.get? h = some (.dict es)) (first : Bool) :
    ∀ (bs : KeyBranches) (hidden : List String),
    Walk.alternatives first (ctx.walkBranches bs.branches Walk.done)
        (hidden.map fun n => keyLocation [n]) [] (.ref h) s =
      (.ok ⟨placesOfNames es (bs.foundAny (textKeys es) first hidden).names,
        (bs.foundAny (textKeys es) first hidden).halted⟩, s)
  | .nil, _ => rfl
  | .cons g cut rest, hidden => by
    show (ctx.walkSegment g.segment Walk.done [] (.ref h) >>= _) s = _
    rw [Eval.run_bind_of_ok (walk_keyGroup hd g), Eval.run_bind_of_ok (Eval.run_store s),
      KeyBranches.foundAny, filter_placesOfNames, isEmpty_placesOfNames]
    dsimp only
    split
    · exact walk_any hd first rest hidden
    split
    · rw [placesOfNames, ← List.map_take]
      rfl
    split
    · rfl
    · rw [locations_placesOfNames, map_hides, Eval.run_bind_of_ok (walk_any hd first rest _)]
      rw [placesOfNames, placesOfNames, ← List.map_append]
      rfl

theorem walk_all (hd : s.get? h = some (.dict es)) : ∀ ts : KeyBranches,
    Walk.conjunction (ctx.walkBranches ts.branches Walk.done) [] (.ref h) s =
      (.ok ((ts.foundAll (textKeys es)).map fun f => ⟨placesOfNames es f.names, f.halted⟩), s)
  | .nil => rfl
  | .cons g _ rest => by
    show (ctx.walkSegment g.segment Walk.done [] (.ref h) >>= _) s = _
    rw [Eval.run_bind_of_ok (walk_keyGroup hd g), isEmpty_placesOfNames, KeyBranches.foundAll]
    dsimp only
    split
    · rfl
    · rw [Eval.run_bind_of_ok (walk_all hd rest), Eval.run_pure, Option.map_map, Option.map_map]
      congr 3
      funext more
      simp only [Function.comp_apply]
      split
      · rfl
      · rw [placesOfNames, placesOfNames, ← List.map_append]
        rfl

end

/-- **Reading a group of text keys** reports the places of the names that `found` tells. -/
theorem find_keyGroup (hd : s.get? h = some (.dict es)) (g : KeyGroup) :
    ctx.find [g.segment] (.ref h) s = (.ok (placesOfNames es (g.found (textKeys es)).names), s) :=
  Eval.run_bind_of_ok (ctx.walk_keyGroup hd g)

/-! ### Writing -/

variable {keys : List String} {v : Value}

theorem locations_keyGroup (g : KeyGroup) :
    (ctx.locations [g.segment] (.ref h)).Overwrites
      ((g.found keys).names.map fun n => keyLocation [n]) h keys [] v := by
  refine .of_reads fun s es hd hk => ?_
  rw [locations, Eval.run_bind_of_ok (ctx.find_keyGroup hd g), Eval.run_pure, hk,
    locations_placesOfNames]

theorem locationsOutside_keyGroup (g : KeyGroup) (hidden : List String) :
    (ctx.locationsOutside (hidden.map fun n => keyLocation [n]) [g.segment] (.ref h)).Overwrites
      ((outside hidden (g.found keys).names).map fun n => keyLocation [n]) h keys [] v := by
  refine (ctx.locations_keyGroup g).after_read (.of_reads fun s es hd hk => ?_)
  rw [Eval.run_bind_of_ok (Eval.run_store s), Eval.run_pure, List.filter_map, outside]
  congr 4
  funext name
  exact congrArg (!·) (any_overlaps s hidden name)

/-- A text key that is there is written at its name. -/
theorem update_key (hn : keys.Nodup) {name : String} (hmem : name ∈ keys) (built : Bool) :
    ((ctx.keyEdit [name]).update built false (.value v) (.ref h)).Overwrites (.ref h) h keys
      [name] v := by
  rintro s es hd rfl
  rw [ctx.update_last hd, Store.insertEntry_str s name v hn hmem]

/-- The edit of the place of a text key is that of the key. -/
theorem elementEdit_key (name : String) (s : Store) :
    ctx.elementEdit (keyLocation [name]) .done s = (.ok (ctx.keyEdit [name]), s) := rfl

/-- Places of text keys are written one after the other. -/
theorem foldlM_elementEdit (hn : keys.Nodup) (built : Bool) : ∀ names : List String, names ⊆ keys →
    ((names.map fun n => keyLocation [n]).foldlM (fun node l => do
        (← ctx.elementEdit l .done).update built false (.value v) node) (.ref h)).Overwrites
      (.ref h) h keys names v
  | [], _ => .pure _
  | name :: names, hsub => by
    obtain ⟨hname, hnames⟩ := List.cons_subset.mp hsub
    have hwrite : (ctx.elementEdit (keyLocation [name]) .done >>= fun e =>
        e.update built false (.value v) (.ref h)).Overwrites (.ref h) h keys [name] v :=
      .after_read (.of_reads fun s _ _ _ => ctx.elementEdit_key name s)
        (ctx.update_key hn hname built)
    exact hwrite.bind (foldlM_elementEdit hn built names hnames)

/-- Where reading a group finds something, writing it replaces what `written` tells. -/
def WritesGroup (h : Handle) (keys : List String) (v : Value) (g : KeyGroup) : Prop :=
  ∀ built, (g.found keys).names ≠ [] →
    ((ctx.segmentEdit g.segment .done).update (.ofPath built false) (.value v) (.ref h)).Overwrites
      (.ref h) h keys (g.written keys) v

theorem updateFirst_overwrites (built : Bool) : ∀ bs : KeyBranches,
    (∀ g ∈ bs.groups, ctx.WritesGroup h keys v g) → (bs.foundAny keys true []).names ≠ [] →
    (ctx.updateFirst (.ofPath built false) (.value v) (ctx.branchEdits bs.branches .done)
      (.ref h)).Overwrites (some (.ref h)) h keys (bs.writtenFirst keys) v
  | .nil, _, hne => absurd rfl hne
  | .cons g cut rest, hg, hne => by
    obtain ⟨hhead, hrest⟩ := List.forall_mem_cons.mp hg
    refine (ctx.locations_keyGroup g).after_read ?_
    rw [List.isEmpty_map, KeyBranches.writtenFirst]
    rw [KeyBranches.foundAny] at hne
    simp only [outside_nil] at hne
    split
    · rename_i hempty
      rw [if_pos hempty] at hne
      exact updateFirst_overwrites built rest hrest hne
    · rename_i hfound
      exact (hhead built (by simpa using hfound)).map some

theorem updateMatching_overwrites (hn : keys.Nodup) (built : Bool) :
    ∀ (bs : KeyBranches) (hidden : List String),
    (∀ g ∈ bs.groups, ctx.WritesGroup h keys v g) →
    (ctx.updateMatching (.ofPath built false) (.value v) (ctx.branchEdits bs.branches .done)
      (hidden.map fun n => keyLocation [n]) (.ref h)).Overwrites
      (.ref h, !(bs.foundAny keys false hidden).names.isEmpty) h keys (bs.writtenAny keys hidden) v
  | .nil, _, _ => .pure _
  | .cons g cut rest, hidden, hg => by
    obtain ⟨hhead, hrest⟩ := List.forall_mem_cons.mp hg
    refine (ctx.locationsOutside_keyGroup g hidden).after_read ?_
    rw [List.isEmpty_map]
    by_cases hfound : (outside hidden (g.found keys).names).isEmpty
    · rw [if_pos hfound, KeyBranches.foundAny, KeyBranches.writtenAny, if_pos hfound,
        if_pos hfound]
      exact updateMatching_overwrites hn built rest hidden hrest
    have hne : outside hidden (g.found keys).names ≠ [] := by simpa using hfound
    have hany : (g.found keys).names ≠ [] := by
      intro hnil
      rw [hnil] at hne
      exact hne rfl
    have hhit : ((KeyBranches.cons g cut rest).foundAny keys false hidden).names.isEmpty =
        false := by simpa using KeyBranches.foundAny_ne_nil false hne
    -- what follows the write of this branch
    have hnext : ∀ hidden', (if cut == .hard then pure (.ref h, true) else do
          let written ← ctx.updateMatching (.ofPath built false) (.value v)
            (ctx.branchEdits rest.branches .done) (hidden'.map fun n => keyLocation [n]) (.ref h)
          pure (written.1, true) : Eval (Value × Bool)).Overwrites (.ref h, true) h keys
        (if cut == .hard then [] else rest.writtenAny keys hidden') v := by
      intro hidden'
      split
      · exact .pure _
      · exact (updateMatching_overwrites hn built rest hidden' hrest).before_read (.pure _)
    have hafter := hnext (cut.hides hidden (outside hidden (g.found keys).names))
    rw [← map_hides] at hafter
    rw [if_neg hfound, hhit, KeyBranches.writtenAny, if_neg hfound, List.isEmpty_map]
    by_cases hhidden : hidden.isEmpty
    · rw [if_pos hhidden, if_pos hhidden]
      exact (hhead built hany).bind hafter
    · rw [if_neg hhidden, if_neg hhidden]
      have hsilent : (Branch.mk [g.segment] cut).isSilent = false := by
        show (g.segment.hasNop || false) = false
        rw [g.hasNop_segment, Bool.or_false]
      rw [hsilent]
      exact (ctx.foldlM_elementEdit hn built _
        (List.Subset.trans (outside_subset hidden _) g.found_subset)).bind hafter

/-- No term stands in the way of the others if each of them finds something. -/
theorem blocked_overwrites : ∀ ts : KeyBranches,
    (∀ g ∈ ts.groups, (g.found keys).names ≠ []) →
    ((ctx.branchEdits ts.branches .done).anyM fun ((b, e) : Branch × Edit) => do
      if b.isConcrete && !b.startsFiltered then pure false
      else pure (← ctx.locations e.segments (.ref h)).isEmpty).Overwrites false h keys [] v
  | .nil, _ => .pure _
  | .cons g cut rest, hg => by
    obtain ⟨hhead, hrest⟩ := List.forall_mem_cons.mp hg
    refine Eval.Overwrites.after_read (a := false) ?_ (blocked_overwrites rest hrest)
    dsimp only
    split
    · exact .pure _
    · refine (ctx.locations_keyGroup g).after_read ?_
      have hsome : ((g.found keys).names.map fun n => keyLocation [n]).isEmpty = false := by
        simpa using hhead
      rw [hsome]
      exact .pure _

theorem updateTerms_overwrites (built : Bool) : ∀ ts : KeyBranches,
    (∀ g ∈ ts.groups, ctx.WritesGroup h keys v g) →
    (∀ g ∈ ts.groups, (g.found keys).names ≠ []) →
    ((ctx.branchEdits ts.branches .done).foldlM (fun node ((_, e) : Branch × Edit) =>
      e.update built false (.value v) node) (.ref h)).Overwrites (.ref h) h keys
      (ts.writtenAll keys) v
  | .nil, _, _ => .pure _
  | .cons g cut rest, hw, hg => by
    obtain ⟨hhead, hrest⟩ := List.forall_mem_cons.mp hg
    obtain ⟨hwhead, hwrest⟩ := List.forall_mem_cons.mp hw
    exact (hwhead built hhead).bind (updateTerms_overwrites built rest hwrest hrest)

/-- The edit of alternatives is that of a disjunction, or of the one group that they consist of. -/
theorem segmentEdit_any (bs : KeyBranches) (first : Bool) (rest : Edit) :
    ctx.segmentEdit (KeyGroup.any bs first).segment rest =
        ctx.disjunctionEdit (ctx.branchEdits bs.branches rest) first ∨
      first = false ∧ ∃ g, bs = .cons g .none .nil ∧
        ctx.segmentEdit (KeyGroup.any bs first).segment rest = ctx.segmentEdit g.segment rest := by
  by_cases hsole : first = false ∧ ∃ g, bs = .cons g .none .nil
  · obtain ⟨rfl, g, rfl⟩ := hsole
    cases g with
    | key name => exact .inl rfl
    | any bs first => exact .inr ⟨rfl, _, rfl, segmentEdit.eq_2 ..⟩
    | all ts first => exact .inr ⟨rfl, _, rfl, segmentEdit.eq_2 ..⟩
  · left
    rw [KeyGroup.segment, segmentEdit]
    intro kind branches inner hor hbranches hfirst
    refine hsole ⟨hfirst, ?_⟩
    match bs with
    | .nil => simp [KeyBranches.branches] at hbranches
    | .cons _ _ (.cons _ _ _) => simp [KeyBranches.branches] at hbranches
    | .cons g cut .nil =>
      simp only [KeyBranches.branches, List.cons.injEq, Branch.mk.injEq] at hbranches
      obtain ⟨⟨-, rfl⟩, -⟩ := hbranches
      exact ⟨g, rfl⟩

/-- **Writing a group of text keys**, where reading it finds something, replaces the values at the
names that `written` tells. -/
theorem writesGroup (hn : keys.Nodup) (g : KeyGroup) : ctx.WritesGroup h keys v g := by
  induction g using KeyGroup.induction with
  | key name =>
    intro built hfound
    have hmem : name ∈ keys := by
      by_contra hno
      rw [KeyGroup.found, if_neg hno] at hfound
      exact hfound rfl
    exact ctx.update_key hn hmem built
  | any bs first ih =>
    intro built hfound
    obtain hedit | ⟨rfl, g, rfl, hedit⟩ := ctx.segmentEdit_any bs first .done
    · rw [hedit, KeyGroup.written]
      rw [KeyGroup.found] at hfound
      cases first with
      | true => exact (ctx.updateFirst_overwrites built bs ih hfound).before_read (.pure _)
      | false =>
        have hhit : (bs.foundAny keys false []).names.isEmpty = false := by simpa using hfound
        have hmatching := ctx.updateMatching_overwrites hn built bs [] ih
        rw [hhit] at hmatching
        exact hmatching.before_read (.pure _)
    · -- the group is its only branch
      have hinner : (g.found keys).names ≠ [] := by
        intro hnil
        simp [KeyGroup.found, KeyBranches.foundAny, hnil, outside] at hfound
      have hwritten : (KeyGroup.any (.cons g .none .nil) false).written keys = g.written keys := by
        simp [KeyGroup.written, KeyBranches.writtenAny, outside_nil, hinner]
      rw [hedit, hwritten]
      exact ih g (List.mem_cons_self ..) built hinner
  -- the reads come before all the writes, and none of them blocks the conjunction
  | all ts first ih =>
    intro built hfound
    obtain ⟨f, hf⟩ := KeyGroup.exists_foundAll hfound
    have hterms := KeyBranches.found_of_foundAll hf
    refine (ctx.blocked_overwrites ts hterms).after_read ?_
    exact ctx.updateTerms_overwrites built ts ih hterms

/-- **Writing a group of text keys**, where reading it finds something, replaces the values at the
names that `written` tells. -/
theorem update_keyGroup (hd : s.get? h = some (.dict es)) (hn : (textKeys es).Nodup) {g : KeyGroup}
    (hfound : (g.found (textKeys es)).names ≠ []) (v : Value) :
    ctx.update [g.segment] (.ref h) (.value v) s =
      (.ok (.ref h), s.set h (.dict (overwritten (g.written (textKeys es)) v es))) :=
  ctx.writesGroup hn g false hfound s es hd rfl

end Context

/-! ### Writes against reads -/

namespace Context

variable (ctx : Context) {s t : Store} {h : Handle} {es : List (Value × Value)}

theorem eq_of_find_keyGroup (hd : s.get? h = some (.dict es)) {g : KeyGroup} {found : List Found}
    (hfind : ctx.find [g.segment] (.ref h) s = (.ok found, t)) :
    t = s ∧ found = placesOfNames es (g.found (textKeys es)).names := by
  rw [ctx.find_keyGroup hd g] at hfind
  cases hfind
  exact ⟨rfl, rfl⟩

/-- **A write of a group covers what reading it reports.**  It puts the value at every reported
place and at no others but those of names in the group, and keeps all other entries. -/
theorem update_covers_found (hd : s.get? h = some (.dict es)) (hn : (textKeys es).Nodup)
    {g : KeyGroup} {found : List Found} (hfind : ctx.find [g.segment] (.ref h) s = (.ok found, t))
    (hne : found ≠ []) (v : Value) :
    ∃ names more, found.map Prod.fst = names.map (fun n => keyLocation [n]) ∧ more ⊆ g.names ∧
      ctx.update [g.segment] (.ref h) (.value v) t =
        (.ok (.ref h), t.set h (.dict (overwritten (names ++ more) v es))) := by
  obtain ⟨rfl, rfl⟩ := ctx.eq_of_find_keyGroup hd hfind
  have hfound : (g.found (textKeys es)).names ≠ [] := mt (congrArg (placesOfNames es)) hne
  have hcovers : (g.found (textKeys es)).names ⊆ g.written (textKeys es) := g.found_subset_written
  have hnames : g.written (textKeys es) ⊆ g.names := g.written_subset_names
  refine ⟨_, _, locations_placesOfNames es _, hnames, ?_⟩
  rw [ctx.update_keyGroup hd hn hfound v, overwritten_congr]
  intro n
  rw [List.mem_append]
  exact ⟨.inr, fun hmem => hmem.elim (fun hm => hcovers hm) id⟩

/-- **A steady group is written exactly where it is read**, and all other entries are kept. -/
theorem update_steady (hd : s.get? h = some (.dict es)) (hn : (textKeys es).Nodup)
    {g : KeyGroup} (hg : g.Steady) {found : List Found}
    (hfind : ctx.find [g.segment] (.ref h) s = (.ok found, t)) (hne : found ≠ []) (v : Value) :
    ∃ names, found.map Prod.fst = names.map (fun n => keyLocation [n]) ∧
      ctx.update [g.segment] (.ref h) (.value v) t =
        (.ok (.ref h), t.set h (.dict (overwritten names v es))) := by
  obtain ⟨rfl, rfl⟩ := ctx.eq_of_find_keyGroup hd hfind
  have hfound : (g.found (textKeys es)).names ≠ [] := mt (congrArg (placesOfNames es)) hne
  refine ⟨_, locations_placesOfNames es _, ?_⟩
  rw [ctx.update_keyGroup hd hn hfound v, overwritten_congr]
  exact fun n => ⟨fun hn => hg.written_subset_found hfound hn,
    fun hn => g.found_subset_written hn⟩

/-- A dict with the keys `a` and `b`. -/
def twoKeys : Store :=
  ⟨#[.dict [(.str "a", .int 1), (.str "b", .int 2)]]⟩

/-- Reading `((a#)&b)` ends after `a`, writing it goes on to `b`. -/
theorem update_past_cut (v : Value) :
    let g : KeyGroup := .all (.cons (.any (.cons (.key "a") .hard .nil) false) .none
      (.cons (.key "b") .none .nil)) false
    ctx.find [g.segment] (.ref ⟨0⟩) twoKeys = (.ok [(keyLocation ["a"], .int 1)], twoKeys) ∧
      ctx.update [g.segment] (.ref ⟨0⟩) (.value v) twoKeys =
        (.ok (.ref ⟨0⟩), twoKeys.set ⟨0⟩ (.dict [(.str "a", v), (.str "b", v)])) := by
  intro g
  have hd : twoKeys.get? ⟨0⟩ = some (.dict [(.str "a", .int 1), (.str "b", .int 2)]) := rfl
  exact ⟨ctx.find_keyGroup hd g, ctx.update_keyGroup hd (by decide) (g := g) (by decide) v⟩

/-- Reading `((a,b))?` keeps `a` only, writing it replaces `b` as well. -/
theorem update_past_first_match (v : Value) :
    let g : KeyGroup := .any (.cons (.any (.cons (.key "a") .none
      (.cons (.key "b") .none .nil)) false) .none .nil) true
    ctx.find [g.segment] (.ref ⟨0⟩) twoKeys = (.ok [(keyLocation ["a"], .int 1)], twoKeys) ∧
      ctx.update [g.segment] (.ref ⟨0⟩) (.value v) twoKeys =
        (.ok (.ref ⟨0⟩), twoKeys.set ⟨0⟩ (.dict [(.str "a", v), (.str "b", v)])) := by
  intro g
  have hd : twoKeys.get? ⟨0⟩ = some (.dict [(.str "a", .int 1), (.str "b", .int 2)]) := rfl
  exact ⟨ctx.find_keyGroup hd g, ctx.update_keyGroup hd (by decide) (g := g) (by decide) v⟩

end Context

end DottedPath
