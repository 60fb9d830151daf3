import DottedPath.Evaluate.Child
import DottedPath.Proofs.Evaluate.KeptGraph
import DottedPath.Proofs.Evaluate.Run
import DottedPath.Proofs.Evaluate.Selection
import DottedPath.Proofs.Evaluate.Slots

/-!
# Writing back what was read

A write that goes through a part of a value stores the part back where it was.  If the part is still
the same, or a copy, then so is the value, and all other containers are kept (`Fits.write`).
-/

namespace DottedPath

namespace Store

variable {s t : Store} {v w x : Value}

/-! ### Sequences -/

theorem Copies.exists_ref {g : Handle} (h : s.Copies (.ref g) w) : ∃ k, w = .ref k := by
  cases h with
  | refl => exact ⟨g, rfl⟩
  | @copy _ k => exact ⟨k, rfl⟩

theorem Like.of_list {xs : List Value} {d : Container} (h : s.Like (.list xs) d) :
    ∃ ys, d = .list ys ∧ s.AllCopies xs ys := by
  have hframe := h.frame
  cases d with
  | list ys => exact ⟨ys, rfl, h.slots⟩
  | _ => cases hframe

theorem Like.of_tuple {xs : List Value} {d : Container} (h : s.Like (.tuple xs) d) :
    ∃ ys, d = .tuple ys ∧ s.AllCopies xs ys := by
  have hframe := h.frame
  cases d with
  | tuple ys => exact ⟨ys, rfl, h.slots⟩
  | _ => cases hframe

/-- A copy of a list or tuple that is kept is one too, of copies of its elements. -/
theorem Copies.of_ref {g : Handle} {xs : List Value} (hst : s.Keeps t) (h : t.Copies (.ref g) w)
    (hc : s.get? g = some (.list xs) ∨ s.get? g = some (.tuple xs)) :
    ∃ k ys, w = .ref k ∧ t.AllCopies xs ys ∧
      (s.get? g = some (.list xs) ∧ t.get? k = some (.list ys) ∨
        s.get? g = some (.tuple xs) ∧ t.get? k = some (.tuple ys)) := by
  obtain ⟨k, rfl⟩ := h.exists_ref
  rcases hc with hc | hc
  · obtain ⟨d, hd, hlike⟩ := hst.like_of_copies hc h
    obtain ⟨ys, rfl, hys⟩ := hlike.of_list
    exact ⟨k, ys, rfl, hys, .inl ⟨hc, hd⟩⟩
  · obtain ⟨d, hd, hlike⟩ := hst.like_of_copies hc h
    obtain ⟨ys, rfl, hys⟩ := hlike.of_tuple
    exact ⟨k, ys, rfl, hys, .inr ⟨hc, hd⟩⟩

theorem elements_of_get? {g : Handle} {xs : List Value}
    (hc : s.get? g = some (.list xs) ∨ s.get? g = some (.tuple xs)) : s.elements (.ref g) = xs :=
  hc.elim (fun hc => elements_of_list hc) fun hc => elements_of_tuple hc

theorem isIndexed_of_get? {g : Handle} {xs : List Value}
    (hc : s.get? g = some (.list xs) ∨ s.get? g = some (.tuple xs)) :
    s.isIndexed (.ref g) = true := by
  rw [isIndexed, kind]
  rcases hc with hc | hc
  · rw [hc]
    rfl
  · rw [hc]
    rfl

/-- A copy of a sequence that is kept is one too, of copies of its elements. -/
theorem Copies.sequence (hst : s.Keeps t) (h : t.Copies v w) (hi : s.isIndexed v = true) :
    t.isIndexed w = true ∧ t.AllCopies (s.elements v) (t.elements w) := by
  rcases cases_of_isIndexed hi with ⟨text, rfl⟩ | ⟨bs, rfl⟩ | ⟨g, xs, rfl, hc⟩
  · rw [h.eq_of_scalar]
    exact ⟨rfl, .refl t _⟩
  · rw [h.eq_of_scalar]
    exact ⟨rfl, .refl t _⟩
  · obtain ⟨k, ys, rfl, hys, hd⟩ := h.of_ref hst hc
    have hd' : t.get? k = some (.list ys) ∨ t.get? k = some (.tuple ys) :=
      hd.imp And.right And.right
    rw [elements_of_get? hc, elements_of_get? hd']
    exact ⟨isIndexed_of_get? hd', hys⟩

/-- An index that names an element names the one at a position. -/
theorem position_of_elementAt? {i : Int} (he : s.elementAt? v i = some x) :
    ∃ j, resolveIndex? (s.elements v).length i = some j ∧ (s.elements v)[j]? = some x := by
  have hi := isIndexed_of_elementAt? he
  rw [elementAt?, if_pos hi, position?, length?_of_isIndexed hi, Option.bind_some,
    Option.bind_eq_some_iff] at he
  exact he

theorem join_characters : ∀ cs : List Char,
    "".intercalate (cs.map fun c => String.ofList [c]) = String.ofList cs
  | [] => by rw [List.map_nil, String.intercalate_nil]
  | [c] => by rw [List.map_singleton, String.intercalate_singleton]
  | c :: d :: cs => by
    have ih := join_characters (d :: cs)
    rw [List.map_cons] at ih
    rw [List.map_cons, List.map_cons, String.intercalate_cons_cons, ih, String.append_empty,
      ← String.ofList_append, List.singleton_append]

/-- A text of some characters. -/
theorem withElements_text (text : String) (cs : List Char) (s : Store) :
    withElements (.str text) (cs.map fun c => .str (String.ofList [c])) s =
      (.str (String.ofList cs), s) := by
  show (Value.str ("".intercalate ((cs.map fun c => Value.str (String.ofList [c])).map s.text)), s) =
    (.str (String.ofList cs), s)
  rw [List.map_map]
  exact congrArg (Value.str · , s) (join_characters cs)

/-- Bytes of some numbers. -/
theorem withElements_bytes (bs cs : List UInt8) (s : Store) :
    withElements (.bytes bs) (cs.map fun b => .int b.toNat) s = (.bytes cs, s) := by
  have hbyte (b : UInt8) : UInt8.ofNat ((b.toNat : Int) % 256).toNat = b := by
    have hlt := b.toNat_lt
    have hnat : ((b.toNat : Int) % 256).toNat = b.toNat := by omega
    rw [hnat, UInt8.ofNat_toNat]
  have hnumbers {number? : Value → Option Int} (h : ∀ i, number? (.int i) = some i) :
      (cs.map fun b => Value.int b.toNat).filterMap number? = cs.map fun b => (b.toNat : Int) := by
    rw [List.filterMap_map, ← List.filterMap_eq_map]
    exact List.filterMap_congr fun b _ => h b.toNat
  show (Value.bytes (((cs.map fun b => Value.int b.toNat).filterMap _).map _), s) = (.bytes cs, s)
  rw [hnumbers fun _ => rfl, List.map_map, Function.comp_def,
    List.map_congr_left fun b _ => hbyte b, List.map_id']

/-- A text that is given its characters is the same text. -/
theorem replaceElements_text (text : String) (s : Store) :
    replaceElements (.str text) (s.elements (.str text)) s = (.str text, s) :=
  (withElements_text text text.toList s).trans (by rw [String.ofList_toList])

/-- Bytes that are given their numbers are the same bytes. -/
theorem replaceElements_bytes (bs : List UInt8) (s : Store) :
    replaceElements (.bytes bs) (s.elements (.bytes bs)) s = (.bytes bs, s) :=
  withElements_bytes bs bs s

/-- Scalars have no copies but themselves. -/
theorem AllCopies.eq_of_scalars {xs ys : List Value} (h : s.AllCopies xs ys)
    (hxs : ∀ x ∈ xs, ∃ a, x = .scalar a) : ys = xs := by
  refine List.ext_getElem? fun i => ?_
  rcases Nat.lt_or_ge i xs.length with hlt | hge
  · have hx := List.getElem?_eq_getElem hlt
    obtain ⟨y, hy, hcopy⟩ := h.get? hx
    obtain ⟨a, ha⟩ := hxs _ (List.mem_of_getElem? hx)
    rw [ha] at hcopy hx
    rw [hx, hy, hcopy.eq_of_scalar]
  · rw [List.getElem?_eq_none hge, List.getElem?_eq_none (h.1 ▸ hge)]

/-- A sequence may be given copies of its elements. -/
theorem replaceElements_keeps (hi : t.isIndexed w = true) {zs : List Value}
    (h : t.AllCopies (t.elements w) zs) :
    t.Keeps (replaceElements w zs t).2 ∧
      (replaceElements w zs t).2.Copies w (replaceElements w zs t).1 := by
  rcases cases_of_isIndexed hi with ⟨text, rfl⟩ | ⟨bs, rfl⟩ | ⟨g, xs, rfl, hc | hc⟩
  · have heq : zs = t.elements (.str text) := h.eq_of_scalars fun x hx => by
      obtain ⟨c, -, rfl⟩ := List.mem_map.mp hx
      exact ⟨_, rfl⟩
    rw [heq, replaceElements_text]
    exact ⟨.refl t, .refl _⟩
  · have heq : zs = t.elements (.bytes bs) := h.eq_of_scalars fun x hx => by
      obtain ⟨c, -, rfl⟩ := List.mem_map.mp hx
      exact ⟨_, rfl⟩
    rw [heq, replaceElements_bytes]
    exact ⟨.refl t, .refl _⟩
  -- a list is edited in place, and is then a copy of what it was
  · have hlist : t.container? (.ref g) = some (.list xs) := hc
    rw [elements_of_list hlist] at h
    have hrun : replaceElements (.ref g) zs t = (.ref g, t.set g (.list zs)) := by
      unfold replaceElements
      rw [StoreM.run_bind, StoreM.run_get, hlist]
      rfl
    rw [hrun]
    refine ⟨.set hc rfl ⟨?_, h⟩, .refl _⟩
    show Container.list (xs.map _) = Container.list (zs.map _)
    rw [List.map_const', List.map_const', h.1]
  -- instead of a tuple there is a new one, which is a copy of it
  · have htuple : t.container? (.ref g) = some (.tuple xs) := hc
    rw [elements_of_tuple htuple] at h
    have hrun : replaceElements (.ref g) zs t = (.ref t.next, t.push (.tuple zs)) := by
      unfold replaceElements
      rw [StoreM.run_bind, StoreM.run_get, htuple]
      show withElements (.ref g) zs t = _
      unfold withElements
      rw [htuple]
      rfl
    rw [hrun]
    refine ⟨.of_grows (.push t _), copies_push hc rfl ⟨?_, h⟩⟩
    show Container.tuple (xs.map _) = Container.tuple (zs.map _)
    rw [List.map_const', List.map_const', h.1]

/-- An element may be written back at its index, or a copy of it. -/
theorem setKeyed_index_keeps {i : Int} {y : Value} (he : t.elementAt? w i = some x)
    (hy : t.Copies x y) :
    t.Keeps (setKeyed w (.int i) y t).2 ∧
      (setKeyed w (.int i) y t).2.Copies w (setKeyed w (.int i) y t).1 := by
  have hi := isIndexed_of_elementAt? he
  obtain ⟨j, hresolve, hj⟩ := position_of_elementAt? he
  have hlt : ¬ ((t.elements w).length : Int) ≤ i := by
    rw [resolveIndex?] at hresolve
    split at hresolve
    · rename_i hbounds
      rw [fromStart] at hbounds
      split at hbounds
      · omega
      · omega
    · cases hresolve
  have hrun : setKeyed w (.int i) y t = replaceElements w ((t.elements w).set j y) t := by
    unfold setKeyed
    rw [StoreM.run_bind, StoreM.run_get, isKeyed_of_isIndexed hi, if_neg Bool.false_ne_true]
    show setIndexed w i y t = _
    unfold setIndexed
    rw [StoreM.run_bind, StoreM.run_get, hi, if_pos rfl]
    dsimp only
    rw [if_neg hlt, hresolve]
  rw [hrun]
  exact replaceElements_keeps hi (AllCopies.set (.refl t _) hj hy)

/-! ### Slices -/

theorem AllCopies.cons {xs ys : List Value} {x y : Value} (hx : s.Copies x y)
    (h : s.AllCopies xs ys) : s.AllCopies (x :: xs) (y :: ys) := by
  refine ⟨congrArg (· + 1) h.1, fun i a b ha hb => ?_⟩
  cases i with
  | zero =>
    cases ha
    cases hb
    exact hx
  | succ i => exact h.2 i a b ha hb

/-- Slices of copies are copies, one by one. -/
theorem AllCopies.pick {xs ys : List Value} (h : s.AllCopies xs ys) (range : SliceRange) :
    s.AllCopies (range.pick xs) (range.pick ys) := by
  rw [SliceRange.pick, SliceRange.pick, h.1]
  generalize range.positions ys.length = positions
  induction positions with
  | nil => exact .refl s []
  | cons i positions ih =>
    rw [List.filterMap_cons, List.filterMap_cons]
    by_cases hi : 0 ≤ i
    · rw [if_pos hi, if_pos hi]
      cases hx : xs[i.toNat]? with
      | none =>
        have hy : ys[i.toNat]? = none := by
          rw [List.getElem?_eq_none_iff] at hx ⊢
          rw [← h.1]
          exact hx
        rw [hy]
        exact ih
      | some x =>
        obtain ⟨y, hy, hxy⟩ := h.get? hx
        rw [hy]
        exact .cons hxy ih
    · rw [if_neg hi, if_neg hi]
      exact ih

variable {inside : Handle → Prop}

/-- Lists, or tuples, of copies are equal. -/
theorem equals_of_sequences (hg : s.PlainGraph inside) {g h : Handle} {xs ys : List Value}
    (hc : s.get? g = some (.list xs) ∧ s.get? h = some (.list ys) ∨
      s.get? g = some (.tuple xs) ∧ s.get? h = some (.tuple ys))
    (hxs : ∀ x ∈ xs, Comparable inside x) (hxy : s.AllCopies xs ys) :
    s.equals (.ref g) (.ref h) = true := by
  have hitems : equalsWithin.itemsEqual
      (s.equalsWithin ((s.size + 1) * (s.size + 1)) false) xs ys = true := by
    refine itemsEqual_of_forall hxy.1 fun i x y hx hy => ?_
    obtain ⟨n, hn⟩ := (hxy.2 i x y hx hy).within
    obtain ⟨m, -, hm⟩ := exists_copyHeight hn
    have hlt : s.size * s.size < (s.size + 1) * (s.size + 1) :=
      Nat.mul_lt_mul'' (Nat.lt_succ_self _) (Nat.lt_succ_self _)
    exact (equalsWithin_of_copies hg.toValueGraph hg.nan m hm (hxs x (List.mem_of_getElem? hx))
      (.nil m) hlt).1
  rw [equals, comparisonDepth, equalsWithin]
  rcases hc with ⟨hc, hd⟩ | ⟨hc, hd⟩
  · rw [hc, hd, Bool.or_eq_true]
    exact .inr hitems
  · rw [hc, hd, Bool.or_eq_true]
    exact .inr hitems

/-- What a slice holds already is not written. -/
theorem setSlice_of_equals {range : SliceRange} (hi : s.isIndexed v = true)
    (heq : (sliceOf range v s).2.equals (sliceOf range v s).1 w = true) :
    setSlice v range w s = (v, (sliceOf range v s).2) := by
  unfold setSlice
  rw [StoreM.run_bind, StoreM.run_get, hi, Bool.not_true, if_neg Bool.false_ne_true,
    StoreM.run_bind, StoreM.run_bind, StoreM.run_get, if_pos heq]
  rfl

/-- The values of a copy are no NaN either. -/
theorem Comparable.copies {x y : Value} (hx : Comparable inside x) (h : t.Copies x y) :
    Comparable (t.CopiesOf inside) y := by
  refine ⟨inside_copiesOf hx.tame h, ?_⟩
  rintro a rfl
  have hscalar := h.symm.eq_of_scalar
  exact hx.scalar a hscalar

/-- The slice of a sequence that is taken now is equal to a copy of the slice that was taken then. -/
theorem equals_slice_of_copies {start : Store} {range : SliceRange} {mk : List Value → Container}
    (hmk : mk = .list ∨ mk = .tuple) {g k : Handle} {xs ys : List Value} {child child' : Value}
    (hg : s.PlainGraph inside) (hc : start.get? g = some (mk xs)) (hd : t.get? k = some (mk ys))
    (hslice : sliceOf range (.ref g) start = (child, s)) (hst : s.Keeps t)
    (hxs : ∀ x ∈ xs, Comparable inside x) (hys : t.AllCopies xs ys) (hchild : t.Copies child child') :
    (sliceOf range (.ref k) t).2.equals (sliceOf range (.ref k) t).1 child' = true := by
  have htaken {r : Store} {l : Handle} {zs : List Value} (hl : r.get? l = some (mk zs)) :
      sliceOf range (.ref l) r = (.ref r.next, r.push (mk (range.pick zs))) := by
    have hl : r.container? (.ref l) = some (mk zs) := hl
    rcases hmk with rfl | rfl
    · exact sliceOf_list range hl
    · exact sliceOf_tuple range hl
  have hpicked : ∀ y ∈ range.pick ys, Comparable (t.CopiesOf inside) y := fun y hy => by
    obtain ⟨i, hi⟩ := List.getElem?_of_mem (SliceRange.mem_of_mem_pick hy)
    obtain ⟨x, hx, hyx⟩ := hys.symm.get? hi
    exact (hxs x (List.mem_of_getElem? hx)).copies hyx.symm
  rw [htaken hc] at hslice
  cases hslice
  have hnew := get?_push_next start (mk (range.pick xs))
  -- the copy of the slice is of the same kind, and its elements are copies
  obtain ⟨m, zs, rfl, hzs, hm⟩ : ∃ m zs, child' = .ref m ∧ t.AllCopies (range.pick xs) zs ∧
      t.get? m = some (mk zs) := by
    rcases hmk with rfl | rfl
    · obtain ⟨m, zs, hm, hzs, ⟨-, hget⟩ | ⟨hother, -⟩⟩ := hchild.of_ref hst (.inl hnew)
      · exact ⟨m, zs, hm, hzs, hget⟩
      · cases hnew.symm.trans hother
    · obtain ⟨m, zs, hm, hzs, ⟨hother, -⟩ | ⟨-, hget⟩⟩ := hchild.of_ref hst (.inr hnew)
      · cases hnew.symm.trans hother
      · exact ⟨m, zs, hm, hzs, hget⟩
  have hpush := GrowsTo.push t (mk (range.pick ys))
  have hgraph := (hg.keeps hst).grows hpush
  have hcopies := ((hys.pick range).symm.trans hzs).keepsCopied hpush.keepsCopied
  have hget := get?_push_next t (mk (range.pick ys))
  rw [htaken hd]
  refine equals_of_sequences hgraph ?_ hpicked hcopies
  rcases hmk with rfl | rfl
  · exact .inl ⟨hget, hpush m _ hm⟩
  · exact .inr ⟨hget, hpush m _ hm⟩

/-- A slice may be written back, or a copy of it. -/
theorem setSlice_keeps {start : Store} {range : SliceRange} {now child child' : Value}
    (hg : s.PlainGraph inside) (hv : v.Inside inside) (hi : start.isIndexed v = true)
    (hslice : sliceOf range v start = (child, s)) (hst : s.Keeps t) (hnow : t.Copies v now)
    (hchild : t.Copies child child') :
    t.GrowsTo (setSlice now range child' t).2 ∧ (setSlice now range child' t).1 = now := by
  have hgrows := sliceOf_grows range now t
  have hstart : start.GrowsTo s := by
    have hgrows := sliceOf_grows range v start
    rw [hslice] at hgrows
    exact hgrows
  have hkeeps := (Keeps.of_grows hstart).trans hst
  obtain ⟨hinow, -⟩ := hnow.sequence hkeeps hi
  -- nothing is written if the slice equals what is to be written, so it is enough to compare
  suffices heq : (sliceOf range now t).2.equals (sliceOf range now t).1 child' = true by
    rw [setSlice_of_equals hinow heq]
    exact ⟨hgrows, rfl⟩
  have hscalar (b a : Scalar) (ha : a.kind ≠ .float) (hv : v = .scalar b)
      (hslices : ∀ u, sliceOf range v u = (.scalar a, u)) :
      (sliceOf range now t).2.equals (sliceOf range now t).1 child' = true := by
    have hnow' : now = v := by
      rw [hv] at hnow ⊢
      exact hnow.eq_of_scalar
    rw [hslices start] at hslice
    cases hslice
    rw [hnow', hslices t, hchild.eq_of_scalar]
    rw [equals, comparisonDepth, equalsWithin]
    exact Scalar.equals_self ha
  rcases cases_of_isIndexed hi with ⟨text, rfl⟩ | ⟨bs, rfl⟩ | ⟨g, xs, rfl, hc⟩
  · exact hscalar _ (.str _) (by rintro ⟨⟩) rfl fun u => sliceOf_str range text s u
  · exact hscalar _ (.bytes _) (by rintro ⟨⟩) rfl fun u => sliceOf_bytes range bs s u
  · obtain ⟨k, ys, rfl, hys, hnow'⟩ := hnow.of_ref hkeeps hc
    have hxs : ∀ x ∈ xs, Comparable inside x := fun x hx => by
      obtain ⟨i, hi⟩ := List.getElem?_of_mem hx
      exact hc.elim
        (fun hc => comparable_of_slot hg.toValueGraph hg.nan (hv g rfl) (hstart g _ hc) hi)
        fun hc => comparable_of_slot hg.toValueGraph hg.nan (hv g rfl) (hstart g _ hc) hi
    rcases hnow' with ⟨hc, hd⟩ | ⟨hc, hd⟩
    · exact equals_slice_of_copies (.inl rfl) hg hc hd hslice hst hxs hys hchild
    · exact equals_slice_of_copies (.inr rfl) hg hc hd hslice hst hxs hys hchild

/-! ### Entries and attributes -/

/-- Pairs of which one has got a copy of its value, and what they were. -/
theorem modify_copies {α : Type} {pairs : List (α × Value)} {i : Nat} {y : Value}
    (hx : (pairs.map Prod.snd)[i]? = some x) (hy : t.Copies x y) :
    (pairs.modify i fun p => (p.1, y)).map Prod.fst = pairs.map Prod.fst ∧
      t.AllCopies (pairs.map Prod.snd) ((pairs.modify i fun p => (p.1, y)).map Prod.snd) := by
  have hfst : (pairs.modify i fun p => (p.1, y)).map Prod.fst = pairs.map Prod.fst := by
    refine List.ext_getElem? fun j => ?_
    rw [List.getElem?_map, List.getElem?_map, List.getElem?_modify]
    cases pairs[j]? with
    | none => rfl
    | some p => by_cases hij : i = j <;> simp [hij]
  have hsnd : (pairs.modify i fun p => (p.1, y)).map Prod.snd = (pairs.map Prod.snd).set i y := by
    refine List.ext_getElem? fun j => ?_
    rw [List.getElem?_map, List.getElem?_modify, List.getElem?_set, List.length_map]
    by_cases hij : i = j
    · subst hij
      have hlt := (List.getElem?_eq_some_iff.mp hx).1
      rw [List.length_map] at hlt
      rw [if_pos rfl, if_pos hlt, List.getElem?_eq_getElem hlt]
      simp
    · rw [if_neg hij, List.getElem?_map]
      cases pairs[j]? <;> simp [hij]
  rw [hsnd]
  exact ⟨hfst, AllCopies.set (.refl t _) hx hy⟩

/-- Dicts of the same keys have the same frame. -/
theorem dict_frame_eq {es fs : List (Value × Value)} (h : es.map Prod.fst = fs.map Prod.fst) :
    (Container.dict es).frame = (Container.dict fs).frame := by
  have hnulls := congrArg (List.map fun k => (k, Value.null)) h
  rw [List.map_map, List.map_map] at hnulls
  show Container.dict _ = Container.dict _
  exact congrArg Container.dict hnulls

/-- Objects of the same name and the same names have the same frame. -/
theorem object_frame_eq {as bs : List (String × Value)} (h : as.map Prod.fst = bs.map Prod.fst)
    (name : String) (frozen : Bool) :
    (Container.object name as frozen).frame = (Container.object name bs frozen).frame := by
  have hnulls := congrArg (List.map fun k => (k, Value.null)) h
  rw [List.map_map, List.map_map] at hnulls
  show Container.object name _ frozen = Container.object name _ frozen
  exact congrArg (Container.object name · frozen) hnulls

/-- The value of an entry may be written back at its key, or a copy of it. -/
theorem setKeyed_entry_keeps {h : Handle} {es : List (Value × Value)} {k y : Value} {i : Nat}
    (hc : t.get? h = some (.dict es)) (hi : es.findIdx? (fun e => t.sameKey k e.1) = some i)
    (hx : (es.map Prod.snd)[i]? = some x) (hy : t.Copies x y) :
    t.Keeps (setKeyed (.ref h) k y t).2 ∧ (setKeyed (.ref h) k y t).1 = .ref h := by
  obtain ⟨hfst, hsnd⟩ := modify_copies hx hy
  rw [setKeyed_dict hc, insertEntry_findIdx? hi]
  exact ⟨.set hc rfl ⟨dict_frame_eq hfst.symm, hsnd⟩, rfl⟩

/-- The value of an attribute may be written back at its name, or a copy of it. -/
theorem replaceAttrs_keeps {h : Handle} {name attr : String} {attrs : List (String × Value)}
    {frozen : Bool} {y : Value} {i : Nat} (hc : t.get? h = some (.object name attrs frozen))
    (hi : attrs.findIdx? (fun a => a.1 == attr) = some i)
    (hx : (attrs.map Prod.snd)[i]? = some x) (hy : t.Copies x y) :
    t.Keeps (replaceAttrs (.ref h) (fun as => insertAttr as attr y) t).2 ∧
      (replaceAttrs (.ref h) (fun as => insertAttr as attr y) t).2.Copies (.ref h)
        (replaceAttrs (.ref h) (fun as => insertAttr as attr y) t).1 := by
  have hobject : t.container? (.ref h) = some (.object name attrs frozen) := hc
  obtain ⟨hfst, hsnd⟩ := modify_copies hx hy
  have hlike : t.Like (.object name attrs frozen) (.object name (insertAttr attrs attr y) frozen) := by
    rw [insertAttr_findIdx? hi]
    exact ⟨object_frame_eq hfst.symm name frozen, hsnd⟩
  -- a frozen object is replaced by a new one, another is edited in place
  cases frozen with
  | false =>
    have hrun : replaceAttrs (.ref h) (fun as => insertAttr as attr y) t =
        (.ref h, t.set h (.object name (insertAttr attrs attr y) false)) := by
      unfold replaceAttrs
      rw [StoreM.run_bind, StoreM.run_get, hobject]
      rfl
    rw [hrun]
    exact ⟨.set hc rfl hlike, .refl _⟩
  | true =>
    have hrun : replaceAttrs (.ref h) (fun as => insertAttr as attr y) t =
        (.ref t.next, t.push (.object name (insertAttr attrs attr y) true)) := by
      unfold replaceAttrs
      rw [StoreM.run_bind, StoreM.run_get, hobject]
      rfl
    rw [hrun]
    exact ⟨.of_grows (.push t _), copies_push hc rfl hlike⟩

end Store

end DottedPath
