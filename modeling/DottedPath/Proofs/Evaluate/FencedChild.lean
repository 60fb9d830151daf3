import DottedPath.Evaluate.Child
import DottedPath.Proofs.Evaluate.FencedRead

/-!
# Edits of one part outside of a fence

An edit of a part of a value from outside of a fence, with a value from outside, overwrites a
container from outside or creates one.  What then stands in the place of the value is from outside
too, and it is the same handle if the value could be edited in place (`Fence.Stands`).
-/

namespace DottedPath

open Fence (SparesM free_ref)

variable {F : Fence}

/-- What stands in the place of a value after a write: a value from outside.  Where the write goes
into the value, it is the same one if that can be edited in place. -/
structure Fence.Stands (F : Fence) (inside : Prop) (node v : Value) : Prop where
  free : F.Free v
  same : inside → F.start.isMutable node = true → v = node

namespace Fence.Stands

variable {inside : Prop} {node v w : Value}

theorem refl (hnode : F.Free node) : F.Stands inside node node := ⟨hnode, fun _ _ => rfl⟩

theorem trans (hv : F.Stands inside node v) (hw : F.Stands inside v w) :
    F.Stands inside node w where
  free := hw.free
  same hin hm := by
    have hvn := hv.same hin hm
    rw [hw.same hin (by rw [hvn]; exact hm), hvn]

theorem mono {inside' : Prop} (hv : F.Stands inside node v) (h : inside' → inside) :
    F.Stands inside' node v :=
  ⟨hv.free, fun hin => hv.same (h hin)⟩

/-- A write that goes into the value. -/
theorem always (hv : F.Stands True node v) : F.Stands inside node v := hv.mono fun _ => trivial

/-- A write that does not go into the value may put any other one in its place. -/
theorem of_free (hv : F.Free v) : F.Stands False node v := ⟨hv, False.elim⟩

end Fence.Stands

/-- Of what can be edited in place only lists have positions. -/
theorem Fence.Intact.list_of_isIndexed {t : Store} {node : Value} (ht : F.Intact t)
    (hi : t.isIndexed node = true) (hm : F.start.isMutable node = true) :
    ∃ xs, F.start.container? node = some (.list xs) := by
  obtain ⟨c, hc, hmc⟩ := Store.isMutable_iff.mp hm
  obtain ⟨d, hd, hform⟩ := ht.container? hc
  rw [Store.isIndexed, Store.kind_of_container? hd, ← hform.kind] at hi
  cases c with
  | list xs => exact ⟨xs, hc⟩
  | tuple xs => cases hmc
  | dict es => cases hi
  | set ms => cases hi
  | frozenset ms => cases hi
  | object name as frozen => cases hi

/-! ### Writing a container -/

section

variable {node v : Value}

/-- A list is edited in place; where another value could not be, a new one takes its place. -/
theorem replaceElements_spares (hnode : F.Free node)
    (hlist : F.start.isMutable node = true → ∃ xs, F.start.container? node = some (.list xs))
    {items : List Value} (hitems : ∀ x ∈ items, F.Free x) :
    F.SparesM (F.Stands True node) (replaceElements node items) := by
  refine SparesM.get_bind fun t ht => ?_
  split
  · rename_i h xs hc
    have hform : (Container.list xs).SameForm (.list items) := ⟨rfl, rfl⟩
    exact ⟨ht.set (free_ref.mp hnode) hc hform hitems, .refl hnode⟩
  · rename_i node _ _ hother
    obtain ⟨ht', hfree⟩ := Fence.withElements_spares node hitems t ht
    refine ⟨ht', hfree, fun _ hm => ?_⟩
    obtain ⟨xs, hxs⟩ := hlist hm
    obtain ⟨d, hd, hform⟩ := ht.container? hxs
    cases node with
    | scalar a => cases hxs
    | ref h =>
      cases d with
      | list ys => exact absurd hd (hother h ys rfl)
      | _ => cases hform.kind

/-- An object is edited in place unless it is frozen. -/
theorem replaceAttrs_spares (hnode : F.Free node)
    {edit : List (String × Value) → List (String × Value)}
    (hedit : ∀ as, (∀ a ∈ as, F.Free a.2) → ∀ a ∈ edit as, F.Free a.2) :
    F.SparesM (F.Stands True node) (replaceAttrs node edit) := by
  refine SparesM.get_bind fun t ht => ?_
  split
  · rename_i h name attrs frozen hc
    have hattrs : ∀ a ∈ edit attrs, F.Free a.2 :=
      hedit attrs (Container.forall_parts_object.mp (ht.parts hnode hc))
    have hparts : ∀ x ∈ (Container.object name (edit attrs) frozen).parts, F.Free x :=
      Container.forall_parts_object.mpr hattrs
    split
    · rename_i hfrozen
      obtain ⟨ht', hfree⟩ := Fence.alloc_spares _ hparts t ht
      refine ⟨ht', hfree, fun _ hm => ?_⟩
      -- a frozen object cannot have been edited at the start
      obtain ⟨c, hc', hmc⟩ := Store.isMutable_iff.mp (ht.isMutable hm)
      rw [hc] at hc'
      cases hc'
      rw [Container.isMutable, hfrozen] at hmc
      cases hmc
    · have hform : (Container.object name attrs frozen).SameForm
          (.object name (edit attrs) frozen) := ⟨rfl, rfl⟩
      exact ⟨ht.set (free_ref.mp hnode) hc hform hparts, .refl hnode⟩
  · exact ⟨ht, .refl hnode⟩

theorem editEntries_spares (hnode : F.Free node)
    {edit : List (Value × Value) → List (Value × Value)}
    (hedit : ∀ es, (∀ e ∈ es, F.FreeEntry e) → ∀ e ∈ edit es, F.FreeEntry e) :
    F.SparesM (F.Stands True node) (editEntries node edit) := by
  refine SparesM.get_bind fun t ht => ?_
  split
  · rename_i h entries hc
    have hentries := hedit entries (Container.forall_parts_dict.mp (ht.parts hnode hc))
    have hform : (Container.dict entries).SameForm (.dict (edit entries)) := ⟨rfl, rfl⟩
    exact ⟨ht.set (free_ref.mp hnode) hc hform (Container.forall_parts_dict.mpr hentries),
      .refl hnode⟩
  · exact ⟨ht, .refl hnode⟩

/-! ### Writing a part -/

theorem setIndexed_spares (hnode : F.Free node) (index : Int) (hv : F.Free v) :
    F.SparesM (F.Stands True node) (setIndexed node index v) := by
  refine SparesM.get.bind fun t ht => ?_
  split
  · rename_i hi
    have hlist := ht.list_of_isIndexed hi
    have helements := ht.elements hnode
    dsimp only
    split
    · refine replaceElements_spares hnode hlist fun x hx => ?_
      rcases List.mem_append.mp hx with hx | hx
      · exact helements x hx
      · rwa [List.mem_singleton.mp hx]
    · split
      · refine replaceElements_spares hnode hlist fun x hx => ?_
        rcases List.mem_or_eq_of_mem_set hx with hx | rfl
        · exact helements x hx
        · exact hv
      · exact .pure (.refl hnode)
  · exact .pure (.refl hnode)

theorem setKeyed_spares (hnode : F.Free node) {key : Value} (hkey : F.Free key) (hv : F.Free v) :
    F.SparesM (F.Stands True node) (setKeyed node key v) := by
  refine SparesM.get.bind fun t _ => ?_
  split
  · exact editEntries_spares hnode fun es hes => t.forall_insertEntry hes hkey hv
  · split
    · split
      · exact setIndexed_spares hnode _ hv
      · exact .pure (.refl hnode)
    · exact .pure (.refl hnode)

end

/-- What a write through a slice leaves is from the sequence or from what is written. -/
theorem interleaved_subset (covered : List Int) : ∀ (i : Nat) (xs replacement : List Value),
    interleaved covered i xs replacement ⊆ xs ++ replacement
  | _, [], replacement => by
    unfold interleaved
    exact List.Subset.refl _
  | i, x :: xs, replacement => by
    unfold interleaved
    split
    · split
      · exact fun y hy => List.mem_cons_of_mem x (interleaved_subset covered (i + 1) xs [] hy)
      · rename_i r rs
        intro y hy
        rcases List.mem_cons.mp hy with rfl | hy
        · simp
        · rcases List.mem_append.mp (interleaved_subset covered (i + 1) xs rs hy) with hy | hy
          · exact List.mem_append_left _ (List.mem_cons_of_mem x hy)
          · exact List.mem_append_right _ (List.mem_cons_of_mem r hy)
    · exact List.cons_subset_cons x (interleaved_subset covered (i + 1) xs replacement)

theorem sliceWritten_subset (asList : Bool) (range : SliceRange)
    (elements replacement : List Value) :
    sliceWritten asList range elements replacement ⊆ elements ++ replacement := by
  unfold sliceWritten
  dsimp only
  split
  · intro x hx
    rw [spliced] at hx
    rcases List.mem_append.mp hx with hx | hx
    · rcases List.mem_append.mp hx with hx | hx
      · exact List.mem_append_left _ (List.mem_of_mem_take hx)
      · exact List.mem_append_right _ hx
    · exact List.mem_append_left _ (List.mem_of_mem_drop hx)
  · exact interleaved_subset _ 0 elements replacement

section

variable {node v : Value}

theorem setSlice_spares (hnode : F.Free node) (range : SliceRange) (hv : F.Free v) :
    F.SparesM (F.Stands True node) (setSlice node range v) := by
  refine SparesM.get.bind fun t ht => ?_
  split
  · exact .pure (.refl hnode)
  · rename_i hi
    refine (sliceOf_spares range hnode).bind fun current _ => SparesM.get.bind fun t' _ => ?_
    split
    · exact .pure (.refl hnode)
    · refine replaceElements_spares hnode (ht.list_of_isIndexed (by simpa using hi)) fun x hx => ?_
      rcases List.mem_append.mp (sliceWritten_subset _ _ _ _ hx) with hx | hx
      · exact ht.elements hnode x hx
      · unfold Store.replacement at hx
        split at hx
        · exact ht.elements hv x hx
        · rwa [List.mem_singleton.mp hx]

/-- **Writing at a step goes into the value**, unless it is no step at all. -/
theorem setChild_spares (hnode : F.Free node) {step : Step} (hstep : F.FreeStep step)
    (hv : F.Free v) : F.SparesM (F.Stands (step ≠ .root) node) (setChild node step v) := by
  cases step with
  | root => exact .pure ⟨hv, fun h => absurd rfl h⟩
  | key k => exact (setKeyed_spares hnode hstep hv).mono fun _ => .always
  | attr name =>
    exact (replaceAttrs_spares hnode fun as has => forall_insertAttr has hv).mono fun _ => .always
  | slot k => exact (setKeyed_spares hnode hstep hv).mono fun _ => .always
  | slice range => exact (setSlice_spares hnode range hv).mono fun _ => .always
  | invert => exact .pure (.refl hnode)

/-- Writing at a part that has been selected. -/
theorem setPart_spares {named : Prop} (hnode : F.Free node) {step : Step} {x : Value}
    (hpart : F.FreePart true named (step, x)) (hv : F.Free v) :
    F.SparesM (F.Stands named node) (setChild node step v) :=
  (setChild_spares hnode hpart.step hv).mono fun _ hw =>
    hw.mono fun hn => Step.ne_root_of_names (hpart.names hn)

/-! ### Removing parts -/

theorem removePositions_spares (hnode : F.Free node) (positions : List Int) :
    F.SparesM (F.Stands True node) (removePositions node positions) := by
  refine SparesM.get.bind fun t ht => ?_
  split
  · exact .pure (.refl hnode)
  · rename_i hi
    have hi : t.isIndexed node = true := by
      simp only [Bool.or_eq_true, Bool.not_eq_true', not_or, Bool.not_eq_false] at hi
      exact hi.2
    refine replaceElements_spares hnode (ht.list_of_isIndexed hi) fun x hx => ?_
    obtain ⟨⟨y, i⟩, hy, rfl⟩ := List.mem_map.mp hx
    exact ht.elements hnode y (List.fst_mem_of_mem_zipIdx (List.mem_filter.mp hy).1)

theorem popKeyed_spares (hnode : F.Free node) (key : Value) :
    F.SparesM (F.Stands True node) (popKeyed node key) := by
  refine SparesM.get.bind fun t _ => ?_
  split
  · exact editEntries_spares hnode fun es hes e he => hes e (t.eraseEntry_subset es key he)
  · split
    · split
      · exact removePositions_spares hnode _
      · exact .pure (.refl hnode)
    · exact .pure (.refl hnode)

theorem popChild_spares (hnode : F.Free node) (step : Step) :
    F.SparesM (F.Stands (step ≠ .root) node) (popChild node step) := by
  cases step with
  | root => exact .pure ⟨Fence.free_scalar _, fun h => absurd rfl h⟩
  | key k => exact (popKeyed_spares hnode k).mono fun _ => .always
  | attr name =>
    exact (replaceAttrs_spares hnode fun as has a ha =>
      has a (eraseAttr_subset as name ha)).mono fun _ => .always
  | slot k => exact (popKeyed_spares hnode k).mono fun _ => .always
  | slice range =>
    exact SparesM.get.bind fun t _ => (removePositions_spares hnode _).mono fun _ => .always
  | invert => exact .pure (.refl hnode)

theorem popSteps_spares {named : Prop} (hnode : F.Free node) {steps : List Step}
    (hsteps : ∀ step ∈ steps, named → step.names true = true) :
    F.SparesM (F.Stands named node) (popSteps node steps) := by
  refine SparesM.get.bind fun t _ => SparesM.foldlM (.refl hnode) ?_
  intro now numbered hmem hnow
  have hstep : numbered.2 ∈ steps := by
    obtain ⟨step, hstep, heq⟩ :=
      List.mem_map.mp (List.mem_mergeSort.mp (List.mem_reverse.mp hmem))
    rwa [← heq]
  exact (popChild_spares hnow.free numbered.2).mono fun w hw =>
    hnow.trans (hw.mono fun hn => Step.ne_root_of_names (hsteps _ hstep hn))

/-! ### Adding a part -/

theorem appendTo_spares (hnode : F.Free node) (hv : F.Free v) (unique : Bool) :
    F.SparesM (F.Stands True node) (appendTo node v unique) := by
  refine SparesM.get_bind fun t ht => ?_
  split
  · exact ⟨ht, .refl hnode⟩
  · rename_i hnew
    clear hnew
    split
    · rename_i h members hc
      have hparts : ∀ x ∈ t.insertMember members v, F.Free x := by
        intro x hx
        rcases List.mem_append.mp (t.insertMember_subset members v hx) with hx | hx
        · exact ht.parts hnode hc x hx
        · rwa [List.mem_singleton.mp hx]
      have hform : (Container.set members).SameForm (.set (t.insertMember members v)) := ⟨rfl, rfl⟩
      exact ⟨ht.set (free_ref.mp hnode) hc hform hparts, .refl hnode⟩
    · rename_i node _ _ hother
      split
      · rename_i hseq
        refine replaceElements_spares hnode (fun hm => ?_) (fun x hx => ?_) t ht
        · -- what can be edited is a list here, for sets have had their own way
          obtain ⟨c, hc, hmc⟩ := Store.isMutable_iff.mp hm
          obtain ⟨d, hd, hform⟩ := ht.container? hc
          rw [Store.isIndexed, Store.isSetLike, Store.kind_of_container? hd, ← hform.kind] at hseq
          cases c with
          | list xs => exact ⟨xs, hc⟩
          | set ms =>
            cases d with
            | set ms' =>
              cases node with
              | scalar a => cases hd
              | ref h => exact absurd hd (hother h ms' rfl)
            | _ => cases hform.kind
          | tuple xs => cases hmc
          | frozenset ms => cases hmc
          | dict es => cases hseq
          | object name as frozen => cases hseq
        · rcases List.mem_append.mp hx with hx | hx
          · exact ht.elements hnode x hx
          · rwa [List.mem_singleton.mp hx]
      · exact ⟨ht, .refl hnode⟩

end

end DottedPath
