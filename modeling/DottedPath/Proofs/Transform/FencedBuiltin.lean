import DottedPath.Proofs.Evaluate.FencedTests
import DottedPath.Transform.Builtin

/-!
# The builtin transforms outside of a fence

What a builtin transform makes of a value and arguments from outside of a fence is from outside
(`Registry.builtin_spares`): a scalar, its value or its argument, or a new container of what was in
them.
-/

namespace DottedPath

open Fence (Spares free_scalar)

variable {F : Fence}

namespace Builtin

theorem stringOf_spares (v : Value) : F.Spares (fun _ => True) (stringOf v) := by
  unfold stringOf
  split
  · exact .pure trivial
  · exact Spares.get.bind fun _ _ => .throw _

theorem ofExcept_spares {α : Type} (r : Except String α) :
    F.Spares (fun _ => True) (ofExcept r) :=
  fun _ ht => ⟨ht, fun _ _ => trivial⟩

variable {v : Value} {args : List Value} {named : List (String × Value)}

theorem elementsOf_spares (hv : F.Free v) :
    F.Spares (fun items => ∀ x ∈ items, F.Free x) (elementsOf v) := by
  refine Spares.get.bind fun t ht => ?_
  have helements := ht.elements hv
  split
  · refine .pure fun k hk => ?_
    obtain ⟨e, he, rfl⟩ := List.mem_map.mp hk
    exact (ht.entries hv e he).1
  all_goals first | exact .pure helements | exact .throw _

/-- An argument of a call. -/
theorem free_of_head? (hargs : ∀ a ∈ args, F.Free a) {a : Value} (ha : args.head? = some a) :
    F.Free a :=
  hargs a (List.mem_of_head? ha)

theorem toStr_spares : F.Spares F.Free (toStr v args named) := by
  refine Spares.get.bind fun t _ => ?_
  dsimp only
  split
  · exact .pure (free_scalar _)
  · exact .pure (free_scalar _)
  · split
    · exact .pure (free_scalar _)
    · exact (ofExcept_spares _).bind fun _ _ => .pure (free_scalar _)

theorem toInt_spares : F.Spares F.Free (toInt v args named) := by
  refine Spares.get.bind fun t _ => ?_
  dsimp only
  split
  · exact .pure (free_scalar _)
  · exact .throw _

theorem toFloat_spares : F.Spares F.Free (toFloat v args named) := by
  refine Spares.get.bind fun t _ => ?_
  split
  · split
    · exact .pure (free_scalar _)
    · exact .throw _
  · exact (ofExcept_spares _).bind fun _ _ => .pure (free_scalar _)

theorem toNone_spares (hv : F.Free v) : F.Spares F.Free (toNone v args named) := by
  have hanswer (hit : Bool) : F.Free (if hit then .null else v) := by
    split
    · exact free_scalar _
    · exact hv
  exact Spares.get.bind fun t _ => .pure (hanswer _)

theorem strip_spares : F.Spares F.Free (strip v args named) :=
  (stringOf_spares v).bind fun _ _ => .pure (free_scalar _)

theorem lowercase_spares : F.Spares F.Free (lowercase v args named) :=
  (stringOf_spares v).bind fun _ _ => .pure (free_scalar _)

theorem uppercase_spares : F.Spares F.Free (uppercase v args named) :=
  (stringOf_spares v).bind fun _ _ => .pure (free_scalar _)

theorem length_spares (hargs : ∀ a ∈ args, F.Free a) (hnamed : ∀ a ∈ named, F.Free a.2) :
    F.Spares F.Free (length v args named) := by
  refine Spares.get.bind fun t _ => ?_
  split
  · exact .pure (free_scalar _)
  · split
    · exact .throw _
    · rename_i d _ hd
      rcases Option.or_eq_some_iff.mp hd with hd | ⟨-, hd⟩
      · exact .pure (free_of_head? hargs hd)
      · obtain ⟨before, after, rfl, -⟩ := List.lookup_eq_some_iff.mp hd
        exact .pure (hnamed ("default", d) (by simp))
    · exact .throw _

theorem add_spares (hv : F.Free v) (hargs : ∀ a ∈ args, F.Free a) :
    F.Spares F.Free (add v args named) := by
  refine Spares.get.bind fun t ht => ?_
  dsimp only
  split
  · exact .throw _
  · rename_i w hw
    split
    · split
      · exact .pure (free_scalar _)
      · exact .throw _
    · split
      · refine .lift (Fence.withElements_spares _ fun x hx => ?_)
        rcases List.mem_append.mp hx with hx | hx
        · exact ht.elements hv x hx
        · exact ht.elements (free_of_head? hargs hw) x hx
      · exact .throw _

theorem toList_spares (hv : F.Free v) : F.Spares F.Free (toList v args named) :=
  (elementsOf_spares hv).bind fun items hitems => .lift (Fence.alloc_spares (.list items) hitems)

theorem toTuple_spares (hv : F.Free v) : F.Spares F.Free (toTuple v args named) :=
  (elementsOf_spares hv).bind fun items hitems => .lift (Fence.alloc_spares (.tuple items) hitems)

theorem toSet_spares (hv : F.Free v) : F.Spares F.Free (toSet v args named) :=
  (elementsOf_spares hv).bind fun items hitems => Spares.get.bind fun t _ =>
    .lift (Fence.alloc_spares (.set (t.membersOf items))
      fun x hx => hitems x (t.membersOf_subset items hx))

end Builtin

/-- **The builtin transforms keep to what is outside of a fence.** -/
theorem Registry.builtin_spares (F : Fence) : Registry.builtin.Spares F := by
  intro name f hf v args named hv hargs hnamed
  obtain ⟨before, after, hentries, -⟩ := List.lookup_eq_some_iff.mp hf
  have hentry : (name, f) ∈ Registry.builtin.entries := by
    rw [hentries]
    exact List.mem_append_right _ (List.mem_cons_self ..)
  simp only [builtin, List.mem_cons, Prod.mk.injEq, List.not_mem_nil, or_false] at hentry
  rcases hentry with ⟨-, rfl⟩ | ⟨-, rfl⟩ | ⟨-, rfl⟩ | ⟨-, rfl⟩ | ⟨-, rfl⟩ | ⟨-, rfl⟩ | ⟨-, rfl⟩ |
    ⟨-, rfl⟩ | ⟨-, rfl⟩ | ⟨-, rfl⟩ | ⟨-, rfl⟩ | ⟨-, rfl⟩ | ⟨-, rfl⟩
  · exact Builtin.toStr_spares
  · exact Builtin.toInt_spares
  · exact Builtin.toFloat_spares
  · exact Builtin.toFloat_spares
  · exact Builtin.toNone_spares hv
  · exact Builtin.strip_spares
  · exact Builtin.length_spares hargs hnamed
  · exact Builtin.lowercase_spares
  · exact Builtin.uppercase_spares
  · exact Builtin.add_spares hv hargs
  · exact Builtin.toList_spares hv
  · exact Builtin.toTuple_spares hv
  · exact Builtin.toSet_spares hv

end DottedPath
