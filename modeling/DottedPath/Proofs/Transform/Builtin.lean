import DottedPath.Proofs.Evaluate.Yields
import DottedPath.Transform.Builtin

/-!
# The builtin transforms edit nothing

Each of the builtin transforms reads its value and its arguments, and creates at most one container
for its answer; none of them edits a container that is there (`Registry.builtin_grows`).
-/

namespace DottedPath

namespace Builtin

variable {α β : Type}

/-- The transform only adds containers. -/
def Grows (x : ExceptT String StoreM α) : Prop :=
  StoreM.Grows x.run

namespace Grows

theorem pure (a : α) : Grows (pure a) := StoreM.Grows.pure _

theorem throw (message : String) : Grows (throw message : ExceptT String StoreM α) :=
  StoreM.Grows.pure _

theorem get : Grows (getThe Store) := fun s => .refl s

theorem lift {x : StoreM α} (hx : x.Grows) : Grows (liftM x) := hx.bind fun _ => .pure _

theorem bind {x : ExceptT String StoreM α} {f : α → ExceptT String StoreM β} (hx : Grows x)
    (hf : ∀ a, Grows (f a)) : Grows (x >>= f) := by
  have hrest (answer : Except String α) : StoreM.Grows (ExceptT.bindCont f answer) := by
    cases answer with
    | ok a => exact hf a
    | error message => exact StoreM.Grows.pure _
  exact StoreM.Grows.bind (x := x.run) hx hrest

theorem ofExcept (r : Except String α) : Grows (ofExcept r) := StoreM.Grows.pure r

end Grows

theorem stringOf_grows (v : Value) : Grows (stringOf v) := by
  unfold stringOf
  split
  · exact .pure _
  · exact Grows.get.bind fun _ => .throw _

theorem elementsOf_grows (v : Value) : Grows (elementsOf v) := by
  refine Grows.get.bind fun s => ?_
  split
  all_goals first | exact .pure _ | exact .throw _

variable (v : Value) (args : List Value) (named : List (String × Value))

theorem toStr_grows : Grows (toStr v args named) := by
  refine Grows.get.bind fun s => ?_
  dsimp only
  split
  · exact .pure _
  · exact .pure _
  · split
    · exact .pure _
    · exact (Grows.ofExcept _).bind fun _ => .pure _

theorem toInt_grows : Grows (toInt v args named) := by
  refine Grows.get.bind fun s => ?_
  dsimp only
  split
  · exact .pure _
  · exact .throw _

theorem toFloat_grows : Grows (toFloat v args named) := by
  refine Grows.get.bind fun s => ?_
  split
  · split
    · exact .pure _
    · exact .throw _
  · exact (Grows.ofExcept _).bind fun f => .pure _

theorem toNone_grows : Grows (toNone v args named) :=
  Grows.get.bind fun _ => .pure _

theorem strip_grows : Grows (strip v args named) :=
  (stringOf_grows v).bind fun _ => .pure _

theorem length_grows : Grows (length v args named) := by
  refine Grows.get.bind fun s => ?_
  split
  · exact .pure _
  · split
    · exact .throw _
    · exact .pure _
    · exact .throw _

theorem lowercase_grows : Grows (lowercase v args named) :=
  (stringOf_grows v).bind fun _ => .pure _

theorem uppercase_grows : Grows (uppercase v args named) :=
  (stringOf_grows v).bind fun _ => .pure _

theorem add_grows : Grows (add v args named) := by
  refine Grows.get.bind fun s => ?_
  dsimp only
  split
  · exact .throw _
  · split
    · split
      · exact .pure _
      · exact .throw _
    · split
      · exact .lift (withElements_grows _ _)
      · exact .throw _

theorem toList_grows : Grows (toList v args named) :=
  (elementsOf_grows v).bind fun _ => .lift (.alloc _)

theorem toTuple_grows : Grows (toTuple v args named) :=
  (elementsOf_grows v).bind fun _ => .lift (.alloc _)

theorem toSet_grows : Grows (toSet v args named) :=
  (elementsOf_grows v).bind fun _ => Grows.get.bind fun _ => .lift (.alloc _)

end Builtin

/-- No transform that is named in a list of them edits a container if none of the list does. -/
theorem Registry.grows_of_forall {r : Registry}
    (h : ∀ entry ∈ r.entries, ∀ v args named, Builtin.Grows (entry.2 v args named)) : r.Grows := by
  intro name f hf
  obtain ⟨before, after, hentries, -⟩ := List.lookup_eq_some_iff.mp hf
  exact h (name, f) (by rw [hentries]; exact List.mem_append_right _ (List.mem_cons_self ..))

/-- **The builtin transforms only add containers.** -/
theorem Registry.builtin_grows : Registry.builtin.Grows := by
  refine grows_of_forall fun entry hentry => ?_
  simp only [builtin, List.mem_cons, List.not_mem_nil, or_false] at hentry
  rcases hentry with rfl | rfl | rfl | rfl | rfl | rfl | rfl | rfl | rfl | rfl | rfl | rfl | rfl
  · exact Builtin.toStr_grows
  · exact Builtin.toInt_grows
  · exact Builtin.toFloat_grows
  · exact Builtin.toFloat_grows
  · exact Builtin.toNone_grows
  · exact Builtin.strip_grows
  · exact Builtin.length_grows
  · exact Builtin.lowercase_grows
  · exact Builtin.uppercase_grows
  · exact Builtin.add_grows
  · exact Builtin.toList_grows
  · exact Builtin.toTuple_grows
  · exact Builtin.toSet_grows

end DottedPath
