import DottedPath.Transform.Registry

/-!
# What evaluations answer on a store

An evaluation is a function of the store: it answers a result or a failure, and the store as it is
then.  The lemmas here follow one that is built by `do`: `run_bind_of_ok` for a step that succeeds,
`run_lift` for a step that cannot fail.  `bind_eq_ok` goes the other way and takes a success apart.
What holds of all answers of an evaluation, whatever the store, is put together in the same way
(`Eval.Answers`).
-/

namespace DottedPath

variable {α β : Type}

/-! ### Computations that cannot fail -/

namespace StoreM

theorem run_pure (a : α) (s : Store) : (pure a : StoreM α) s = (a, s) := rfl

theorem run_get (s : Store) : (get : StoreM Store) s = (s, s) := rfl

theorem run_bind (x : StoreM α) (f : α → StoreM β) (s : Store) :
    (x >>= f) s = f (x s).1 (x s).2 := rfl

end StoreM

/-! ### Computations that may fail -/

namespace Eval

theorem run_pure (a : α) (s : Store) : (pure a : Eval α) s = (.ok a, s) := rfl

theorem run_store (s : Store) : store s = (.ok s, s) := rfl

theorem run_lift (x : StoreM α) (s : Store) : (liftM x : Eval α) s = (.ok (x s).1, (x s).2) := rfl

theorem run_bind_of_ok {x : Eval α} {f : α → Eval β} {s s' : Store} {a : α}
    (h : x s = (.ok a, s')) : (x >>= f) s = f a s' := by
  show (x s >>= fun p => ExceptT.bindCont f p.1 p.2) = f a s'
  rw [h]
  rfl

theorem run_bind_of_error {x : Eval α} {f : α → Eval β} {s s' : Store} {e : Error}
    (h : x s = (.error e, s')) : (x >>= f) s = (.error e, s') := by
  show ExceptT.bindCont f (x s).1 (x s).2 = (.error e, s')
  rw [h]
  rfl

/-- What follows depends on the answer of a step only. -/
theorem run_bind_congr {x y : Eval α} {s t : Store} (h : x s = y t) (f : α → Eval β) :
    (x >>= f) s = (y >>= f) t := by
  show ExceptT.bindCont f (x s).1 (x s).2 = (y >>= f) t
  rw [h]
  rfl

theorem run_map_of_ok {x : Eval α} {f : α → β} {s s' : Store} {a : α}
    (h : x s = (.ok a, s')) : (f <$> x) s = (.ok (f a), s') := by
  rw [map_eq_pure_bind, run_bind_of_ok h, run_pure]

/-- A sequence succeeds if both of its steps do. -/
theorem bind_eq_ok {x : Eval α} {f : α → Eval β} {s t : Store} {b : β}
    (h : (x >>= f) s = (.ok b, t)) : ∃ a s', x s = (.ok a, s') ∧ f a s' = (.ok b, t) := by
  obtain ⟨r, s', hx⟩ : ∃ r s', x s = (r, s') := ⟨_, _, rfl⟩
  cases r with
  | ok a =>
    rw [run_bind_of_ok hx] at h
    exact ⟨a, s', hx, h⟩
  | error e =>
    rw [run_bind_of_error hx] at h
    cases h

/-! ### Filtering -/

theorem filterAuxM_eq (p : α → Eval Bool) (xs kept : List α) :
    xs.filterAuxM p kept = (· ++ kept) <$> xs.filterAuxM p [] := by
  induction xs generalizing kept with
  | nil => rfl
  | cons x xs ih =>
    rw [List.filterAuxM, List.filterAuxM, map_bind]
    congr 1
    funext keep
    rw [ih (bif keep then x :: kept else kept), ih (bif keep then [x] else []), Functor.map_map]
    cases keep with
    | false => simp only [cond_false, List.append_nil]
    | true => simp only [cond_true, List.append_assoc, List.singleton_append]

/-- The first item is decided first. -/
theorem filterM_cons (p : α → Eval Bool) (x : α) (xs : List α) :
    (x :: xs).filterM p = (do
      let keep ← p x
      let ys ← xs.filterM p
      pure (if keep then x :: ys else ys)) := by
  rw [List.filterM, List.filterAuxM, bind_assoc]
  congr 1
  funext keep
  rw [filterAuxM_eq, List.filterM, bind_map_left, bind_assoc]
  congr 1
  funext ys
  cases keep with
  | false => simp
  | true => simp

/-! ### Answers -/

/-- Whatever the store, an answer of the evaluation has a property. -/
def Answers (x : Eval α) (P : α → Prop) : Prop :=
  ∀ s a t, x s = (.ok a, t) → P a

namespace Answers

variable {P : α → Prop} {Q : β → Prop}

theorem pure {a : α} (h : P a) : Answers (pure a) P := by
  rintro s b t hrun
  cases hrun
  exact h

theorem lift {x : StoreM α} (h : ∀ s, P (x s).1) : Answers (liftM x : Eval α) P := by
  rintro s b t hrun
  cases hrun
  exact h s

theorem bind {x : Eval α} {f : α → Eval β} (hx : Answers x P)
    (hf : ∀ a, P a → Answers (f a) Q) : Answers (x >>= f) Q := by
  intro s b t hrun
  obtain ⟨a, mid, hfirst, hrest⟩ := bind_eq_ok hrun
  exact hf a (hx s a mid hfirst) mid b t hrest

/-- What is asked of the answer of the second step alone. -/
theorem of_rest {x : Eval α} {f : α → Eval β} (hf : ∀ a, Answers (f a) Q) :
    Answers (x >>= f) Q :=
  bind (P := fun _ => True) (fun _ _ _ _ => trivial) fun a _ => hf a

theorem mono {x : Eval α} {R : α → Prop} (hx : Answers x P) (h : ∀ a, P a → R a) : Answers x R :=
  fun s a t hrun => h a (hx s a t hrun)

/-- What each step of a loop preserves the whole loop does. -/
theorem foldlM {f : β → α → Eval β} (hstep : ∀ b a, Q b → Answers (f b a) Q) :
    ∀ (xs : List α) {b : β}, Q b → Answers (xs.foldlM f b) Q
  | [], _, hinit => pure hinit
  | x :: xs, b, hinit => by
    rw [List.foldlM_cons]
    exact (hstep b x hinit).bind fun b' hb' => foldlM hstep xs hb'

/-- A filter only leaves items out. -/
theorem filterM (p : α → Eval Bool) (xs : List α) :
    Answers (xs.filterM p) fun ys => ys.Sublist xs := by
  induction xs with
  | nil => exact pure (List.Sublist.refl [])
  | cons x xs ih =>
    rw [filterM_cons]
    refine of_rest fun keep => ih.bind fun ys hys => pure ?_
    cases keep with
    | false => exact hys.cons x
    | true => exact hys.cons_cons x

end Answers

end Eval

end DottedPath
