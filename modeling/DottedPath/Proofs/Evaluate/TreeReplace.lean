import DottedPath.Evaluate.Edit
import DottedPath.Proofs.Evaluate.TreeDescent
import Mathlib

/-!
# Writing along descents into trees

A write along a recursive segment goes through a tree from the leaves to the root and tests each part
after its own parts were written.  If the tests do not depend on what containers hold and depths are
counted from the root, this comes to the same as testing all parts first (`replaceWithin_plain`).

## Main statements

- `Context.recursion_agrees`: a write puts its value at each outermost place that reading reports,
  and a removal takes away what is at these places; nothing else changes.
- `Context.remove_emptied`: with depths counted from the leaves, a removal also takes what has become
  a leaf by it.
-/

namespace DottedPath

namespace Context

open Forest

variable {ctx : Context} {r : Recursion} {guard : Option ValueTest} {pass keeps : Value → Bool}
  {edit : Value → Eval (Option Value)} {v : Option Value} {s : Store} {h : Handle} {f : Form}
  {t : Tree} {ts before after : List Tree}

/-- Replaces a part that is hit, or marks it for removal. -/
def replaceHit (edit : Value → Eval (Option Value)) (step : Step) (v : Value)
    (state : Value × List Step) (hit : Bool) : Eval (Value × List Step) := do
  if hit then
    match ← edit v with
    | some w => do pure (← (setChild state.1 step w : StoreM Value), state.2)
    | none => pure (state.1, state.2 ++ [step])
  else pure (state.1, state.2)

/-- One step of a replacement. -/
def replaceChild (ctx : Context) (r : Recursion) (guard : Option ValueTest)
    (edit : Value → Eval (Option Value)) (n : Nat) (above : List Handle) (depth : Nat) :
    Value × List Step → Child → Eval (Value × List Step) := fun (node, doomed) child => do
  let (node, v) ←
    if child.step.descends then do
      let v ← ctx.replaceWithin r guard edit n above (depth + 1) child.value
      pure (← (setChild node child.step v : StoreM Value), v)
    else pure (node, child.value)
  let hit ← if child.reported then ctx.reports r v depth else pure false
  let hit ← match hit, guard with
    | true, some test => ctx.guardHolds test v
    | hit, _ => pure hit
  replaceHit edit child.step v (node, doomed) hit

theorem replaceWithin_succ (n : Nat) (above : List Handle) (depth : Nat) (node : Value) :
    ctx.replaceWithin r guard edit (n + 1) above depth node =
      if node.handle?.any above.contains then pure node
      else (do
        let (node, doomed) ← (← ctx.children r node).foldlM
          (ctx.replaceChild r guard edit n (node.handle?.toList ++ above) depth) (node, [])
        doomed.reverse.foldlM (fun node step => (popChild node step : StoreM Value)) node) := rfl

/-- The step to a slot names it, also after parts have changed. -/
theorem names_slot (hlies : Lies s [.node h f (before ++ t :: after)]) {s' : Store}
    (hs : s.Retains s') :
    f.Names s' (before ++ t :: after).length (f.step before.length) before.length := by
  obtain ⟨-, hsuits, -, -⟩ := hlies.parts
  refine (hsuits.retains hs).names ?_
  rw [List.length_append, List.length_cons]
  omega

/-- A part that is hit is replaced, or marked. -/
theorem replaceHit_slot (hedit : ∀ x s, edit x s = (.ok v, s)) (hcopied : f.isCopied = false)
    (hlies : Lies s [.node h f (before ++ t :: after)]) (x : Value) (doomed : List Step)
    (hit : Bool) :
    ∃ s', replaceHit edit (f.step before.length) x (.ref h, doomed) hit s =
        (.ok (.ref h, doomed ++ if hit && v.isNone then [f.step before.length] else []), s') ∧
      Turns s [.node h f (before ++ t :: after)] s'
        [.node h f (before ++ (if hit then v else none).elim t Tree.leaf :: after)] := by
  cases hit with
  | false =>
    refine ⟨s, ?_, .refl hlies⟩
    rw [Bool.false_and, if_neg Bool.false_ne_true, List.append_nil]
    rfl
  | true =>
    rw [replaceHit, if_pos rfl, Eval.run_bind_of_ok (hedit x s)]
    cases v with
    | none => exact ⟨s, rfl, .refl hlies⟩
    | some w =>
      obtain ⟨_, s', hset, hsame, hturn⟩ :=
        Turns.write hlies (.leaf [t] w s) (names_slot hlies (.refl s))
      rw [hsame hcopied] at hset hturn
      have hset' : setChild (.ref h) (f.step before.length) w s = (.ref h, s') := hset
      refine ⟨s', ?_, hturn⟩
      dsimp only
      rw [Eval.run_bind_of_ok (Eval.run_lift _ s), hset', Option.isNone_some, Bool.and_false,
        if_neg Bool.false_ne_true, List.append_nil]
      rfl

/-- A step of a replacement replaces what is in the slot, after what is inside of it. -/
theorem replaceChild_slot (htests : ctx.TestsValues r pass) (hguard : ctx.GuardSays guard keeps)
    (hedit : ∀ x s, edit x s = (.ok v, s)) (hcopied : f.isCopied = false)
    (hlies : Lies s [.node h f (before ++ t :: after)]) {n depth : Nat} {above : List Handle}
    {hit : List Nat → Bool}
    (hhit : hit [before.length] = (r.marks f before.length && (pass t.value && keeps t.value) &&
      r.depth.contains depth 0)) {s₁ : Store}
    (hrun : ctx.replaceWithin r guard edit n above (depth + 1) t.value s = (.ok t.value, s₁))
    (hturn : Turns s [t] s₁ [t.replaced (fun p => hit (before.length :: p)) v])
    (doomed : List Step) :
    ∃ s', ctx.replaceChild r guard edit n above depth (.ref h, doomed)
        ⟨f.step before.length, t.value, r.marks f before.length⟩ s =
          (.ok (.ref h, doomed ++ if hit [before.length] && v.isNone then [f.step before.length]
            else []), s') ∧
      Turns s [.node h f (before ++ t :: after)] s'
        [.node h f (before ++ t.inSlot hit v before.length :: after)] := by
  obtain ⟨_, s₂, hset, hsame, hturn₂⟩ := Turns.write hlies hturn (names_slot hlies hturn.retains)
  rw [hsame hcopied] at hset hturn₂
  rw [Tree.value_replaced] at hset
  -- Whatever else the tests add to the store, the hit is what they say.
  have hfinish (s₃ : Store) (hs₃ : s₂.GrowsTo s₃) (b : Bool) (hb : b = hit [before.length]) :
      ∃ s', replaceHit edit (f.step before.length) t.value (.ref h, doomed) b s₃ =
          (.ok (.ref h, doomed ++ if hit [before.length] && v.isNone then [f.step before.length]
            else []), s') ∧
        Turns s [.node h f (before ++ t :: after)] s'
          [.node h f (before ++ t.inSlot hit v before.length :: after)] := by
    have hgrown := hturn₂.trans (.of_grows hs₃ hturn₂.lies)
    obtain ⟨s', hreplace, hturn'⟩ := replaceHit_slot hedit hcopied hgrown.lies t.value doomed b
    rw [hb] at hreplace hturn'
    exact ⟨s', hb ▸ hreplace, hgrown.trans hturn'⟩
  rw [replaceChild]
  dsimp only
  rw [descends_step, if_pos rfl]
  simp only [pure_bind]
  rw [Eval.run_bind_of_ok hrun, Eval.run_bind_of_ok (Eval.run_lift _ s₁), hset]
  cases hm : r.marks f before.length with
  | false =>
    rw [hm, Bool.false_and, Bool.false_and] at hhit
    exact hfinish s₂ (.refl s₂) false hhit.symm
  | true =>
    obtain ⟨s₃, htest, hs₃⟩ := reports_says htests depth s₂ t.value
    dsimp only at htest
    rw [hm, Bool.true_and] at hhit
    rw [if_pos rfl, Eval.run_bind_of_ok htest]
    cases hp : pass t.value && r.depth.contains depth 0 with
    | false =>
      refine hfinish s₃ hs₃ false ?_
      rw [hhit, Bool.and_right_comm, hp, Bool.false_and]
    | true =>
      rw [Bool.and_right_comm, hp, Bool.true_and] at hhit
      cases guard with
      | none => exact hfinish s₃ hs₃ true (by rw [hhit, hguard])
      | some test =>
        obtain ⟨s₄, hkeeps, hs₄⟩ := hguard s₃ t.value
        dsimp only
        rw [Eval.run_bind_of_ok hkeeps]
        exact hfinish s₄ (hs₃.trans hs₄) (keeps t.value) hhit.symm

/-- What a slot needs for a replacement: it is hit as the tests say, and what is inside of it is
replaced, if the descent goes there, or stays. -/
structure SlotReplaces (ctx : Context) (r : Recursion) (guard : Option ValueTest)
    (pass keeps : Value → Bool) (edit : Value → Eval (Option Value)) (v : Option Value) (n : Nat)
    (above : List Handle) (depth : Nat) (f : Form) (hit : List Nat → Bool) (t : Tree) (i : Nat) :
    Prop where
  self : hit [i] = (r.marks f i && (pass t.value && keeps t.value) && r.depth.contains depth 0)
  stays : r.enters f i = false → ∀ p ∈ t.places, hit (i :: p) = false
  inside : r.enters f i = true → ∀ s, Lies s [t] →
    ∃ s', ctx.replaceWithin r guard edit n above (depth + 1) t.value s = (.ok t.value, s') ∧
      Turns s [t] s' [t.replaced (fun p => hit (i :: p)) v]

/-- A slot has it, if the part in it is replaced as the descent hits it. -/
theorem slotReplaces_of_part {n depth i : Nat} {above : List Handle} (hi : ts[i]? = some t)
    (hinside : ∀ s, Lies s [t] →
      ∃ s', ctx.replaceWithin r guard edit n above (depth + 1) t.value s = (.ok t.value, s') ∧
        Turns s [t] s' [t.replaced (r.hits (fun x => pass x && keeps x) (depth + 1) t) v]) :
    SlotReplaces ctx r guard pass keeps edit v n above depth f
      (r.hits (fun x => pass x && keeps x) depth (.node h f ts)) t i := by
  have hmore : ∀ p ∈ t.places, r.hits (fun x => pass x && keeps x) depth (.node h f ts) (i :: p) =
      (r.enters f i && r.hits (fun x => pass x && keeps x) (depth + 1) t p) := fun p hp =>
    Recursion.hits_inside hi (Tree.ne_nil_of_mem_places hp)
  refine ⟨Recursion.hits_slot hi, fun henters p hp => ?_, fun henters s hlies => ?_⟩
  · rw [hmore p hp, henters, Bool.false_and]
  · have hbelow : t.replaced (r.hits (fun x => pass x && keeps x) (depth + 1) t) v =
        t.replaced (fun p => r.hits (fun x => pass x && keeps x) depth (.node h f ts) (i :: p)) v :=
      Tree.replaced_congr fun p hp => by rw [hmore p hp, henters, Bool.true_and]
    rw [← hbelow]
    exact hinside s hlies

/-- A replacement goes through the slots one after the other. -/
theorem replaceSlots (htests : ctx.TestsValues r pass) (hguard : ctx.GuardSays guard keeps)
    (hedit : ∀ x s, edit x s = (.ok v, s)) (hcopied : f.isCopied = false) {n depth : Nat}
    {above : List Handle} {hit : List Nat → Bool} : ∀ (after before : List Tree)
    (doomed : List Step) (s : Store), Lies s [.node h f (before ++ after)] →
    (∀ part ∈ after.zipIdx before.length, SlotReplaces ctx r guard pass keeps edit v n above depth f
      hit part.1 part.2) →
    ∃ s', (slotChildren r f (after.zipIdx before.length)).foldlM
        (ctx.replaceChild r guard edit n above depth) (.ref h, doomed) s =
          (.ok (.ref h, doomed ++ if v.isNone then
            ((after.zipIdx before.length).filter fun part => hit [part.2]).map
              fun part => f.step part.2
            else []), s') ∧
      Turns s [.node h f (before ++ after)] s'
        [.node h f (before ++ Tree.replacedFrom hit v before.length after)] := by
  intro after
  -- The slots before are done: they hold what they are to hold, or are marked.
  induction after with
  | nil =>
    intro before doomed s hlies _
    refine ⟨s, ?_, .refl hlies⟩
    cases v <;> simp [slotChildren, Eval.run_pure]
  | cons t after ih =>
    intro before doomed s hlies hparts
    rw [List.zipIdx_cons] at hparts ⊢
    obtain ⟨hslot, hrest⟩ := List.forall_mem_cons.mp hparts
    obtain ⟨-, -, hlies', -⟩ := hlies.parts
    have hlength : (before ++ [t.inSlot hit v before.length]).length = before.length + 1 := by
      simp
    have hsplit (xs : List Tree) : before ++ t.inSlot hit v before.length :: xs =
        before ++ [t.inSlot hit v before.length] ++ xs := by simp
    have hreplaced : Tree.replacedFrom hit v before.length (t :: after) =
        t.inSlot hit v before.length :: Tree.replacedFrom hit v (before.length + 1) after := rfl
    rw [hreplaced, hsplit]
    by_cases henters : r.enters f before.length = true
    · obtain ⟨s₁, hrun, hturn⟩ := hslot.inside henters s (hlies'.of_mem (by simp))
      obtain ⟨s₂, hstep, hturn₂⟩ :=
        replaceChild_slot htests hguard hedit hcopied hlies hslot.self hrun hturn doomed
      rw [hsplit] at hturn₂
      obtain ⟨s₃, hloop, hturn₃⟩ := ih _ _ s₂ hturn₂.lies (hlength ▸ hrest)
      rw [hlength] at hloop hturn₃
      refine ⟨s₃, ?_, hturn₂.trans hturn₃⟩
      rw [slotChildren_cons henters, List.foldlM_cons, Eval.run_bind_of_ok hstep, hloop]
      cases v <;> cases hb : hit [before.length] <;> simp [hb]
    · have hmarks : ¬ r.marks f before.length = true := mt Recursion.enters_of_marks henters
      have hunhit : hit [before.length] = false := by
        rw [hslot.self, Bool.eq_false_iff.mpr hmarks, Bool.false_and, Bool.false_and]
      have hsame : t.inSlot hit v before.length = t := by
        rw [Tree.inSlot, hunhit, if_neg Bool.false_ne_true]
        exact Tree.replaced_of_forall (hslot.stays (Bool.eq_false_iff.mpr henters))
      rw [hsame] at hlength ⊢
      rw [List.append_cons] at hlies
      obtain ⟨s', hloop, hturn⟩ := ih (before ++ [t]) doomed s hlies (hlength ▸ hrest)
      rw [hlength] at hloop hturn
      refine ⟨s', ?_, ?_⟩
      · rw [slotChildren_skip henters, hloop]
        simp [hunhit]
      · rwa [List.append_cons]

/-- **A write along a descent into a tree replaces what the descent hits.** -/
theorem replaceWithin_plain (htests : ctx.TestsValues r pass) (hguard : ctx.GuardSays guard keeps)
    (hedit : ∀ x s, edit x s = (.ok v, s))
    (hplain : t.Plain) :
    ∀ {s : Store} {n : Nat} {above : List Handle} (depth : Nat), Lies s [t] →
      (∀ k ∈ t.handles, k ∉ above) → t.handles.length < n →
      ∃ s', ctx.replaceWithin r guard edit n above depth t.value s = (.ok t.value, s') ∧
        Turns s [t] s' [t.replaced (r.hits (fun x => pass x && keeps x) depth t) v] := by
  induction t using Tree.induction with
  | leaf w =>
    intro s n above depth hlies habove hn
    obtain ⟨m, rfl⟩ := Nat.exists_eq_succ_of_ne_zero (Nat.ne_of_gt (Nat.zero_lt_of_lt hn))
    cases hplain with
    | leaf x =>
      refine ⟨s, ?_, .refl hlies⟩
      show ctx.replaceWithin r guard edit (m + 1) above depth (.scalar x) s = _
      rw [replaceWithin_succ, if_neg (by simp [Value.handle?]),
        Eval.run_bind_of_ok (children_leaf htests.branches x)]
      rfl
  | node h f ts ih =>
    intro s n above depth hlies habove hn
    obtain ⟨m, rfl⟩ := Nat.exists_eq_succ_of_ne_zero (Nat.ne_of_gt (Nat.zero_lt_of_lt hn))
    have hcopied := hplain.isCopied
    have hchildren : ctx.children r (.ref h) s = (.ok (slotChildren r f ts.zipIdx), s) :=
      children_node htests.branches hplain hlies
    obtain ⟨-, -, -, hself⟩ := hlies.parts
    -- No container is met again further down, so the check for cycles never stops the descent.
    rw [Tree.handles] at habove
    obtain ⟨hnot, hapart⟩ := List.forall_mem_cons.mp habove
    have hslots : ∀ part ∈ ts.zipIdx, SlotReplaces ctx r guard pass keeps edit v m (h :: above)
        depth f (r.hits (fun x => pass x && keeps x) depth (.node h f ts)) part.1 part.2 := by
      rintro ⟨t, i⟩ hpart
      have hi : ts[i]? = some t := List.mk_mem_zipIdx_iff_getElem?.mp hpart
      have ht := List.mem_of_getElem? hi
      have habove' : ∀ k ∈ t.handles, k ∉ h :: above := by
        intro k hk hmem
        have hmore := List.mem_flatMap.mpr ⟨t, ht, hk⟩
        rcases List.mem_cons.mp hmem with rfl | hmem
        · exact hself hmore
        · exact hapart k hmore hmem
      have hlt : t.handles.length < (Tree.node h f ts).handles.length := Tree.length_handles_lt ht
      exact slotReplaces_of_part hi fun s hlies =>
        ih t ht (hplain.part t ht) (depth + 1) hlies habove' (by omega)
    generalize r.hits (fun x => pass x && keeps x) depth (.node h f ts) = hit at *
    obtain ⟨s₁, hrun, hturn⟩ :=
      replaceSlots htests hguard hedit hcopied ts [] [] s hlies hslots
    have hcheck : ¬ (Value.ref h).handle?.any above.contains = true := by
      simpa [Value.handle?] using hnot
    rw [List.nil_append, List.nil_append, List.length_nil] at hturn
    rw [List.nil_append, List.length_nil] at hrun
    have hway : (Value.ref h).handle?.toList ++ above = h :: above := rfl
    show ∃ s', ctx.replaceWithin r guard edit (m + 1) above depth (.ref h) s = _ ∧ _
    rw [replaceWithin_succ, if_neg hcheck, Eval.run_bind_of_ok hchildren, hway,
      Eval.run_bind_of_ok hrun, Tree.replaced]
    cases v with
    | some w => exact ⟨s₁, rfl, by simpa using hturn⟩
    | none =>
      -- What is marked is taken away from the last slot on.
      have hlength : (Tree.replacedFrom hit none 0 ts).length = ts.length :=
        Tree.length_replacedFrom 0 ts
      obtain ⟨h', s₂, hpop, hsame, hturn₂⟩ := Turns.popAll hturn.lies
        (Tree.hitSlots_descending hit ts.length) (by rw [hlength]; exact Tree.hitSlots_bounds)
      obtain rfl := hsame hcopied
      refine ⟨s₂, ?_, hturn.trans hturn₂⟩
      dsimp only
      rw [Option.isNone_none, if_pos rfl, Tree.map_hitSlots]
      exact hpop

/-- The levels that a replacement may go to are more than those of any tree in the store. -/
theorem length_lt_replaceDepth (hlies : Lies s [t]) (n : Nat) :
    t.handles.length < s.replaceDepth n := by
  have hle := hlies.length_le
  rw [Forest.handles_singleton] at hle
  calc t.handles.length < s.size + 2 := by omega
    _ < (s.partCount + 2) ^ (s.size + 2) := Nat.lt_pow_self (by omega)
    _ ≤ s.replaceDepth n := Nat.le_mul_of_pos_right _ n.succ_pos

theorem replaceReported_plain (htests : ctx.TestsValues r pass) (hguard : ctx.GuardSays guard keeps)
    (hedit : ∀ x s, edit x s = (.ok v, s))
    (hplain : t.Plain) (hlies : Lies s [t]) (n : Nat) :
    ∃ s', ctx.replaceReported r guard n edit t.value s = (.ok t.value, s') ∧
      Turns s [t] s' [t.replaced (r.hits (fun x => pass x && keeps x) 0 t) v] := by
  rw [replaceReported, Eval.run_bind_of_ok (Eval.run_store s)]
  exact replaceWithin_plain htests hguard hedit hplain 0 hlies
    (fun _ _ => List.not_mem_nil) (length_lt_replaceDepth hlies n)

/-- The edit of a descent under a guard that ends a path. -/
theorem pathEdit_guarded (r : Recursion) (guard : Option ValueTest) :
    ctx.pathEdit [r.guarded guard] .done =
      Edit.done.cons (r.guarded guard) (ctx.recursiveEdit r guard .done) := by
  cases guard with
  | none => rfl
  | some test => rfl

/-- **Writing and reading along a descent agree on trees.**  There are places, listed by reading,
such that an update puts its value at each outermost one of them, a removal takes away what is there,
and nothing else changes. -/
theorem recursion_agrees (htests : ctx.TestsValues r pass) (hguard : ctx.GuardSays guard keeps)
    (hplain : t.Plain) (hlies : Lies s [t]) :
    ∃ places : List (List Nat), places.Sublist t.places ∧
      (∃ s', ctx.find [r.guarded guard] t.value s = (.ok (places.map t.found), s') ∧
        s.GrowsTo s') ∧
      (∀ w, ∃ s', ctx.update [r.guarded guard] t.value (.value w) s = (.ok t.value, s') ∧
        Turns s [t] s' [t.replaced places.contains (some w)]) ∧
      ∃ s', ctx.remove [r.guarded guard] t.value .any s = (.ok t.value, s') ∧
        Turns s [t] s' [t.replaced places.contains none] := by
  -- being a place that is hit and being in the list of these is the same for places of the tree
  have hsame : ∀ v, t.replaced (t.places.filter
      (r.hits (fun x => pass x && keeps x) 0 t)).contains v =
        t.replaced (r.hits (fun x => pass x && keeps x) 0 t) v := fun v =>
    Tree.replaced_congr fun p hp => by
      rw [Bool.eq_iff_iff, List.contains_iff_mem, List.mem_filter, and_iff_right hp]
  refine ⟨_, List.filter_sublist,
    find_recursion htests hguard hplain hlies, fun w => ?_, ?_⟩
  · obtain ⟨s', hrun, hturn⟩ := replaceReported_plain (v := some w) htests hguard
      (fun _ _ => rfl) hplain hlies 0
    refine ⟨s', ?_, by rwa [hsame]⟩
    rw [update, pathEdit_guarded]
    show (if r.first then _ else _ : Eval Value) s = _
    rw [htests.all, if_neg Bool.false_ne_true]
    exact hrun
  · obtain ⟨s', hrun, hturn⟩ := replaceReported_plain (v := none) htests hguard
      (fun _ _ => rfl) hplain hlies 0
    refine ⟨s', ?_, by rwa [hsame]⟩
    rw [remove, pathEdit_guarded]
    show (if r.first then _ else _ : Eval Value) s = _
    rw [htests.all, if_neg Bool.false_ne_true]
    exact hrun

/-- So they do under a guard that compares with a scalar. -/
theorem recursion_agrees_scalar (hfilter : r.filter = none) {c : Comparison}
    (hc : c.isOrdering = false) (x : Scalar) (hbranches : r.branches = [])
    (hwindow : r.depth.hasNegative = false) (hall : r.first = false) (hplain : t.Plain)
    (hlies : Lies s [t]) :
    let seg := r.guarded (some ⟨[], c, .literal (.scalar x)⟩)
    ∃ places : List (List Nat), places.Sublist t.places ∧
      (∃ s', ctx.find [seg] t.value s = (.ok (places.map t.found), s') ∧ s.GrowsTo s') ∧
      (∀ w, ∃ s', ctx.update [seg] t.value (.value w) s = (.ok t.value, s') ∧
        Turns s [t] s' [t.replaced places.contains (some w)]) ∧
      ∃ s', ctx.remove [seg] t.value .any s = (.ok t.value, s') ∧
        Turns s [t] s' [t.replaced places.contains none] := by
  have htests := ctx.testsValues_unfiltered hfilter hbranches hwindow hall
  exact recursion_agrees htests (ctx.guardSays_scalar hc x) hplain hlies

/-- With depths counted from the leaves a removal also takes what has become a leaf by it, although
reading does not report it. -/
theorem remove_emptied :
    let ctx : Context := ⟨.empty, false⟩
    let s : Store := ⟨#[.dict [(.str "a", .ref ⟨1⟩)], .dict [(.str "b", .int 1)]]⟩
    let leaves : Segment := .recursive .wildcard [] ⟨some (-1), none, none⟩ none false
    ctx.find [leaves] (.ref ⟨0⟩) s = (.ok [([.key (.str "a"), .key (.str "b")], .int 1)], s) ∧
      ctx.remove [leaves] (.ref ⟨0⟩) .any s = (.ok (.ref ⟨0⟩), ⟨#[.dict [], .dict []]⟩) :=
  ⟨rfl, by cbv⟩

end Context

end DottedPath
