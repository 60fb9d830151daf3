import DottedPath.Proofs.Evaluate.FencedCopy
import DottedPath.Proofs.Evaluate.Yields
import DottedPath.Proofs.Query.FencedWrite
import DottedPath.Proofs.Transform.FencedBuiltin

/-!
# What a write does to its root

A list, a dict, a set or an object that is not frozen stays the root of what is written: a write
that goes into it and succeeds returns the very same handle.  Nothing needs to be kept apart for
this; the fence is open, and only sees to it that containers stay what they are.  A detached root is
copied, and stays as it is.

A place that is a whole slice is passed over where a wrapped group is written place by place, as is
a branch behind a soft cut.  If nothing is left of its location, the value itself is written.

## Main statements

- `Context.write_in_place`: a root that can be edited is edited in place.
- `Context.update_restricted_whole`: the value itself is written.
- `Context.write_detached`: a detached root stays as it is.
-/

namespace DottedPath

namespace Fence

variable {s t : Store} {v : Value}

/-- Nothing is kept. -/
def nowhere (s : Store) : Fence := ⟨s, fun _ => False, fun _ hk => hk.elim⟩

theorem free_nowhere (s : Store) (v : Value) : (nowhere s).Free v := fun _ _ hk => hk

/-- Containers that are added leave the others what they are. -/
theorem Intact.grow {u : Store} (ht : (nowhere s).Intact t) (htu : t.GrowsTo u) :
    (nowhere s).Intact u where
  same _ hk := hk.elim
  forms h c hc := by
    obtain ⟨d, hd, hform⟩ := ht.forms h c hc
    exact ⟨d, htu h d hd, hform⟩
  secluded _ _ _ _ x _ := free_nowhere s x

theorem intact_nowhere (s : Store) : (nowhere s).Intact s where
  same _ hk := hk.elim
  forms _ c hc := ⟨c, hc, .refl c⟩
  secluded _ _ _ _ x _ := free_nowhere s x

end Fence

theorem Registry.Grows.spares {r : Registry} (hr : r.Grows) (s : Store) :
    r.Spares (Fence.nowhere s) :=
  fun name f hf v args named _ _ _ t ht =>
    ⟨ht.grow (hr name f hf v args named t), fun w _ => Fence.free_nowhere s w⟩

namespace Context

variable {ctx : Context} {s s' : Store} {root node v : Value}

/-- **A root that can be edited is edited in place**, by a write that goes into it. -/
theorem write_in_place (hreg : ctx.registry.Grows) (w : Write) (hin : w.GoesInside)
    (hroot : s.isMutable root = true) (hrun : ctx.write (.value root) w s = (.ok v, s')) :
    v = root := by
  let F := Fence.nowhere s
  have hstands : F.Stands w.GoesInside root root := .refl (Fence.free_nowhere s root)
  have hspares := write_spares (hreg.spares s) w hstands.root fun v _ => Fence.free_nowhere s v
  obtain ⟨-, hanswer⟩ := hspares s (Fence.intact_nowhere s)
  rw [hrun] at hanswer
  exact (hanswer v rfl).same hin hroot

/-- A whole slice in a restricted group is passed over: the sequence itself is written, also where
it could be edited. -/
theorem update_restricted_whole (ctx : Context) {kinds : KindRestriction} (v : Value)
    (hindexed : s.isIndexed node = true) (hkind : kinds.admits (s.kind node) = true) :
    ∃ s', s.GrowsTo s' ∧
      ctx.update [.restrict (.group .or [.mk [.slice .full] .none] false) kinds] node (.value v) s =
        (.ok v, s') := by
  let group : Segment := .group .or [.mk [.slice .full] .none] false
  obtain ⟨part, s', hslice⟩ : ∃ part s', sliceOf .full node s = (part, s') := ⟨_, _, rfl⟩
  have hgrows : s.GrowsTo s' := by
    have hgrows := sliceOf_grows .full node s
    rwa [hslice] at hgrows
  have hitems : ctx.items (.slice .full) node s = (.ok [(.slice .full, part)], s') := by
    rw [items, Eval.run_bind_of_ok (Eval.run_store s), if_pos hindexed,
      Eval.run_bind_of_ok (Eval.run_lift _ s), hslice]
    rfl
  have hbranch : ctx.walkPath [.slice .full] Walk.done [] node s =
      (.ok ⟨[([.slice .full], part)], false⟩, s') := by
    show (do Walk.done.each [] (placesOf (← ctx.items (.slice .full) node))) s = _
    rw [Eval.run_bind_of_ok hitems]
    exact Walk.each_done s' _
  have hgroup : ctx.walkSegment group Walk.done [] node s =
      (.ok ⟨[([.slice .full], part)], false⟩, s') := by
    show Walk.alternatives false [(.none, ctx.walkPath [.slice .full] Walk.done)] [] [] node s = _
    rw [Walk.alternatives, Eval.run_bind_of_ok hbranch]
    rfl
  have hwalk : ctx.walkPath [.restrict group kinds] Walk.done [] node s =
      (.ok ⟨[([.slice .full], part)], false⟩, s') := by
    show (do
      if kinds.admits ((← store).kind node) then ctx.walkSegment group Walk.done [] node
      else pure Visit.nothing) s = _
    rw [Eval.run_bind_of_ok (Eval.run_store s), if_pos hkind, hgroup]
  -- the reads before the write find one place, the whole slice
  have hlocations : ctx.locations [.restrict group kinds] node s = (.ok [[.slice .full]], s') := by
    have hfind : ctx.find [.restrict group kinds] node s =
        (.ok [([.slice .full], part)], s') := by
      rw [find, Eval.run_bind_of_ok hwalk]
      rfl
    rw [locations, Eval.run_bind_of_ok hfind]
    rfl
  refine ⟨s', hgrows, ?_⟩
  show (do
    if kinds.admits ((← store).kind node) then
      (ctx.placewiseEdit (.restrict group kinds) .done).update (.ofPath false false) (.value v) node
    else pure node) s = _
  rw [Eval.run_bind_of_ok (Eval.run_store s), if_pos hkind]
  exact Eval.run_bind_of_ok hlocations

end Context

end DottedPath

/-!
### Detached roots

A write of a detached root copies it first.  With a fence around all that the values of the write do
not reach (`Fence.beside`), the copy is outside, and so is all that the write then does: whether it
succeeds or fails half-way, each container of the root is as it was, and what is returned reaches
none of them.
-/

namespace DottedPath

namespace Fence

variable {F : Fence} {s t : Store} {vs : List Value} {r v x : Value} {inside : Prop}

/-- What is reached from a value outside of the fence is outside. -/
theorem Intact.free_of_reaches (ht : F.Intact t) (hv : F.Free v) (hx : t.Reaches v x) : F.Free x :=
  hx.of_closed hv fun _ _ hy ⟨_, hc, hmem⟩ => ht.parts hy hc _ hmem

/-- Only what one of the values reaches may be edited. -/
def beside (s : Store) (vs : List Value) : Fence where
  start := s
  kept h := h.index < s.size ∧ ∀ v ∈ vs, ¬s.Reaches v (.ref h)
  lt_of_kept _ hk := hk.1

theorem free_beside (hv : v ∈ vs) (hx : s.Reaches v x) : (beside s vs).Free x := by
  rintro h rfl ⟨-, hk⟩
  exact hk v hv hx

theorem intact_beside (s : Store) (vs : List Value) : (beside s vs).Intact s where
  same _ _ := rfl
  forms _ c hc := ⟨c, hc, .refl c⟩
  secluded h c hk hc x hx := by
    -- a container that is not kept is reached by a value, which reaches its parts too
    have hreached : ∃ v ∈ vs, s.Reaches v (.ref h) := by
      by_contra hnone
      exact hk ⟨Store.lt_size_of_get? hc, fun v hv hh => hnone ⟨v, hv, hh⟩⟩
    obtain ⟨v, hv, hh⟩ := hreached
    exact free_beside hv (hh.part ⟨c, hc, hx⟩)

/-- A detached root is copied, whatever it is resolved for. -/
theorem detached_stands (hkept : ∀ h, F.start.Reaches r (.ref h) → F.kept h)
    (hapart : F.start.ClosedApart r) : F.RootStands inside .null (.detached r) := by
  have hcopy : F.SparesM (F.Stands inside .null) (deepCopy r) :=
    (deepCopy_spares hkept hapart).mono fun _ hv => ⟨hv, fun _ hm => by cases hm⟩
  exact ⟨fun _ => hcopy, hcopy⟩

end Fence

/-- **A detached root stays as it is.**  Its containers are all there, and tuples and frozen sets
are inside of themselves only by way of other containers, as they are built after their parts.
Whatever is written then, with values that share no container with the root, each container that it
reaches has the same content afterwards, also if the write fails, and what is returned shares no
container with it. -/
theorem Context.write_detached (raises : Bool) (w : Write) {s : Store} {r : Value}
    (hgraph : s.HoldsGraph r) (hapart : s.ClosedApart r)
    (hshare : ∀ v ∈ w.values, ∀ h, s.Reaches v (.ref h) → ¬s.Reaches r (.ref h)) :
    let out := Context.write ⟨Registry.builtin, raises⟩ (.detached r) w s
    (∀ h, s.Reaches r (.ref h) → out.2.get? h = s.get? h) ∧
      ∀ v, out.1 = .ok v → ∀ h, out.2.Reaches v (.ref h) → ¬s.Reaches r (.ref h) := by
  intro out
  let F := Fence.beside s w.values
  have hkept (h : Handle) (hh : s.Reaches r (.ref h)) : F.kept h :=
    ⟨Store.holds_ref.mp (hgraph _ hh), fun v hv hvh => hshare v hv h hvh hh⟩
  have hvalues : ∀ v ∈ w.values, F.Free v := fun v hv => Fence.free_beside hv (.refl s v)
  have hreg : (Context.mk Registry.builtin raises).registry.Spares F := Registry.builtin_spares F
  have hspares := write_spares hreg w (Fence.detached_stands hkept hapart) hvalues
  obtain ⟨hintact, hanswer⟩ := hspares s (Fence.intact_beside s w.values)
  refine ⟨fun h hh => hintact.same h (hkept h hh), fun v hv h hreach hh => ?_⟩
  exact hintact.free_of_reaches (hanswer v hv).free hreach h rfl (hkept h hh)

/-- A list that holds a tuple twice, the tuple that holds the list, and another list. -/
def besideStore : Store :=
  ⟨#[.list [.ref ⟨1⟩, .ref ⟨1⟩], .tuple [.ref ⟨0⟩], .list [.int 7]]⟩

/-- What is written into a copy of a list that holds itself leaves the list alone. -/
theorem write_detached_cycle :
    let out := Context.write ⟨.builtin, false⟩ (.detached (.ref ⟨0⟩))
      (.update "[0][0][1]" (.value (.ref ⟨2⟩))) besideStore
    (out.2.get? ⟨0⟩ = besideStore.get? ⟨0⟩ ∧ out.2.get? ⟨1⟩ = besideStore.get? ⟨1⟩) ∧
      ∀ v, out.1 = .ok v → ∀ h, out.2.Reaches v (.ref h) → h ≠ ⟨0⟩ ∧ h ≠ ⟨1⟩ := by
  intro out
  have hgraph : besideStore.HoldsGraph (.ref ⟨0⟩) :=
    Store.holdsGraph_of_isClosed rfl (Store.holds_ref.mpr (by decide))
  have hlayered : besideStore.ClosedApart (.ref ⟨0⟩) := Store.closedApart_of_isLayered rfl _
  have hroot {x : Value} (hx : besideStore.Reaches (.ref ⟨0⟩) x) :
      x = .ref ⟨0⟩ ∨ x = .ref ⟨1⟩ := by
    refine hx.of_closed (P := fun x => x = .ref ⟨0⟩ ∨ x = .ref ⟨1⟩) (.inl rfl)
      fun y z hy ⟨c, hc, hz⟩ => ?_
    rcases hy with rfl | rfl
    · cases hc
      rcases List.mem_pair.mp hz with rfl | rfl
      · exact .inr rfl
      · exact .inr rfl
    · cases hc
      exact .inl (List.mem_singleton.mp hz)
  have hvalue {x : Value} (hx : besideStore.Reaches (.ref ⟨2⟩) x) :
      x = .ref ⟨2⟩ ∨ x = .int 7 := by
    refine hx.of_closed (P := fun x => x = .ref ⟨2⟩ ∨ x = .int 7) (.inl rfl)
      fun y z hy ⟨c, hc, hz⟩ => ?_
    rcases hy with rfl | rfl
    · cases hc
      exact .inr (List.mem_singleton.mp hz)
    · cases hc
  have hshare : ∀ v ∈ [Value.ref ⟨2⟩], ∀ h, besideStore.Reaches v (.ref h) →
      ¬besideStore.Reaches (.ref ⟨0⟩) (.ref h) := by
    intro v hv h hh hreach
    cases List.mem_singleton.mp hv
    rcases hvalue hh with hh | hh
    · rcases hroot hreach with hreach | hreach
      · cases hh.symm.trans hreach
      · cases hh.symm.trans hreach
    · cases hh
  have hlist : besideStore.Reaches (.ref ⟨0⟩) (.ref ⟨0⟩) := .refl _ _
  have htuple : besideStore.Reaches (.ref ⟨0⟩) (.ref ⟨1⟩) :=
    hlist.part ⟨_, rfl, List.mem_cons_self ..⟩
  obtain ⟨hsame, hapart⟩ := Context.write_detached false
    (.update "[0][0][1]" (.value (.ref ⟨2⟩))) hgraph hlayered hshare
  refine ⟨⟨hsame _ hlist, hsame _ htuple⟩, fun v hv h hh => ⟨?_, ?_⟩⟩
  · rintro rfl
    exact hapart v hv _ hh hlist
  · rintro rfl
    exact hapart v hv _ hh htuple

end DottedPath
