import DottedPath.Proofs.Value.Form
import Mathlib.Data.List.Flatten

/-!
# Trees of containers

A value whose parts are not shared is a tree: each container is at a handle of its own.  The trees
of a forest lie in a store next to each other (`Forest.Lies`), and an edit of some of them turns
them into others (`Forest.Turns`): it touches no container but theirs.  So the trees beside them stay
as they are (`Forest.Turns.frame`), and a container whose parts have turned into others is to be
filled anew (`Forest.Turns.node`).
-/

namespace DottedPath

/-- A value with its parts: a leaf, about which nothing more is said, or the container at a handle
with the trees in its slots. -/
inductive Tree where
  | leaf (v : Value)
  | node (h : Handle) (form : Form) (parts : List Tree)

/-- A container with other content in its place: the same container, or a new one. -/
def Form.rewrite (f : Form) (h : Handle) (c : Container) (s : Store) : Value × Store :=
  if f.isCopied then (.ref s.next, s.push c) else (.ref h, s.set h c)

namespace Tree

def value : Tree → Value
  | leaf v => v
  | node h _ _ => .ref h

/-- The handles of the containers of a tree. -/
def handles : Tree → List Handle
  | leaf _ => []
  | node h _ ts => h :: ts.flatMap handles

/-- What holds of leaves, and of a node if it holds of its parts, holds of all trees. -/
@[elab_as_elim]
theorem induction {P : Tree → Prop} (leaf : ∀ v, P (leaf v))
    (node : ∀ h f ts, (∀ t ∈ ts, P t) → P (node h f ts)) : ∀ t, P t
  | .leaf v => leaf v
  | .node h f ts => node h f ts fun t _ => induction leaf node t

/-- The containers of the tree are in the store. -/
inductive Stored (s : Store) : Tree → Prop where
  | leaf (v : Value) : Stored s (leaf v)
  | node {h : Handle} {f : Form} {ts : List Tree}
    (content : s.get? h = some (f.fill (ts.map value))) (suits : f.Suits s ts.length)
    (parts : ∀ t ∈ ts, Stored s t) : Stored s (node h f ts)

/-- A part has fewer containers than the whole. -/
theorem length_handles_lt {h : Handle} {f : Form} {ts : List Tree} {t : Tree} (ht : t ∈ ts) :
    t.handles.length < (node h f ts).handles.length := by
  have hle := ((List.singleton_sublist.mpr ht).flatMap handles).length_le
  rw [List.flatMap_singleton] at hle
  rw [handles, List.length_cons]
  omega

variable {s s' : Store} {t : Tree}

theorem Stored.lt_size (ht : t.Stored s) : ∀ h ∈ t.handles, h.index < s.size := by
  induction ht with
  | leaf v =>
    rw [handles]
    exact fun h hh => absurd hh List.not_mem_nil
  | node content suits parts ih =>
    rw [handles]
    intro g hg
    rcases List.mem_cons.mp hg with rfl | hg
    · exact Store.lt_size_of_get? content
    · obtain ⟨t, ht, hgt⟩ := List.mem_flatMap.mp hg
      exact ih t ht g hgt

/-- A tree whose containers are kept is still there. -/
theorem Stored.kept (hretains : s.Retains s') (ht : t.Stored s)
    (hkept : ∀ h ∈ t.handles, ∀ c, s.get? h = some c → s'.get? h = some c) : t.Stored s' := by
  induction ht with
  | leaf v => exact .leaf v
  | node content suits parts ih =>
    rw [handles] at hkept
    refine .node (hkept _ (List.mem_cons_self ..) _ content) (suits.retains hretains) fun t ht => ?_
    exact ih t ht fun h hh => hkept h (List.mem_cons_of_mem _ (List.mem_flatMap.mpr ⟨t, ht, hh⟩))

end Tree

namespace Forest

open DottedPath.Tree

/-- The handles of the containers of some trees. -/
def handles (ts : List Tree) : List Handle :=
  ts.flatMap Tree.handles

/-- The trees are in the store, and no container is in two places. -/
structure Lies (s : Store) (ts : List Tree) : Prop where
  stored : ∀ t ∈ ts, t.Stored s
  apart : (handles ts).Nodup

/-- Some trees have turned into others, while all other containers were kept.  The containers of
the trees are those that were there before, or new ones. -/
structure Turns (s : Store) (ts : List Tree) (s' : Store) (us : List Tree) : Prop where
  lies : Lies s' us
  retains : s.Retains s'
  size : s.size ≤ s'.size
  kept : ∀ h c, h ∉ handles ts → s.get? h = some c → s'.get? h = some c
  fresh : ∀ h ∈ handles us, h ∈ handles ts ∨ s.size ≤ h.index

variable {s s' s'' : Store} {ts us vs before after : List Tree} {h : Handle} {f g : Form}

theorem handles_append (ts us : List Tree) : handles (ts ++ us) = handles ts ++ handles us :=
  List.flatMap_append

theorem handles_singleton (t : Tree) : handles [t] = t.handles := List.flatMap_singleton ..

theorem Lies.lt_size (hts : Lies s ts) : ∀ h ∈ handles ts, h.index < s.size := by
  intro h hh
  obtain ⟨t, ht, hh⟩ := List.mem_flatMap.mp hh
  exact (hts.stored t ht).lt_size h hh

theorem Lies.sublist (hsub : us.Sublist ts) (hts : Lies s ts) : Lies s us :=
  ⟨fun t ht => hts.stored t (hsub.subset ht), hts.apart.sublist (hsub.flatMap _)⟩

/-- The parts of a container lie next to each other, and it is none of their containers. -/
theorem Lies.parts (hlies : Lies s [node h f ts]) :
    s.get? h = some (f.fill (ts.map value)) ∧ f.Suits s ts.length ∧ Lies s ts ∧ h ∉ handles ts := by
  obtain ⟨hstored, hapart⟩ := hlies
  rw [handles_singleton, Tree.handles, List.nodup_cons] at hapart
  cases hstored _ (List.mem_singleton.mpr rfl) with
  | node content suits parts => exact ⟨content, suits, ⟨parts, hapart.2⟩, hapart.1⟩

/-- Each of some trees lies in the store. -/
theorem Lies.of_mem (hts : Lies s ts) {t : Tree} (ht : t ∈ ts) : Lies s [t] :=
  hts.sublist (List.singleton_sublist.mpr ht)

/-- A tree has no more containers than the store. -/
theorem Lies.length_le (hts : Lies s ts) : (handles ts).length ≤ s.size :=
  Store.length_le_size hts.apart hts.lt_size

namespace Turns

theorem of_grows (hst : s.GrowsTo s') (hts : Lies s ts) : Turns s ts s' ts where
  lies := ⟨fun t ht => (hts.stored t ht).kept hst.retains fun h _ => hst h, hts.apart⟩
  retains := hst.retains
  size := hst.size_le
  kept := fun h c _ hc => hst h c hc
  fresh := fun _ hh => .inl hh

protected theorem refl (hts : Lies s ts) : Turns s ts s ts := of_grows (.refl s) hts

theorem trans (h₁ : Turns s ts s' us) (h₂ : Turns s' us s'' vs) : Turns s ts s'' vs where
  lies := h₂.lies
  retains := h₁.retains.trans h₂.retains
  size := Nat.le_trans h₁.size h₂.size
  kept := fun h c hh hc => by
    refine h₂.kept h c (fun hus => ?_) (h₁.kept h c hh hc)
    rcases h₁.fresh h hus with hts | hnew
    · exact hh hts
    · exact Nat.not_lt.mpr hnew (Store.lt_size_of_get? hc)
  fresh := fun h hh => by
    rcases h₂.fresh h hh with hus | hnew
    · exact h₁.fresh h hus
    · exact .inr (Nat.le_trans h₁.size hnew)

/-- Trees may be left out, and what is left of a forest is as it was. -/
theorem sublist (hsub : us.Sublist ts) (hts : Lies s ts) : Turns s ts s us where
  lies := hts.sublist hsub
  retains := .refl s
  size := Nat.le_refl _
  kept := fun _ _ _ hc => hc
  fresh := fun _ hh => .inl ((hsub.flatMap _).subset hh)

/-- A leaf may stand for the trees of a forest, or be a new tree if there are none. -/
theorem leaf (ts : List Tree) (v : Value) (s : Store) : Turns s ts s [.leaf v] where
  lies := ⟨fun t ht => List.mem_singleton.mp ht ▸ .leaf v, by simp [handles, Tree.handles]⟩
  retains := .refl s
  size := Nat.le_refl _
  kept := fun _ _ _ hc => hc
  fresh := fun h hh => by simp [handles, Tree.handles] at hh

/-- **Trees beside those that turn into others stay as they are.** -/
theorem frame (hturn : Turns s ts s' us) (hlies : Lies s (before ++ ts ++ after)) :
    Turns s (before ++ ts ++ after) s' (before ++ us ++ after) := by
  have hapart := hlies.apart
  simp only [handles_append, List.nodup_append, List.mem_append] at hapart
  obtain ⟨⟨hbefore, -, hbt⟩, hafter, hta⟩ := hapart
  have hlt (h : Handle) (hh : h ∈ handles before ∨ h ∈ handles after) : h.index < s.size := by
    refine hlies.lt_size h ?_
    simp only [handles_append, List.mem_append]
    tauto
  -- The containers of the others are none of the trees, neither before nor after.
  have hold (h : Handle) (hh : h ∈ handles before ∨ h ∈ handles after) : h ∉ handles ts := by
    intro hts
    rcases hh with hh | hh
    · exact hbt h hh h hts rfl
    · exact hta h (.inr hts) h hh rfl
  have hnew (h : Handle) (hh : h ∈ handles before ∨ h ∈ handles after) : h ∉ handles us := by
    intro hus
    rcases hturn.fresh h hus with hts | hge
    · exact hold h hh hts
    · exact Nat.not_lt.mpr hge (hlt h hh)
  have hstays (t : Tree) (ht : t ∈ before ∨ t ∈ after) : t.Stored s' := by
    refine (hlies.stored t ?_).kept hturn.retains fun h hh c hc => hturn.kept h c (hold h ?_) hc
    · simp only [List.mem_append]
      tauto
    · exact ht.imp (fun ht => List.mem_flatMap.mpr ⟨t, ht, hh⟩) fun ht =>
        List.mem_flatMap.mpr ⟨t, ht, hh⟩
  refine ⟨⟨fun t ht => ?_, ?_⟩, hturn.retains, hturn.size, fun h c hh hc => ?_, fun h hh => ?_⟩
  · simp only [List.mem_append] at ht
    rcases ht with (ht | ht) | ht
    · exact hstays t (.inl ht)
    · exact hturn.lies.stored t ht
    · exact hstays t (.inr ht)
  · simp only [handles_append, List.nodup_append, List.mem_append]
    refine ⟨⟨hbefore, hturn.lies.apart, ?_⟩, hafter, ?_⟩
    · rintro h hh _ hus rfl
      exact hnew h (.inl hh) hus
    · rintro h (hh | hus) _ ha rfl
      · exact hta h (.inl hh) h ha rfl
      · exact hnew h (.inr ha) hus
  · simp only [handles_append, List.mem_append] at hh
    exact hturn.kept h c (fun hts => hh (.inl (.inr hts))) hc
  · simp only [handles_append, List.mem_append] at hh ⊢
    rcases hh with (hh | hh) | hh
    · exact .inl (.inl (.inl hh))
    · exact (hturn.fresh h hh).imp_left fun hts => .inl (.inr hts)
    · exact .inl (.inr hh)

/-- **A container whose parts have turned into others is filled anew.** -/
theorem node (hlies : Lies s [node h f ts]) (hturn : Turns s ts s' us)
    (hsuits : g.Suits s' us.length) :
    ∃ h', (f.rewrite h (g.fill (us.map value)) s').1 = .ref h' ∧ (f.isCopied = false → h' = h) ∧
      Turns s [.node h f ts] (f.rewrite h (g.fill (us.map value)) s').2 [.node h' g us] := by
  obtain ⟨hc, -, -, hnot⟩ := hlies.parts
  have hlt := Store.lt_size_of_get? hc
  have hlt' := Nat.lt_of_lt_of_le hlt hturn.size
  have hc' := hturn.kept h _ hnot hc
  have hnotus : h ∉ handles us := fun hus =>
    (hturn.fresh h hus).elim hnot fun hge => Nat.not_lt.mpr hge hlt
  -- What the new content asks for, wherever it is.
  have hfill {h' : Handle} {s'' : Store} (hget : s''.get? h' = some (g.fill (us.map value)))
      (hnot' : h' ∉ handles us) (hplace : h' = h ∨ s.size ≤ h'.index) (hretains : s'.Retains s'')
      (hsize : s'.size ≤ s''.size)
      (hkept : ∀ k c, k ≠ h → s'.get? k = some c → s''.get? k = some c) :
      Turns s [.node h f ts] s'' [.node h' g us] := by
    refine ⟨⟨fun t ht => ?_, ?_⟩, hturn.retains.trans hretains, Nat.le_trans hturn.size hsize,
      fun k c hk hc => ?_, fun k hk => ?_⟩
    · obtain rfl := List.mem_singleton.mp ht
      refine .node hget (hsuits.retains hretains) fun t ht => ?_
      refine (hturn.lies.stored t ht).kept hretains fun k hk c => hkept k c ?_
      rintro rfl
      exact hnotus (List.mem_flatMap.mpr ⟨t, ht, hk⟩)
    · rw [handles_singleton, Tree.handles]
      exact List.nodup_cons.mpr ⟨hnot', hturn.lies.apart⟩
    · rw [handles_singleton, Tree.handles, List.mem_cons, not_or] at hk
      exact hkept k c hk.1 (hturn.kept k c hk.2 hc)
    · rw [handles_singleton, Tree.handles] at hk ⊢
      rcases List.mem_cons.mp hk with rfl | hk
      · exact hplace.imp_left fun heq => List.mem_cons.mpr (.inl heq)
      · exact (hturn.fresh k hk).imp_left (List.mem_cons_of_mem _)
  by_cases hf : f.isCopied = true
  · rw [Form.rewrite, if_pos hf]
    refine ⟨s'.next, rfl, fun hf' => by simp [hf] at hf', hfill (Store.get?_push_next s' _) ?_
      (.inr hturn.size) (Store.GrowsTo.push s' _).retains (by simp) ?_⟩
    · exact fun hus => Nat.lt_irrefl _ (hturn.lies.lt_size _ hus)
    · exact fun k c _ hk => Store.GrowsTo.push s' _ k c hk
  · rw [Form.rewrite, if_neg hf]
    have hmutable : (f.fill (ts.map value)).isMutable = true := by simp [hf]
    refine ⟨h, rfl, fun _ => rfl, hfill (Store.get?_set_self _ hlt') hnotus (.inl rfl)
      (.set hc' hmutable _) (by simp) fun k c hk hget => ?_⟩
    rw [Store.get?_set_ne _ hk, hget]

end Turns

end Forest

end DottedPath
