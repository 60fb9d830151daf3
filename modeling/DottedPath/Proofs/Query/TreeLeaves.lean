import DottedPath.Proofs.Query.KeyTree

/-!
# Trees of keys and their leaves in any order

A tree without empty dicts is known by its leaves, whatever the order in which they come.  A write
at a new key adds one leaf (`Put.leaves_perm`), and it can be done wherever no leaf is on the way or
below (`exists_put`).
-/

namespace DottedPath

/-- Neither way of keys leads to the other, or on from it. -/
def Diverge (keys others : List String) : Prop :=
  ¬keys <+: others ∧ ¬others <+: keys

theorem Diverge.symm {keys others : List String} (h : Diverge keys others) : Diverge others keys :=
  ⟨h.2, h.1⟩

theorem Diverge.of_cons {key : String} {keys others : List String}
    (h : Diverge (key :: keys) (key :: others)) : Diverge keys others :=
  ⟨fun hp => h.1 (List.cons_prefix_cons.mpr ⟨rfl, hp⟩),
    fun hp => h.2 (List.cons_prefix_cons.mpr ⟨rfl, hp⟩)⟩

namespace KeyTree

mutual

/-- Every dict below has entries, and no two of them have the same key. -/
def Tidy : KeyTree → Prop
  | leaf _ => True
  | node es => es ≠ [] ∧ TidyEntries es

/-- No two entries have the same key, and the trees below them are tidy. -/
def TidyEntries : List (String × KeyTree) → Prop
  | [] => True
  | (key, t) :: es => key ∉ es.map Prod.fst ∧ Tidy t ∧ TidyEntries es

end

variable {t u : KeyTree} {es fs : List (String × KeyTree)} {key : String} {keys : List String}
  {v : Value}

/-! ### Leaves -/

theorem entryLeaves_append (es fs : List (String × KeyTree)) :
    entryLeaves (es ++ fs) = entryLeaves es ++ entryLeaves fs := by
  induction es with
  | nil => rw [List.nil_append, entryLeaves, List.nil_append]
  | cons e es ih =>
    obtain ⟨key, t⟩ := e
    rw [List.cons_append, entryLeaves, entryLeaves, ih, List.append_assoc]

theorem leaves_chain (keys : List String) (v : Value) : (chain keys v).leaves = [(keys, v)] := by
  induction keys with
  | nil => rw [chain, leaves]
  | cons key keys ih =>
    rw [chain, leaves, entryLeaves, ih, entryLeaves]
    rfl

/-- The first key of a leaf is the one of an entry. -/
theorem head_mem_of_mem_entryLeaves {p : List String × Value} :
    ∀ {es : List (String × KeyTree)}, p ∈ entryLeaves es →
      ∃ key t keys, (key, t) ∈ es ∧ (keys, p.2) ∈ t.leaves ∧ p.1 = key :: keys
  | [], h => absurd h (by rw [entryLeaves]; exact List.not_mem_nil)
  | (key, t) :: es, h => by
    rw [entryLeaves, List.mem_append] at h
    rcases h with h | h
    · obtain ⟨⟨keys, v⟩, hleaf, rfl⟩ := List.mem_map.mp h
      exact ⟨key, t, keys, List.mem_cons_self .., hleaf, rfl⟩
    · obtain ⟨key', t', keys, hmem, hleaf, hp⟩ := head_mem_of_mem_entryLeaves h
      exact ⟨key', t', keys, List.mem_cons_of_mem _ hmem, hleaf, hp⟩

theorem mem_entryLeaves (hmem : (key, t) ∈ es) (hleaf : (keys, v) ∈ t.leaves) :
    (key :: keys, v) ∈ entryLeaves es := by
  obtain ⟨before, after, rfl⟩ := List.append_of_mem hmem
  rw [entryLeaves_append, entryLeaves]
  exact List.mem_append_right _ (List.mem_append_left _ (List.mem_map.mpr ⟨_, hleaf, rfl⟩))

/-- A write at a new key adds one leaf. -/
theorem Put.leaves_perm (put : Put t keys v u) : u.leaves.Perm ((keys, v) :: t.leaves) := by
  induction put with
  | @add es key keys v new =>
    have hlast : entryLeaves [(key, chain keys v)] = [(key :: keys, v)] := by
      rw [entryLeaves, leaves_chain, entryLeaves]
      rfl
    rw [leaves, leaves, entryLeaves_append, hlast]
    exact List.perm_append_singleton _ _
  | @into before after key keys v t u first put ih =>
    rw [leaves, leaves, entryLeaves_append, entryLeaves_append, entryLeaves, entryLeaves]
    have hbelow := (ih.map fun p => (key :: p.1, p.2)).append_right (entryLeaves after)
    exact (hbelow.append_left _).trans List.perm_middle

/-! ### Tidy trees -/

/-- A tidy tree has leaves. -/
theorem Tidy.leaves_ne_nil : ∀ {t : KeyTree}, t.Tidy → t.leaves ≠ []
  | leaf v, _ => by
    rw [leaves]
    exact List.cons_ne_nil _ _
  | node [], h => absurd rfl (by rw [Tidy] at h; exact h.1)
  | node ((key, t) :: es), h => by
    rw [Tidy, TidyEntries] at h
    rw [leaves, entryLeaves]
    intro hnil
    exact h.2.2.1.leaves_ne_nil (List.map_eq_nil_iff.mp (List.append_eq_nil_iff.mp hnil).1)

theorem tidy_chain (keys : List String) (v : Value) : (chain keys v).Tidy := by
  induction keys with
  | nil => rw [chain, Tidy]; trivial
  | cons key keys ih =>
    rw [chain, Tidy, TidyEntries, TidyEntries]
    exact ⟨List.cons_ne_nil _ _, List.not_mem_nil, ih, trivial⟩

theorem tidyEntries_append : TidyEntries (es ++ fs) ↔ TidyEntries es ∧ TidyEntries fs ∧
    ∀ key ∈ es.map Prod.fst, key ∉ fs.map Prod.fst := by
  induction es with
  | nil =>
    rw [List.nil_append, TidyEntries, true_and, List.map_nil]
    exact (and_iff_left fun _ h => absurd h List.not_mem_nil).symm
  | cons e es ih =>
    obtain ⟨key, t⟩ := e
    rw [List.cons_append, TidyEntries, TidyEntries, ih, List.map_append, List.mem_append, not_or,
      List.map_cons, List.forall_mem_cons]
    constructor
    · rintro ⟨⟨hes, hfs⟩, ht, htidy, htidy', hapart⟩
      exact ⟨⟨hes, ht, htidy⟩, htidy', hfs, hapart⟩
    · rintro ⟨⟨hes, ht, htidy⟩, htidy', hfs, hapart⟩
      exact ⟨⟨hes, hfs⟩, ht, htidy, htidy', hapart⟩

/-- What holds of an entry between others: its key is none of theirs. -/
theorem TidyEntries.at_entry {before after : List (String × KeyTree)}
    (h : TidyEntries (before ++ (key, t) :: after)) :
    key ∉ before.map Prod.fst ∧ key ∉ after.map Prod.fst ∧ t.Tidy ∧
      TidyEntries (before ++ after) := by
  obtain ⟨hbefore, hat, hapart⟩ := tidyEntries_append.mp h
  rw [TidyEntries] at hat
  rw [List.map_cons] at hapart
  refine ⟨fun hmem => hapart key hmem (List.mem_cons_self ..), hat.1, hat.2.1, ?_⟩
  exact tidyEntries_append.mpr ⟨hbefore, hat.2.2, fun k hk hmem =>
    hapart k hk (List.mem_cons_of_mem _ hmem)⟩

/-- An entry may be exchanged for another one of the same key. -/
theorem TidyEntries.replace {before after : List (String × KeyTree)}
    (h : TidyEntries (before ++ (key, t) :: after)) (hu : u.Tidy) :
    TidyEntries (before ++ (key, u) :: after) := by
  obtain ⟨hbefore, hat, hapart⟩ := tidyEntries_append.mp h
  rw [TidyEntries] at hat
  refine tidyEntries_append.mpr ⟨hbefore, ?_, hapart⟩
  rw [TidyEntries]
  exact ⟨hat.1, hu, hat.2.2⟩

/-- **A value can be written beside all leaves of a tree.** -/
theorem exists_put (v : Value) : ∀ (keys : List String) {es : List (String × KeyTree)},
    keys ≠ [] → TidyEntries es → (∀ p ∈ entryLeaves es, Diverge p.1 keys) →
    ∃ fs, Put (node es) keys v (node fs) ∧ fs ≠ [] ∧ TidyEntries fs
  | [], _, hne, _, _ => absurd rfl hne
  | key :: keys, es, _, htidy, hdiverge => by
    by_cases hkey : key ∈ es.map Prod.fst
    · obtain ⟨⟨_, t⟩, hmem, rfl⟩ := List.mem_map.mp hkey
      obtain ⟨before, after, rfl⟩ := List.append_of_mem hmem
      obtain ⟨first, -, ht, -⟩ := htidy.at_entry
      have hbelow : ∀ p ∈ t.leaves, Diverge p.1 keys := fun p hp =>
        (hdiverge _ (mem_entryLeaves (v := p.2) hmem hp)).of_cons
      cases t with
      | leaf x =>
        -- the leaf would lie on the way
        have hx : ([], x) ∈ (leaf x).leaves := by
          rw [leaves]
          exact List.mem_singleton_self _
        exact absurd (List.nil_prefix) (hbelow _ hx).1
      | node below =>
        have hnode := ht
        rw [Tidy] at hnode
        have hkeys : keys ≠ [] := by
          rintro rfl
          -- some leaf would lie below the value
          obtain ⟨p, hp⟩ := List.exists_mem_of_ne_nil _ ht.leaves_ne_nil
          exact (hbelow p hp).2 List.nil_prefix
        obtain ⟨gs, put, hgs, htidy'⟩ := exists_put v keys hkeys hnode.2 fun p hp =>
          hbelow p (by rw [leaves]; exact hp)
        refine ⟨_, .into first put, by simp, htidy.replace ?_⟩
        rw [Tidy]
        exact ⟨hgs, htidy'⟩
    · refine ⟨es ++ [(key, chain keys v)], .add hkey, by simp, tidyEntries_append.mpr
        ⟨htidy, ?_, fun k hk hmem => hkey ((List.mem_singleton.mp hmem : k = key) ▸ hk)⟩⟩
      rw [TidyEntries, TidyEntries]
      exact ⟨List.not_mem_nil, tidy_chain keys v, trivial⟩

/-! ### The leaves of one entry -/

/-- The leaf is below the key. -/
def isBelow (key : String) (p : List String × Value) : Bool :=
  p.1.head? == some key

theorem filter_isBelow_eq_nil (h : key ∉ es.map Prod.fst) :
    (entryLeaves es).filter (isBelow key) = [] := by
  rw [List.filter_eq_nil_iff]
  intro p hp hbelow
  obtain ⟨other, t, keys, hmem, -, hp'⟩ := head_mem_of_mem_entryLeaves hp
  rw [isBelow, hp', List.head?_cons, beq_iff_eq, Option.some.injEq] at hbelow
  exact h (hbelow ▸ List.mem_map.mpr ⟨_, hmem, rfl⟩)

/-- The leaves below a key are those of its entry, and the others those of the other entries. -/
theorem TidyEntries.filter_isBelow {before after : List (String × KeyTree)}
    (h : TidyEntries (before ++ (key, t) :: after)) :
    (entryLeaves (before ++ (key, t) :: after)).filter (isBelow key) =
        t.leaves.map (fun (keys, v) => (key :: keys, v)) ∧
      (entryLeaves (before ++ (key, t) :: after)).filter (fun p => !isBelow key p) =
        entryLeaves (before ++ after) := by
  obtain ⟨hbefore, hafter, -, -⟩ := h.at_entry
  have hall : ∀ p ∈ t.leaves.map (fun (keys, v) => (key :: keys, v)), isBelow key p = true := by
    intro p hp
    obtain ⟨q, -, rfl⟩ := List.mem_map.mp hp
    exact beq_self_eq_true _
  have hothers {es : List (String × KeyTree)} (hes : key ∉ es.map Prod.fst) :
      (entryLeaves es).filter (fun p => !isBelow key p) = entryLeaves es := by
    refine List.filter_eq_self.mpr fun p hp => ?_
    have hnot := List.filter_eq_nil_iff.mp (filter_isBelow_eq_nil hes) p hp
    rw [Bool.not_eq_true] at hnot
    rw [hnot, Bool.not_false]
  rw [entryLeaves_append, entryLeaves, entryLeaves_append, List.filter_append, List.filter_append,
    List.filter_append, List.filter_append, filter_isBelow_eq_nil hbefore,
    filter_isBelow_eq_nil hafter, hothers hbefore, hothers hafter, List.filter_eq_self.mpr hall,
    List.filter_eq_nil_iff.mpr fun p hp => by rw [hall p hp]; exact Bool.false_ne_true]
  exact ⟨by rw [List.nil_append, List.append_nil], by rw [List.nil_append]⟩

end KeyTree

end DottedPath
