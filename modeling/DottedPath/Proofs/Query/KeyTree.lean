import DottedPath.Proofs.Path.KeyToken

/-!
# Trees of keys

What a value is that is built from dicts with text keys: its leaves, and the keys on the way to each.
A tree is rebuilt from its leaves in order: `putAll_entries` starts from some entries and adds those
of the tree after them, `putAll_chain` starts from the way to the first leaf alone.
-/

namespace DottedPath

/-- Dicts in dicts, down to values that are not entered. -/
inductive KeyTree where
  | leaf (v : Value)
  | node (entries : List (String × KeyTree))

namespace KeyTree

mutual

/-- The leaves in order, each with the keys on the way to it. -/
def leaves : KeyTree → List (List String × Value)
  | leaf v => [([], v)]
  | node es => entryLeaves es

/-- The leaves of entries in order. -/
def entryLeaves : List (String × KeyTree) → List (List String × Value)
  | [] => []
  | (key, t) :: es => (leaves t).map (fun (keys, v) => (key :: keys, v)) ++ entryLeaves es

end

mutual

/-- Every dict has entries; its keys are plain, and no two of them are the same. -/
def Plain : KeyTree → Prop
  | leaf _ => True
  | node es => es ≠ [] ∧ (es.map Prod.fst).Nodup ∧ PlainEntries es

/-- The keys of entries are plain, and so are the trees below them. -/
def PlainEntries : List (String × KeyTree) → Prop
  | [] => True
  | (key, t) :: es => PlainKey key ∧ Plain t ∧ PlainEntries es

end

mutual

/-- The number of dicts. -/
def dicts : KeyTree → Nat
  | leaf _ => 0
  | node es => entryDicts es + 1

/-- The number of dicts below entries. -/
def entryDicts : List (String × KeyTree) → Nat
  | [] => 0
  | (_, t) :: es => dicts t + entryDicts es

end

/-! ### Writing along keys -/

/-- A dict of one entry for each key, in each other, and a value at the end. -/
def chain : List String → Value → KeyTree
  | [], v => leaf v
  | key :: keys, v => node [(key, chain keys v)]

/-- A write at a new key: the second tree is the first with the value at the end of the keys.  They
are followed as far as they are there; the entry for the others is added last. -/
inductive Put : KeyTree → List String → Value → KeyTree → Prop where
  | add {es key keys v} (new : key ∉ es.map Prod.fst) :
    Put (node es) (key :: keys) v (node (es ++ [(key, chain keys v)]))
  | into {before after key keys v t u} (first : key ∉ before.map Prod.fst) (put : Put t keys v u) :
    Put (node (before ++ (key, t) :: after)) (key :: keys) v (node (before ++ (key, u) :: after))

/-- Writes one after the other. -/
inductive PutAll : KeyTree → List (List String × Value) → KeyTree → Prop where
  | done {t} : PutAll t [] t
  | step {t u w keys v rest} (put : Put t keys v u) (more : PutAll u rest w) :
    PutAll t ((keys, v) :: rest) w

theorem PutAll.trans {t u w : KeyTree} {ps qs : List (List String × Value)} (h : PutAll t ps u)
    (h' : PutAll u qs w) : PutAll t (ps ++ qs) w := by
  induction h with
  | done => exact h'
  | step put _ ih => exact .step put (ih h')

/-- Writes in a subtree are writes in the tree. -/
theorem PutAll.into (before after : List (String × KeyTree)) {key : String} {t u : KeyTree}
    {ps : List (List String × Value)} (first : key ∉ before.map Prod.fst) (h : PutAll t ps u) :
    PutAll (node (before ++ (key, t) :: after)) (ps.map fun (keys, v) => (key :: keys, v))
      (node (before ++ (key, u) :: after)) := by
  induction h with
  | done => exact .done
  | step put _ ih => exact .step (.into first put) ih

mutual

/-- A tree is what its first leaf and the keys to it become when the other leaves are written. -/
theorem putAll_chain : ∀ t : KeyTree, t.Plain →
    ∃ keys v rest, t.leaves = (keys, v) :: rest ∧ PutAll (chain keys v) rest t
  | leaf v, _ => ⟨[], v, [], by rw [leaves], .done⟩
  | node [], h => absurd rfl (by rw [Plain] at h; exact h.1)
  | node ((key, t) :: es), h => by
    rw [Plain, List.map_cons, List.nodup_cons, PlainEntries] at h
    obtain ⟨-, ⟨hnew, hnodup⟩, -, ht, hes⟩ := h
    obtain ⟨keys, v, rest, hleaves, hput⟩ := putAll_chain t ht
    refine ⟨key :: keys, v, (rest.map fun (keys, v) => (key :: keys, v)) ++ entryLeaves es,
      ?_, ?_⟩
    · rw [leaves, entryLeaves, hleaves]
      rfl
    · have hbelow := PutAll.into [] [] (List.not_mem_nil (a := key)) hput
      refine hbelow.trans (putAll_entries es hnodup hes [(key, t)] fun k hk hmem => hnew ?_)
      rwa [← List.mem_singleton.mp hmem]

/-- The entries of a tree come after those that are there when its leaves are written. -/
theorem putAll_entries : ∀ es : List (String × KeyTree), (es.map Prod.fst).Nodup →
    PlainEntries es → ∀ before : List (String × KeyTree),
    (∀ key ∈ es.map Prod.fst, key ∉ before.map Prod.fst) →
    PutAll (node before) (entryLeaves es) (node (before ++ es))
  | [], _, _, before, _ => by
    rw [entryLeaves, List.append_nil]
    exact .done
  | (key, t) :: es, hnodup, h, before, hbefore => by
    rw [List.map_cons, List.nodup_cons] at hnodup
    rw [PlainEntries] at h
    obtain ⟨-, ht, hes⟩ := h
    obtain ⟨keys, v, rest, hleaves, hput⟩ := putAll_chain t ht
    have hkey : key ∉ before.map Prod.fst := hbefore key (List.mem_cons_self ..)
    have hbelow : PutAll (node before) (t.leaves.map fun (keys, v) => (key :: keys, v))
        (node (before ++ [(key, t)])) := by
      rw [hleaves]
      exact .step (.add hkey) (PutAll.into before [] hkey hput)
    have hrest := putAll_entries es hnodup.2 hes (before ++ [(key, t)]) <| by
      intro k hk hmem
      rw [List.map_append, List.mem_append] at hmem
      rcases hmem with hmem | hmem
      · exact hbefore k (List.mem_cons_of_mem _ hk) hmem
      · exact hnodup.1 (List.mem_singleton.mp hmem ▸ hk)
    rw [List.append_assoc] at hrest
    rw [entryLeaves]
    exact hbelow.trans hrest

end

/-! ### Keys of a tree -/

mutual

/-- The keys on the way to a leaf are plain. -/
theorem plainKey_of_mem_leaves : ∀ t : KeyTree, t.Plain →
    ∀ p ∈ t.leaves, ∀ key ∈ p.1, PlainKey key
  | leaf v, _, p, hp, key, hkey => by
    rw [leaves, List.mem_singleton] at hp
    rw [hp] at hkey
    exact absurd hkey List.not_mem_nil
  | node es, h, p, hp, key, hkey => by
    rw [leaves] at hp
    rw [Plain] at h
    exact plainKey_of_mem_entryLeaves es h.2.2 p hp key hkey

theorem plainKey_of_mem_entryLeaves : ∀ es : List (String × KeyTree), PlainEntries es →
    ∀ p ∈ entryLeaves es, ∀ key ∈ p.1, PlainKey key
  | [], _, p, hp, _, _ => absurd hp (by rw [entryLeaves]; exact List.not_mem_nil)
  | (k, t) :: es, h, p, hp, key, hkey => by
    rw [PlainEntries] at h
    rw [entryLeaves, List.mem_append] at hp
    rcases hp with hp | hp
    · obtain ⟨q, hq, rfl⟩ := List.mem_map.mp hp
      rcases List.mem_cons.mp hkey with rfl | hkey
      · exact h.1
      · exact plainKey_of_mem_leaves t h.2.1 q hq key hkey
    · exact plainKey_of_mem_entryLeaves es h.2.2 p hp key hkey

end

end KeyTree

end DottedPath
