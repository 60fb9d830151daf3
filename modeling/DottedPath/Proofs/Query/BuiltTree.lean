import DottedPath.Proofs.Evaluate.KeyAccess
import DottedPath.Proofs.Query.Unpack

/-!
# Trees of keys in new dicts

A tree that is being built lies in dicts of its own: no handle of the original store is among them,
and what happens to other containers leaves the tree as it is (`Built.frame`).
-/

namespace DottedPath

namespace KeyTree

/-! ### New dicts -/

mutual

/-- The value shows the tree in new dicts, whose handles are the given ones; its leaves are values
of the original store. -/
def Built (origin s : Store) : KeyTree → Value → List Handle → Prop
  | leaf x, v, own => v = x ∧ own = [] ∧ origin.Holds v ∧ origin.entries v = []
  | node es, v, own =>
    ∃ h fs below, v = .ref h ∧ own = h :: below ∧ origin.size ≤ h.index ∧
      s.get? h = some (.dict fs) ∧ EntriesBuilt origin s es fs below

/-- The entries of a dict are those of a tree, in new dicts. -/
def EntriesBuilt (origin s : Store) :
    List (String × KeyTree) → List (Value × Value) → List Handle → Prop
  | [], fs, own => fs = [] ∧ own = []
  | (key, t) :: es, fs, own =>
    ∃ v rest here more, fs = (.str key, v) :: rest ∧ own = here ++ more ∧
      Built origin s t v here ∧ EntriesBuilt origin s es rest more

end

variable {origin s t : Store}

mutual

/-- What happens to other containers does not matter. -/
theorem Built.frame : ∀ {u : KeyTree} {v : Value} {own : List Handle}, Built origin s u v own →
    (∀ g ∈ own, t.get? g = s.get? g) → Built origin t u v own
  | leaf x, v, own, h, _ => by
    rw [Built] at h ⊢
    exact h
  | node es, v, own, h, hsame => by
    rw [Built] at h ⊢
    obtain ⟨g, fs, below, rfl, rfl, hnew, hd, hes⟩ := h
    refine ⟨g, fs, below, rfl, rfl, hnew, ?_, ?_⟩
    · rw [hsame g (List.mem_cons_self ..), hd]
    · exact hes.frame fun g' hg' => hsame g' (List.mem_cons_of_mem _ hg')

theorem EntriesBuilt.frame : ∀ {es : List (String × KeyTree)} {fs : List (Value × Value)}
    {own : List Handle}, EntriesBuilt origin s es fs own →
    (∀ g ∈ own, t.get? g = s.get? g) → EntriesBuilt origin t es fs own
  | [], fs, own, h, _ => by
    rw [EntriesBuilt] at h ⊢
    exact h
  | (key, u) :: es, fs, own, h, hsame => by
    rw [EntriesBuilt] at h ⊢
    obtain ⟨v, rest, here, more, rfl, rfl, hv, hrest⟩ := h
    refine ⟨v, rest, here, more, rfl, rfl, ?_, ?_⟩
    · exact hv.frame fun g hg => hsame g (List.mem_append_left _ hg)
    · exact hrest.frame fun g hg => hsame g (List.mem_append_right _ hg)

end

mutual

/-- The new dicts are there. -/
theorem Built.lt_size : ∀ {u : KeyTree} {v : Value} {own : List Handle}, Built origin s u v own →
    ∀ g ∈ own, g.index < s.size
  | leaf x, v, own, h, g, hg => by
    rw [Built] at h
    rw [h.2.1] at hg
    exact absurd hg List.not_mem_nil
  | node es, v, own, h, g, hg => by
    rw [Built] at h
    obtain ⟨g', fs, below, rfl, rfl, -, hd, hes⟩ := h
    rcases List.mem_cons.mp hg with rfl | hg
    · exact Store.lt_size_of_get? hd
    · exact hes.lt_size g hg

theorem EntriesBuilt.lt_size : ∀ {es : List (String × KeyTree)} {fs : List (Value × Value)}
    {own : List Handle}, EntriesBuilt origin s es fs own → ∀ g ∈ own, g.index < s.size
  | [], fs, own, h, g, hg => by
    rw [EntriesBuilt] at h
    rw [h.2] at hg
    exact absurd hg List.not_mem_nil
  | (key, u) :: es, fs, own, h, g, hg => by
    rw [EntriesBuilt] at h
    obtain ⟨v, rest, here, more, rfl, rfl, hv, hrest⟩ := h
    rcases List.mem_append.mp hg with hg | hg
    · exact hv.lt_size g hg
    · exact hrest.lt_size g hg

end

mutual

/-- A tree in new dicts is shown by its value. -/
theorem Built.shows (hgrows : origin.GrowsTo s) : ∀ {u : KeyTree} {v : Value} {own : List Handle},
    Built origin s u v own → u.Shows s v
  | leaf x, v, own, h => by
    rw [Built] at h
    obtain ⟨rfl, -, hholds, hentries⟩ := h
    rw [Shows]
    exact ⟨rfl, hgrows.holds hholds, by rw [hgrows.entries_eq hholds, hentries]⟩
  | node es, v, own, h => by
    rw [Built] at h
    obtain ⟨g, fs, below, rfl, rfl, -, hd, hes⟩ := h
    rw [Shows]
    exact ⟨g, fs, rfl, hd, hes.shows hgrows⟩

theorem EntriesBuilt.shows (hgrows : origin.GrowsTo s) : ∀ {es : List (String × KeyTree)}
    {fs : List (Value × Value)} {own : List Handle}, EntriesBuilt origin s es fs own →
    EntriesShow s es fs
  | [], fs, own, h => by
    rw [EntriesBuilt] at h
    rw [EntriesShow]
    exact h.1
  | (key, u) :: es, fs, own, h => by
    rw [EntriesBuilt] at h
    obtain ⟨v, rest, here, more, rfl, rfl, hv, hrest⟩ := h
    rw [EntriesShow]
    exact ⟨v, rest, rfl, hv.shows hgrows, hrest.shows hgrows⟩

end

/-- Entries in a row are built each in dicts of their own. -/
theorem entriesBuilt_append {es es' : List (String × KeyTree)} {fs : List (Value × Value)}
    {own : List Handle} : EntriesBuilt origin s (es ++ es') fs own ↔
      ∃ fs₁ fs₂ own₁ own₂, fs = fs₁ ++ fs₂ ∧ own = own₁ ++ own₂ ∧
        EntriesBuilt origin s es fs₁ own₁ ∧ EntriesBuilt origin s es' fs₂ own₂ := by
  induction es generalizing fs own with
  | nil =>
    constructor
    · intro h
      exact ⟨[], fs, [], own, rfl, rfl, by rw [EntriesBuilt]; exact ⟨rfl, rfl⟩, h⟩
    · rintro ⟨fs₁, fs₂, own₁, own₂, rfl, rfl, h, h'⟩
      rw [EntriesBuilt] at h
      rw [h.1, h.2]
      exact h'
  | cons e es ih =>
    obtain ⟨key, u⟩ := e
    rw [List.cons_append, EntriesBuilt]
    constructor
    · rintro ⟨v, rest, here, more, rfl, rfl, hv, hrest⟩
      obtain ⟨fs₁, fs₂, own₁, own₂, rfl, rfl, h, h'⟩ := ih.mp hrest
      refine ⟨(.str key, v) :: fs₁, fs₂, here ++ own₁, own₂, rfl, by rw [List.append_assoc],
        ?_, h'⟩
      rw [EntriesBuilt]
      exact ⟨v, fs₁, here, own₁, rfl, rfl, hv, h⟩
    · rintro ⟨fs₁, fs₂, own₁, own₂, rfl, rfl, h, h'⟩
      rw [EntriesBuilt] at h
      obtain ⟨v, rest, here, more, rfl, rfl, hv, hrest⟩ := h
      exact ⟨v, rest ++ fs₂, here, more ++ own₂, rfl, by rw [List.append_assoc], hv,
        ih.mpr ⟨rest, fs₂, more, own₂, rfl, rfl, hrest, h'⟩⟩

theorem entriesBuilt_singleton {key : String} {u : KeyTree} {v : Value} {own : List Handle}
    (h : Built origin s u v own) :
    EntriesBuilt origin s [(key, u)] [(.str key, v)] own := by
  rw [EntriesBuilt]
  exact ⟨v, [], own, [], rfl, by rw [List.append_nil], h, by rw [EntriesBuilt]; exact ⟨rfl, rfl⟩⟩

/-- A key that a tree does not have is none of its dict. -/
theorem EntriesBuilt.lacks {es : List (String × KeyTree)} {fs : List (Value × Value)}
    {own : List Handle} {key : String} (h : EntriesBuilt origin s es fs own)
    (hkey : key ∉ es.map Prod.fst) : Store.Lacks fs key := by
  induction es generalizing fs own with
  | nil =>
    rw [EntriesBuilt] at h
    rw [h.1]
    exact fun e he => absurd he List.not_mem_nil
  | cons e es ih =>
    obtain ⟨other, u⟩ := e
    rw [EntriesBuilt] at h
    obtain ⟨v, rest, here, more, rfl, rfl, -, hrest⟩ := h
    rw [List.map_cons, List.mem_cons, not_or] at hkey
    intro e he
    rcases List.mem_cons.mp he with rfl | he
    · exact ⟨other, rfl, fun heq => hkey.1 heq.symm⟩
    · exact ih hrest hkey.2 e he

end KeyTree

end DottedPath
