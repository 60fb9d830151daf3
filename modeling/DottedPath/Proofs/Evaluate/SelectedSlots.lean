import DottedPath.Evaluate.Edit
import DottedPath.Proofs.Evaluate.ChosenSlots
import DottedPath.Proofs.Value.Tree

/-!
# The slots that a segment selects in a tree

A key, an attribute or a slot, with a filter, restrictions to kinds and guards around it, selects
some slots of a container in their order (`Form.Picks`).  Which ones does not change while other
containers are edited (`Store.EditsOnly`), if its conditions do not depend on these (`Tree.Decided`).

## Main statements

- `Context.exists_selectsSlots`: such a segment selects the same slots in all later stores in which
  the container lies with its parts.
-/

namespace DottedPath

open Forest

variable {s t : Store} {f : Form} {n : Nat} {is js : List Nat} {step : Nat → Step}

/-! ### Edits of some containers -/

/-- Of the containers at some handles those that can be edited may have changed, and no others. -/
structure Store.EditsOnly (edited : List Handle) (s t : Store) : Prop where
  kept : ∀ h c, s.get? h = some c → (h ∈ edited → c.isMutable = false) → t.get? h = some c
  size : s.size ≤ t.size

namespace Store.EditsOnly

variable {u : Store} {edited : List Handle}

protected theorem refl (edited : List Handle) (s : Store) : s.EditsOnly edited s :=
  ⟨fun _ _ hc _ => hc, Nat.le_refl _⟩

theorem trans (hst : s.EditsOnly edited t) (htu : t.EditsOnly edited u) : s.EditsOnly edited u :=
  ⟨fun h c hc hh => htu.kept h c (hst.kept h c hc hh) hh, Nat.le_trans hst.size htu.size⟩

theorem retains (hst : s.EditsOnly edited t) : s.Retains t :=
  fun h c hc hfixed => hst.kept h c hc fun _ => hfixed

theorem of_grows (hst : s.GrowsTo t) : s.EditsOnly edited t :=
  ⟨fun h c hc _ => hst h c hc, hst.size_le⟩

/-- Trees whose containers may change turn into others. -/
theorem turns {ts us : List Tree} (hst : s.EditsOnly edited t) (hsub : handles ts ⊆ edited)
    (hturns : Turns t ts u us) : s.EditsOnly edited u := by
  refine ⟨fun h c hc hh => ?_, Nat.le_trans hst.size hturns.size⟩
  have hc' := hst.kept h c hc hh
  by_cases hmem : h ∈ handles ts
  · exact hturns.retains h c hc' (hh (hsub hmem))
  · exact hturns.kept h c hmem hc'

end Store.EditsOnly

/-! ### Steps to slots in ascending order -/

/-- The key of the step, if it has one, is a key without a double. -/
def Step.HasKey (s : Store) : Step → Prop
  | .key k => s.IsKey k
  | .slot k => s.IsKey k
  | _ => True

theorem Step.HasKey.retains {st : Step} (hst : s.Retains t) (h : st.HasKey s) : st.HasKey t := by
  cases st with
  | key k => exact h.keeps hst.keepsCopied
  | slot k => exact h.keeps hst.keepsCopied
  | _ => trivial

theorem Step.HasKey.isLiteral {st : Step} (h : st.HasKey s) : st.IsLiteral s := by
  cases st with
  | key k => exact h.shows.imp fun l hl => hl.1
  | slot k => exact h.shows.imp fun l hl => hl.1
  | _ => trivial

/-- One step removes what another one removes, and names the same position. -/
structure Step.PopsAs (a b : Step) : Prop where
  index : a.index? = b.index?
  pop : ∀ node, popChild node a = popChild node b

theorem Step.PopsAs.refl (a : Step) : a.PopsAs a := ⟨rfl, fun _ => rfl⟩

/-- Steps to some slots of a container, in the order of the slots.  If there are several, each is as
good for a removal as the step that the container itself has; a single one may be an index from the
end. -/
structure Form.Picks (s : Store) (f : Form) (n : Nat) (is : List Nat) (step : Nat → Step) :
    Prop where
  ascending : is.Pairwise (· < ·)
  names : ∀ i ∈ is, i < n ∧ f.Names s n (step i) i
  keys : ∀ i ∈ is, (step i).HasKey s
  pops : is.length ≤ 1 ∨ ∀ i ∈ is, (step i).PopsAs (f.step i)

namespace Form.Picks

theorem nil (s : Store) (f : Form) (n : Nat) (step : Nat → Step) : f.Picks s n [] step :=
  ⟨.nil, nofun, nofun, .inl (Nat.zero_le 1)⟩

theorem sublist (hsub : js.Sublist is) (h : f.Picks s n is step) : f.Picks s n js step where
  ascending := h.ascending.sublist hsub
  names := fun i hi => h.names i (hsub.subset hi)
  keys := fun i hi => h.keys i (hsub.subset hi)
  pops := h.pops.imp (fun hle => Nat.le_trans hsub.length_le hle) fun hall i hi =>
    hall i (hsub.subset hi)

theorem retains (hst : s.Retains t) (h : f.Picks s n is step) : f.Picks t n is step where
  ascending := h.ascending
  names := fun i hi => ⟨(h.names i hi).1, (h.names i hi).2.retains hst⟩
  keys := fun i hi => (h.keys i hi).retains hst
  pops := h.pops

end Form.Picks

/-! ### Candidates -/

section Fill

variable {h : Handle} {vs : List Value} {accessor : Accessor} {key : KeyPattern}

/-- The step to what a pattern sees of a slot removes what the step to the slot removes. -/
theorem popsAs_label (htakes : f.takesPatterns accessor = true) (u : Store) (i : Nat) :
    (accessor.step u (f.label i)).PopsAs (f.step i) := by
  have hslot (k : Value) : (Step.slot k).PopsAs (.key k) := ⟨by cases k <;> rfl, fun _ => rfl⟩
  cases f with
  | dict keys =>
    cases accessor with
    | key => exact .refl _
    | slot => exact hslot _
    | attr => cases htakes
  | object name names frozen =>
    cases accessor with
    | attr => exact .refl _
    | _ => cases htakes
  | _ =>
    cases accessor with
    | slot => exact .refl _
    | _ => cases htakes

theorem hasKey_step {k : Value} (hk : s.IsKey k) (u : Store) : (accessor.step u k).HasKey s := by
  cases accessor with
  | key => exact hk
  | slot => exact hk
  | attr => trivial

/-- Patterns and literals have their candidates in slots, in the order of the slots. -/
theorem candidates_fill (accessor : Accessor) (hkey : key.HasNoDouble)
    (hc : s.get? h = some (f.fill vs)) (hf : f.Suits s vs.length) (hkeyed : f.Keyed s) :
    ∃ (label : Nat → Value) (t : Store), candidates accessor key (.ref h) s =
        ((f.slots s accessor key vs.length).map fun i => (label i, vs.getD i .null), t) ∧
      s.GrowsTo t ∧ ∀ u, f.Picks t vs.length (f.slots s accessor key vs.length)
        fun i => accessor.step u (label i) := by
  by_cases hpattern : key.isPattern = true
  · refine ⟨f.label, s, candidates_pattern hpattern hc hf, .refl s, fun u => ?_⟩
    rw [Form.slots_of_isPattern hpattern]
    split
    · rename_i htakes
      have hlt : ∀ i ∈ (List.range vs.length).filter fun i => s.keyMatches key (f.label i),
          i < vs.length := fun i hi => List.mem_range.mp (List.mem_filter.mp hi).1
      exact ⟨List.pairwise_lt_range.sublist List.filter_sublist,
        fun i hi => ⟨hlt i hi, hf.names_label (hlt i hi) htakes u⟩,
        fun i hi => hasKey_step (hkeyed.label hf (hlt i hi)) u,
        .inr fun i _ => popsAs_label htakes u i⟩
    -- patterns see nothing in a container of this form
    · exact .nil s f _ _
  · cases key with
    | literal l =>
      obtain ⟨label, t, hnames⟩ : ∃ label t, NamesSlot s t (.ref h) f vs accessor l label :=
        exists_namesSlot hc hf hkeyed hkey
      refine ⟨fun _ => label, t, hnames.run, hnames.grows, fun u => ?_⟩
      have hslot : ∀ i ∈ f.slots s accessor (.literal l) vs.length,
          f.slotOf? s accessor l vs.length = some i := fun i hi => Option.mem_toList.mp hi
      refine ⟨?_, fun i hi => ⟨Form.slotOf?_lt hf (hslot i hi), hnames.names i (hslot i hi) u⟩,
        fun i _ => hasKey_step hnames.isKey u, .inl ?_⟩
      · show (f.slotOf? s accessor l vs.length).toList.Pairwise (· < ·)
        cases f.slotOf? s accessor l vs.length with
        | none => exact .nil
        | some i => exact List.pairwise_singleton ..
      · exact Option.length_toList_le
    | wildcard => exact absurd rfl hpattern
    | regex re => exact absurd rfl hpattern

end Fill

/-! ### Conditions -/

variable {edited : List Handle}

/-- A condition has an answer for the tree, the same in all later stores in which the tree lies. -/
def Tree.Decided (edited : List Handle) (s : Store) (cond : Value → Eval Bool) (u : Tree) : Prop :=
  ∃ b, ∀ r, s.EditsOnly edited r → Lies r [u] → (cond u.value r).1 = .ok b

/-- What a condition with known answers keeps. -/
theorem Eval.filterM_map {α : Type} (cond : α → Eval Bool) (hgrows : ∀ a, (cond a).Grows)
    {keep : Nat → Bool} (g : Nat → α) : ∀ {is : List Nat} {r : Store},
    (∀ i ∈ is, ∀ r', r.GrowsTo r' → (cond (g i) r').1 = .ok (keep i)) →
    ∃ r', (is.map g).filterM cond r = (.ok ((is.filter keep).map g), r') ∧ r.GrowsTo r'
  | [], r, _ => ⟨r, rfl, .refl r⟩
  | i :: is, r, hcond => by
    obtain ⟨hhead, hrest⟩ := List.forall_mem_cons.mp hcond
    have hrun : cond (g i) r = (.ok (keep i), (cond (g i) r).2) :=
      Prod.ext (hhead r (.refl r)) rfl
    have hgrown := (hgrows (g i) r).grows
    obtain ⟨r', hfilter, hgrown'⟩ := Eval.filterM_map cond hgrows g
      fun j hj r' hr' => hrest j hj r' (hgrown.trans hr')
    refine ⟨r', ?_, hgrown.trans hgrown'⟩
    rw [List.map_cons, Eval.filterM_cons, Eval.run_bind_of_ok hrun, Eval.run_bind_of_ok hfilter]
    cases hk : keep i <;> simp [hk, Eval.run_pure]

/-- What a condition answers for the trees in some slots. -/
theorem exists_answers {cond : Value → Eval Bool} {ts : List Tree}
    (h : ∀ u ∈ ts, u.Decided edited s cond) : ∃ keep : Nat → Bool, ∀ i u, ts[i]? = some u →
      ∀ r, s.EditsOnly edited r → Lies r [u] → (cond u.value r).1 = .ok (keep i) := by
  have hslot (i : Nat) : ∃ b, ∀ u, ts[i]? = some u →
      ∀ r, s.EditsOnly edited r → Lies r [u] → (cond u.value r).1 = .ok b := by
    cases hi : ts[i]? with
    | none => exact ⟨false, nofun⟩
    | some u =>
      obtain ⟨b, hb⟩ := h u (List.mem_of_getElem? hi)
      refine ⟨b, fun u' hu' => ?_⟩
      cases hu'
      exact hb
  choose keep hkeep using hslot
  exact ⟨keep, hkeep⟩

/-! ### Segments -/

/-- A key, an attribute or a slot without doubles, maybe with a filter, under restrictions to kinds
and guards. -/
inductive Segment.Simple : Segment → Prop where
  | access {accessor : Accessor} {key : KeyPattern} {filter : Option Filter} {first : Bool}
    (hkey : key.HasNoDouble) : Simple (.access accessor key filter first)
  | restrict {inner : Segment} {kinds : KindRestriction} (h : Simple inner) :
    Simple (.restrict inner kinds)
  | guard {inner : Segment} {test : ValueTest} (h : Simple inner) : Simple (.guard inner test)

namespace Context

variable (ctx : Context)

/-- The conditions on the parts that a segment selects. -/
def conditions : Segment → List (Value → Eval Bool)
  | .access _ _ filter _ => [ctx.passes filter]
  | .restrict inner _ => conditions inner
  | .guard inner test => ctx.guardHolds test :: conditions inner
  | _ => []

/-- The segment selects some slots of a container in a tree, the same in all later stores in which
the tree lies. -/
def SelectsSlots (edited : List Handle) (seg : Segment) (s : Store) (h : Handle) (f : Form)
    (ts : List Tree) (is : List Nat) : Prop :=
  ∀ r, s.EditsOnly edited r → Lies r [.node h f ts] → ∃ (step : Nat → Step) (r' : Store),
    ctx.items seg (.ref h) r =
      (.ok (is.map fun i => (step i, (ts.map Tree.value).getD i .null)), r') ∧
    r.GrowsTo r' ∧ f.Picks r' ts.length is step

variable {ctx} {seg : Segment} {h : Handle} {ts : List Tree}

/-- The slots that a segment selects are there. -/
theorem SelectsSlots.lt (hlies : Lies s [.node h f ts])
    (hselects : ctx.SelectsSlots edited seg s h f ts is) : ∀ i ∈ is, i < ts.length := by
  obtain ⟨step, r, -, -, hpicks⟩ := hselects s (.refl edited s) hlies
  exact fun i hi => (hpicks.names i hi).1

theorem SelectsSlots.ascending (hlies : Lies s [.node h f ts])
    (hselects : ctx.SelectsSlots edited seg s h f ts is) : is.Pairwise (· < ·) := by
  obtain ⟨step, r, -, -, hpicks⟩ := hselects s (.refl edited s) hlies
  exact hpicks.ascending

/-- In a store after that in which a tree lies its parts have the answers that they had. -/
theorem answers_kept {cond : Value → Eval Bool} {keep : Nat → Bool}
    (hkeep : ∀ i u, ts[i]? = some u → ∀ r, s.EditsOnly edited r → Lies r [u] →
      (cond u.value r).1 = .ok (keep i))
    {r : Store} (hr : s.EditsOnly edited r) (hlies : Lies r [.node h f ts])
    (his : ∀ i ∈ is, i < ts.length) :
    ∀ i ∈ is, ∀ r', r.GrowsTo r' →
      (cond ((ts.map Tree.value).getD i .null) r').1 = .ok (keep i) := by
  intro i hi r' hr'
  obtain ⟨-, -, hparts, -⟩ := hlies.parts
  have hlt := his i hi
  have hvalue : (ts.map Tree.value).getD i .null = ts[i].value := by simp [hlt]
  rw [hvalue]
  exact hkeep i ts[i] (List.getElem?_eq_getElem hlt) r' (hr.trans (.of_grows hr'))
    ((Turns.of_grows hr' hparts).lies.of_mem (List.getElem_mem hlt))

/-- An access selects what its filter keeps. -/
theorem selectsSlots_access (hreg : ctx.registry.Grows) {accessor : Accessor} {key : KeyPattern}
    {filter : Option Filter} (first : Bool) (hkey : key.HasNoDouble)
    (hlies : Lies s [.node h f ts]) (hkeyed : f.Keyed s)
    (hdecided : ∀ u ∈ ts, u.Decided edited s (ctx.passes filter)) :
    ∃ is, ctx.SelectsSlots edited (.access accessor key filter first) s h f ts is := by
  obtain ⟨keep, hkeep⟩ := exists_answers hdecided
  -- the slots are told by the first store; the answers of the filter hold in all that follow
  refine ⟨firstOnly first ((f.slots s accessor key ts.length).filter keep), fun r hr hlies' => ?_⟩
  obtain ⟨hc, hsuits, -, -⟩ := hlies'.parts
  obtain ⟨-, hsuits₀, -, -⟩ := hlies.parts
  have hlength : (ts.map Tree.value).length = ts.length := List.length_map _
  have hslots : f.slots r accessor key ts.length = f.slots s accessor key ts.length :=
    Form.chosen_retains hr.retains hkeyed hsuits₀ false
  obtain ⟨label, t, hraw, hrt, hpicks⟩ :=
    candidates_fill accessor hkey hc (hlength ▸ hsuits) (hkeyed.retains hr.retains)
  rw [hlength, hslots] at hraw hpicks
  have hanswers := answers_kept hkeep (hr.trans (.of_grows hrt)) (Turns.of_grows hrt hlies').lies
    fun i hi => ((hpicks t).names i hi).1
  obtain ⟨u, hfilter, htu⟩ := Eval.filterM_map
    (fun e : Value × Value => ctx.passes filter e.2)
    (fun e => passes_grows hreg filter e.2)
    (fun i => (label i, (ts.map Tree.value).getD i .null)) hanswers
  have hkept := ((hpicks u).retains htu.retains).sublist
    ((firstOnly_sublist first _).trans (List.filter_sublist (p := keep)))
  refine ⟨fun i => accessor.step u (label i), u, ?_, hrt.trans htu, hkept⟩
  rw [items, Eval.run_bind_of_ok (Eval.run_lift _ r), hraw, filterItems,
    Eval.run_bind_of_ok hfilter, Eval.run_bind_of_ok (Eval.run_store u)]
  cases first with
  | false => simp [firstOnly, Eval.run_pure, Function.comp_def]
  | true => simp [firstOnly, Eval.run_pure, Function.comp_def]

/-- **A simple segment selects slots**, if its conditions are decided for what is in them. -/
theorem exists_selectsSlots (hreg : ctx.registry.Grows) (hseg : seg.Simple)
    (hlies : Lies s [.node h f ts]) (hkeyed : f.Keyed s)
    (hdecided : ∀ cond ∈ ctx.conditions seg, ∀ u ∈ ts, u.Decided edited s cond) :
    ∃ is, ctx.SelectsSlots edited seg s h f ts is := by
  induction hseg with
  | access hkey =>
    exact selectsSlots_access hreg _ hkey hlies hkeyed (hdecided _ (List.mem_singleton_self _))
  | @restrict inner kinds _ ih =>
    obtain ⟨is, hselects⟩ := ih hdecided
    have hkind (r : Store) (hlies' : Lies r [.node h f ts]) : r.kind (.ref h) = f.kind :=
      Form.kind_of_fill hlies'.parts.1
    -- edits of the parts do not change the kind of the container
    refine ⟨if kinds.admits f.kind then is else [], fun r hr hlies' => ?_⟩
    rw [items, Eval.run_bind_of_ok (Eval.run_store r), hkind r hlies']
    split
    · exact hselects r hr hlies'
    · exact ⟨f.step, r, rfl, .refl r, .nil r f _ _⟩
  | @guard inner test _ ih =>
    obtain ⟨hguard, hinner⟩ := List.forall_mem_cons.mp hdecided
    obtain ⟨is, hselects⟩ := ih hinner
    obtain ⟨keep, hkeep⟩ := exists_answers hguard
    refine ⟨is.filter keep, fun r hr hlies' => ?_⟩
    obtain ⟨step, t, hitems, hrt, hpicks⟩ := hselects r hr hlies'
    have hanswers := answers_kept hkeep (hr.trans (.of_grows hrt)) (Turns.of_grows hrt hlies').lies
      fun i hi => (hpicks.names i hi).1
    obtain ⟨u, hfilter, htu⟩ := Eval.filterM_map
      (fun p : Step × Value => ctx.guardHolds test p.2)
      (fun p => guardHolds_grows hreg test p.2)
      (fun i => (step i, (ts.map Tree.value).getD i .null)) hanswers
    refine ⟨step, u, ?_, hrt.trans htu, (hpicks.retains htu.retains).sublist List.filter_sublist⟩
    rw [items, Eval.run_bind_of_ok hitems]
    exact hfilter

end Context

end DottedPath
