import DottedPath.Proofs.Evaluate.PlainRead
import DottedPath.Proofs.Path.PathText
import DottedPath.Proofs.Query.KeyRuns

/-!
# Expanded paths match

The texts that a plain pattern expands to are matched by the pattern.  The reading of values shares
a location out among the segments (`Segment.TakeAll`), the text of the location is read back as one
segment for each step, and the matcher finds some way to cut these into runs since there is one.

## Main statements

- `Store.cuts_of_takeAll`: what the reading shares out the matcher can cut into runs.
- `PathExpression.parse_text_of_plain`: the text of a plain location is read back.
- `Context.expand_matches`: each text that a plain pattern expands to matches it.
-/

namespace DottedPath

/-! ### Matching segments -/

namespace Store

variable {s : Store}

/-- The segment of a plain step names a literal. -/
theorem keyLiteral?_of_plain {step : Step} (h : step.Plain) :
    ∃ l, (step.segment s).keyLiteral? = some l := by
  cases h with
  | key => exact ⟨_, rfl⟩
  | slot => exact ⟨_, rfl⟩
  | index => exact ⟨_, rfl⟩

/-- A step that an access takes is matched by it. -/
theorem segmentMatches_of_takes {accessor : Accessor} {p : KeyPattern} (first : Bool) {x : Scalar}
    (haccessor : accessor ≠ .attr) (htaken : s.keyMatches p (.scalar x) = true) :
    s.segmentMatches (.access accessor p none first)
      ((accessor.keyStep (.scalar x)).segment s) = true := by
  have hliteral : s.literalMatches p (.scalar x) = true := htaken
  cases accessor with
  | attr => exact absurd rfl haccessor
  | key =>
    show (Accessor.key == Accessor.key && s.literalMatches p (.scalar x)) = true
    rw [hliteral]
    rfl
  | slot =>
    show (Accessor.slot == Accessor.slot && s.literalMatches p (.scalar x)) = true
    rw [hliteral]
    rfl

/-- Every level of a descent without a window matches a plain step. -/
theorem levelMatches_of_plain (first : Bool) {step : Step} (h : step.Plain) (depth : Nat) :
    s.levelMatches ⟨.wildcard, [], .unbounded, none, first⟩ (step.segment s) depth = true := by
  obtain ⟨l, hl⟩ := keyLiteral?_of_plain (s := s) h
  show (true && (step.segment s).keyLiteral?.any (s.literalMatches .wildcard)) = true
  rw [hl]
  rfl

/-- A segment of a pattern takes the run of segments of what it takes of a location. -/
theorem takesRun_of_takes {seg : Segment} {run : Location} (h : seg.Takes s run) :
    s.TakesRun seg (run.path s) := by
  cases h with
  | @access accessor p first x haccessor _ htaken =>
    exact .single rfl (segmentMatches_of_takes first haccessor htaken)
  | @descent first run hne hplain =>
    refine .descent rfl (by simpa [Location.path] using hne) fun i k hk => ?_
    obtain ⟨step, hstep, rfl⟩ := List.mem_map.mp (List.mem_of_getElem? hk)
    exact levelMatches_of_plain first (hplain step hstep) i

/-- Segments that share out a location cut its path into runs. -/
theorem cuts_of_takeAll {segs : List Segment} {l : Location} (h : Segment.TakeAll s segs l) :
    ∃ runs, s.Cuts segs (l.path s) runs := by
  induction h with
  | nil => exact ⟨[], .nil, rfl⟩
  | @cons seg segs run rest htakes _ ih =>
    obtain ⟨runs, hruns⟩ := ih
    have hpath : Location.path s (run ++ rest) = run.path s ++ rest.path s := List.map_append
    exact ⟨run.path s :: runs, hpath ▸ hruns.cons (takesRun_of_takes htakes)⟩

end Store

/-! ### Texts of locations -/

/-- The segment of a plain step is read back. -/
theorem Step.Plain.segment {s : Store} {step : Step} (h : step.Plain) : (step.segment s).Plain := by
  have hkey {l : Literal} (hl : l.Readable) : (Segment.literal .key l).Plain :=
    .body (.part (.key (.literal hl) (by rintro ⟨⟩)) .none)
  have hslot {l : Literal} (hl : l.Readable)
      (hminus : ∀ text, l = .str text → (Parse.keyToken text).head? ≠ some '-') :
      (Segment.literal .slot l).Plain :=
    .body (.part (.slot (.literal hl) (fun text he => hminus text (KeyPattern.literal.inj he))
      (by rintro ⟨⟩)) .none)
  cases h with
  | key h =>
    cases h with
    | int _ hfits => exact hkey (.int hfits)
    | str h => exact hkey (.text h.readable)
  | slot h =>
    cases h with
    | int _ hfits => exact hslot (.int hfits) (by rintro _ ⟨⟩)
    | str h => exact hslot (.text h.readable) (by rintro _ ⟨⟩; exact h.keyToken_no_minus)
  | index hfits => exact hslot (.int hfits) (by rintro _ ⟨⟩)

/-- At the start of a path the text of a plain step begins with no minus sign. -/
theorem Step.Plain.no_minus {s : Store} {step : Step} (h : step.Plain) :
    ((step.segment s).textIn true false).toList.head? ≠ some '-' := by
  have hkey (l : Literal) : ((Segment.literal .key l).textIn true false).toList =
      (l.normalize true).toList := by
    rw [Segment.literal, Parse.toList_textIn_key, Parse.accessChars_literal]
    rfl
  have hslot (l : Literal) : ((Segment.literal .slot l).textIn true false).toList.head? ≠
      some '-' := by
    rw [Segment.literal, Segment.textIn, Parse.toList_bracketed]
    rintro ⟨⟩
  cases h with
  | slot => exact hslot _
  | index => exact hslot _
  | key h =>
    cases h with
    | @int i h0 _ =>
      obtain ⟨c, cs, hcs, hdigit⟩ := Decimal.natDigits_eq_cons i.natAbs
      have htext := Decimal.toList_intText i
      rw [Decimal.minus, if_neg (by omega), List.nil_append, hcs] at htext
      show ((Segment.literal .key (.int i)).textIn true false).toList.head? ≠ some '-'
      rw [hkey, Parse.normalize_int, htext]
      rintro ⟨⟩
      exact absurd hdigit (by decide)
    | @str key h =>
      show ((Segment.literal .key (.str key)).textIn true false).toList.head? ≠ some '-'
      rw [hkey, Parse.toList_normalize_str]
      exact h.keyToken_no_minus

/-- The text of a plain location names all of its steps. -/
theorem Location.text_of_plain {s : Store} {l : Location} (h : ∀ step ∈ l, step.Plain) :
    l.text s = pathText (l.path s) := by
  have hsteps : l.filter (fun step => !step.isRoot) = l := by
    refine List.filter_eq_self.mpr fun step hstep => ?_
    cases h step hstep <;> rfl
  have hlast : l.getLast?.any Step.isFullSlice = false := by
    cases hstep : l.getLast? with
    | none => rfl
    | some step => cases h step (List.mem_of_getLast? hstep) <;> rfl
  rw [Location.text, hsteps, hlast, Bool.and_false]
  rfl

/-- **The text of a plain location is read back as its steps.** -/
theorem PathExpression.parse_text_of_plain {s : Store} {l : Location} (hne : l ≠ [])
    (h : ∀ step ∈ l, step.Plain) : PathExpression.parse (l.text s) = .ok ⟨l.path s, []⟩ := by
  rw [Location.text_of_plain h]
  refine PathExpression.parse_pathText (by simpa [Location.path] using hne) (fun seg hseg => ?_) ?_
  · obtain ⟨step, hstep, rfl⟩ := List.mem_map.mp hseg
    exact (h step hstep).segment
  · obtain ⟨step, l, rfl⟩ := List.exists_cons_of_ne_nil hne
    have hstep := h step (List.mem_cons_self ..)
    obtain ⟨c, cs, hcs, -⟩ := (hstep.segment (s := s)).exists_cons true
    have hno := hstep.no_minus (s := s)
    show (pathText (step.segment s :: Location.path s l)).toList.head? ≠ some '-'
    rw [pathText, toList_textsIn_cons hstep.segment, hcs]
    rw [hcs] at hno
    exact hno

/-! ### Expansion -/

namespace Context

variable {ctx : Context} {s : Store}

/-- A path expands to the texts of the places that it names. -/
theorem expand_of_find {root : Value} {path : String} {e : PathExpression} {found : List Found}
    {t : Store} (hparse : PathExpression.parse path = .ok e)
    (hfind : ctx.find e.segments root s = (.ok found, t)) :
    ∃ texts, ctx.expand root path s = (.ok texts, t) ∧
      ∀ text ∈ texts, ∃ p ∈ found, text = p.1.text t := by
  -- texts are collected without repetition, so the invariant speaks of all that are seen
  have hcollect : ∀ (found : List Found) (seen : List String),
      ∀ text ∈ found.foldl (fun seen (p : Found) =>
          if seen.contains (p.1.text t) then seen else seen ++ [p.1.text t]) seen,
        text ∈ seen ∨ ∃ p ∈ found, text = p.1.text t := by
    intro found
    induction found with
    | nil => exact fun seen text htext => .inl htext
    | cons p found ih =>
      intro seen text htext
      rw [List.foldl_cons] at htext
      rcases ih _ text htext with hseen | ⟨q, hq, rfl⟩
      · split at hseen
        · exact .inl hseen
        · rcases List.mem_append.mp hseen with hseen | hseen
          · exact .inl hseen
          · exact .inr ⟨p, List.mem_cons_self .., List.mem_singleton.mp hseen⟩
      · exact .inr ⟨q, List.mem_cons_of_mem _ hq, rfl⟩
  refine ⟨_, ?_, fun text htext => (hcollect found [] text htext).resolve_left List.not_mem_nil⟩
  show ([path].foldlM _ [] : Eval (List String)) s = _
  rw [List.foldlM_cons]
  refine Eval.run_bind_of_ok (f := fun seen => List.foldlM _ seen []) ?_
  rw [Eval.run_bind_of_ok (readPath_of_parse hparse), Eval.run_bind_of_ok hfind,
    Eval.run_bind_of_ok (Eval.run_store t)]
  rfl

/-- **Text matching agrees with evaluation.**  In a legible graph a plain pattern expands well, and
each of the texts that it expands to is matched by the pattern as a whole. -/
theorem expand_matches (ctx : Context) {root : Value} {path : String} {e : PathExpression}
    (hroot : s.Legible root) (hparse : PathExpression.parse path = .ok e)
    (hsegs : ∀ seg ∈ e.segments, seg.PlainPattern) :
    ∃ texts, ctx.expand root path s = (.ok texts, s) ∧
      ∀ text ∈ texts, ∃ m, matchPath? path text false s = (.ok (some m), s) := by
  obtain ⟨found, hwalk, hfound⟩ := walkPath_finds ctx hsegs [] root hroot
  have hfind : ctx.find e.segments root s = (.ok found, s) := by
    rw [find, Eval.run_bind_of_ok hwalk]
    rfl
  obtain ⟨texts, hexpand, htexts⟩ := expand_of_find hparse hfind
  refine ⟨texts, hexpand, fun text htext => ?_⟩
  obtain ⟨p, hp, rfl⟩ := htexts text htext
  obtain ⟨l, hl, htakes⟩ := hfound p hp
  rw [List.nil_append] at hl
  have hne := PathExpression.segments_ne_nil hparse
  have hread := PathExpression.parse_text_of_plain (s := s) (htakes.ne_nil hne) htakes.plain
  obtain ⟨runs, hcuts⟩ := Store.cuts_of_takeAll htakes
  obtain ⟨runs, hruns⟩ := Option.isSome_iff_exists.mp (hcuts.matchRuns_isSome hne)
  refine ⟨⟨p.1.text s, runs.map pathText⟩, ?_⟩
  rw [hl, matchPath?, Eval.run_bind_of_ok (readPath_of_parse hparse),
    Eval.run_bind_of_ok (readPath_of_parse hread), Eval.run_bind_of_ok (Eval.run_store s), hruns]
  rfl

end Context

/-- Below a list and a dict that hold each other. -/
theorem expand_matches_cycle :
    let ctx : Context := ⟨.builtin, false⟩
    let texts := ["[0][up]", "[0].up[0]", "[0].up[1]"]
    ctx.expand (.ref ⟨0⟩) "**[*]" cyclicStore = (.ok texts, cyclicStore) ∧
      ∀ text ∈ texts, ∃ m, matchPath? "**[*]" text false cyclicStore =
        (.ok (some m), cyclicStore) := by
  have hreached (x : Value) (hx : cyclicStore.Reaches (.ref ⟨0⟩) x) :
      x = .ref ⟨0⟩ ∨ x = .ref ⟨1⟩ ∨ x = .int 5 ∨ x = .str "up" := by
    refine hx.of_closed (P := fun x => x = .ref ⟨0⟩ ∨ x = .ref ⟨1⟩ ∨ x = .int 5 ∨ x = .str "up")
      (.inl rfl) fun y z hy hpart => ?_
    obtain ⟨c, hc, hz⟩ := hpart
    rcases hy with rfl | rfl | rfl | rfl
    · cases hc
      rcases List.mem_cons.mp hz with rfl | hz
      · exact .inr (.inl rfl)
      · exact .inr (.inr (.inl (List.mem_singleton.mp hz)))
    · cases hc
      rcases List.mem_cons.mp hz with rfl | hz
      · exact .inr (.inr (.inr rfl))
      · exact .inl (List.mem_singleton.mp hz)
    · cases hc
    · cases hc
  have hlegible : cyclicStore.Legible (.ref ⟨0⟩) := by
    constructor
    · intro x es hx hc e he
      rcases hreached x hx with rfl | rfl | rfl | rfl
      · cases hc
      · cases hc
        cases List.mem_singleton.mp he
        exact ⟨_, rfl, .str (by decide)⟩
      · cases hc
      · cases hc
    · intro x hx
      rcases hreached x hx with rfl | rfl | rfl | rfl
      · exact of_decide_eq_true rfl
      · exact Nat.zero_le _
      · exact Nat.zero_le _
      · exact of_decide_eq_true rfl
  have hsegs : ∀ seg ∈ [Segment.recursive .wildcard [] .unbounded none false,
      .access .slot .wildcard none false], seg.PlainPattern := by
    simp only [List.forall_mem_cons]
    exact ⟨.descent false, .slot nofun, nofun⟩
  have hparse : PathExpression.parse "**[*]" = .ok ⟨_, []⟩ := rfl
  obtain ⟨texts, hexpand, htexts⟩ :=
    Context.expand_matches ⟨.builtin, false⟩ hlegible hparse hsegs
  cases hexpand
  exact ⟨rfl, htexts⟩

end DottedPath
