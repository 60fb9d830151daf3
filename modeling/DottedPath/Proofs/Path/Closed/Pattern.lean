import DottedPath.Proofs.Path.Closed.Token

/-!
# Value patterns before a closing parenthesis

A value pattern that is a group may take the parenthesis as its own; without it the group is not
closed, and the pattern fails.

## Main statements

- `valuePattern_closed`: patterns nested in each other, by induction on the number of characters.
- `comparedPattern_closed`: the pattern after a comparison.
-/

namespace DottedPath.Parse

variable {cs : List Char} {n : Nat}

/-! ### Text globs -/

theorem globBounds_closed (inDict : Bool) (g : Glob) (hcs : cs.length ≤ n) :
    At never (Within n) cs (globBounds inDict g) fun _ => globBounds inDict g := by
  unfold globBounds
  refine .get ((count_closed hcs).bind_never fun low r hr => ?_)
  cases low with
  | none => exact .set (.pure hcs)
  | some low =>
    refine .get (.eat (by decide) (fun r' hr' => ?_) fun _ => .pure hr)
    subst hr'
    refine (count_closed (Nat.le_of_succ_le hr)).bind_never fun high r' hr' => ?_
    cases high with
    | some high => exact .pure hr'
    | none =>
      dsimp only
      split
      · exact .set (.pure hr)
      · exact .pure hr'

theorem globTail_closed (inDict : Bool) (hcs : cs.length ≤ n) :
    At never (Within n) cs (globTail inDict) fun _ => globTail inDict := by
  unfold globTail
  refine .peek (fun hcs' => ?_) fun c r hcs' => ?_
  · exact globBounds_closed inDict _ (Nat.zero_le n)
  · rw [← hcs']
    dsimp only
    split
    · refine (regex_closed hcs).bind_never fun re r hr => ?_
      exact globBounds_closed inDict _ hr
    · exact globBounds_closed inDict _ hcs

variable {β : Type} {lag : Lag} {fits : β → List Char → Prop} {k : Bool → Parse β}
  {K : Nat → Bool → Parse β}

/-- A quote, or a `b` and a quote, is looked for. -/
theorem fragmentAhead_closed (h : ∀ ahead, At lag fits cs (k ahead) fun m => K m ahead) :
    At lag fits cs (fragmentAhead >>= k) fun m => fragmentAhead >>= K m := by
  have hrun (cs : List Char) : fragmentAhead cs = .ok
      (cs[0]?.any isQuote || (cs.head? == some 'b' && cs[1]?.any isQuote), cs) := rfl
  refine .test (hrun cs) ?_ (h _)
  rw [hrun, head?_closed_beq (by decide), any_isQuote_closed, any_isQuote_closed]

theorem globPart_closed (afterFragment : Bool) (hcs : cs.length ≤ n) :
    At never (Item n) cs (globPart afterFragment) fun _ => globPart afterFragment := by
  unfold globPart
  refine .eatText (by decide) (fun r hr => ?_) ?_
  · subst hr
    have hlt : r.length < n := by simp at hcs; omega
    refine (globTail_closed false (Nat.le_refl r.length)).map _ fun _ r' hr' => ?_
    exact Nat.lt_of_le_of_lt hr' hlt
  · simp only [Bool.false_eq_true, if_false]
    split
    · exact .pure hcs
    · refine (At.quoteAt 0 hcs).bind_never fun quoted r hr => ?_
      split
      · exact (quotedText_closed hr).map _ fun _ _ h => h
      · refine bytesAhead_closed (fun r' hr' => ?_) (.pure hr)
        subst hr'
        exact (quotedBytes_closed hr).map _ fun _ _ h => h

theorem globPartsWithin_closed : ∀ {p q : Nat} {cs : List Char} (afterFragment : Bool),
    cs.length ≤ n → cs.length < p → cs.length + 1 < q →
    At never (Within n) cs (globPartsWithin afterFragment p)
      fun _ => globPartsWithin afterFragment q
  | p + 1, q + 1, cs, afterFragment, hcs, hp, hq => by
    refine (globPart_closed afterFragment (Nat.le_refl cs.length)).bind_never fun part r hr => ?_
    cases part with
    | none => exact .pure (Nat.le_trans hr hcs)
    | some part =>
      have hlt : r.length < cs.length := hr
      exact (globPartsWithin_closed _ (by omega) (by omega) (by omega)).mapWithin _

theorem textPattern_closed (before : List GlobPart) (hcs : cs.length ≤ n) :
    At never (Within n) cs (textPattern before) fun _ => textPattern before := by
  unfold textPattern
  refine .get ?_
  rw [length_closed]
  refine (globPartsWithin_closed false hcs (Nat.lt_succ_self _) (Nat.lt_succ_self _)).bind_never
    fun parts r hr => ?_
  split
  · exact .fail _ _
  · cases GlobPart.valuePattern? _ with
    | none => exact .fail _ _
    | some p => exact .pure hr

/-! ### Elements and entries -/

section Nested

variable {N : Nat} {inner : Parse ValuePattern} {inner' : Nat → Parse ValuePattern}
  (hinner : Sim N failing inner inner')

include hinner

theorem element_closed : Sim N failing (element inner) fun m => element (inner' m) := by
  intro cs n hcs hn
  refine .eatText (by decide) (fun r hr => ?_) ?_
  · subst hr
    have hle : r.length ≤ n := by simp at hcs; omega
    refine (globTail_closed false hle).bind_never fun g r hr => fragmentAhead_closed fun ahead => ?_
    split
    · exact (textPattern_closed _ hr).of_never.mapWithin _
    · exact .pure hr
  · exact (hinner cs n hcs hn).mapWithin _

theorem elements_closed {close : Char} (hclose : close ≠ ')') :
    Sim N failing (elements inner close) fun m => elements (inner' m) close := by
  intro cs n hcs hn
  refine (At.skipBlanks hcs).bind_never fun _ r hr => ?_
  refine .eat hclose (fun r' hr' => ?_) fun _ => ?_
  · subst hr'
    exact .pure (Nat.le_of_succ_le hr)
  · refine ((element_closed hinner).separated (by decide) r n hr hn).bind_failing
      (fun es r hr => ?_) leaving_none fun es => .inr ⟨_, fun _ => rfl⟩
    refine (At.skipBlanks hr).bind_never fun _ r hr => .expect hclose fun r' hr' => ?_
    subst hr'
    exact .pure (Nat.le_of_succ_le hr)

/-- Elements between brackets. -/
theorem bracketed_closed {first last : Char} (hfirst : first ≠ ')') (hlast : last ≠ ')')
    (f : List Element → ValuePattern) :
    Sim (N + 1) failing (do expect first; pure (f (← elements inner last)))
      (fun m => do expect first; pure (f (← elements (inner' m) last))) := by
  intro cs n hcs hn
  refine .expect hfirst fun r hr => ?_
  subst hr
  have hr : r.length ≤ n - 1 := Nat.le_sub_one_of_lt hcs
  exact (elements_closed hinner hlast r (n - 1) hr (by omega)).map _
    fun _ _ h => Nat.le_trans h (Nat.sub_le n 1)

theorem sequencePattern_closed (kind : SequenceKind) :
    Sim (N + 1) failing (sequencePattern inner kind) fun m => sequencePattern (inner' m) kind :=
  bracketed_closed hinner (by decide : '[' ≠ ')') (by decide : ']' ≠ ')') _

theorem setPattern_closed (kind : SetKind) :
    Sim (N + 1) failing (setPattern inner kind) fun m => setPattern (inner' m) kind :=
  bracketed_closed hinner (by decide : '\x7b' ≠ ')') (by decide : '\x7d' ≠ ')') _

theorem entryKey_closed : Sim N failing (entryKey inner) fun m => entryKey (inner' m) := by
  intro cs n hcs hn
  refine .eatText (by decide) (fun r hr => ?_) ?_
  · subst hr
    have hle : r.length ≤ n := by simp at hcs; omega
    exact (globTail_closed true hle).of_never.mapWithin _
  · exact (hinner cs n hcs hn).mapWithin _

theorem entry_closed : Sim N failing (entry inner) fun m => entry (inner' m) := by
  intro cs n hcs hn
  refine (entryKey_closed hinner cs n hcs hn).bind_failing (fun key mid hmid => ?_) leaving_none
    fun key => ?_
  · have hvalue (r : List Char) (hr : r.length ≤ n) (f : ValuePattern → Entry) :
        At failing (Within n) r (do skipBlanks; pure (f (← inner)))
          (fun m => do skipBlanks; pure (f (← inner' m))) := by
      refine (At.skipBlanks hr).bind_never fun _ r' hr' => ?_
      exact (hinner r' n hr' hn).mapWithin _
    refine (At.skipBlanks hmid).bind_never fun _ r hr => ?_
    cases key with
    | glob g =>
      refine .eat (by decide) (fun r' hr' => ?_) fun _ => .pure hr
      subst hr'
      exact hvalue r' (Nat.le_of_succ_le hr) fun p => .glob g (some p)
    | value k =>
      refine .expect (by decide) fun r' hr' => ?_
      subst hr'
      exact hvalue r' (Nat.le_of_succ_le hr) (.pair k)
  · cases key with
    | glob g => exact .inl ⟨_, fun _ => rfl⟩
    | value k => exact .inr ⟨_, fun _ => rfl⟩

theorem dictPattern_closed (marked : Bool) :
    Sim (N + 1) failing (dictPattern inner marked) fun m => dictPattern (inner' m) marked := by
  intro cs n hcs hn
  refine .expect (by decide) fun r hr => ?_
  subst hr
  refine (At.skipBlanks (Nat.le_sub_one_of_lt hcs)).bind_never fun _ r hr => ?_
  have hr : r.length ≤ n - 1 := hr
  refine .eat (by decide) (fun r' hr' => .pure ?_) fun _ => ?_
  · subst hr'
    simp only [List.length_cons] at hr
    exact Nat.le_trans (Nat.le_of_succ_le hr) (Nat.sub_le n 1)
  · refine ((entry_closed hinner).separated (by decide) r (n - 1) hr (by omega)).bind_failing
      (fun es r hr => ?_) leaving_none fun es => .inr ⟨_, fun _ => rfl⟩
    refine (At.skipBlanks hr).bind_never fun _ r hr => .expect (by decide) fun r' hr' => .pure ?_
    subst hr'
    exact Nat.le_trans (Nat.le_of_succ_le hr) (Nat.sub_le n 1)

/-- Whether an entry comes next does not depend on the parenthesis: where a key takes it no colon
follows. -/
theorem entryAhead_closed : Sim N never (entryAhead inner) fun m => entryAhead (inner' m) := by
  intro cs n hcs hn
  refine .get (.attempt_bind (entryKey_closed hinner cs n hcs hn) (fun key r hr => ?_) ?_
    (fun _ key => ⟨_, fun _ => rfl, .same hcs⟩) fun _ _ r hlag => (hlag r rfl).elim)
  · refine (At.skipBlanks hr).bind_never fun _ r hr => ?_
    exact .peek (fun _ => .set (.pure hcs)) fun _ _ _ => .set (.pure hcs)
  · refine (At.skipBlanks hcs).bind_never fun _ r hr => ?_
    exact .peek (fun _ => .set (.pure hcs)) fun _ _ _ => .set (.pure hcs)

theorem bracePattern_closed :
    Sim (N + 1) failing (bracePattern inner) fun m => bracePattern (inner' m) := by
  intro cs n hcs hn
  refine .get (.expect (by decide) fun r hr => ?_)
  refine (At.skipBlanks (n := n - 1) ?_).bind_never fun _ r' hr' => ?_
  · rw [hr] at hcs
    exact Nat.le_sub_one_of_lt hcs
  · have htail (isDict : Bool) : At failing (Within n) cs
        (if isDict then dictPattern inner false else setPattern inner .any)
        fun m => if isDict then dictPattern (inner' m) false else setPattern (inner' m) .any := by
      cases isDict with
      | true => exact dictPattern_closed hinner false cs n hcs hn
      | false => exact setPattern_closed hinner .any cs n hcs hn
    refine .peek (fun hnil => ?_) fun c r'' hcons => ?_
    · refine (entryAhead_closed hinner [] (n - 1) (Nat.zero_le _) (by omega)).bind_never
        fun ahead _ _ => .set (htail ahead)
    · rw [← hcons]
      refine (entryAhead_closed hinner r' (n - 1) hr' (by omega)).bind_never
        fun ahead _ _ => .set (htail _)

theorem patternGroup_closed :
    Sim (N + 1) failing (patternGroup inner) fun m => patternGroup (inner' m) := by
  intro cs n hcs hn
  refine .expect (by decide) fun r hr => ?_
  subst hr
  have hr : r.length ≤ n - 1 := Nat.le_sub_one_of_lt hcs
  refine (hinner.separated (by decide) r (n - 1) hr (by omega)).bind_failing (fun ps r hr => ?_)
    leaving_none fun ps => .inr ⟨_, fun _ => rfl⟩
  refine .expect_close (fun r' hr' => .pure ?_) leaving_none ⟨_, fun _ => rfl⟩
  subst hr'
  exact Nat.le_trans (Nat.le_of_succ_le hr) (Nat.sub_le n 1)

theorem valuePatternStep_closed :
    Sim (N + 1) failing (valuePatternStep inner) fun m => valuePatternStep (inner' m) := by
  intro cs n hcs hn
  refine .get ?_
  split
  · rename_i r
    exact .skip (.pure (Nat.le_of_succ_le hcs))
  · exact (regex_closed hcs).of_never.mapWithin _
  · exact patternGroup_closed hinner _ n hcs hn
  · exact sequencePattern_closed hinner .any _ n hcs hn
  · exact bracePattern_closed hinner _ n hcs hn
  · exact .skip (sequencePattern_closed hinner .list _ n (Nat.le_of_succ_le hcs) hn)
  · exact .skip (sequencePattern_closed hinner .tuple _ n (Nat.le_of_succ_le hcs) hn)
  · exact .skip (dictPattern_closed hinner true _ n (Nat.le_of_succ_le hcs) hn)
  · exact .skip (setPattern_closed hinner .set _ n (Nat.le_of_succ_le hcs) hn)
  · have hset := setPattern_closed hinner .frozenset ('\x7b' :: _) n
      (Nat.le_of_succ_le (Nat.le_of_succ_le hcs)) hn
    exact hset
  · -- the parenthesis begins none of the other patterns either
    rename_i hstar hslash hparen hbracket hbrace hl ht hd hs hfs
    split <;> rename_i h
    · exact (append_of_closed ['*'] (by decide) h).elim fun _ h => (hstar _ h).elim
    · exact (append_of_closed ['/'] (by decide) h).elim fun _ h => (hslash _ h).elim
    · exact (append_of_closed ['('] (by decide) h).elim fun _ h => (hparen _ h).elim
    · exact (append_of_closed ['['] (by decide) h).elim fun _ h => (hbracket _ h).elim
    · exact (append_of_closed ['\x7b'] (by decide) h).elim fun _ h => (hbrace _ h).elim
    · exact (append_of_closed ['l', '['] (by decide) h).elim fun _ h => (hl _ h).elim
    · exact (append_of_closed ['t', '['] (by decide) h).elim fun _ h => (ht _ h).elim
    · exact (append_of_closed ['d', '\x7b'] (by decide) h).elim fun _ h => (hd _ h).elim
    · exact (append_of_closed ['s', '\x7b'] (by decide) h).elim fun _ h => (hs _ h).elim
    · exact (append_of_closed ['f', 's', '\x7b'] (by decide) h).elim fun _ h => (hfs _ h).elim
    · refine numberAhead_closed (fun r hr => ?_) (fragmentAhead_closed fun ahead => ?_)
      · exact (keyLiteral_closed hcs).mapWithin _
      · refine (At.lookingAt (by decide) hcs).bind_never fun dots r hr => ?_
        split
        · exact (textPattern_closed [] hr).of_never
        · exact (valueWord_closed hr).mapWithin _

end Nested

/-! ### Value patterns -/

theorem valuePatternWithin_closed : ∀ {N p q : Nat}, N < p → N + 1 < q →
    Sim N failing (valuePatternWithin p) fun _ => valuePatternWithin q
  | 0, p + 1, q + 1, _, _ => by
    intro cs n hcs hn
    obtain rfl := List.length_eq_zero_iff.mp (Nat.le_zero.mp (Nat.le_trans hcs hn))
    exact .error rfl fun _ => rfl
  | N + 1, p + 1, q + 1, hp, hq =>
    valuePatternStep_closed (valuePatternWithin_closed (by omega) (by omega))

theorem valuePattern_closed (hcs : cs.length ≤ n) :
    At failing (Within n) cs valuePattern fun _ => valuePattern := by
  refine .get ?_
  rw [length_closed]
  exact (valuePatternWithin_closed (Nat.lt_succ_self _) (Nat.lt_succ_self _) cs cs.length
    (Nat.le_refl _) (Nat.le_refl _)).imp fun _ _ h => Nat.le_trans h hcs

/-! ### Comparisons -/

theorem comparison_closed (hcs : cs.length ≤ n) :
    At never (Within n) cs comparison fun _ => comparison := by
  have hfind : Comparison.all.find? (fun op => op.symbol.toList.isPrefixOf (closed cs)) =
      Comparison.all.find? fun op => op.symbol.toList.isPrefixOf cs := by
    congr 1
    funext op
    exact isPrefixOf_closed (by cases op <;> decide) cs
  unfold comparison
  refine .get ?_
  rw [hfind]
  cases hop : Comparison.all.find? fun op => op.symbol.toList.isPrefixOf cs with
  | none => exact .pure hcs
  | some op =>
    have hprefix : op.symbol.toList.isPrefixOf cs = true := by simpa using List.find?_some hop
    obtain ⟨r, rfl⟩ := List.isPrefixOf_iff_prefix.mp hprefix
    have hskip (r : List Char) : (op.symbol.toList ++ r).drop op.symbol.length = r := by
      rw [← String.length_toList, List.drop_left]
    have hle : r.length ≤ n := by
      rw [List.length_append] at hcs
      omega
    refine .ok (congrArg (fun r => Except.ok (some op, r)) (hskip r)) (fun _ => ?_) hle
    rw [closed, List.append_assoc]
    exact congrArg (fun r => Except.ok (some op, r)) (hskip (closed r))

theorem comparedPattern_closed (op : Comparison) (hcs : cs.length ≤ n) :
    At failing (Within n) cs (comparedPattern op) fun _ => comparedPattern op := by
  refine .get ((valuePattern_closed hcs).bind_failing (fun p r hr => ?_) leaving_none fun p => ?_)
  · dsimp only
    split
    · exact .failAt _ _ _ _
    · exact .pure hr
  · dsimp only
    split
    · exact .inr ⟨_, fun _ => rfl⟩
    · exact .inl ⟨_, fun _ => rfl⟩

/-- A comparison is read, and what comes after it. -/
theorem compared_closed {β : Type} {k : Option Comparison → Parse β}
    {K : Nat → Option Comparison → Parse β} (hcs : cs.length ≤ n)
    (hnone : ∀ r, r.length ≤ n → At failing (Within n) r (k none) fun m => K m none)
    (hsome : ∀ op r, r.length ≤ n → At failing (Within n) r (k (some op)) fun m => K m (some op)) :
    At failing (Within n) cs (comparison >>= k) fun m => comparison >>= K m := by
  refine (comparison_closed hcs).bind_never fun op r hr => ?_
  cases op with
  | none => exact hnone r hr
  | some op => exact hsome op r hr

end DottedPath.Parse
