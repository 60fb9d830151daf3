import DottedPath.Proofs.Path.Closed.Pattern
import DottedPath.Proofs.Path.Unbounded.Basic

/-!
# Tokens and value patterns come to an end

A token is read without anything nested in it.  So what there is to say about its reader is that it
agrees with itself: it leaves no more characters than there were, and where it fails it does so
inside the text, also where it reports the place at which it began.

The chains of transforms repeat calls, and the calls arguments.  Both come to an end, since a call
takes its bar and an argument its colon.  A value pattern that has others in it starts with a
parenthesis, a bracket or a brace, so the patterns inside are read from a shorter text.  This is so
where braces are looked into first, to see whether they hold the entries of a dict, and again after
the reader has gone back to the brace.

## Main statements

- `terminates_transforms`, `terminates_arguments`: chains of transforms end.
- `terminates_valuePattern`, `terminates_globParts`: value patterns and the globs in texts end.
- `Agree.suffixes`: restrictions and guards stay inside the text.
-/

namespace DottedPath.Parse

variable {n : Nat}

/-! ### Words, quoted texts and expressions -/

theorem inside_wordFrom (numeric : Bool) (taken : List Char) (escaped : Bool) {cs : List Char}
    (hcs : cs.length ≤ n) : Inside n (wordFrom numeric taken escaped cs) := by
  fun_induction wordFrom numeric taken escaped cs with
  | case1 taken escaped => exact hcs
  | case2 taken escaped =>
    -- a backslash at the end is reported at the end
    exact Nat.zero_le n
  | case3 taken escaped c cs ih => exact ih (by simp at hcs; omega)
  | case4 taken escaped c cs hnil hcons hc ih => exact ih (Nat.le_of_succ_le hcs)
  | case5 taken escaped c cs hnil hcons hc hplus ih => exact ih (Nat.le_of_succ_le hcs)
  | case6 taken escaped c cs hnil hcons hc hplus => exact hcs

namespace Agree

theorem word : Agree n word word := by
  refine .get fun start hstart => .bind ?_ fun p => ?_
  · exact fun cs hcs => ⟨rfl, inside_wordFrom _ _ _ hcs⟩
  · exact .ite (.bind (.failAt _ hstart) fun _ => .pure _) (.pure _)

theorem quotedText : Agree n quotedText quotedText := by
  refine .get fun start hstart => ?_
  cases start with
  | nil => exact .fail _
  | cons q cs =>
    refine .ite ?_ (.failAt _ (Nat.le_of_succ_le hstart))
    cases hrun : quotedFrom q [] cs with
    | none => exact .failAt _ hstart
    | some p =>
      have hrest : p.2.length ≤ cs.length := length_quotedFrom_le hrun
      exact .set (Nat.le_trans hrest (Nat.le_of_succ_le hstart)) (.pure _)

theorem regex : Agree n regex regex := by
  refine .get fun start hstart => .bind (.expect _) fun _ => .get fun cs hcs => ?_
  cases hrun : regexFrom [] cs with
  | none => exact .failAt _ hstart
  | some p =>
    refine .set (Nat.le_trans (length_regexFrom_le hrun) hcs) ?_
    dsimp only
    split
    · exact .pure _
    · exact .failAt _ hstart

theorem quoteAt (offset : Nat) : Agree n (quoteAt offset) (Parse.quoteAt offset) :=
  .get fun _ _ => .pure _

theorem bytesAhead : Agree n bytesAhead bytesAhead :=
  .bind .peek fun _ => .map (.quoteAt 1) _

theorem numberAhead : Agree n numberAhead numberAhead :=
  .bind .peek fun _ => .map (.quoteAt 1) _

theorem quotedBytes : Agree n quotedBytes quotedBytes :=
  .bind (.skip 1) fun _ => .map .quotedText _

/-! ### Literals and keys -/

theorem keyLiteral : Agree n keyLiteral keyLiteral := by
  refine .bind (.quoteAt 0) fun _ => .ite (.map .quotedText _) ?_
  refine .bind .bytesAhead fun _ => .ite (.map .quotedBytes _) ?_
  refine .bind .numberAhead fun _ => .ite ?_ (.map .word _)
  refine .bind (.skip 1) fun _ => .get fun start hstart => .bind .quotedText fun raw => ?_
  split
  · exact .pure _
  · exact .failAt _ hstart

theorem keyPattern : Agree n keyPattern keyPattern := by
  refine .bind .peek fun c => ?_
  split
  · exact .bind (.skip 1) fun _ => .map (.eat _) _
  · exact .bind .regex fun _ => .map (.eat _) _
  · exact .map .keyLiteral _

/-! ### Numbers -/

theorem optionalInt : Agree n optionalInt optionalInt := by
  refine .get fun start hstart => .bind (.eat _) fun negative => ?_
  refine .bind (.takeWhile _) fun digits => .ite (.pure none) ?_
  split
  · exact .pure _
  · exact .failAt _ hstart

theorem count : Agree n count count :=
  .map (.takeWhile _) _

theorem digitRun : Agree n digitRun digitRun :=
  .takeWhile _

theorem exponent : Agree n exponent exponent := by
  refine .get fun start hstart => ?_
  cases start with
  | nil => exact .pure []
  | cons e cs =>
    refine .ite (.bind (.skip 1) fun _ => .bind .peek fun sign => ?_) (.pure [])
    have hdigits (sign : List Char) : Agree n
        (do
          let digits ← Parse.digitRun
          if digits.isEmpty then
            MonadStateOf.set (e :: cs)
            Pure.pure []
          else Pure.pure ('e' :: sign ++ digits))
        (do
          let digits ← Parse.digitRun
          if digits.isEmpty then
            MonadStateOf.set (e :: cs)
            Pure.pure []
          else Pure.pure ('e' :: sign ++ digits)) :=
      .bind .digitRun fun _ => .ite (.set hstart (.pure [])) (.pure _)
    split
    · exact .bind (.skip 1) fun _ => .bind (.pure ['+']) hdigits
    · exact .bind (.skip 1) fun _ => .bind (.pure ['-']) hdigits
    · exact .bind (.pure []) hdigits

theorem valueNumber : Agree n valueNumber valueNumber := by
  refine .get fun start hstart => ?_
  -- a number that is none after all is given back
  have hgiveUp : Agree n (do MonadStateOf.set start; Pure.pure (none : Option Literal))
      (do MonadStateOf.set start; Pure.pure none) :=
    .set hstart (.pure none)
  refine .bind (.eat _) fun negative => .bind .digitRun fun whole => .get fun rest _ => ?_
  refine .ite hgiveUp (.bind (.skip 1) fun _ => .bind .digitRun fun fraction => ?_)
  refine .bind .exponent fun exp => .bind .peek fun next => .ite hgiveUp ?_
  dsimp only
  split
  · exact .pure _
  · exact hgiveUp

theorem valueWord : Agree n valueWord valueWord := by
  refine .bind .valueNumber fun lit => ?_
  cases lit with
  | some lit => exact .pure lit
  | none =>
    refine .bind .word fun p => .ite (.pure _) ?_
    split <;> exact .pure _

/-! ### Kinds, depths and slices -/

theorem kindName : Agree n kindName kindName := by
  refine .get fun start hstart => .bind (.takeWhile _) fun name => ?_
  split
  · exact .pure _
  · exact .failAt _ hstart

theorem restrictionAhead : Agree n restrictionAhead restrictionAhead := by
  refine .get fun ds _ => ?_
  split <;> exact .pure _

theorem kindRestriction : Agree n kindRestriction kindRestriction := by
  refine .bind (.eat _) fun negated => .bind (.eat _) fun several => .ite ?_ (.map .kindName _)
  exact .bind (.separated .kindName _) fun kinds => .bind (.expect _) fun _ => .pure _

theorem comparison : Agree n comparison comparison := by
  refine .get fun cs _ => ?_
  split
  · exact .bind (.skip _) fun _ => .pure _
  · exact .pure none

theorem depthRange : Agree n depthRange depthRange := by
  refine .bind .optionalInt fun start => .bind .peek fun c => ?_
  refine .bind .restrictionAhead fun ahead => ?_
  refine .ite (.bind (.skip 1) fun _ => .bind .optionalInt fun stop => ?_) (.pure _)
  refine .map (.bind .peek fun c => .bind .restrictionAhead fun ahead => ?_) _
  exact .ite (.bind (.skip 1) fun _ => .optionalInt) (.pure _)

theorem bound : Agree n bound bound :=
  .bind (.eat _) fun _ => .ite (.pure _) (.map .optionalInt _)

theorem sliceRange : Agree n sliceRange sliceRange := by
  refine .get fun before hbefore => .bind .bound fun start => .bind (.eat _) fun colon => ?_
  refine .ite (.bind .bound fun stop => .bind (.eat _) fun colon => ?_) (.set hbefore (.pure none))
  refine .ite (.bind .optionalInt fun step => ?_) (.bind (.pure none) fun step => ?_)
  all_goals
    refine .bind .skipBlanks fun _ => .bind (.eat _) fun _ => ?_
    exact .ite (.pure _) (.fail _)

theorem cutMark : Agree n cutMark cutMark := by
  refine .bind .skipBlanks fun _ => .bind (.eatText _) fun _ => .ite (.pure _) ?_
  refine .bind .peek fun c => .bind (.quoteAt 1) fun quoted => .ite ?_ (.pure _)
  exact .bind (.skip 1) fun _ => .pure _

/-! ### Chains of transforms -/

theorem argument (place : ChainPlace) (call : TransformCall) :
    Agree n (argument place call) (Parse.argument place call) := by
  refine .bind (.quoteAt 0) fun _ => .ite (.map .quotedText _) (.get fun cs hcs => ?_)
  exact .set (Nat.le_trans (length_argumentFrom_le ..) hcs) (.ite (.fail _) (.pure _))

end Agree

/-- A round of the arguments of a call. -/
def argumentsStep (place : ChainPlace) (more : TransformCall → Parse TransformCall)
    (call : TransformCall) : Parse TransformCall := do
  if ← eat ':' then more (← argument place call)
  else pure call

/-- The arguments of a call, with as many rounds as there may be. -/
def arguments (place : ChainPlace) (call : TransformCall) : Parse TransformCall := do
  argumentsWithin place ((← get).length + 1) call

theorem terminates_arguments (place : ChainPlace) :
    Terminates (argumentsStep place) (arguments place) := by
  refine .of_limit (argumentsWithin place) (fun _ => rfl) fun n more more' hmore call => ?_
  refine .of_agree fun m hm => .eat_below (fun i hi => ?_) (.pure call)
  exact .bind (.argument place call) fun call => hmore call i (Nat.lt_of_lt_of_le hi hm)

theorem Agree.arguments (place : ChainPlace) (call : TransformCall) :
    Agree n (arguments place call) (Parse.arguments place call) :=
  (terminates_arguments place).agree_self (n + 1) call n (Nat.lt_succ_self n)

/-- A call takes its bar. -/
theorem advances_transformCall (place : ChainPlace) : Advances (transformCall place) := by
  refine .of_eat (fun n => .bind (.takeWhile _) fun name => ?_) rfl
  refine .ite (.bind (.fail _) fun _ => ?_) ?_
  all_goals exact .rounds (fun i => argumentsWithin place i _) (.arguments place _) fun _ => .pure _

theorem Agree.transforms (place : ChainPlace) :
    Agree n (transforms place) (Parse.transforms place) :=
  .many ((advances_transformCall place).agree n)

theorem terminates_transforms (place : ChainPlace) :
    Terminates (manyStep (transformCall place)) (transforms place) :=
  (advances_transformCall place).many

/-! ### Text globs -/

namespace Agree

theorem globBounds (inDict : Bool) (g : Glob) :
    Agree n (globBounds inDict g) (Parse.globBounds inDict g) := by
  refine .get fun start hstart => .bind .count fun low => ?_
  cases low with
  | none => exact .set hstart (.pure g)
  | some low =>
    refine .get fun colon hcolon => .bind (.eat _) fun _ => ?_
    refine .ite (.bind .count fun high => ?_) (.pure _)
    cases high with
    | some high => exact .pure _
    | none => exact .ite (.set hcolon (.pure _)) (.pure _)

theorem globTail (inDict : Bool) : Agree n (globTail inDict) (Parse.globTail inDict) := by
  refine .bind .peek fun c => .ite (.bind .regex fun re => .bind (.pure _) fun inner => ?_)
    (.bind (.pure none) fun inner => ?_)
  all_goals exact .globBounds inDict _

theorem fragmentAhead : Agree n fragmentAhead fragmentAhead :=
  .bind (.quoteAt 0) fun _ => .map .bytesAhead _

theorem globPart (afterFragment : Bool) :
    Agree n (globPart afterFragment) (Parse.globPart afterFragment) := by
  refine .bind (.eatText _) fun _ => .ite (.map (.globTail false) _) (.ite (.pure none) ?_)
  refine .bind (.quoteAt 0) fun _ => .ite (.map .quotedText _) ?_
  exact .bind .bytesAhead fun _ => .ite (.map .quotedBytes _) (.pure none)

end Agree

/-- A part of a text glob has a point or a quote. -/
theorem advances_globPart (afterFragment : Bool) : Advances (globPart afterFragment) where
  agree _ := .globPart afterFragment
  shorter cs _ _ h := (globPart_closed afterFragment (Nat.le_refl cs.length)).fits_of_ok h

/-- A round of the parts of a text glob. -/
def globPartsStep (more : Bool → Parse (List GlobPart)) (afterFragment : Bool) :
    Parse (List GlobPart) := do
  match ← globPart afterFragment with
  | none => pure []
  | some part =>
    let isGlob := match part with
      | .glob _ => true
      | _ => false
    let parts ← more (!isGlob)
    pure (part :: parts)

/-- The parts of a text glob, with as many rounds as there may be. -/
def globParts (afterFragment : Bool) : Parse (List GlobPart) := do
  globPartsWithin afterFragment ((← get).length + 1)

theorem terminates_globParts : Terminates globPartsStep globParts := by
  refine .of_limit (fun i afterFragment => globPartsWithin afterFragment i) (fun _ => rfl)
    fun n more more' hmore afterFragment => ?_
  refine .of_agree fun m hm => ?_
  refine (advances_globPart afterFragment).bind_below (.pure []) fun part => ?_
  exact fun i hi => (hmore _ i (Nat.lt_of_lt_of_le hi hm)).map (part :: ·)

namespace Agree

theorem globParts (afterFragment : Bool) :
    Agree n (globParts afterFragment) (Parse.globParts afterFragment) :=
  terminates_globParts.agree_self (n + 1) afterFragment n (Nat.lt_succ_self n)

theorem textPattern (before : List GlobPart) :
    Agree n (textPattern before) (Parse.textPattern before) := by
  refine .rounds (globPartsWithin false) (.globParts false) fun parts => ?_
  split
  · exact .fail _
  · split
    · exact .pure _
    · exact .fail _

/-! ### Elements and entries -/

variable {inner inner' : Parse ValuePattern}

theorem element (h : Agree n inner inner') : Agree n (element inner) (Parse.element inner') := by
  refine .bind (.eatText _) fun _ => .ite (.bind (.globTail false) fun g => ?_) (.map h _)
  exact .bind .fragmentAhead fun _ => .ite (.map (.textPattern _) _) (.pure _)

theorem elements (h : Agree n inner inner') (close : Char) :
    Agree n (elements inner close) (Parse.elements inner' close) := by
  refine .bind .skipBlanks fun _ => .bind (.eat _) fun _ => .ite (.pure []) ?_
  refine .bind (.separated (.element h) _) fun es => .bind .skipBlanks fun _ => ?_
  exact .bind (.expect _) fun _ => .pure es

theorem entryKey (h : Agree n inner inner') : Agree n (entryKey inner) (Parse.entryKey inner') :=
  .bind (.eatText _) fun _ => .ite (.map (.globTail true) _) (.map h _)

theorem entry (h : Agree n inner inner') : Agree n (entry inner) (Parse.entry inner') := by
  refine .bind (.entryKey h) fun key => .bind .skipBlanks fun _ => ?_
  cases key with
  | glob g =>
    exact .bind (.eat _) fun _ => .ite (.bind .skipBlanks fun _ => .map h _) (.pure _)
  | value k => exact .bind (.expect _) fun _ => .bind .skipBlanks fun _ => .map h _

theorem entryAhead (h : Agree n inner inner') :
    Agree n (entryAhead inner) (Parse.entryAhead inner') :=
  .get fun _ hstart => .bind (.attempt (.entryKey h)) fun _ => .bind .skipBlanks fun _ =>
    .bind .peek fun _ => .set hstart (.pure _)

/-! ### Patterns with others in them -/

theorem sequencePattern (h : AgreeBelow n inner inner') (kind : SequenceKind) :
    Agree n (sequencePattern inner kind) (Parse.sequencePattern inner' kind) :=
  .expect_below fun m hm => .map (.elements (h m hm) _) _

theorem setPattern (h : AgreeBelow n inner inner') (kind : SetKind) :
    Agree n (setPattern inner kind) (Parse.setPattern inner' kind) :=
  .expect_below fun m hm => .map (.elements (h m hm) _) _

theorem dictPattern (h : AgreeBelow n inner inner') (marked : Bool) :
    Agree n (dictPattern inner marked) (Parse.dictPattern inner' marked) := by
  refine .expect_below fun m hm => .bind .skipBlanks fun _ => .bind (.eat _) fun _ => ?_
  refine .ite (.pure _) (.bind (.separated (.entry (h m hm)) _) fun es => ?_)
  exact .bind .skipBlanks fun _ => .bind (.expect _) fun _ => .pure _

theorem patternGroup (h : AgreeBelow n inner inner') :
    Agree n (patternGroup inner) (Parse.patternGroup inner') :=
  .expect_below fun m hm => .bind (.separated (h m hm) _) fun _ => .bind (.expect _) fun _ =>
    .pure _

theorem bracePattern (h : AgreeBelow n inner inner') :
    Agree n (bracePattern inner) (Parse.bracePattern inner') := by
  -- what is inside the braces is looked at from a shorter text, but then read from the brace on
  have hahead : Agree n
      (Parse.expect '\x7b' >>= fun _ => Parse.skipBlanks >>= fun _ => Parse.peek >>= fun c =>
        Parse.entryAhead inner >>= fun ahead => Pure.pure (c == some '\x7d' || ahead))
      (Parse.expect '\x7b' >>= fun _ => Parse.skipBlanks >>= fun _ => Parse.peek >>= fun c =>
        Parse.entryAhead inner' >>= fun ahead => Pure.pure (c == some '\x7d' || ahead)) :=
    .expect_below fun m hm => .bind .skipBlanks fun _ => .bind .peek fun _ =>
      .map (.entryAhead (h m hm)) _
  refine .get fun start hstart => ?_
  have hread (isDict : Bool) :
      Agree n
        (do
          MonadStateOf.set start
          if isDict then Parse.dictPattern inner false else Parse.setPattern inner .any)
        (do
          MonadStateOf.set start
          if isDict then Parse.dictPattern inner' false else Parse.setPattern inner' .any) :=
    .set hstart (.ite (.dictPattern h false) (.setPattern h .any))
  simpa only [bind_assoc, pure_bind] using hahead.bind hread

theorem valuePatternStep (h : AgreeBelow n inner inner') :
    Agree n (valuePatternStep inner) (Parse.valuePatternStep inner') := by
  refine .get fun cs hcs => ?_
  split
  · exact .bind (.skip 1) fun _ => .pure _
  · exact .map .regex _
  · exact .patternGroup h
  · exact .sequencePattern h _
  · exact .bracePattern h
  · exact .bind (.skip 1) fun _ => .sequencePattern h _
  · exact .bind (.skip 1) fun _ => .sequencePattern h _
  · exact .bind (.skip 1) fun _ => .dictPattern h true
  · exact .bind (.skip 1) fun _ => .setPattern h _
  · exact .bind (.skip 2) fun _ => .setPattern h _
  · refine .bind .numberAhead fun _ => .ite (.map .keyLiteral _) ?_
    refine .bind .fragmentAhead fun _ => .bind (.lookingAt _) fun _ => ?_
    exact .ite (.textPattern _) (.map .valueWord _)

end Agree

/-- **Value patterns come to an end.** -/
theorem terminates_valuePattern : Terminates valuePatternStep valuePattern := by
  rw [valuePattern, get_bind_eq_limit]
  exact .of_limit valuePatternWithin (fun _ => rfl) fun _ _ _ h =>
    .of_agree fun _ hm => .valuePatternStep (h.mono hm)

/-! ### Guards -/

namespace Agree

theorem valuePattern : Agree n valuePattern valuePattern :=
  terminates_valuePattern.agree_self (n + 1) n (Nat.lt_succ_self n)

theorem comparedPattern (op : Comparison) :
    Agree n (comparedPattern op) (Parse.comparedPattern op) :=
  .get fun _ hstart => .bind .valuePattern fun _ =>
    .ite (.bind (.failAt _ hstart) fun _ => .pure _) (.pure _)

theorem guardTest : Agree n guardTest guardTest := by
  refine .get fun start hstart => .bind .peek fun next => ?_
  refine .ite (.bind (.attempt (.transforms .guard)) fun chain => ?_)
    (.bind (.pure _) fun chain => ?_)
  -- after a chain and without one the same comparison is read
  all_goals
    cases chain with
    | none => exact .pure none
    | some chain =>
      refine .bind .comparison fun op => ?_
      cases op with
      | none => exact .set hstart (.pure none)
      | some op => exact (comparedPattern op).map _

theorem suffixes (place : Place) (s : Segment) :
    Agree n (suffixes place s) (Parse.suffixes place s) := by
  refine .ite (.pure s) (.bind .restrictionAhead fun ahead => .ite ?_ (.bind (.pure s) fun s => ?_))
  · refine .bind (.skip 1) fun _ => .bind .kindRestriction fun r => .bind (.pure _) fun s => ?_
    refine .bind .guardTest fun test => ?_
    cases test <;> exact .pure _
  · refine .bind .guardTest fun test => ?_
    cases test <;> exact .pure _

end Agree

end DottedPath.Parse
