import DottedPath.Proofs.Path.Reader

/-!
# Reading before a closing parenthesis

A reader that comes to the end of the text mostly does what it does before a closing parenthesis: it
stops there, with the same answer, or fails in both cases.  The exception is a reader that takes the
parenthesis.  Then nothing is left, and without the parenthesis the reader fails or lags behind
(`Meets`).

The text with the parenthesis is read by a family of readers, which differ in how deep they may nest
and must not differ in what they answer: this says that the depth suffices.

## Main statements

- `At.bind`: readers that go together in each step go together.
- `Repeats.many`, `Separates.separated`: so do repetitions of them.
-/

namespace DottedPath.Parse

variable {α β : Type}

/-- What a reader answers, and what it leaves. -/
abbrev Outcome (α : Type) := Except ParseFailure (α × List Char)

/-- A text with a closing parenthesis after it. -/
def closed (cs : List Char) : List Char := cs ++ [')']

theorem closed_nil : closed [] = [')'] := rfl

theorem closed_cons (c : Char) (cs : List Char) : closed (c :: cs) = c :: closed cs := rfl

theorem closed_ne_nil (cs : List Char) : closed cs ≠ [] := by simp [closed]

theorem length_closed (cs : List Char) : (closed cs).length = cs.length + 1 := by
  simp [closed]

/-- How a reader may lag behind one that has taken the parenthesis: it has failed, or it has left
some characters. -/
abbrev Lag := Option (List Char) → Prop

/-- The parenthesis is not taken. -/
def never : Lag := fun _ => False

/-- If the parenthesis is taken, the reader fails without it or leaves characters of a kind. -/
def leaving (P : List Char → Prop) : Lag := fun left => ∀ r, left = some r → P r

/-- If the parenthesis is taken, the reader fails without it. -/
abbrev failing : Lag := leaving fun _ => False

/-- The outcomes without and with the parenthesis: the same but for the parenthesis, two failures,
or the parenthesis is taken and the reader without it lags behind. -/
inductive Meets (lag : Lag) (fits : α → List Char → Prop) : Outcome α → Outcome α → Prop where
  | same {a : α} {r : List Char} (h : fits a r) : Meets lag fits (.ok (a, r)) (.ok (a, closed r))
  | fail (e e' : ParseFailure) : Meets lag fits (.error e) (.error e')
  | lost (e : ParseFailure) (b : α) (h : lag none) : Meets lag fits (.error e) (.ok (b, []))
  | behind {a : α} {r : List Char} (b : α) (h : lag (some r)) (hr : fits a r) :
    Meets lag fits (.ok (a, r)) (.ok (b, []))

/-- All readers of the family answer the same on a text, and that meets an outcome. -/
def Joint (lag : Lag) (fits : α → List Char → Prop) (x : Outcome α) (F : Nat → Parse α)
    (cs : List Char) : Prop :=
  ∃ y, (∀ m, F m cs = y) ∧ Meets lag fits x y

/-- The readers go together on a text. -/
def At (lag : Lag) (fits : α → List Char → Prop) (cs : List Char) (f : Parse α)
    (F : Nat → Parse α) : Prop :=
  Joint lag fits (f cs) F (closed cs)

/-- At most the given number of characters is left. -/
def Within (n : Nat) (_ : α) (r : List Char) : Prop := r.length ≤ n

/-- Fewer than the given number of characters are left. -/
def Below (n : Nat) (_ : α) (r : List Char) : Prop := r.length < n

/-- The readers go together on all texts of a length. -/
def Sim (N : Nat) (lag : Lag) (f : Parse α) (F : Nat → Parse α) : Prop :=
  ∀ cs n, cs.length ≤ n → n ≤ N → At lag (Within n) cs f F

/-- At the end of the text the readers of a family answer the same. -/
def Passes (F : Nat → Parse α) : Prop := ∃ b, ∀ m, F m [] = .ok (b, [])

/-- At the end of the text the readers of a family fail in the same way. -/
def Blocks (F : Nat → Parse α) : Prop := ∃ e, ∀ m, F m [] = .error e

/-- At the end of the text the readers of a family do the same. -/
def Ends (F : Nat → Parse α) : Prop := Passes F ∨ Blocks F

variable {lag lag' : Lag} {fits fits' : α → List Char → Prop} {cs : List Char} {N : Nat}
  {P : List Char → Prop}

theorem leaving_none : leaving P none := fun _ h => nomatch h

theorem leaving_some {r : List Char} (h : P r) : leaving P (some r) := by
  rintro _ ⟨⟩
  exact h

/-! ### Sequencing -/

theorem Meets.imp {x y : Outcome α} (hlag : ∀ o, lag o → lag' o)
    (hfits : ∀ a r, fits a r → fits' a r) (h : Meets lag fits x y) : Meets lag' fits' x y := by
  cases h with
  | same h => exact .same (hfits _ _ h)
  | fail e e' => exact .fail e e'
  | lost e b h => exact .lost e b (hlag _ h)
  | behind b h hr => exact .behind b (hlag _ h) (hfits _ _ hr)

namespace Joint

variable {F : Nat → Parse α} {a : α} {r : List Char} {e : ParseFailure}

/-- Whatever has been lost, it is a failure without the parenthesis. -/
theorem of_passes (h : Passes F) (hlag : lag none) : Joint lag fits (.error e) F [] := by
  obtain ⟨b, hb⟩ := h
  exact ⟨_, hb, .lost e b hlag⟩

theorem of_blocks (h : Blocks F) : Joint lag fits (.error e) F [] := by
  obtain ⟨e', he⟩ := h
  exact ⟨_, he, .fail e e'⟩

theorem of_ends (h : Ends F) (hlag : lag none) : Joint lag fits (.error e) F [] :=
  h.elim (of_passes · hlag) of_blocks

/-- The reader without the parenthesis goes on where the other one has ended. -/
theorem of_behind {x : Outcome α} (h : Passes F) (hlag : lag none)
    (hx : ∀ a r, x = .ok (a, r) → lag (some r) ∧ fits a r) : Joint lag fits x F [] := by
  obtain ⟨b, hb⟩ := h
  cases x with
  | error e => exact ⟨_, hb, .lost e b hlag⟩
  | ok p =>
    obtain ⟨hp, hfits⟩ := hx p.1 p.2 rfl
    exact ⟨_, hb, .behind b hp hfits⟩

theorem of_eq {x x' : Outcome α} {F G : Nat → Parse α} {cs ds : List Char} (hx : x = x')
    (hF : ∀ m, F m cs = G m ds) (h : Joint lag fits x' G ds) : Joint lag fits x F cs := by
  obtain ⟨y, hy, hmeets⟩ := h
  exact ⟨y, fun m => (hF m).trans (hy m), by rwa [hx]⟩

end Joint

namespace At

variable {f : Parse α} {F : Nat → Parse α} {k : α → Parse β} {K : Nat → α → Parse β}
  {fits'' : β → List Char → Prop}

theorem imp (h : At lag fits cs f F) (hfits : ∀ a r, fits a r → fits' a r) :
    At lag fits' cs f F := by
  obtain ⟨y, hy, hmeets⟩ := h
  exact ⟨y, hy, hmeets.imp (fun _ ho => ho) hfits⟩

theorem within {n : Nat} (h : At lag (Below n) cs f F) : At lag (Within n) cs f F :=
  h.imp fun _ _ hr => Nat.le_of_lt hr

theorem mono (h : At lag fits cs f F) (hlag : ∀ o, lag o → lag' o) : At lag' fits cs f F := by
  obtain ⟨y, hy, hmeets⟩ := h
  exact ⟨y, hy, hmeets.imp hlag fun _ _ ha => ha⟩

/-- How a reader lags behind may use that the parenthesis is taken. -/
theorem mono_of_taken (h : At lag fits cs f F)
    (hlag : ∀ o b, lag o → (∀ m, F m (closed cs) = .ok (b, [])) → lag' o) :
    At lag' fits cs f F := by
  obtain ⟨y, hy, hmeets⟩ := h
  refine ⟨y, hy, ?_⟩
  generalize f cs = x at hmeets ⊢
  cases hmeets with
  | same h => exact .same h
  | fail e e' => exact .fail e e'
  | lost e b h => exact .lost e b (hlag _ b h hy)
  | behind b h hr => exact .behind b (hlag _ b h hy) hr

/-- A reader that never fails can only lag behind by leaving characters. -/
theorem of_answers (h : At (leaving P) fits cs f F) {p : α × List Char} (hrun : f cs = .ok p)
    (hlag : ∀ r, P r → lag (some r)) : At lag fits cs f F := by
  obtain ⟨y, hy, hmeets⟩ := h
  refine ⟨y, hy, ?_⟩
  rw [hrun] at hmeets ⊢
  cases hmeets with
  | same h => exact .same h
  | behind b h hr => exact .behind b (hlag _ (h _ rfl)) hr

theorem of_never (h : At never fits cs f F) : At lag fits cs f F := h.mono fun _ ho => ho.elim

theorem of_failing (h : At failing fits cs f F) : At (leaving P) fits cs f F :=
  h.mono fun _ ho r hr => (ho r hr).elim

/-- What the reader without the parenthesis leaves fits. -/
theorem fits_of_ok (h : At lag fits cs f F) {a : α} {r : List Char} (hrun : f cs = .ok (a, r)) :
    fits a r := by
  obtain ⟨y, -, hmeets⟩ := h
  rw [hrun] at hmeets
  cases hmeets with
  | same h => exact h
  | behind b h hr => exact hr

/-- If the parenthesis is taken, a reader that answers lags behind. -/
theorem lag_of_ok (h : At lag fits cs f F) {a : α} {r : List Char} (hrun : f cs = .ok (a, r))
    {m : Nat} (htaken : ∀ b r', F m (closed cs) = .ok (b, r') → r' = []) : lag (some r) := by
  obtain ⟨y, hy, hmeets⟩ := h
  rw [hrun] at hmeets
  cases hmeets with
  | same h => exact (closed_ne_nil r (htaken _ _ (hy m))).elim
  | behind b h hr => exact h

/-- A reader that fails where it takes the parenthesis answers the same as one that answers. -/
theorem run_of_failing (h : At failing fits cs f F) {a : α} {r : List Char}
    (hrun : f cs = .ok (a, r)) (m : Nat) : F m (closed cs) = .ok (a, closed r) := by
  obtain ⟨y, hy, hmeets⟩ := h
  rw [hrun] at hmeets
  cases hmeets with
  | same h => exact hy m
  | behind b h hr => exact (h r rfl).elim

theorem pure {a : α} (h : fits a cs) : At lag fits cs (pure a) (fun _ => pure a) :=
  ⟨_, fun _ => rfl, .same h⟩

theorem error {e e' : ParseFailure} (h : f cs = .error e) (h' : ∀ m, F m (closed cs) = .error e') :
    At lag fits cs f F :=
  ⟨_, h', by rw [h]; exact .fail e e'⟩

theorem ok {a : α} {r : List Char} (h : f cs = .ok (a, r))
    (h' : ∀ m, F m (closed cs) = .ok (a, closed r)) (hr : fits a r) : At lag fits cs f F :=
  ⟨_, h', by rw [h]; exact .same hr⟩

/-- The parenthesis is taken. -/
theorem lost {b : α} {e : ParseFailure} (h : f cs = .error e)
    (h' : ∀ m, F m (closed cs) = .ok (b, [])) (hlag : lag none) : At lag fits cs f F :=
  ⟨_, h', by rw [h]; exact .lost e b hlag⟩

theorem of_eq {ds : List Char} {g : Parse α} {G : Nat → Parse α} (hf : f cs = g ds)
    (hF : ∀ m, F m (closed cs) = G m (closed ds)) (h : At lag fits ds g G) :
    At lag fits cs f F :=
  Joint.of_eq hf hF h

theorem fail (message message' : String) :
    At lag fits cs (fail message) (fun _ => Parse.fail message') :=
  error rfl fun _ => rfl

theorem failAt (message message' : String) (i i' : Nat) :
    At lag fits cs (failAt message i) (fun _ => Parse.failAt message' i') :=
  error rfl fun _ => rfl

/-- **Readers that go together in each step go together.**  Where the first step has taken the
parenthesis the second has to see to it that the other reader fails or lags behind. -/
theorem bind (hf : At lag fits cs f F)
    (hk : ∀ a r, fits a r → At lag' fits'' r (k a) fun m => K m a)
    (hlost : lag none → ∀ b e, (∀ m, F m (closed cs) = .ok (b, [])) →
      Joint lag' fits'' (.error e) (fun m => K m b) [])
    (hbehind : ∀ a b r, lag (some r) → fits a r → (∀ m, F m (closed cs) = .ok (b, [])) →
      Joint lag' fits'' (k a r) (fun m => K m b) []) :
    At lag' fits'' cs (f >>= k) fun m => F m >>= K m := by
  obtain ⟨y, hy, hmeets⟩ := hf
  generalize hx : f cs = x at hmeets
  cases hmeets with
  | same ha => exact .of_eq (run_bind_of_ok hx) (fun m => run_bind_of_ok (hy m)) (hk _ _ ha)
  | fail e e' => exact .error (run_bind_of_error hx) fun m => run_bind_of_error (hy m)
  | lost e b h =>
    exact Joint.of_eq (run_bind_of_error hx) (fun m => run_bind_of_ok (hy m)) (hlost h b e hy)
  | behind b h hr =>
    exact Joint.of_eq (run_bind_of_ok hx) (fun m => run_bind_of_ok (hy m)) (hbehind _ b _ h hr hy)

/-- After a step that never takes the parenthesis nothing more is to be seen to. -/
theorem bind_never (hf : At never fits cs f F)
    (hk : ∀ a r, fits a r → At lag' fits'' r (k a) fun m => K m a) :
    At lag' fits'' cs (f >>= k) fun m => F m >>= K m :=
  hf.bind hk (fun h => h.elim) fun _ _ _ h => h.elim

/-- After a step that fails where it takes the parenthesis the other readers have ended. -/
theorem bind_failing (hf : At failing fits cs f F)
    (hk : ∀ a r, fits a r → At lag' fits'' r (k a) fun m => K m a) (hlag : lag' none)
    (hend : ∀ b, Ends fun m => K m b) : At lag' fits'' cs (f >>= k) fun m => F m >>= K m :=
  hf.bind hk (fun _ b _ _ => .of_ends (hend b) hlag) fun _ _ _ h => (h _ rfl).elim

/-- After a step that lags behind where it takes the parenthesis the other readers have ended, and
the one without the parenthesis goes on. -/
theorem bind_leaving (hf : At (leaving P) fits cs f F)
    (hk : ∀ a r, fits a r → At lag' fits'' r (k a) fun m => K m a) (hlag : lag' none)
    (hend : ∀ b, Passes fun m => K m b)
    (hbehind : ∀ a r b r', P r → fits a r → k a r = .ok (b, r') → lag' (some r') ∧ fits'' b r') :
    At lag' fits'' cs (f >>= k) fun m => F m >>= K m :=
  hf.bind hk (fun _ b _ _ => .of_passes (hend b) hlag) fun a b r h hr _ =>
    .of_behind (hend b) hlag fun b' r' hrun => hbehind a r b' r' (h r rfl) hr hrun

/-- After a step that lags behind where it takes the parenthesis all readers fail. -/
theorem bind_blocked (hf : At (leaving P) fits cs f F)
    (hk : ∀ a r, fits a r → At lag' fits'' r (k a) fun m => K m a)
    (hend : ∀ b, Blocks fun m => K m b) (hbehind : ∀ a r, P r → ∃ e, k a r = .error e) :
    At lag' fits'' cs (f >>= k) fun m => F m >>= K m := by
  refine hf.bind hk (fun _ b _ _ => .of_blocks (hend b)) fun a b r h hr _ => ?_
  obtain ⟨e, he⟩ := hbehind a r (h r rfl)
  rw [he]
  exact .of_blocks (hend b)

/-- What is answered may be changed. -/
theorem map (hf : At lag fits cs f F) (g : α → β) (hfits : ∀ a r, fits a r → fits'' (g a) r) :
    At lag fits'' cs (f >>= fun a => Pure.pure (g a))
      fun m => F m >>= fun a => Pure.pure (g a) := by
  refine hf.bind (fun a r ha => .pure (hfits a r ha)) (fun h b e _ => ?_) fun a b r h hr _ => ?_
  · exact ⟨_, fun _ => rfl, .lost e (g b) h⟩
  · exact ⟨_, fun _ => rfl, .behind (g b) h (hfits a r hr)⟩

theorem mapWithin {n : Nat} (hf : At lag (Within n) cs f F) (g : α → β) :
    At lag (Within n) cs (f >>= fun a => Pure.pure (g a))
      fun m => F m >>= fun a => Pure.pure (g a) :=
  hf.map g fun _ _ h => h

/-- What is answered may depend on the answer. -/
theorem answers {n : Nat} (hf : At lag (Within n) cs f F) (hk : ∀ a, ∃ b, k a = Pure.pure b) :
    At lag (Within n) cs (f >>= k) fun m => F m >>= k := by
  obtain ⟨answer, hanswer⟩ := Classical.axiomOfChoice hk
  obtain rfl : k = fun a => Pure.pure (answer a) := funext hanswer
  exact hf.mapWithin answer

/-- The characters that are left are looked at. -/
theorem get {k : List Char → Parse β} {K : Nat → List Char → Parse β}
    (h : At lag fits'' cs (k cs) fun m => K m (closed cs)) :
    At lag fits'' cs (MonadState.get >>= k) fun m => MonadState.get >>= K m := h

/-- The reader goes back to the characters that were left before. -/
theorem set {ds : List Char} {k : PUnit → Parse β} {K : Nat → PUnit → Parse β}
    (h : At lag fits'' ds (k ⟨⟩) fun m => K m ⟨⟩) :
    At lag fits'' cs (MonadStateOf.set ds >>= k) fun m => MonadStateOf.set (closed ds) >>= K m := h

/-- The next character is looked at: before the parenthesis there is none. -/
theorem peek {k : Option Char → Parse β} {K : Nat → Option Char → Parse β}
    (hnil : cs = [] → At lag fits'' [] (k none) fun m => K m (some ')'))
    (hcons : ∀ c r, cs = c :: r → At lag fits'' (c :: r) (k (some c)) fun m => K m (some c)) :
    At lag fits'' cs (Parse.peek >>= k) fun m => Parse.peek >>= K m := by
  cases cs with
  | nil => exact hnil rfl
  | cons c r => exact hcons c r rfl

/-- What comes next is looked at, with the same answer. -/
theorem test {p : Parse α} {a : α} (hp : p cs = .ok (a, cs))
    (hp' : p (closed cs) = .ok (a, closed cs)) (h : At lag fits'' cs (k a) fun m => K m a) :
    At lag fits'' cs (p >>= k) fun m => p >>= K m :=
  .of_eq (run_bind_of_ok hp) (fun _ => run_bind_of_ok hp') h

/-- A character is skipped. -/
theorem skip {c : Char} {k : Unit → Parse β} {K : Nat → Unit → Parse β}
    (h : At lag fits'' cs (k ()) fun m => K m ()) :
    At lag fits'' (c :: cs) (Parse.skip 1 >>= k) fun m => Parse.skip 1 >>= K m := h

/-- A character other than the parenthesis is looked for. -/
theorem eat {c : Char} (hc : c ≠ ')') {k : Bool → Parse β} {K : Nat → Bool → Parse β}
    (htrue : ∀ r, cs = c :: r → At lag fits'' r (k true) fun m => K m true)
    (hfalse : cs.head? ≠ some c → At lag fits'' cs (k false) fun m => K m false) :
    At lag fits'' cs (Parse.eat c >>= k) fun m => Parse.eat c >>= K m := by
  by_cases hhead : cs.head? = some c
  · obtain ⟨r, rfl⟩ := List.head?_eq_some_iff.mp hhead
    obtain ⟨y, hy, hmeets⟩ := htrue r rfl
    refine ⟨y, fun m => (run_bind_of_ok (eat_cons_self c (closed r))).trans (hy m), ?_⟩
    rwa [run_bind_of_ok (eat_cons_self c r)]
  · have hhead' : (closed cs).head? ≠ some c := by
      cases cs with
      | nil => simpa [closed] using hc.symm
      | cons d r => exact hhead
    obtain ⟨y, hy, hmeets⟩ := hfalse hhead
    refine ⟨y, fun m => (run_bind_of_ok (eat_of_head?_ne hhead')).trans (hy m), ?_⟩
    rwa [run_bind_of_ok (eat_of_head?_ne hhead)]

end At

theorem expect_of_head?_ne {c : Char} (h : cs.head? ≠ some c) : ∃ e, expect c cs = .error e := by
  cases cs with
  | nil => exact ⟨_, rfl⟩
  | cons d cs =>
    rw [expect, run_bind_of_ok (run_peek _)]
    have hdc : (d == c) = false := beq_eq_false_iff_ne.mpr fun hdc => h (by rw [hdc]; rfl)
    simp only [List.head?_cons, hdc]
    exact ⟨_, rfl⟩

/-- What must come next does not. -/
theorem expect_bind_of_head?_ne {c : Char} {k : Unit → Parse β} (h : cs.head? ≠ some c) :
    ∃ e, (expect c >>= k) cs = .error e := by
  obtain ⟨e, he⟩ := expect_of_head?_ne h
  exact ⟨e, run_bind_of_error he⟩

namespace At

variable {k : Unit → Parse β} {K : Nat → Unit → Parse β} {fits'' : β → List Char → Prop}

/-- A character other than the parenthesis must come next. -/
theorem expect {c : Char} (hc : c ≠ ')')
    (h : ∀ r, cs = c :: r → At lag fits'' r (k ()) fun m => K m ()) :
    At lag fits'' cs (Parse.expect c >>= k) fun m => Parse.expect c >>= K m := by
  by_cases hhead : cs.head? = some c
  · obtain ⟨r, rfl⟩ := List.head?_eq_some_iff.mp hhead
    obtain ⟨y, hy, hmeets⟩ := h r rfl
    refine ⟨y, fun m => (run_bind_of_ok (expect_cons_self c (closed r))).trans (hy m), ?_⟩
    rwa [run_bind_of_ok (expect_cons_self c r)]
  · have hhead' : (closed cs).head? ≠ some c := by
      cases cs with
      | nil => simpa [closed] using hc.symm
      | cons d r => exact hhead
    obtain ⟨e, he⟩ := expect_bind_of_head?_ne (k := k) hhead
    obtain ⟨e', he'⟩ := expect_of_head?_ne hhead'
    exact error he fun m => run_bind_of_error he'

/-- At the end of the text the parenthesis that must come next is taken. -/
theorem expect_close (h : ∀ r, cs = ')' :: r → At lag fits'' r (k ()) fun m => K m ())
    (hlag : lag none) (hend : Passes fun m => K m ()) :
    At lag fits'' cs (Parse.expect ')' >>= k) fun m => Parse.expect ')' >>= K m := by
  cases cs with
  | nil =>
    have hhead : ([] : List Char).head? ≠ some ')' := by simp
    obtain ⟨e, he⟩ := expect_bind_of_head?_ne (k := k) hhead
    obtain ⟨b, hb⟩ := hend
    refine ⟨_, fun m => (run_bind_of_ok (expect_cons_self ')' [])).trans (hb m), ?_⟩
    rw [he]
    exact .lost e b hlag
  | cons d r =>
    by_cases hd : d = ')'
    · subst hd
      obtain ⟨y, hy, hmeets⟩ := h r rfl
      refine ⟨y, fun m => (run_bind_of_ok (expect_cons_self ')' (closed r))).trans (hy m), ?_⟩
      rwa [run_bind_of_ok (expect_cons_self ')' r)]
    · have hhead (r : List Char) : (d :: r).head? ≠ some ')' := by simpa using hd
      obtain ⟨e, he⟩ := expect_bind_of_head?_ne (k := k) (hhead r)
      obtain ⟨e', he'⟩ := expect_of_head?_ne (hhead (closed r))
      exact error he fun m => run_bind_of_error he'

end At

/-! ### Characters -/

theorem isPrefixOf_closed {text : List Char} (htext : ')' ∉ text) (cs : List Char) :
    text.isPrefixOf (closed cs) = text.isPrefixOf cs := by
  induction text generalizing cs with
  | nil => simp
  | cons c text ih =>
    obtain ⟨hc, htext⟩ := List.ne_and_not_mem_of_not_mem_cons htext
    cases cs with
    | nil => simp [closed, List.isPrefixOf, hc.symm]
    | cons d cs => rw [closed_cons, List.isPrefixOf, List.isPrefixOf, ih htext]

/-- A text without parentheses that begins a text with the parenthesis begins it without. -/
theorem append_of_closed {r : List Char} (text : List Char) (htext : ')' ∉ text)
    (h : closed cs = text ++ r) : ∃ r', cs = text ++ r' := by
  have hprefix : text.isPrefixOf cs = true := by
    rw [← isPrefixOf_closed htext, h]
    exact List.isPrefixOf_iff_prefix.mpr (List.prefix_append text r)
  obtain ⟨r', hr'⟩ := List.isPrefixOf_iff_prefix.mp hprefix
  exact ⟨r', hr'.symm⟩

theorem dropWhile_closed {p : Char → Bool} (hp : p ')' = false) (cs : List Char) :
    (closed cs).dropWhile p = closed (cs.dropWhile p) := by
  induction cs with
  | nil => simp [closed, hp]
  | cons c cs ih =>
    rw [closed_cons, List.dropWhile_cons, List.dropWhile_cons, ih]
    split <;> rfl

theorem takeWhile_closed {p : Char → Bool} (hp : p ')' = false) (cs : List Char) :
    (closed cs).takeWhile p = cs.takeWhile p := by
  induction cs with
  | nil => simp [closed, hp]
  | cons c cs ih => rw [closed_cons, List.takeWhile_cons, List.takeWhile_cons, ih]

theorem head?_closed_beq {c : Char} (hc : c ≠ ')') (cs : List Char) :
    ((closed cs).head? == some c) = (cs.head? == some c) := by
  cases cs with
  | nil => simpa [closed] using hc.symm
  | cons d cs => rfl

theorem any_isQuote_closed (offset : Nat) (cs : List Char) :
    (closed cs)[offset]?.any isQuote = cs[offset]?.any isQuote := by
  rw [closed, List.getElem?_append]
  split
  · rfl
  · rename_i hle
    rw [List.getElem?_eq_none (Nat.not_lt.mp hle)]
    cases hd : [')'][offset - cs.length]? with
    | none => rfl
    | some d =>
      rw [List.mem_singleton.mp (List.mem_of_getElem? hd)]
      rfl

theorem length_dropWhile_le (p : Char → Bool) (cs : List Char) :
    (cs.dropWhile p).length ≤ cs.length :=
  (List.dropWhile_sublist p).length_le

namespace At

variable {n : Nat}

theorem lookingAt {text : String} (htext : ')' ∉ text.toList) (hcs : cs.length ≤ n) :
    At never (Within n) cs (lookingAt text) fun _ => Parse.lookingAt text :=
  ok (run_lookingAt _ _) (fun _ => by rw [run_lookingAt, isPrefixOf_closed htext]) hcs

theorem eatText {text : String} (htext : ')' ∉ text.toList) {k : Bool → Parse β}
    {K : Nat → Bool → Parse β} {fits'' : β → List Char → Prop}
    (htrue : ∀ r, cs = text.toList ++ r → At lag fits'' r (k true) fun m => K m true)
    (hfalse : At lag fits'' cs (k false) fun m => K m false) :
    At lag fits'' cs (Parse.eatText text >>= k) fun m => Parse.eatText text >>= K m := by
  cases hprefix : text.toList.isPrefixOf cs with
  | true =>
    obtain ⟨r, rfl⟩ := List.isPrefixOf_iff_prefix.mp hprefix
    have hrun (r : List Char) : Parse.eatText text (text.toList ++ r) = .ok (true, r) := by
      rw [Parse.eatText, run_bind_of_ok (run_lookingAt _ _), if_pos (by simp)]
      show Except.ok (true, (text.toList ++ r).drop text.length) = _
      rw [← String.length_toList, List.drop_left]
    have hclosed : closed (text.toList ++ r) = text.toList ++ closed r := List.append_assoc ..
    obtain ⟨y, hy, hmeets⟩ := htrue r rfl
    refine ⟨y, fun m => ?_, ?_⟩
    · rw [hclosed]
      exact (run_bind_of_ok (hrun (closed r))).trans (hy m)
    · rwa [run_bind_of_ok (hrun r)]
  | false =>
    have hprefix' := (isPrefixOf_closed htext cs).trans hprefix
    obtain ⟨y, hy, hmeets⟩ := hfalse
    refine ⟨y, fun m => (run_bind_of_ok (eatText_of_no_match hprefix')).trans (hy m), ?_⟩
    rwa [run_bind_of_ok (eatText_of_no_match hprefix)]

theorem skipBlanks (hcs : cs.length ≤ n) :
    At never (Within n) cs skipBlanks fun _ => Parse.skipBlanks :=
  ok (run_skipBlanks cs) (fun _ => by rw [run_skipBlanks, dropWhile_closed (by decide)])
    (Nat.le_trans (length_dropWhile_le _ _) hcs)

theorem takeWhile {p : Char → Bool} (hp : p ')' = false) (hcs : cs.length ≤ n) :
    At never (Within n) cs (takeWhile p) fun _ => Parse.takeWhile p :=
  ok (run_takeWhile p cs)
    (fun _ => by rw [run_takeWhile, takeWhile_closed hp, dropWhile_closed hp])
    (Nat.le_trans (length_dropWhile_le _ _) hcs)

theorem quoteAt (offset : Nat) (hcs : cs.length ≤ n) :
    At never (Within n) cs (quoteAt offset) fun _ => Parse.quoteAt offset :=
  ok (run_quoteAt offset cs) (fun _ => by rw [run_quoteAt, any_isQuote_closed]) hcs

theorem eatMark {c : Char} (hc : c ≠ ')') (hcs : cs.length ≤ n) :
    At never (Within n) cs (Parse.eat c) fun _ => Parse.eat c := by
  have h : At never (Within n) cs (Parse.eat c >>= Pure.pure) fun _ => Parse.eat c >>= Pure.pure :=
    .eat hc (fun r hr => .pure (by rw [hr] at hcs; exact Nat.le_of_succ_le hcs)) fun _ => .pure hcs
  simpa only [bind_pure] using h

/-- A reader that is tried goes back where it fails. -/
theorem attempt_fits {f : Parse α} {F : Nat → Parse α} {fits'' : Option α → List Char → Prop}
    (h : At lag fits cs f F) (hnone : fits'' none cs) (hsome : ∀ a r, fits a r → fits'' (some a) r)
    (hlost : lag none → lag' (some cs)) (hbehind : ∀ r, lag (some r) → lag' (some r)) :
    At lag' fits'' cs (attempt f) fun m => Parse.attempt (F m) := by
  obtain ⟨y, hy, hmeets⟩ := h
  unfold At Joint
  simp only [Parse.attempt, hy]
  generalize f cs = x at hmeets
  cases hmeets with
  | same h => exact ⟨_, fun _ => rfl, .same (hsome _ _ h)⟩
  | fail e e' => exact ⟨_, fun _ => rfl, .same hnone⟩
  | lost e b h => exact ⟨_, fun _ => rfl, .behind (some b) (hlost h) hnone⟩
  | behind b h hr => exact ⟨_, fun _ => rfl, .behind (some b) (hbehind _ h) (hsome _ _ hr)⟩

theorem attempt {f : Parse α} {F : Nat → Parse α} (hcs : cs.length ≤ n)
    (h : At lag (Within n) cs f F) (hlost : lag none → lag' (some cs))
    (hbehind : ∀ r, lag (some r) → lag' (some r)) :
    At lag' (Within n) cs (attempt f) fun m => Parse.attempt (F m) :=
  h.attempt_fits hcs (fun _ _ hr => hr) hlost hbehind

/-- After a reader that is tried there is something to see to wherever it takes the parenthesis. -/
theorem attempt_bind {f : Parse α} {F : Nat → Parse α} {k : Option α → Parse β}
    {K : Nat → Option α → Parse β} {fits'' : β → List Char → Prop} (h : At lag fits cs f F)
    (hsome : ∀ a r, fits a r → At lag' fits'' r (k (some a)) fun m => K m (some a))
    (hnone : At lag' fits'' cs (k none) fun m => K m none)
    (hlost : lag none → ∀ b, Joint lag' fits'' (k none cs) (fun m => K m (some b)) [])
    (hbehind : ∀ a b r, lag (some r) → fits a r →
      Joint lag' fits'' (k (some a) r) (fun m => K m (some b)) []) :
    At lag' fits'' cs (Parse.attempt f >>= k) fun m => Parse.attempt (F m) >>= K m := by
  obtain ⟨y, hy, hmeets⟩ := h
  generalize hx : f cs = x at hmeets
  cases hmeets with
  | same ha =>
    exact .of_eq (run_bind_of_ok (attempt_of_ok hx))
      (fun m => run_bind_of_ok (attempt_of_ok (hy m))) (hsome _ _ ha)
  | fail e e' =>
    exact .of_eq (run_bind_of_ok (attempt_of_error hx))
      (fun m => run_bind_of_ok (attempt_of_error (hy m))) hnone
  | lost e b hlag =>
    exact Joint.of_eq (run_bind_of_ok (attempt_of_error hx))
      (fun m => run_bind_of_ok (attempt_of_ok (hy m))) (hlost hlag b)
  | behind b hlag ha =>
    exact Joint.of_eq (run_bind_of_ok (attempt_of_ok hx))
      (fun m => run_bind_of_ok (attempt_of_ok (hy m))) (hbehind _ b _ hlag ha)

end At

/-! ### Repetition -/

/-- At most the given number of characters is left, and fewer after an answer. -/
def Item (n : Nat) (o : Option α) (r : List Char) : Prop := r.length + o.toList.length ≤ n

/-- An item that is read again and again goes together with the others.  Where it lags behind it
goes on doing so. -/
structure Repeats (N : Nat) (P : List Char → Prop) (item : Parse (Option α))
    (item' : Nat → Parse (Option α)) : Prop where
  reads : ∀ cs n, cs.length ≤ n → n ≤ N → At (leaving P) (Item n) cs item item'
  ends : ∀ m, item' m [] = .ok (none, [])
  behind : ∀ r o r', r.length ≤ N → P r → item r = .ok (o, r') → P r'

namespace Repeats

variable {item : Parse (Option α)} {item' : Nat → Parse (Option α)}

theorem manyWithin_nil (h : Repeats N P item item') {q : Nat} (hq : 0 < q) (m : Nat) :
    manyWithin (item' m) q [] = .ok ([], []) := by
  obtain ⟨q, rfl⟩ : ∃ i, q = i + 1 := ⟨q - 1, by omega⟩
  rw [manyWithin, run_bind_of_ok (h.ends m)]
  rfl

/-- A repetition that lags behind goes on doing so. -/
theorem manyWithin_behind (h : Repeats N P item item') : ∀ {p : Nat} {r r' : List Char}
    {xs : List α}, P r → r.length < p → r.length ≤ N → manyWithin item p r = .ok (xs, r') →
    P r' ∧ r'.length ≤ r.length
  | p + 1, r, r', xs, hr, hp, hN, hrun => by
    rw [manyWithin] at hrun
    obtain ⟨o, mid, ho, hrun⟩ := bind_eq_ok hrun
    have hmid : P mid := h.behind r o mid hN hr ho
    have hfewer : Item r.length o mid := (h.reads r r.length (Nat.le_refl _) hN).fits_of_ok ho
    cases o with
    | none =>
      cases hrun
      exact ⟨hmid, hfewer⟩
    | some x =>
      have hfewer : mid.length + 1 ≤ r.length := hfewer
      obtain ⟨ys, rest, hys, hrun⟩ := bind_eq_ok hrun
      cases hrun
      obtain ⟨hrest, hle⟩ := h.manyWithin_behind hmid (by omega) (by omega) hys
      exact ⟨hrest, by omega⟩

theorem many_nil (h : Repeats N P item item') (m : Nat) : Parse.many (item' m) [] = .ok ([], []) :=
  h.manyWithin_nil Nat.one_pos m

theorem many_behind (h : Repeats N P item item') {r r' : List Char} {xs : List α} (hr : P r)
    (hN : r.length ≤ N) (hrun : Parse.many item r = .ok (xs, r')) : P r' ∧ r'.length ≤ r.length :=
  h.manyWithin_behind hr (Nat.lt_succ_self _) hN hrun

theorem manyWithin_at (h : Repeats N P item item') : ∀ {p q n : Nat} {cs : List Char},
    cs.length ≤ n → n ≤ N → n < p → n + 1 < q →
    At (leaving P) (Within n) cs (manyWithin item p) fun m => manyWithin (item' m) q
  | p + 1, q + 1, n, cs, hcs, hn, hp, hq => by
    simp only [manyWithin]
    refine (h.reads cs n hcs hn).bind_leaving (fun o r hr => ?_) leaving_none (fun o => ?_)
      fun o r xs r' hP hr hrun => ?_
    · cases o with
      | none => exact .pure hr
      | some x =>
        have hr : r.length + 1 ≤ n := hr
        have hmore : At (leaving P) (Within (n - 1)) r (manyWithin item p)
            fun m => manyWithin (item' m) q :=
          h.manyWithin_at (by omega) (by omega) (by omega) (by omega)
        exact hmore.map (x :: ·) fun _ r' hr' => Nat.le_trans hr' (Nat.sub_le n 1)
    · -- the item has taken the parenthesis: nothing is left to be repeated
      cases o with
      | none => exact ⟨[], fun _ => rfl⟩
      | some x =>
        exact ⟨[x], fun m => run_bind_of_ok (h.manyWithin_nil (by omega) m)⟩
    · cases o with
      | none =>
        cases hrun
        exact ⟨leaving_some hP, hr⟩
      | some x =>
        have hr : r.length + 1 ≤ n := hr
        obtain ⟨ys, rest, hys, hrun⟩ := bind_eq_ok hrun
        cases hrun
        obtain ⟨hrest, hle⟩ := h.manyWithin_behind hP (by omega) (by omega) hys
        exact ⟨leaving_some hrest, Nat.le_trans hle (by omega)⟩

/-- **Repetitions go together if their items do.** -/
theorem many (h : Repeats N P item item') :
    Sim N (leaving P) (many item) fun m => Parse.many (item' m) := by
  intro cs n hcs hn
  refine .get ?_
  rw [length_closed]
  exact (h.manyWithin_at (Nat.le_refl _) (Nat.le_trans hcs hn) (by omega) (by omega)).imp
    fun _ r hr => Nat.le_trans hr hcs

end Repeats

/-- A reader that never fails. -/
def Answers (f : Parse α) : Prop := ∀ cs, ∃ p, f cs = .ok p

/-- A repetition never fails if its item does not. -/
theorem Answers.many {item : Parse (Option α)} (h : Answers item) : Answers (many item) := by
  have hwithin (i : Nat) : Answers (manyWithin item i) := by
    induction i with
    | zero => exact fun cs => ⟨_, rfl⟩
    | succ i ih =>
      intro cs
      obtain ⟨⟨o, mid⟩, ho⟩ := h cs
      rw [manyWithin, run_bind_of_ok ho]
      cases o with
      | none => exact ⟨_, rfl⟩
      | some x =>
        obtain ⟨p, hp⟩ := ih mid
        exact ⟨_, run_bind_of_ok hp⟩
  exact fun cs => hwithin _ cs

/-- An item that is read with separators goes together with the others.  Where it lags behind it
does so after a separator too. -/
structure Separates (N : Nat) (P : List Char → Prop) (separator : Char) (item : Parse α)
    (item' : Nat → Parse α) : Prop where
  reads : Sim N (leaving P) item item'
  noBlank : ∀ r, P r → r.dropWhile Text.isBlank = r
  behind : ∀ y a r', y.length < N → P (separator :: y) →
    item (y.dropWhile Text.isBlank) = .ok (a, r') → P r'

namespace Separates

variable {separator : Char} {item : Parse α} {item' : Nat → Parse α}

/-- What follows an item: the end, or a separator and more items. -/
def afterItem (separator : Char) (item : Parse α) (p : Nat) (x : α) : Parse (List α) := do
  skipBlanks
  if ← eat separator then
    let xs ← separatedWithin separator item p
    pure (x :: xs)
  else pure [x]

theorem separatedWithin_succ (p : Nat) :
    separatedWithin separator item (p + 1) =
      skipBlanks >>= fun _ => item >>= afterItem separator item p := rfl

/-- An item that fails where it takes the parenthesis does not lag behind. -/
theorem of_failing (h : Sim N failing item item') :
    Separates N (fun _ => False) separator item item' :=
  ⟨h, fun _ h => h.elim, fun _ _ _ _ h => h.elim⟩

/-- Where an item lags behind, so do the items after it. -/
theorem afterItem_behind (h : Separates N P separator item item') : ∀ {p : Nat}
    {r r' : List Char} {x : α} {xs : List α}, P r → r.length ≤ p → r.length ≤ N →
    afterItem separator item p x r = .ok (xs, r') →
    (P r' ∧ r'.head? ≠ some separator) ∧ r'.length ≤ r.length
  | p, r, r', x, xs, hr, hp, hN, hrun => by
    have hblank : skipBlanks r = .ok ((), r) := by rw [run_skipBlanks, h.noBlank r hr]
    rw [afterItem, run_bind_of_ok hblank] at hrun
    by_cases hhead : r.head? = some separator
    · obtain ⟨y, rfl⟩ := List.head?_eq_some_iff.mp hhead
      rw [run_bind_of_ok (eat_cons_self _ _)] at hrun
      obtain ⟨p, rfl⟩ : ∃ i, p = i + 1 := ⟨p - 1, by simp at hp; omega⟩
      obtain ⟨ys, rest, hys, hrun⟩ := bind_eq_ok hrun
      cases hrun
      rw [separatedWithin_succ, run_bind_of_ok (run_skipBlanks _)] at hys
      obtain ⟨x', mid, hx', hys⟩ := bind_eq_ok hys
      have hy : (y.dropWhile Text.isBlank).length ≤ y.length := length_dropWhile_le _ _
      simp only [List.length_cons] at hp hN ⊢
      have hmid : P mid := h.behind y x' mid (by omega) hr hx'
      have hle : mid.length ≤ y.length :=
        (h.reads _ y.length hy (by omega)).fits_of_ok hx'
      obtain ⟨hrest, hle'⟩ := h.afterItem_behind hmid (by omega) (by omega) hys
      exact ⟨hrest, by omega⟩
    · rw [run_bind_of_ok (eat_of_head?_ne hhead)] at hrun
      cases hrun
      exact ⟨⟨hr, hhead⟩, Nat.le_refl _⟩

theorem separatedWithin_at (h : Separates N P separator item item') (hclose : separator ≠ ')') :
    ∀ {p q n : Nat} {cs : List Char}, cs.length ≤ n → n ≤ N → n < p → n + 1 < q →
    At (leaving fun r => P r ∧ r.head? ≠ some separator) (Within n) cs
      (separatedWithin separator item p) fun m => separatedWithin separator (item' m) q
  | p + 1, q + 1, n, cs, hcs, hn, hp, hq => by
    simp only [separatedWithin_succ]
    refine (At.skipBlanks hcs).bind_never fun _ mid hmid => ?_
    refine (h.reads mid n hmid hn).bind_leaving (fun x r hr => ?_) leaving_none
      (fun x => ⟨[x], fun _ => rfl⟩) fun x r xs r' hP hr hrun => ?_
    · refine (At.skipBlanks hr).bind_never fun _ r hr => ?_
      refine .eat hclose (fun r' hr' => ?_) fun _ => .pure hr
      have hlt : r'.length + 1 ≤ n := by
        have hr : r.length ≤ n := hr
        rwa [hr'] at hr
      have hmore : At (leaving fun r => P r ∧ r.head? ≠ some separator) (Within (n - 1)) r'
          (separatedWithin separator item p) fun m => separatedWithin separator (item' m) q :=
        h.separatedWithin_at hclose (by omega) (by omega) (by omega) (by omega)
      exact hmore.map (x :: ·) fun _ _ hle => Nat.le_trans hle (Nat.sub_le n 1)
    · have hr : r.length ≤ n := hr
      obtain ⟨hlag, hle⟩ := h.afterItem_behind hP (by omega) (by omega) hrun
      exact ⟨leaving_some hlag, Nat.le_trans hle hr⟩

/-- **Items with separators go together if the items do.** -/
theorem separated (h : Separates N P separator item item') (hclose : separator ≠ ')') :
    Sim N (leaving fun r => P r ∧ r.head? ≠ some separator) (separated separator item)
      fun m => Parse.separated separator (item' m) := by
  intro cs n hcs hn
  refine .get ?_
  rw [length_closed]
  exact (h.separatedWithin_at hclose (Nat.le_refl _) (Nat.le_trans hcs hn) (by omega)
    (by omega)).imp fun _ r hr => Nat.le_trans hr hcs

end Separates

/-- Items that fail where they take the parenthesis do so with separators too. -/
theorem Sim.separated {separator : Char} {item : Parse α} {item' : Nat → Parse α}
    (h : Sim N failing item item') (hclose : separator ≠ ')') :
    Sim N failing (separated separator item) fun m => Parse.separated separator (item' m) :=
  fun cs n hcs hn => ((Separates.of_failing h).separated hclose cs n hcs hn).mono
    fun _ ho r hr => (ho r hr).1

end DottedPath.Parse
