import DottedPath.Query.Cache
import Mathlib

/-!
# The parse cache keeps the most recent paths

A history of requests alone decides what the cache holds: the texts of paths requested since it was
last cleared, each once, the most recent first (`PathCache.recentTexts`), cut at the capacity.

## Main statements

`PathCache.entries_run`: what is kept after any history.

`PathCache.run_recent`: the cache cannot be told from parsing each text anew, except that it parses
just the texts that are not among the most recent ones.
-/

namespace DottedPath

namespace PathCache

/-- A use of the cache. -/
inductive Step where
  | request (text : String)
  | clear

/-- The cache after a use. -/
def step (c : PathCache) : Step → PathCache
  | .request text => (c.request text).2
  | .clear => c.clear

/-- The cache after a history of uses, the first use first. -/
def run (c : PathCache) (steps : List Step) : PathCache := steps.foldl step c

/-- The text is a path. -/
def isPath (text : String) : Bool := (PathExpression.parse text).isOk

/-- The text of a path that is requested. -/
def Step.path? : Step → Option String
  | .request text => if isPath text then some text else none
  | .clear => none

/-- The use is not the one that forgets everything. -/
def Step.isRequest : Step → Bool
  | .request _ => true
  | .clear => false

/-- The texts of paths that a history requests after it clears the cache for the last time, each of
them once, the most recent first. -/
def recentTexts (steps : List Step) : List String :=
  ((steps.reverse.takeWhile Step.isRequest).filterMap Step.path?).eraseDups

end PathCache

section Duplicates

variable {α : Type*} [DecidableEq α]

/-- Duplicates can be erased before or after a filter. -/
theorem eraseDups_filter (p : α → Bool) :
    ∀ l : List α, (l.filter p).eraseDups = l.eraseDups.filter p
  | [] => rfl
  | a :: as => by
    -- On the length: erasing the duplicates of the head leaves no tail of the list.
    have htail := eraseDups_filter p (as.filter fun b => !b == a)
    have hcomm : ((as.filter p).filter fun b => !b == a) =
        (as.filter fun b => !b == a).filter p := by
      simp only [List.filter_filter, Bool.and_comm]
    by_cases ha : p a
    · rw [List.filter_cons_of_pos ha, List.eraseDups_cons, List.eraseDups_cons,
        List.filter_cons_of_pos ha, hcomm, htail]
    · have hall : ((as.filter fun b => !b == a).filter p) = as.filter p := by
        rw [← hcomm, List.filter_eq_self]
        intro b hb
        have hpb : p b = true := (List.mem_filter.mp hb).2
        have hne : b ≠ a := fun h => ha (h ▸ hpb)
        simp [hne]
      rw [List.filter_cons_of_neg ha, List.eraseDups_cons, List.filter_cons_of_neg ha, ← htail,
        hall]
termination_by l => l.length
decreasing_by exact Nat.lt_succ_of_le (List.length_filter_le _ _)

theorem nodup_eraseDups : ∀ l : List α, l.eraseDups.Nodup
  | [] => by simp
  | a :: as => by
    rw [List.eraseDups_cons, List.nodup_cons]
    refine ⟨?_, nodup_eraseDups (as.filter fun b => !b == a)⟩
    rw [List.mem_eraseDups, List.mem_filter]
    simp
termination_by l => l.length
decreasing_by exact Nat.lt_succ_of_le (List.length_filter_le _ _)

/-- Of a list cut behind the element that is taken out, one element less is left. -/
theorem filter_take_of_mem {a : α} {l : List α} {n : Nat} (hnodup : l.Nodup)
    (ha : a ∈ l.take n) : (l.take n).filter (· != a) = (l.filter (· != a)).take (n - 1) := by
  have filter_beside {r : List α} (hr : a ∉ r) : r.filter (· != a) = r := by
    rw [List.filter_eq_self]
    intro b hb
    simpa using ne_of_mem_of_not_mem hb hr
  obtain ⟨before, after, htake⟩ := List.append_of_mem ha
  have hl : l = before ++ a :: (after ++ l.drop n) := by
    rw [← List.cons_append, ← List.append_assoc, ← htake, List.take_append_drop]
  rw [hl] at hnodup
  have hbefore : a ∉ before := fun h => (List.nodup_append.mp hnodup).2.2 a h a (by simp) rfl
  have hbehind : a ∉ after ++ l.drop n := (List.nodup_cons.mp (List.nodup_append.mp hnodup).2.1).1
  have hafter : a ∉ after := fun h => hbehind (List.mem_append_left _ h)
  have hcut : (l.take n).filter (· != a) = before ++ after := by
    rw [htake, List.filter_append, List.filter_cons_of_neg (by simp), filter_beside hbefore,
      filter_beside hafter]
  have hwhole : l.filter (· != a) = before ++ after ++ l.drop n := by
    rw [hl, List.filter_append, List.filter_cons_of_neg (by simp), filter_beside hbefore]
    rw [← hl, filter_beside hbehind, List.append_assoc]
  have hlength : (before ++ after).length + 1 = min n l.length := by
    rw [← List.length_take, htake]
    simp
    omega
  rw [hcut, hwhole]
  rcases Nat.le_total n l.length with hle | hle
  · rw [List.take_append_of_le_length (by omega), List.take_of_length_le (by omega)]
  · rw [List.drop_eq_nil_of_le hle, List.append_nil, List.take_of_length_le (by omega)]

/-- An element behind the cut can be taken out without a trace. -/
theorem take_filter_of_not_mem {a : α} {l : List α} {n m : Nat} (hm : m ≤ n)
    (ha : a ∉ l.take n) : (l.filter (· != a)).take m = l.take m := by
  have hkept : (l.take m).filter (· != a) = l.take m := by
    rw [List.filter_eq_self]
    intro b hb
    have hne : b ≠ a := by
      rintro rfl
      exact ha (List.take_subset_take_left l hm hb)
    simpa using hne
  rcases Nat.le_total m l.length with hle | hle
  · rw [← List.take_append_drop m l, List.filter_append, hkept,
      List.take_append_of_le_length (by simp [hle]),
      List.take_append_of_le_length (by simp [hle])]
  · rw [List.take_of_length_le hle] at hkept
    rw [hkept]

end Duplicates

namespace PathCache

variable {c : PathCache} {capacity : Nat} {text : String} {texts : List String}

/-- A text is requested: if it is a path it becomes the most recent one. -/
def promote (text : String) (texts : List String) : List String :=
  if isPath text then text :: texts.filter (· != text) else texts

theorem recentTexts_clear (steps : List Step) : recentTexts (steps ++ [.clear]) = [] := by
  simp [recentTexts, Step.isRequest]

theorem recentTexts_request (steps : List Step) (text : String) :
    recentTexts (steps ++ [.request text]) = promote text (recentTexts steps) := by
  have htake : (steps ++ [Step.request text]).reverse.takeWhile Step.isRequest =
      Step.request text :: steps.reverse.takeWhile Step.isRequest := by
    rw [List.reverse_append, List.reverse_singleton, List.singleton_append,
      List.takeWhile_cons_of_pos (by rfl)]
  by_cases hpath : isPath text
  · have hsome : Step.path? (.request text) = some text := by simp [Step.path?, hpath]
    rw [recentTexts, htake, List.filterMap_cons_some hsome, List.eraseDups_cons, eraseDups_filter,
      promote, if_pos hpath]
    rfl
  · have hnone : Step.path? (.request text) = none := by simp [Step.path?, hpath]
    rw [recentTexts, htake, List.filterMap_cons_none hnone, promote, if_neg hpath]
    rfl

theorem nodup_recentTexts (steps : List Step) : (recentTexts steps).Nodup := nodup_eraseDups _

/-- The cache holds the parses of the most recent texts, as many as it has room for. -/
structure Recent (c : PathCache) (capacity : Nat) (texts : List String) : Prop where
  capacity_eq : c.capacity = capacity
  texts_eq : c.entries.map Prod.fst = texts.take capacity
  parses : ∀ t e, (t, e) ∈ c.entries → PathExpression.parse t = .ok e

namespace Recent

theorem length_le (hrecent : Recent c capacity texts) : c.size ≤ capacity := by
  rw [size, ← List.length_map (f := Prod.fst), hrecent.texts_eq, List.length_take]
  exact Nat.min_le_left _ _

theorem nodup (hrecent : Recent c capacity texts) (hnodup : texts.Nodup) :
    (c.entries.map Prod.fst).Nodup := by
  rw [hrecent.texts_eq]
  exact hnodup.take

/-- A text that is found is among the most recent, with its own parse. -/
theorem of_lookup_some {e : PathExpression} (hrecent : Recent c capacity texts)
    (hlookup : c.entries.lookup text = some e) :
    text ∈ texts.take capacity ∧ PathExpression.parse text = .ok e := by
  obtain ⟨before, after, hentries, -⟩ := List.lookup_eq_some_iff.mp hlookup
  have hmem : (text, e) ∈ c.entries := by simp [hentries]
  refine ⟨?_, hrecent.parses text e hmem⟩
  rw [← hrecent.texts_eq]
  exact List.mem_map_of_mem hmem

theorem of_lookup_none (hrecent : Recent c capacity texts)
    (hlookup : c.entries.lookup text = none) : text ∉ texts.take capacity := by
  rw [← hrecent.texts_eq]
  intro hmem
  obtain ⟨⟨t, e⟩, hentry, rfl⟩ := List.mem_map.mp hmem
  simpa using List.lookup_eq_none_iff.mp hlookup (t, e) hentry

/-- The answer to a request, and whether the text is parsed for it. -/
theorem request_answer (hrecent : Recent c capacity texts) (text : String) :
    (c.request text).1.result = PathExpression.parse text ∧
      ((c.request text).1.parsed = true ↔ text ∉ texts.take capacity) := by
  unfold request
  split
  case h_1 e hlookup =>
    obtain ⟨hmem, hparse⟩ := hrecent.of_lookup_some hlookup
    exact ⟨hparse.symm, by simpa using hmem⟩
  case h_2 hlookup =>
    have hfresh := hrecent.of_lookup_none hlookup
    cases hparse : PathExpression.parse text with
    | ok e => exact ⟨rfl, by simpa using hfresh⟩
    | error e => exact ⟨rfl, by simpa using hfresh⟩

theorem clear (hrecent : Recent c capacity texts) : Recent c.clear capacity [] where
  capacity_eq := hrecent.capacity_eq
  texts_eq := by simp [PathCache.clear]
  parses := by simp [PathCache.clear]

/-- What a request does to the cache is what it does to the most recent texts. -/
theorem request (hpos : 0 < capacity) (hnodup : texts.Nodup) (hrecent : Recent c capacity texts)
    (text : String) : Recent (c.request text).2 capacity (promote text texts) := by
  -- The room that is left behind the text that is now the most recent.
  have hcut (rest : List String) :
      (text :: rest).take capacity = text :: rest.take (capacity - 1) := by
    rw [← Nat.succ_pred_eq_of_pos hpos]
    rfl
  unfold PathCache.request
  split
  case h_1 e hlookup =>
    obtain ⟨hmem, hparse⟩ := hrecent.of_lookup_some hlookup
    have hpath : isPath text = true := by simp [isPath, hparse, Except.isOk, Except.toBool]
    refine ⟨hrecent.capacity_eq, ?_, ?_⟩
    · have herase : (c.erase text).map Prod.fst = (c.entries.map Prod.fst).filter (· != text) := by
        rw [erase, List.filter_map]
        rfl
      rw [promote, if_pos hpath, hcut, List.map_cons, herase, hrecent.texts_eq,
        filter_take_of_mem hnodup hmem]
    · intro t e' hentry
      rcases List.mem_cons.mp hentry with heq | hold
      · cases heq
        exact hparse
      · exact hrecent.parses t e' (List.mem_filter.mp hold).1
  case h_2 hlookup =>
    have hfresh := hrecent.of_lookup_none hlookup
    cases hparse : PathExpression.parse text with
    | error e =>
      have hpath : isPath text = false := by simp [isPath, hparse, Except.isOk, Except.toBool]
      simpa [promote, hpath] using hrecent
    | ok e =>
      have hpath : isPath text = true := by simp [isPath, hparse, Except.isOk, Except.toBool]
      refine ⟨hrecent.capacity_eq, ?_, ?_⟩
      · have hroom : (texts.take capacity).take (capacity - 1) = texts.take (capacity - 1) := by
          rw [List.take_take, Nat.min_eq_left (Nat.sub_le _ _)]
        simp only [promote, hpath, if_true, List.map_take, List.map_cons, hrecent.capacity_eq,
          hrecent.texts_eq, hcut, hroom, take_filter_of_not_mem (Nat.sub_le _ _) hfresh]
      · intro t e' hentry
        rcases List.mem_cons.mp (List.mem_of_mem_take hentry) with heq | hold
        · cases heq
          exact hparse
        · exact hrecent.parses t e' hold

end Recent

/-- The history that the cache has seen decides what it holds. -/
theorem recent_run (capacity : Nat) (steps : List Step) :
    Recent ((ofCapacity capacity).run steps) (max capacity 1) (recentTexts steps) := by
  induction steps using List.reverseRecOn with
  | nil => exact ⟨rfl, by simp [run, ofCapacity, recentTexts], by simp [run, ofCapacity]⟩
  | append_singleton steps last ih =>
    rw [run, List.foldl_append]
    cases last with
    | clear =>
      rw [recentTexts_clear]
      exact ih.clear
    | request text =>
      rw [recentTexts_request]
      exact ih.request (by omega) (nodup_recentTexts steps) text

/-- **The texts in the cache are the most recent ones**, in the order in which they were last
requested. -/
theorem entries_run (capacity : Nat) (steps : List Step) :
    ((ofCapacity capacity).run steps).entries.map Prod.fst =
      (recentTexts steps).take (max capacity 1) :=
  (recent_run capacity steps).texts_eq

/-- **The cache is invisible and keeps the most recent paths.**  After any history there is room for
what it holds, each text is held once, with its own parse; and the next request is answered as
parsing answers it, where the text is parsed just if it is not among the most recent ones. -/
theorem run_recent (capacity : Nat) (steps : List Step) :
    ((ofCapacity capacity).run steps).size ≤ max capacity 1 ∧
      (((ofCapacity capacity).run steps).entries.map Prod.fst).Nodup ∧
      (∀ text e, (text, e) ∈ ((ofCapacity capacity).run steps).entries →
        PathExpression.parse text = .ok e) ∧
      ∀ text,
        (((ofCapacity capacity).run steps).request text).1.result = PathExpression.parse text ∧
        ((((ofCapacity capacity).run steps).request text).1.parsed = true ↔
          text ∉ (recentTexts steps).take (max capacity 1)) :=
  have hrecent := recent_run capacity steps
  ⟨hrecent.length_le, hrecent.nodup (nodup_recentTexts steps), hrecent.parses,
    hrecent.request_answer⟩

end PathCache

end DottedPath
