import Revoq.SharedLog

/-! # Merging logs that grow

Several logs, numbered, and one reader that takes from all of them.  It chooses the
log whose next element has the least key, of several the first one, keeps to its choice
until it has taken the element, and then chooses again.  The logs grow meanwhile, so a
choice is about the moment at which it is made.

`Ordered` says so in terms of the events alone.
-/
namespace MergedLog
open Observed
variable {α : Type}

/-- What can be observed. -/
inductive Event (α : Type) where
  | appended (k : Nat) (a : α)
  /-- The reader is shown the next element of log `k`. -/
  | shown (k : Nat) (a : α)
  /-- The reader is told that there is no element in any log. -/
  | nothing
  | taken (k : Nat) (a : α)

/-- The logs, how much of each was taken, and the choice. -/
structure State (α : Type) where
  log : Nat → List α := fun _ => []
  position : Nat → Nat := fun _ => 0
  chosen : Option Nat := none

/-- The next element of a log. -/
def State.next (s : State α) (k : Nat) : Option α := (s.log k)[s.position k]?

/-- The next element of log `k` has the least key, and is the first one that has. -/
def State.FirstLeast (key : α → Int) (s : State α) (k : Nat) (a : α) : Prop :=
  s.next k = some a ∧ ∀ i b, s.next i = some b → key a ≤ key b ∧ (i < k → key a < key b)

/-- **The atomic operations.** -/
inductive Step (key : α → Int) : State α → List (Event α) → State α → Prop where
  | append (s : State α) (k : Nat) (a : α) :
      Step key s [.appended k a] { s with log := Function.update s.log k (s.log k ++ [a]) }
  | choose {s : State α} {k : Nat} {a : α} (hc : s.chosen = none) (h : s.FirstLeast key k a) :
      Step key s [.shown k a] { s with chosen := some k }
  | again {s : State α} {k : Nat} {a : α} (hc : s.chosen = some k) (h : s.next k = some a) :
      Step key s [.shown k a] s
  | nothing {s : State α} (hc : s.chosen = none) (h : ∀ k, s.next k = none) :
      Step key s [.nothing] s
  | take {s : State α} {k : Nat} {a : α} (hc : s.chosen = some k) (h : s.next k = some a) :
      Step key s [.taken k a]
        { s with position := Function.update s.position k (s.position k + 1), chosen := none }

def Event.appends (k : Nat) : Event α → Option α
  | .appended i a => if i = k then some a else none
  | _ => none

def Event.takes (k : Nat) : Event α → Option α
  | .taken i a => if i = k then some a else none
  | _ => none

/-- What is appended to log `k`, in order. -/
def appends (k : Nat) (es : List (Event α)) : List α := es.filterMap (Event.appends k)

/-- What is taken from log `k`, in order. -/
def takes (k : Nat) (es : List (Event α)) : List α := es.filterMap (Event.takes k)

/-- The choice after an event. -/
def Event.choice (c : Option Nat) : Event α → Option Nat
  | .shown k _ => some k
  | .taken _ _ => none
  | _ => c

/-- The log that was shown last, if nothing was taken since. -/
def choice (es : List (Event α)) : Option Nat := es.foldl Event.choice none

/-- **A merge of growing logs**, seen from outside. -/
structure Ordered (key : α → Int) (es : List (Event α)) : Prop where
  /-- Of each log the first elements are taken, in order. -/
  taken : ∀ k es₁ es₂, es = es₁ ++ es₂ → takes k es₁ <+: appends k es₁
  /-- What is shown is a next element, and of the log that was shown before it. -/
  shown : ∀ k a es₁ es₂, es = es₁ ++ .shown k a :: es₂ →
    takes k es₁ ++ [a] <+: appends k es₁ ∧ (choice es₁ = none ∨ choice es₁ = some k)
  /-- If none was, its key is the least of the next elements, and it is the first such. -/
  least : ∀ k a es₁ es₂, es = es₁ ++ .shown k a :: es₂ → choice es₁ = none →
    ∀ i b, takes i es₁ ++ [b] <+: appends i es₁ → key a ≤ key b ∧ (i < k → key a < key b)
  /-- What is taken was shown. -/
  chosen : ∀ k a es₁ es₂, es = es₁ ++ .taken k a :: es₂ → choice es₁ = some k
  /-- No element is reported only if all are taken. -/
  nothing : ∀ es₁ es₂, es = es₁ ++ .nothing :: es₂ → ∀ k, takes k es₁ = appends k es₁

theorem appends_append (k : Nat) (es es' : List (Event α)) :
    appends k (es ++ es') = appends k es ++ appends k es' :=
  List.filterMap_append

theorem takes_append (k : Nat) (es es' : List (Event α)) :
    takes k (es ++ es') = takes k es ++ takes k es' :=
  List.filterMap_append

theorem choice_concat (es : List (Event α)) (e : Event α) :
    choice (es ++ [e]) = e.choice (choice es) := by
  rw [choice, List.foldl_append]
  rfl

section
variable {key : α → Int} {s s' : State α} {es es' : List (Event α)}

/-- Appending to one log. -/
theorem trace_appends (key : α → Int) (s : State α) (k : Nat) (as : List α) :
    Trace (Step key) s (as.map (.appended k))
      { s with log := Function.update s.log k (s.log k ++ as) } := by
  induction as generalizing s with
  | nil =>
    rw [List.append_nil, Function.update_eq_self]
    exact .nil
  | cons a as ih =>
    have h := ih { s with log := Function.update s.log k (s.log k ++ [a]) }
    simp only [Function.update_self, Function.update_idem, List.append_assoc] at h
    exact (Trace.single (.append s k a)).trans h

/-- What the events so far say of the state. -/
structure Matches (es : List (Event α)) (s : State α) : Prop where
  log : ∀ k, appends k es = s.log k
  taken : ∀ k, takes k es = (s.log k).take (s.position k)
  inside : ∀ k, s.position k ≤ (s.log k).length
  chosen : choice es = s.chosen

theorem matches_start : Matches ([] : List (Event α)) {} :=
  ⟨fun _ => rfl, fun _ => rfl, fun _ => Nat.le_refl 0, rfl⟩

/-- The next elements, in terms of the events. -/
theorem Matches.next_iff (h : Matches es s) {k : Nat} {a : α} :
    s.next k = some a ↔ takes k es ++ [a] <+: appends k es := by
  rw [State.next, h.taken, h.log]
  constructor
  · intro hget
    have htake : (s.log k).take (s.position k + 1) = (s.log k).take (s.position k) ++ [a] := by
      rw [List.take_add_one, hget]
      rfl
    rw [← htake]
    exact List.take_prefix ..
  · rintro ⟨rest, hrest⟩
    have hlen : ((s.log k).take (s.position k)).length = s.position k := by
      rw [List.length_take, Nat.min_eq_left (h.inside k)]
    have hget : ((s.log k).take (s.position k) ++ [a] ++ rest)[s.position k]? = some a := by
      rw [List.append_assoc, List.getElem?_append_right (by omega), hlen, Nat.sub_self]
      rfl
    rwa [hrest] at hget

theorem Matches.prefix (h : Matches es s) (k : Nat) : takes k es <+: appends k es := by
  rw [h.log, h.taken]
  exact List.take_prefix ..

theorem Matches.nothing (h : Matches es s) {k : Nat} (hnone : s.next k = none) :
    takes k es = appends k es := by
  rw [h.log, h.taken]
  exact List.take_of_length_le (List.getElem?_eq_none_iff.mp hnone)

/-- An event that appends and takes nothing. -/
theorem Matches.look (h : Matches es s) {e : Event α} {c : Option Nat}
    (happ : ∀ k, e.appends k = none) (htake : ∀ k, e.takes k = none) (hc : e.choice s.chosen = c) :
    Matches (es ++ [e]) { s with chosen := c } := by
  refine ⟨fun k => ?_, fun k => ?_, h.inside, ?_⟩
  · rw [appends_append, h.log, appends, List.filterMap_cons, happ]
    exact List.append_nil _
  · rw [takes_append, h.taken, takes, List.filterMap_cons, htake]
    exact List.append_nil _
  · rw [choice_concat, h.chosen]
    exact hc

theorem Matches.step (h : Matches es s) (hs : Step key s es' s') : Matches (es ++ es') s' := by
  cases hs with
  -- what is appended lies behind every position, also in the log it joins
  | append k a =>
    refine ⟨fun i => ?_, fun i => ?_, fun i => ?_, ?_⟩
    · rw [appends_append, h.log]
      by_cases hi : k = i
      · subst hi
        simp [appends, Event.appends]
      · simp [appends, Event.appends, hi, Function.update_of_ne (Ne.symm hi)]
    · rw [takes_append, h.taken]
      by_cases hi : k = i
      · subst hi
        simp only [Function.update_self]
        rw [List.take_append_of_le_length (h.inside k)]
        exact List.append_nil _
      · simp only [Function.update_of_ne (Ne.symm hi)]
        exact List.append_nil _
    · by_cases hi : k = i
      · subst hi
        simp only [Function.update_self, List.length_append]
        exact Nat.le_trans (h.inside k) (Nat.le_add_right ..)
      · simp only [Function.update_of_ne (Ne.symm hi)]
        exact h.inside i
    · rw [choice_concat, h.chosen]
      rfl
  | choose hc hleast => exact h.look (fun _ => rfl) (fun _ => rfl) rfl
  | @again k a hc hnext => exact h.look (e := .shown k a) (fun _ => rfl) (fun _ => rfl) hc.symm
  | nothing hc hall => exact h.look (e := .nothing) (fun _ => rfl) (fun _ => rfl) rfl
  | @take k a hc hnext =>
    obtain ⟨hlt, hget⟩ := List.getElem?_eq_some_iff.mp hnext
    refine ⟨fun i => ?_, fun i => ?_, fun i => ?_, ?_⟩
    · rw [appends_append, h.log]
      exact List.append_nil _
    · rw [takes_append, h.taken]
      by_cases hi : k = i
      · subst hi
        simp only [takes, Event.takes, if_true, List.filterMap_cons, List.filterMap_nil,
          Function.update_self]
        rw [List.take_add_one, List.getElem?_eq_getElem hlt, hget]
        rfl
      · simp only [takes, Event.takes, if_neg hi, List.filterMap_cons, List.filterMap_nil,
          List.append_nil, Function.update_of_ne (Ne.symm hi)]
    · by_cases hi : i = k
      · subst hi
        simp only [Function.update_self]
        exact hlt
      · simp only [Function.update_of_ne hi]
        exact h.inside i
    · rw [choice_concat]
      rfl

theorem ordered_nil (key : α → Int) : Ordered key [] := by
  refine ⟨fun k es₁ es₂ he => ?_, fun k a es₁ es₂ he => ?_, fun k a es₁ es₂ he => ?_,
    fun k a es₁ es₂ he => ?_, fun es₁ es₂ he => ?_⟩
  · obtain ⟨rfl, -⟩ := List.append_eq_nil_iff.mp he.symm
    exact List.prefix_refl _
  all_goals exact absurd he.symm (by simp)

/-- Where an event stands in a list that has one more. -/
theorem snoc_eq {e x : Event α} {es₁ es₂ : List (Event α)} (h : es ++ [e] = es₁ ++ x :: es₂) :
    (∃ fs, es = es₁ ++ x :: fs) ∨ es = es₁ ∧ e = x := by
  rcases SharedLog.snoc_eq_append h with ⟨fs, hes, hfs⟩ | ⟨hnil, -⟩
  · cases fs with
    | nil =>
      cases hfs
      exact Or.inr ⟨by rw [hes, List.append_nil], rfl⟩
    | cons y fs =>
      cases hfs
      exact Or.inl ⟨fs, hes⟩
  · cases hnil

/-- **One more operation.** -/
theorem Ordered.step (h : Ordered key es) (hm : Matches es s) {e : Event α}
    (hs : Step key s [e] s') :
    Ordered key (es ++ [e]) := by
  have hm' := hm.step hs
  refine ⟨fun k es₁ es₂ he => ?_, fun k a es₁ es₂ he => ?_, fun k a es₁ es₂ he => ?_,
    fun k a es₁ es₂ he => ?_, fun es₁ es₂ he => ?_⟩
  · rcases SharedLog.snoc_eq_append he with ⟨fs, hes, -⟩ | ⟨-, rfl⟩
    · exact h.taken k es₁ fs hes
    · exact hm'.prefix k
  · rcases snoc_eq he with ⟨fs, hes⟩ | ⟨rfl, rfl⟩
    · exact h.shown k a es₁ fs hes
    · rw [hm.chosen]
      cases hs with
      | choose hc hleast => exact ⟨hm.next_iff.mp hleast.1, Or.inl hc⟩
      | again hc hnext => exact ⟨hm.next_iff.mp hnext, Or.inr hc⟩
  · rcases snoc_eq he with ⟨fs, hes⟩ | ⟨rfl, rfl⟩
    · exact h.least k a es₁ fs hes
    · rw [hm.chosen]
      intro hnone i b hb
      cases hs with
      | choose hc hleast => exact hleast.2 i b (hm.next_iff.mpr hb)
      | again hc hnext =>
        rw [hc] at hnone
        cases hnone
  · rcases snoc_eq he with ⟨fs, hes⟩ | ⟨rfl, rfl⟩
    · exact h.chosen k a es₁ fs hes
    · rw [hm.chosen]
      cases hs with
      | take hc hnext => exact hc
  · rcases snoc_eq he with ⟨fs, hes⟩ | ⟨rfl, rfl⟩
    · exact h.nothing es₁ fs hes
    · cases hs with
      | nothing hc hall => exact fun k => hm.nothing (hall k)

/-- **The merged log shows ordered events.** -/
theorem Trace.ordered (h : Trace (Step key) {} es s) : Matches es s ∧ Ordered key es := by
  induction h with
  | nil => exact ⟨matches_start, ordered_nil key⟩
  | @snoc t u es fs _ hs ih =>
    obtain ⟨hm, ho⟩ := ih
    refine ⟨hm.step hs, ?_⟩
    cases hs with
    | append => exact ho.step hm (.append ..)
    | choose hc hleast => exact ho.step hm (.choose hc hleast)
    | again hc hnext => exact ho.step hm (.again hc hnext)
    | nothing hc hall => exact ho.step hm (.nothing hc hall)
    | take hc hnext => exact ho.step hm (.take hc hnext)

end
end MergedLog
