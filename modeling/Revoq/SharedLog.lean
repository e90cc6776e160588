import Mathlib.Data.List.Infix
import Mathlib.Logic.Function.Basic

/-! # A shared log

Systems whose steps can be observed, and the one that concurrent logs are compared
with: elements are only appended, and each reader takes them one after the other,
starting from the first.  Every operation is a single step.

`Consistent` says what that means in terms of the events alone, so that it can be
claimed of any system that simulates the shared log.
-/

/-! ## Observed runs -/

namespace Observed
variable {σ τ ε : Type}

/-- What is observed along a run; a step shows any number of events. -/
inductive Trace (step : σ → List ε → σ → Prop) (s : σ) : List ε → σ → Prop where
  | nil : Trace step s [] s
  | snoc {t u : σ} {es fs : List ε} (h : Trace step s es t) (hs : step t fs u) :
      Trace step s (es ++ fs) u

variable {step : σ → List ε → σ → Prop} {step' : τ → List ε → τ → Prop} {R : σ → τ → Prop}
variable {s s' u : σ} {t : τ} {es fs : List ε}

theorem Trace.trans (h : Trace step s es s') (h' : Trace step s' fs u) :
    Trace step s (es ++ fs) u := by
  induction h' with
  | nil => rwa [List.append_nil]
  | snoc _ hs ih =>
    rw [← List.append_assoc]
    exact ih.snoc hs

theorem Trace.single (h : step s es s') : Trace step s es s' := Trace.nil.snoc h

/-- **Forward simulation**: each step of one system is matched by a run of the other
that shows the same events. -/
def Simulates (step : σ → List ε → σ → Prop) (step' : τ → List ε → τ → Prop)
    (R : σ → τ → Prop) : Prop :=
  ∀ s es s' t, R s t → step s es s' → ∃ t', Trace step' t es t' ∧ R s' t'

/-- **Trace inclusion.** -/
theorem Simulates.trace (hsim : Simulates step step' R) (hR : R s t) (h : Trace step s es s') :
    ∃ t', Trace step' t es t' ∧ R s' t' := by
  induction h with
  | nil => exact ⟨t, .nil, hR⟩
  | snoc _ hs ih =>
    obtain ⟨t₁, htrace, hR₁⟩ := ih
    obtain ⟨t₂, hlast, hR₂⟩ := hsim _ _ _ _ hR₁ hs
    exact ⟨t₂, htrace.trans hlast, hR₂⟩

end Observed

/-! ## The log -/

namespace SharedLog
open Observed
variable {ι α : Type}

/-- What can be observed of a log and its readers. -/
inductive Event (ι α : Type) where
  | appended (a : α)
  /-- The reader is shown its next element, and stays where it is. -/
  | shown (i : ι) (a : α)
  /-- The reader is told that there is no further element. -/
  | nothing (i : ι)
  | taken (i : ι) (a : α)

/-- A log, and how many elements each reader has taken. -/
structure State (ι α : Type) where
  log : List α := []
  position : ι → Nat := fun _ => 0

/-- **The atomic operations.** -/
inductive Step [DecidableEq ι] : State ι α → List (Event ι α) → State ι α → Prop where
  | append (s : State ι α) (a : α) : Step s [.appended a] { s with log := s.log ++ [a] }
  | look {s : State ι α} {i : ι} {a : α} (h : s.log[s.position i]? = some a) : Step s [.shown i a] s
  | nothing {s : State ι α} {i : ι} (h : s.log[s.position i]? = none) : Step s [.nothing i] s
  | take {s : State ι α} {i : ι} {a : α} (h : s.log[s.position i]? = some a) :
      Step s [.taken i a] { s with position := Function.update s.position i (s.position i + 1) }

/-- The element that an event appends. -/
def Event.appends : Event ι α → Option α
  | .appended a => some a
  | _ => none

/-- The element that an event hands to reader `i`. -/
def Event.takes [DecidableEq ι] (i : ι) : Event ι α → Option α
  | .taken k a => if k = i then some a else none
  | _ => none

/-- What is appended, in order. -/
def appends (es : List (Event ι α)) : List α := es.filterMap Event.appends

/-- What reader `i` takes, in order. -/
def takes [DecidableEq ι] (i : ι) (es : List (Event ι α)) : List α := es.filterMap (Event.takes i)

/-- **The events of a shared log**, seen from outside: at every moment a reader has
taken the first elements that were appended and is shown the one behind them, and it is
told that there is none only if it has taken all. -/
structure Consistent [DecidableEq ι] (es : List (Event ι α)) : Prop where
  taken : ∀ i es₁ es₂, es = es₁ ++ es₂ → takes i es₁ <+: appends es₁
  shown : ∀ i a es₁ es₂, es = es₁ ++ .shown i a :: es₂ → takes i es₁ ++ [a] <+: appends es₁
  nothing : ∀ i es₁ es₂, es = es₁ ++ .nothing i :: es₂ → takes i es₁ = appends es₁

theorem appends_append (es es' : List (Event ι α)) :
    appends (es ++ es') = appends es ++ appends es' :=
  List.filterMap_append

theorem appends_appended (as : List α) :
    appends (as.map .appended : List (Event ι α)) = as := by
  simp [appends, Event.appends, Function.comp_def]

section
variable [DecidableEq ι] {s s' : State ι α} {es es' : List (Event ι α)} {i : ι}

theorem takes_append : takes i (es ++ es') = takes i es ++ takes i es' := List.filterMap_append

theorem takes_appended (i : ι) (as : List α) : takes i (as.map .appended) = [] := by
  simp [takes, Event.takes]

/-- One look, and the element is taken. -/
theorem takes_shown_taken (i : ι) (a : α) : takes i [.shown i a, .taken i a] = [a] := by
  have htaken : Event.takes i (.taken i a) = some a := if_pos rfl
  rw [takes, List.filterMap_cons_none rfl, List.filterMap_cons_some htaken, List.filterMap_nil]

/-- Appending shows each element. -/
theorem trace_appends (s : State ι α) (as : List α) :
    Trace Step s (as.map .appended) { s with log := s.log ++ as } := by
  induction as generalizing s with
  | nil =>
    rw [List.append_nil]
    exact .nil
  | cons a as ih =>
    have h := ih { s with log := s.log ++ [a] }
    rw [List.append_assoc] at h
    exact (Trace.single (.append s a)).trans h

/-- What the events so far say of the state. -/
structure Matches (es : List (Event ι α)) (s : State ι α) : Prop where
  log : appends es = s.log
  taken : ∀ i, takes i es = s.log.take (s.position i)
  inside : ∀ i, s.position i ≤ s.log.length

theorem matches_start : Matches ([] : List (Event ι α)) {} :=
  ⟨rfl, fun _ => rfl, fun _ => Nat.le_refl 0⟩

theorem Matches.step (h : Matches es s) (hs : Step s es' s') : Matches (es ++ es') s' := by
  cases hs with
  -- what is appended lies behind every position
  | append a =>
    refine ⟨?_, fun i => ?_, fun i => ?_⟩
    · rw [appends_append, h.log]
      rfl
    · rw [takes_append, h.taken i, List.take_append_of_le_length (h.inside i)]
      exact List.append_nil _
    · rw [List.length_append]
      exact Nat.le_trans (h.inside i) (Nat.le_add_right ..)
  | look | nothing =>
    refine ⟨?_, fun k => ?_, h.inside⟩
    · rw [appends_append, h.log]
      exact List.append_nil _
    · rw [takes_append, h.taken k]
      exact List.append_nil _
  | @take i a hget =>
    obtain ⟨hlt, hget⟩ := List.getElem?_eq_some_iff.mp hget
    refine ⟨?_, fun k => ?_, fun k => ?_⟩
    · rw [appends_append, h.log]
      exact List.append_nil _
    · rw [takes_append, h.taken k]
      by_cases hk : i = k
      · subst hk
        simp only [takes, Event.takes, if_true, List.filterMap_cons, List.filterMap_nil,
          Function.update_self]
        rw [List.take_add_one, List.getElem?_eq_getElem hlt, hget]
        rfl
      · simp only [takes, Event.takes, if_neg hk, List.filterMap_cons, List.filterMap_nil,
          List.append_nil, Function.update_of_ne (Ne.symm hk)]
    · by_cases hk : k = i
      · subst hk
        show Function.update s.position k (s.position k + 1) k ≤ s.log.length
        rw [Function.update_self]
        exact hlt
      · simpa only [Function.update_of_ne hk] using h.inside k

theorem Matches.prefix (h : Matches es s) (i : ι) : takes i es <+: appends es := by
  rw [h.log, h.taken i]
  exact List.take_prefix ..

/-- What is shown is the next element. -/
theorem Matches.shown (h : Matches es s) {a : α} (hget : s.log[s.position i]? = some a) :
    takes i es ++ [a] <+: appends es := by
  have htake : s.log.take (s.position i + 1) = s.log.take (s.position i) ++ [a] := by
    rw [List.take_add_one, hget]
    rfl
  rw [h.log, h.taken i, ← htake]
  exact List.take_prefix ..

theorem Matches.nothing (h : Matches es s) (hget : s.log[s.position i]? = none) :
    takes i es = appends es := by
  rw [h.log, h.taken i]
  exact List.take_of_length_le (List.getElem?_eq_none_iff.mp hget)

/-- The first part of `es ++ [e]` is a first part of `es`, or all of it. -/
theorem snoc_eq_append {β : Type} {es fs gs : List β} {e : β} (h : es ++ [e] = fs ++ gs) :
    (∃ hs, es = fs ++ hs ∧ gs = hs ++ [e]) ∨ gs = [] ∧ fs = es ++ [e] := by
  rcases List.eq_nil_or_concat gs with rfl | ⟨hs, x, rfl⟩
  · exact Or.inr ⟨rfl, by rw [h, List.append_nil]⟩
  · rw [List.concat_eq_append] at h ⊢
    rw [← List.append_assoc] at h
    obtain ⟨rfl, hx⟩ := List.append_inj' h rfl
    cases hx
    exact Or.inl ⟨hs, rfl, rfl⟩

/-- One more event, which the events so far allow. -/
theorem Consistent.snoc (h : Consistent es) {e : Event ι α}
    (htaken : ∀ i, takes i (es ++ [e]) <+: appends (es ++ [e]))
    (hshown : ∀ i a, e = .shown i a → takes i es ++ [a] <+: appends es)
    (hnothing : ∀ i, e = .nothing i → takes i es = appends es) : Consistent (es ++ [e]) := by
  refine ⟨fun i es₁ es₂ he => ?_, fun i a es₁ es₂ he => ?_, fun i es₁ es₂ he => ?_⟩
  · rcases snoc_eq_append he with ⟨fs, he, -⟩ | ⟨-, rfl⟩
    · exact h.taken i es₁ fs he
    · exact htaken i
  · rcases snoc_eq_append he with ⟨fs, hes, hfs⟩ | ⟨hnil, -⟩
    · cases fs with
      | nil =>
        cases hfs
        rw [List.append_nil] at hes
        exact hes ▸ hshown i a rfl
      | cons x fs =>
        cases hfs
        exact h.shown i a es₁ fs hes
    · cases hnil
  · rcases snoc_eq_append he with ⟨fs, hes, hfs⟩ | ⟨hnil, -⟩
    · cases fs with
      | nil =>
        cases hfs
        rw [List.append_nil] at hes
        exact hes ▸ hnothing i rfl
      | cons x fs =>
        cases hfs
        exact h.nothing i es₁ fs hes
    · cases hnil

/-- **The shared log shows consistent events.** -/
theorem Trace.consistent (h : Trace Step {} es s) : Matches es s ∧ Consistent es := by
  induction h with
  | nil =>
    refine ⟨matches_start, fun i es₁ es₂ he => ?_, fun i a es₁ es₂ he => ?_, fun i es₁ es₂ he => ?_⟩
    · obtain ⟨rfl, -⟩ := List.append_eq_nil_iff.mp he.symm
      exact List.prefix_refl _
    · exact absurd he.symm (by simp)
    · exact absurd he.symm (by simp)
  | @snoc t u es fs _ hs ih =>
    obtain ⟨hm, hc⟩ := ih
    have hm' := hm.step hs
    refine ⟨hm', ?_⟩
    cases hs with
    | append | take =>
      exact hc.snoc hm'.prefix (fun _ _ he => by cases he) (fun _ he => by cases he)
    | look hget =>
      refine hc.snoc hm'.prefix (fun _ _ he => ?_) (fun _ he => by cases he)
      cases he
      exact hm.shown hget
    | nothing hget =>
      refine hc.snoc hm'.prefix (fun _ _ he => by cases he) (fun _ he => ?_)
      cases he
      exact hm.nothing hget

end
end SharedLog
