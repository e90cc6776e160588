import Revoq.HandOff
import Mathlib.Data.List.Count

/-! # The reader's condition variables

`ReaderWarmer` lets a thread that waits take its next step when its condition holds.
Here a `Journal` of `Journal.h` waits as the code does: a thread that finds its condition
false goes to sleep, and stays asleep until it is notified or wakes by itself.

`retire_running_` is part of the warmer's condition, and is cleared under
`retire_mutex_`, so that the warmer may have looked at it, and not be asleep yet, while it
is cleared.  The destructor takes `warmer_mutex_` for nothing before it notifies.

Every run of this model is one of `ReaderWarmer`, with steps in between that change nothing
there (`WaitReaches.journal`).
-/
namespace Revoq.HandOff

/-- Where the warmer is in `warmer_cv_.wait`. -/
inductive WarmerWait where
  | awake
  /-- It holds `warmer_mutex_` and has found its condition false. -/
  | checked
  | asleep
deriving DecidableEq

/-- Where the owner is between two steps of `ReaderWarmer`. -/
inductive Signalling where
  | none
  /-- About to notify the retire thread of one page. -/
  | notifyRetire
  /-- In the destructor, about to take `warmer_mutex_`. -/
  | lockWarmer
  /-- In the destructor, about to notify the warmer. -/
  | notifyWarmer
deriving DecidableEq

/-- A `Journal` with its two condition variables. -/
structure Waiting where
  journal : State
  retireAsleep : Bool := false
  warmerWait : WarmerWait := .awake
  signalling : Signalling := .none
deriving DecidableEq

/-- Somebody notifies the warmer, or it wakes by itself. -/
def WarmerWait.wake : WarmerWait → WarmerWait
  | .asleep => .awake
  | wait => wait

/-- The owner's next step.  `lookup` and `signal` are critical sections of
`warmer_mutex_`; `signal` notifies before it gives the mutex back. -/
def waitingOwner (o : Options) (header : Option Nat) (loads : Bool) (w : Waiting) :
    Option Waiting :=
  match w.signalling with
  | .notifyRetire => some { w with retireAsleep := false, signalling := .none }
  | .lockWarmer =>
    if w.warmerWait = .checked then none else some { w with signalling := .notifyWarmer }
  | .notifyWarmer =>
      (ownerStep o header loads w.journal).map fun journal =>
        { w with journal := journal, warmerWait := w.warmerWait.wake, signalling := .none }
  | .none =>
      match w.journal.owner with
      | .wake => some { w with retireAsleep := false, signalling := .lockWarmer }
      | .handOver _ _ =>
          (ownerStep o header loads w.journal).map fun journal =>
            { w with journal := journal, signalling := .notifyRetire }
      | .lookup _ =>
          if w.warmerWait = .checked then none
          else (ownerStep o header loads w.journal).map fun journal => { w with journal := journal }
      | .signal _ =>
          if w.warmerWait = .checked then none
          else (ownerStep o header loads w.journal).map fun journal =>
            { w with journal := journal, warmerWait := w.warmerWait.wake }
      | _ => (ownerStep o header loads w.journal).map fun journal => { w with journal := journal }

/-- The warmer's next step. -/
def waitingWarmer (o : Options) (succeeds : Bool) (w : Waiting) : Option Waiting :=
  match w.warmerWait with
  | .asleep => none
  | .checked => some { w with warmerWait := .asleep }
  | .awake =>
      if w.journal.warmer = .wait ∧ w.journal.interrupted = false then
        some { w with warmerWait := .checked }
      else (warmerStep o succeeds w.journal).map fun journal => { w with journal := journal }

/-- The retire thread's next step.  It looks at its condition and goes to sleep in one
critical section of `retire_mutex_`. -/
def waitingRetire (w : Waiting) : Option Waiting :=
  if w.retireAsleep then none
  else if w.journal.retire = .loop ∧ w.journal.retireQueue = [] ∧
    w.journal.retireRunning = true then
    some { w with retireAsleep := true }
  else (retireStep w.journal).map fun journal => { w with journal := journal }

/-- A call, a step of a thread, or a wakeup that nobody asked for. -/
inductive WaitMove where
  | move (move : Move)
  | wakeRetire
  | wakeWarmer
deriving DecidableEq

/-- What the move makes of the state, if it can be made. -/
def waitStep (o : Options) (move : WaitMove) (w : Waiting) : Option Waiting :=
  match move with
  | .move (.loadPage p) =>
      if w.signalling = .none then
        (step o (.loadPage p) w.journal).map fun journal => { w with journal := journal }
      else none
  | .move .destruct =>
      if w.signalling = .none then
        (step o .destruct w.journal).map fun journal => { w with journal := journal }
      else none
  | .move (.owner header loads) => waitingOwner o header loads w
  | .move (.warmer succeeds) => waitingWarmer o succeeds w
  | .move .retire => waitingRetire w
  | .wakeRetire => if w.retireAsleep then some { w with retireAsleep := false } else none
  | .wakeWarmer => if w.warmerWait = .asleep then some { w with warmerWait := .awake } else none

/-- The states a `Journal` with its condition variables can get to. -/
inductive WaitReaches (o : Options) : Waiting → Prop where
  | start : WaitReaches o ⟨o.start, false, .awake, .none⟩
  | step {w w' : Waiting} {move : WaitMove} (h : WaitReaches o w)
      (hstep : waitStep o move w = some w') :
      WaitReaches o w'

/-- The moves one after the other. -/
def waitRun (o : Options) : List WaitMove → Waiting → Option Waiting
  | [], w => some w
  | move :: moves, w => (waitStep o move w).bind (waitRun o moves)

theorem WaitReaches.run {o : Options} {moves : List WaitMove} {w w' : Waiting} (h : WaitReaches o w)
    (hrun : waitRun o moves w = some w') : WaitReaches o w' := by
  induction moves generalizing w with
  | nil =>
    cases hrun
    exact h
  | cons move moves ih =>
    obtain ⟨w₁, hstep, hrest⟩ := Option.bind_eq_some_iff.mp hrun
    exact ih (h.step hstep) hrest

/-! ## What the steps leave alone -/

/-- The destructor has begun. -/
def Owner.Closing : Owner → Prop
  | .wake | .joinRetire | .joinWarmer | .releaseWarmed | .members | .gone => True
  | _ => False

variable {o : Options} {s s' : State} {w w' : Waiting}

/-- **What a step of the owner can do to the other threads' conditions.** -/
structure OwnerFrame (s s' : State) : Prop where
  warmer : s'.warmer = s.warmer
  retire : s'.retire = s.retire
  running : s'.retireRunning = s.retireRunning
  closing : s'.owner.Closing ↔ s.owner.Closing
  owner : s'.owner ≠ .wake
  pending : (∃ p, s.owner = .signal p) ∨ s'.warmerPending = s.warmerPending
  queue : (∃ p page, s.owner = .handOver p page) ∨ s'.retireQueue = s.retireQueue ∨
    s'.retireQueue = []

theorem Options.installed_cases (o : Options) (p : Int) :
    o.installed p = .signal p ∨ o.installed p = .idle := by
  unfold Options.installed
  cases o.warms with
  | true => exact .inl rfl
  | false => exact .inr rfl

theorem OwnerFrame.installed {p : Int} (hc : ¬s.owner.Closing) (hs : s'.owner = o.installed p)
    (hwarmer : s'.warmer = s.warmer) (hretire : s'.retire = s.retire)
    (hrunning : s'.retireRunning = s.retireRunning) (hpending : s'.warmerPending = s.warmerPending)
    (hqueue : s'.retireQueue = s.retireQueue) : OwnerFrame s s' := by
  refine ⟨hwarmer, hretire, hrunning, iff_of_false ?_ hc, ?_, .inr hpending, .inr (.inl hqueue)⟩ <;>
    obtain h | h := o.installed_cases p <;> rw [hs, h]
  · exact id
  · exact id
  · exact fun h => (by cases h)
  · exact fun h => (by cases h)

theorem ownerStep_frame {header : Option Nat} {loads : Bool}
    (hstep : ownerStep o header loads s = some s') :
    OwnerFrame s s' := by
  -- the cases that leave everything of the other threads alone
  have walk : ∀ s' : State, s'.warmer = s.warmer → s'.retire = s.retire →
      s'.retireRunning = s.retireRunning → s'.warmerPending = s.warmerPending →
      s'.retireQueue = s.retireQueue → (s'.owner.Closing ↔ s.owner.Closing) → s'.owner ≠ .wake →
      OwnerFrame s s' := fun s' hw hr hrun hp hq hc ho =>
          ⟨hw, hr, hrun, hc, ho, .inr hp, .inr (.inl hq)⟩
  unfold ownerStep at hstep
  cases ho : s.owner with
  | idle | gone => simp [ho] at hstep
  | lookup p =>
    simp only [ho] at hstep
    rw [ho] at walk
    split at hstep
    · split at hstep
      · split at hstep <;> cases hstep <;>
          exact walk _ rfl rfl rfl rfl rfl (iff_of_false id id) (fun h => (by cases h))
      · cases hstep
        exact walk _ rfl rfl rfl rfl rfl (iff_of_false id id) (fun h => (by cases h))
    · cases hstep
      exact walk _ rfl rfl rfl rfl rfl (iff_of_false id id) (fun h => (by cases h))
  | load p =>
    simp only [ho] at hstep
    rw [ho] at walk
    split at hstep <;> cases hstep <;>
      exact walk _ rfl rfl rfl rfl rfl (iff_of_false id id) (fun h => (by cases h))
  | install p newPage =>
    simp only [ho] at hstep
    have hc : ¬s.owner.Closing := by rw [ho]; exact id
    split at hstep
    · cases hstep
      exact .installed hc rfl rfl rfl rfl rfl rfl
    · split at hstep
      · cases hstep
        exact walk _ rfl rfl rfl rfl rfl (by rw [ho]; exact iff_of_false id id)
          (fun h => (by cases h))
      · cases hstep
        rw [State.destroy_eq]
        exact .installed hc rfl rfl rfl rfl rfl rfl
  | trim p =>
    simp only [ho] at hstep
    have hc : ¬s.owner.Closing := by rw [ho]; exact id
    split at hstep
    · split at hstep
      · cases hstep
        exact walk _ rfl rfl rfl rfl rfl (by rw [ho]; exact iff_of_false id id)
          (fun h => (by cases h))
      · cases hstep
        exact .installed hc rfl rfl rfl rfl rfl rfl
    · cases hstep
      exact .installed hc rfl rfl rfl rfl rfl rfl
  -- the only step that fills the queue
  | handOver p page =>
    simp only [ho, Option.some.injEq] at hstep
    subst hstep
    exact ⟨rfl, rfl, rfl, by rw [ho]; exact iff_of_false id id, fun h => (by cases h), .inr rfl,
      .inl ⟨p, page, ho⟩⟩
  -- the only step that sets `warmer_pending_`
  | signal p =>
    simp only [ho, Option.some.injEq] at hstep
    subst hstep
    exact ⟨rfl, rfl, rfl, by rw [ho]; exact iff_of_false id id, fun h => (by cases h), .inl ⟨p, ho⟩,
      .inr (.inl rfl)⟩
  | wake =>
    simp only [ho, Option.some.injEq] at hstep
    subst hstep
    exact walk _ rfl rfl rfl rfl rfl (by rw [ho]; exact iff_of_true trivial trivial)
      (fun h => (by cases h))
  | joinRetire | joinWarmer =>
    simp only [ho] at hstep
    rw [ho] at walk
    split at hstep <;> cases hstep
    exact walk _ rfl rfl rfl rfl rfl (iff_of_true trivial trivial) (fun h => (by cases h))
  | releaseWarmed =>
    simp only [ho] at hstep
    rw [ho] at walk
    split at hstep <;> cases hstep <;>
      exact walk _ rfl rfl rfl rfl rfl (iff_of_true trivial trivial) (fun h => (by cases h))
  | members =>
    simp only [ho, Option.some.injEq] at hstep
    subst hstep
    exact ⟨rfl, rfl, rfl, by rw [ho]; exact iff_of_true trivial trivial,
      fun h => (by cases h), .inr rfl, .inr (.inr rfl)⟩

theorem ownerStep_handOver {header : Option Nat} {loads : Bool} {p : Int} {page : Page}
    (ho : s.owner = .handOver p page) (hstep : ownerStep o header loads s = some s') :
    s'.owner = .trim p := by
  simp only [ownerStep, ho, Option.some.injEq] at hstep
  rw [← hstep]

/-- A step of the warmer leaves the owner, the retire thread and its condition alone. -/
theorem warmerStep_frame {succeeds : Bool} (hstep : warmerStep o succeeds s = some s') :
    s'.owner = s.owner ∧ s'.retire = s.retire ∧ s'.retireQueue = s.retireQueue ∧
      s'.retireRunning = s.retireRunning := by
  cases warmerStep_cases hstep with
  | walks | maps | drops | publishes => exact ⟨rfl, rfl, rfl, rfl⟩

/-- A step of the retire thread leaves the owner, the warmer and its condition alone. -/
theorem retireStep_frame (hstep : retireStep s = some s') :
    s'.owner = s.owner ∧ s'.warmer = s.warmer ∧ s'.warmerPending = s.warmerPending ∧
      s'.retireRunning = s.retireRunning := by
  unfold retireStep at hstep
  split at hstep
  · cases hstep
  · split at hstep
    · cases hstep
      exact ⟨rfl, rfl, rfl, rfl⟩
    · split at hstep <;> cases hstep
      exact ⟨rfl, rfl, rfl, rfl⟩
  · cases hstep
    rw [State.destroy_eq]
    exact ⟨rfl, rfl, rfl, rfl⟩

/-! ## The same runs -/

/-- **A step is one of `ReaderWarmer`, or changes nothing there.** -/
theorem waitStep_journal {move : WaitMove} (hstep : waitStep o move w = some w') :
    w'.journal = w.journal ∨ ∃ move, step o move w.journal = some w'.journal := by
  have base : ∀ (m : Move) (f : State → Waiting), (∀ s, (f s).journal = s) →
      (step o m w.journal).map f = some w' → ∃ move, step o move w.journal = some w'.journal := by
    intro m f hf hmap
    obtain ⟨s, hs, rfl⟩ := Option.map_eq_some_iff.mp hmap
    exact ⟨m, (hf s).symm ▸ hs⟩
  cases move with
  | wakeRetire | wakeWarmer =>
    rw [waitStep] at hstep
    split at hstep <;> cases hstep
    exact .inl rfl
  | move m =>
    cases m with
    | loadPage p =>
      rw [waitStep] at hstep
      split at hstep
      · exact .inr (base (.loadPage p) _ (fun _ => rfl) hstep)
      · cases hstep
    | destruct =>
      rw [waitStep] at hstep
      split at hstep
      · exact .inr (base .destruct _ (fun _ => rfl) hstep)
      · cases hstep
    | owner header loads =>
      rw [waitStep, waitingOwner] at hstep
      split at hstep
      · cases hstep
        exact .inl rfl
      · split at hstep <;> cases hstep
        exact .inl rfl
      · exact .inr (base (.owner header loads) _ (fun _ => rfl) hstep)
      · split at hstep
        · cases hstep
          exact .inl rfl
        · exact .inr (base (.owner header loads) _ (fun _ => rfl) hstep)
        · split at hstep
          · cases hstep
          · exact .inr (base (.owner header loads) _ (fun _ => rfl) hstep)
        · split at hstep
          · cases hstep
          · exact .inr (base (.owner header loads) _ (fun _ => rfl) hstep)
        · exact .inr (base (.owner header loads) _ (fun _ => rfl) hstep)
    | warmer succeeds =>
      rw [waitStep, waitingWarmer] at hstep
      split at hstep
      · cases hstep
      · cases hstep
        exact .inl rfl
      · split at hstep
        · cases hstep
          exact .inl rfl
        · exact .inr (base (.warmer succeeds) _ (fun _ => rfl) hstep)
    | retire =>
      rw [waitStep, waitingRetire] at hstep
      split at hstep
      · cases hstep
      · split at hstep
        · cases hstep
          exact .inl rfl
        · exact .inr (base .retire _ (fun _ => rfl) hstep)

theorem WaitReaches.journal (h : WaitReaches o w) : Reaches o w.journal := by
  induction h with
  | start => exact .start
  | step _ hstep ih =>
    obtain heq | ⟨move, hmove⟩ := waitStep_journal hstep
    · rw [heq]
      exact ih
    · exact ih.step hmove

/-! ## No notification is lost -/

/-- **Who sleeps has nothing to do, or is still to be notified.** -/
structure Watch (w : Waiting) : Prop where
  loop : w.retireAsleep = true → w.journal.retire = .loop
  wait : w.warmerWait ≠ .awake → w.journal.warmer = .wait
  stopped : w.journal.owner.Closing → w.journal.retireRunning = false
  place : w.signalling = .lockWarmer ∨ w.signalling = .notifyWarmer → w.journal.owner = .wake
  trim : w.signalling = .notifyRetire → ∃ p, w.journal.owner = .trim p
  retire : w.retireAsleep = true → (w.journal.retireQueue = [] ∧ w.journal.retireRunning = true) ∨
    w.signalling = .notifyRetire ∨ (w.journal.owner = .wake ∧ w.signalling = .none)
  /-- When the destructor has had `warmer_mutex_`, the warmer is no longer between its look
  at the condition and its sleep. -/
  warmer : w.warmerWait ≠ .awake → w.journal.interrupted = false ∨
    (w.journal.owner = .wake ∧ (w.signalling = .notifyWarmer → w.warmerWait = .asleep))

theorem State.interrupted_eq_false :
    s.interrupted = false ↔ s.warmerPending = false ∧ s.retireRunning = true := by
  cases hp : s.warmerPending <;> cases hr : s.retireRunning <;> simp [State.interrupted, hp, hr]

theorem Watch.start (o : Options) : Watch ⟨o.start, false, .awake, .none⟩ where
  loop h := by cases h
  wait h := absurd rfl h
  stopped h := h.elim
  place h := by rcases h with h | h <;> cases h
  trim h := by cases h
  retire h := by cases h
  warmer h := absurd rfl h

/-- A step of the warmer that is awake. -/
theorem Watch.warmerStep {succeeds : Bool} {journal : State} (h : Watch w)
    (hw : w.warmerWait = .awake) (hstep : warmerStep o succeeds w.journal = some journal) :
    Watch { w with journal := journal } := by
  obtain ⟨howner, hretire, hqueue, hrunning⟩ := warmerStep_frame hstep
  refine ⟨fun hs => hretire.trans (h.loop hs), fun hne => absurd hw hne, fun hc => ?_, fun hp => ?_,
    fun ht => ?_, fun hs => ?_, fun hne => absurd hw hne⟩
  · rw [howner] at hc
    exact hrunning.trans (h.stopped hc)
  · exact howner.trans (h.place hp)
  · rw [howner]
    exact h.trim ht
  · rw [hqueue, hrunning, howner]
    exact h.retire hs

/-- A step of the retire thread that is awake. -/
theorem Watch.retireStep {journal : State} (h : Watch w) (hs : w.retireAsleep = false)
    (hstep : retireStep w.journal = some journal) : Watch { w with journal := journal } := by
  obtain ⟨howner, hwarmer, hpending, hrunning⟩ := retireStep_frame hstep
  refine ⟨fun hs' => ?_, fun hne => hwarmer.trans (h.wait hne), fun hc => ?_, fun hp => ?_,
    fun ht => ?_, fun hs' => ?_, fun hne => ?_⟩
  · cases hs.symm.trans hs'
  · rw [howner] at hc
    exact hrunning.trans (h.stopped hc)
  · exact howner.trans (h.place hp)
  · rw [howner]
    exact h.trim ht
  · cases hs.symm.trans hs'
  · rw [State.interrupted_eq_false, hpending, hrunning, howner, ← State.interrupted_eq_false]
    exact h.warmer hne

/-- A step of the owner, after which the warmer sleeps only if it did and the step was not
about it. -/
theorem Watch.ownerStep {header : Option Nat} {loads : Bool} {journal : State} {wait : WarmerWait}
    {signalling : Signalling} (h : Watch w)
    (hstep : ownerStep o header loads w.journal = some journal)
    (hplain : w.signalling ≠ .notifyRetire ∧ ¬(w.journal.owner = .wake ∧ w.signalling = .none))
    (hsignalling : signalling = .none ∧ (∀ p page, w.journal.owner ≠ .handOver p page) ∨
      signalling = .notifyRetire ∧ ∃ p page, w.journal.owner = .handOver p page)
    (hwait : wait ≠ .awake → wait = w.warmerWait ∧ (∀ p, w.journal.owner ≠ .signal p) ∧
      w.journal.owner ≠ .wake) : Watch ⟨journal, w.retireAsleep, wait, signalling⟩ := by
  have hframe := ownerStep_frame hstep
  refine ⟨fun hs => hframe.retire.trans (h.loop hs), fun hne => ?_, fun hc => ?_,
    fun hp => ?_, fun ht => ?_, fun hs => ?_, fun hne => ?_⟩
  · obtain ⟨rfl, -, -⟩ := hwait hne
    exact hframe.warmer.trans (h.wait hne)
  · exact hframe.running.trans (h.stopped (hframe.closing.mp hc))
  · obtain ⟨rfl, -⟩ | ⟨rfl, -⟩ := hsignalling <;> rcases hp with hp | hp <;> cases hp
  · obtain ⟨rfl, -⟩ | ⟨rfl, p, page, ho⟩ := hsignalling
    · cases ht
    · exact ⟨p, ownerStep_handOver ho hstep⟩
  · obtain ⟨hqueue, hrunning⟩ | hn | hn := h.retire hs
    · obtain ⟨rfl, hno⟩ | ⟨rfl, -⟩ := hsignalling
      · refine .inl ⟨?_, hframe.running.trans hrunning⟩
        obtain ⟨p, page, ho⟩ | hq | hq := hframe.queue
        · exact absurd ho (hno p page)
        · exact hq.trans hqueue
        · exact hq
      · exact .inr (.inl rfl)
    · exact absurd hn hplain.1
    · exact absurd hn hplain.2
  · obtain ⟨rfl, hno, hnw⟩ := hwait hne
    refine .inl ?_
    have hint := (h.warmer hne).resolve_right fun hn => hnw hn.1
    rw [State.interrupted_eq_false] at hint ⊢
    rw [hframe.running, hframe.pending.resolve_left fun hp => hno _ hp.choose_spec]
    exact hint

theorem Watch.waitingOwner {header : Option Nat} {loads : Bool} (h : Watch w)
    (hstep : waitingOwner o header loads w = some w') : Watch w' := by
  unfold HandOff.waitingOwner at hstep
  cases hs : w.signalling with
  | notifyRetire =>
    simp only [hs, Option.some.injEq] at hstep
    subst hstep
    obtain ⟨p, ho⟩ := h.trim hs
    exact ⟨fun hr => (by cases hr), h.wait, h.stopped, fun hp =>
      (by rcases hp with hp | hp <;> cases hp), fun ht => (by cases ht),
      fun hr => (by cases hr), fun hne => .inl
        ((h.warmer hne).resolve_right fun hn => by cases ho.symm.trans hn.1)⟩
  -- the mutex is free, so the warmer is not between its test and its sleep
  | lockWarmer =>
    simp only [hs] at hstep
    split at hstep
    · cases hstep
    · rename_i hw
      cases hstep
      have ho := h.place (.inl hs)
      refine ⟨h.loop, h.wait, h.stopped, fun _ => ho, fun ht => (by cases ht), fun hr => ?_,
        fun hne => .inr ⟨ho, fun _ => ?_⟩⟩
      · exact .inl ((h.retire hr).resolve_right (by rw [hs]; rintro (hn | ⟨-, hn⟩) <;> cases hn))
      · cases hw' : w.warmerWait with
        | awake => exact absurd hw' hne
        | checked => exact absurd hw' hw
        | asleep => rfl
  | notifyWarmer =>
    simp only [hs] at hstep
    obtain ⟨journal, hjournal, rfl⟩ := Option.map_eq_some_iff.mp hstep
    have ho := h.place (.inr hs)
    have hstopped := h.stopped (by rw [ho]; trivial)
    refine h.ownerStep hjournal ⟨by rw [hs]; exact fun h => (by cases h), fun hn => ?_⟩
      (.inl ⟨rfl, fun p page hn => ?_⟩) (fun hne => absurd ?_ hne)
    · cases hs.symm.trans hn.2
    · cases ho.symm.trans hn
    · cases hw : w.warmerWait with
      | awake | asleep => rfl
      | checked =>
        -- the destructor has had the mutex in between
        obtain hint | ⟨-, hasleep⟩ := h.warmer (by rw [hw]; exact fun h => (by cases h))
        · cases hstopped.symm.trans (State.interrupted_eq_false.mp hint).2
        · cases hw.symm.trans (hasleep hs)
  | none =>
    simp only [hs] at hstep
    have hplain : w.journal.owner ≠ .wake → w.signalling ≠ .notifyRetire ∧
        ¬(w.journal.owner = .wake ∧ w.signalling = .none) := fun ho =>
      ⟨by rw [hs]; exact fun h => (by cases h), fun hn => ho hn.1⟩
    split at hstep
    · rename_i ho
      cases hstep
      exact ⟨fun hr => (by cases hr), h.wait, h.stopped, fun _ => ho, fun ht => (by cases ht),
        fun hr => (by cases hr), fun _ => .inr ⟨ho, fun hn => (by cases hn)⟩⟩
    · rename_i p page ho
      obtain ⟨journal, hjournal, rfl⟩ := Option.map_eq_some_iff.mp hstep
      exact h.ownerStep hjournal (hplain (by rw [ho]; exact fun h => (by cases h)))
        (.inr ⟨rfl, p, page, ho⟩)
        (fun _ => ⟨rfl, by rw [ho]; exact ⟨fun p h => (by cases h), fun h => (by cases h)⟩⟩)
    · rename_i p ho
      split at hstep
      · cases hstep
      · obtain ⟨journal, hjournal, rfl⟩ := Option.map_eq_some_iff.mp hstep
        exact h.ownerStep hjournal (hplain (by rw [ho]; exact fun h => (by cases h)))
          (.inl ⟨rfl, by rw [ho]; exact fun p page h => (by cases h)⟩)
          (fun _ => ⟨rfl, by rw [ho]; exact ⟨fun p h => (by cases h), fun h => (by cases h)⟩⟩)
    · rename_i p ho
      split at hstep
      · cases hstep
      · rename_i hw
        obtain ⟨journal, hjournal, rfl⟩ := Option.map_eq_some_iff.mp hstep
        refine h.ownerStep hjournal (hplain (by rw [ho]; exact fun h => (by cases h)))
          (.inl ⟨rfl, by rw [ho]; exact fun p page h => (by cases h)⟩) (fun hne => absurd ?_ hne)
        cases hw' : w.warmerWait with
        | awake | asleep => rfl
        | checked => exact absurd hw' hw
    · rename_i hnw hnh _ hns
      obtain ⟨journal, hjournal, rfl⟩ := Option.map_eq_some_iff.mp hstep
      exact h.ownerStep hjournal (hplain hnw) (.inl ⟨rfl, hnh⟩) (fun _ => ⟨rfl, hns, hnw⟩)

theorem Watch.waitingWarmer {succeeds : Bool} (h : Watch w)
    (hstep : waitingWarmer o succeeds w = some w') :
    Watch w' := by
  unfold HandOff.waitingWarmer at hstep
  cases hw : w.warmerWait with
  | asleep => simp [hw] at hstep
  | checked =>
    simp only [hw, Option.some.injEq] at hstep
    subst hstep
    have hne : w.warmerWait ≠ .awake := by rw [hw]; exact fun h => (by cases h)
    exact ⟨h.loop, fun _ => h.wait hne, h.stopped, h.place, h.trim, h.retire,
      fun _ => (h.warmer hne).imp id fun hn => ⟨hn.1, fun _ => rfl⟩⟩
  | awake =>
    simp only [hw] at hstep
    split at hstep
    · rename_i hc
      cases hstep
      exact ⟨h.loop, fun _ => hc.1, h.stopped, h.place, h.trim, h.retire, fun _ => .inl hc.2⟩
    · obtain ⟨journal, hjournal, rfl⟩ := Option.map_eq_some_iff.mp hstep
      exact hw ▸ h.warmerStep hw hjournal

theorem Watch.waitingRetire (h : Watch w) (hstep : waitingRetire w = some w') : Watch w' := by
  unfold HandOff.waitingRetire at hstep
  split at hstep
  · cases hstep
  · rename_i hs
    split at hstep
    · rename_i hc
      cases hstep
      exact ⟨fun _ => hc.1, h.wait, h.stopped, h.place, h.trim, fun _ => .inl hc.2, h.warmer⟩
    · obtain ⟨journal, hjournal, rfl⟩ := Option.map_eq_some_iff.mp hstep
      exact h.retireStep (Bool.eq_false_iff.mpr hs) hjournal

/-- A call, which begins between two others. -/
theorem Watch.loadPage {p : Int} {journal : State} (h : Watch w) (hs : w.signalling = .none)
    (hstep : HandOff.step o (.loadPage p) w.journal = some journal) :
    Watch { w with journal := journal } := by
  rw [HandOff.step] at hstep
  split at hstep
  · rename_i ho
    split at hstep
    · cases hstep
      exact h
    · cases hstep
      refine ⟨h.loop, h.wait, fun hc => ?_, fun hp => ?_, fun ht => ?_, fun hr => ?_, fun hne => ?_⟩
      · cases hw : o.warms <;> rw [hw] at hc <;> exact hc.elim
      · rw [hs] at hp
        rcases hp with hp | hp <;> cases hp
      · cases hs.symm.trans ht
      · obtain hn | hn | hn := h.retire hr
        · exact .inl hn
        · exact .inr (.inl hn)
        · cases ho.symm.trans hn.1
      · obtain hn | hn := h.warmer hne
        · exact .inl hn
        · cases ho.symm.trans hn.1
  · cases hstep

theorem Watch.destruct {journal : State} (h : Watch w) (hs : w.signalling = .none)
    (hstep : HandOff.step o .destruct w.journal = some journal) :
    Watch { w with journal := journal } := by
  rw [HandOff.step] at hstep
  split at hstep
  · cases hstep
    refine ⟨h.loop, h.wait, fun _ => rfl, fun _ => rfl, fun ht => ?_,
      fun _ => .inr (.inr ⟨rfl, hs⟩), fun _ => .inr ⟨rfl, fun hn => ?_⟩⟩
    · cases hs.symm.trans ht
    · cases hs.symm.trans hn
  · cases hstep

theorem Watch.step {move : WaitMove} (h : Watch w)
    (hstep : waitStep o move w = some w') : Watch w' := by
  cases move with
  | wakeRetire =>
    rw [waitStep] at hstep
    split at hstep <;> cases hstep
    exact ⟨fun hr => (by cases hr), h.wait, h.stopped, h.place, h.trim,
      fun hr => (by cases hr), h.warmer⟩
  | wakeWarmer =>
    rw [waitStep] at hstep
    split at hstep <;> cases hstep
    exact ⟨h.loop, fun hne => absurd rfl hne, h.stopped, h.place, h.trim, h.retire,
      fun hne => absurd rfl hne⟩
  | move m =>
    cases m with
    | loadPage p =>
      rw [waitStep] at hstep
      split at hstep
      · rename_i hs
        obtain ⟨journal, hjournal, rfl⟩ := Option.map_eq_some_iff.mp hstep
        exact h.loadPage hs hjournal
      · cases hstep
    | destruct =>
      rw [waitStep] at hstep
      split at hstep
      · rename_i hs
        obtain ⟨journal, hjournal, rfl⟩ := Option.map_eq_some_iff.mp hstep
        exact h.destruct hs hjournal
      · cases hstep
    | owner header loads => exact h.waitingOwner hstep
    | warmer succeeds => exact h.waitingWarmer hstep
    | retire => exact h.waitingRetire hstep

theorem WaitReaches.watch (h : WaitReaches o w) : Watch w := by
  induction h with
  | start => exact Watch.start o
  | step _ hstep ih => exact ih.step hstep

/-! ## Somebody can go on -/

theorem ownerStep_isSome {header : Option Nat} {loads : Bool} (hi : s.owner ≠ .idle)
    (hg : s.owner ≠ .gone) (hr : s.owner = .joinRetire → s.retire = .exited)
    (hw : s.owner = .joinWarmer → s.warmer = .exited) :
    (ownerStep o header loads s).isSome := by
  unfold ownerStep
  cases ho : s.owner with
  | idle => exact absurd ho hi
  | gone => exact absurd ho hg
  | joinRetire => simp [hr ho]
  | joinWarmer => simp [hw ho]
  | handOver p page | signal p | wake | members => rfl
  | load p => cases loads <;> rfl
  | releaseWarmed => cases s.warmerAddr <;> rfl
  | install p newPage =>
    simp only
    split
    · rfl
    · split <;> rfl
  | trim p =>
    simp only
    split
    · split <;> rfl
    · rfl
  | lookup p =>
    simp only
    split
    · split
      · split <;> rfl
      · rfl
    · rfl

theorem warmerStep_isSome {succeeds : Bool} (hr : s.retireRunning = false)
    (he : s.warmer ≠ .exited) :
    (warmerStep o succeeds s).isSome := by
  unfold warmerStep
  cases hw : s.warmer with
  | exited => exact absurd hw he
  | wait => simp [hr]
  | statCheck p ms | map p =>
    simp only
    split <;> rfl
  | stat p ms | doubleCheck p | poll p addr ms | prepare p addr | release p addr => rfl
  | pollCheck p addr ms =>
    simp only
    split
    · split <;> rfl
    · rfl
  | publish p addr =>
    simp only
    split
    · rfl
    · split <;> rfl

theorem retireStep_isSome (hr : s.retireRunning = false) (he : s.retire ≠ .exited) :
    (retireStep s).isSome := by
  unfold retireStep
  cases hw : s.retire with
  | exited => exact absurd hw he
  | reset page => rfl
  | loop =>
    cases s.retireQueue with
    | nil => simp [hr]
    | cons page rest => rfl

/-- In the destructor, a retire thread that has not left can go on, unless it is still to
be notified. -/
theorem Watch.retire_isSome (h : Watch w) (hc : w.journal.owner.Closing)
    (hw : w.journal.owner ≠ .wake) (he : w.journal.retire ≠ .exited) :
    (HandOff.waitingRetire w).isSome := by
  have hstopped := h.stopped hc
  have hs : w.retireAsleep = false := by
    refine Bool.eq_false_iff.mpr fun hs => ?_
    obtain ⟨-, hr⟩ | hn | hn := h.retire hs
    · cases hstopped.symm.trans hr
    · obtain ⟨p, hp⟩ := h.trim hn
      rw [hp] at hc
      exact hc
    · exact hw hn.1
  obtain ⟨journal, hjournal⟩ := Option.isSome_iff_exists.mp (retireStep_isSome hstopped he)
  simp [HandOff.waitingRetire, hs, hstopped, hjournal]

/-- So can the warmer. -/
theorem Watch.warmer_isSome {succeeds : Bool} (h : Watch w) (hc : w.journal.owner.Closing)
    (hw : w.journal.owner ≠ .wake) (he : w.journal.warmer ≠ .exited) :
    (HandOff.waitingWarmer o succeeds w).isSome := by
  have hstopped := h.stopped hc
  have hs : w.warmerWait = .awake := by
    by_contra hne
    obtain hint | hn := h.warmer hne
    · cases hstopped.symm.trans (State.interrupted_eq_false.mp hint).2
    · exact hw hn.1
  have hsome : (HandOff.warmerStep o succeeds w.journal).isSome := warmerStep_isSome hstopped he
  obtain ⟨journal, hjournal⟩ := Option.isSome_iff_exists.mp hsome
  simp [HandOff.waitingWarmer, hs, State.interrupted, hstopped, hjournal]

/-- Inside a call the owner can go on, or waits for the warmer to let go of its mutex. -/
theorem waitingOwner_isSome {header : Option Nat} {loads : Bool} (hi : w.journal.owner ≠ .idle)
    (hg : w.journal.owner ≠ .gone) (hr : w.journal.owner = .joinRetire → w.journal.retire = .exited)
    (hw : w.journal.owner = .joinWarmer → w.journal.warmer = .exited) :
    (HandOff.waitingOwner o header loads w).isSome ∨ w.warmerWait = .checked := by
  have hsome : (HandOff.ownerStep o header loads w.journal).isSome := ownerStep_isSome hi hg hr hw
  obtain ⟨journal, hjournal⟩ := Option.isSome_iff_exists.mp hsome
  by_cases hc : w.warmerWait = .checked
  · exact .inr hc
  · refine .inl ?_
    unfold HandOff.waitingOwner
    rw [hjournal]
    cases w.signalling with
    | notifyRetire | notifyWarmer => rfl
    | lockWarmer => simp [hc]
    | none =>
      simp only [if_neg hc]
      split <;> rfl

/-! ## The destructor comes to its end -/

/-- How far the owner is from the end of the destructor. -/
def Owner.left : Owner → Signalling → Nat
  | .wake, .lockWarmer => 6
  | .wake, .notifyWarmer => 5
  | .wake, _ => 7
  | .joinRetire, _ => 4
  | .joinWarmer, _ => 3
  | .releaseWarmed, _ => 2
  | .members, _ => 1
  | _, _ => 0

/-- How far the warmer is from leaving, once it is told to. -/
def Warmer.left : Warmer → WarmerWait → Nat
  | .wait, .awake => 1
  | .wait, .asleep => 2
  | .wait, .checked => 3
  | .statCheck _ _, _ | .doubleCheck _, _ | .publish _ _, _ | .release _ _, _ => 2
  | .stat _ _, _ | .pollCheck _ _ _, _ | .prepare _ _, _ => 3
  | .map _, _ | .poll _ _ _, _ => 4
  | .exited, _ => 0

/-- How far the retire thread is from leaving, but for its queue. -/
def Retire.left : Retire → Bool → Nat
  | .loop, false => 1
  | .loop, true | .reset _, _ => 2
  | .exited, _ => 0

/-- A bound on the steps to the end of the destructor. -/
def Waiting.left (w : Waiting) : Nat :=
  w.journal.owner.left w.signalling + w.journal.warmer.left w.warmerWait +
    (2 * w.journal.retireQueue.length + w.journal.retire.left w.retireAsleep)

theorem Warmer.left_wake (warmer : Warmer) (wait : WarmerWait) :
    warmer.left wait.wake ≤ warmer.left wait := by
  cases warmer with
  | wait => cases wait <;> simp [Warmer.left, WarmerWait.wake]
  | _ => exact Nat.le_refl _

theorem Retire.left_false (retire : Retire) (asleep : Bool) :
    retire.left false ≤ retire.left asleep := by
  cases retire <;> cases asleep <;> simp [Retire.left]

theorem warmerStep_left {succeeds : Bool} (hr : s.retireRunning = false)
    (hstep : warmerStep o succeeds s = some s') : s'.warmer.left .awake < s.warmer.left .awake := by
  have hint : s.interrupted = true := by simp [State.interrupted, hr]
  unfold warmerStep at hstep
  cases hw : s.warmer with
  | exited => simp [hw] at hstep
  | wait =>
    simp only [hw, hr, Bool.not_false, if_true] at hstep
    cases hstep
    exact Nat.zero_lt_one
  | statCheck p ms =>
    simp only [hw, hint, if_true] at hstep
    split at hstep <;> cases hstep <;> exact Nat.lt_succ_self 1
  | doubleCheck p =>
    simp only [hw, hint, if_true] at hstep
    cases hstep
    exact Nat.lt_succ_self 1
  | stat p ms =>
    simp only [hw] at hstep
    cases hstep
    cases succeeds <;> exact Nat.lt_succ_self 2
  | map p =>
    simp only [hw] at hstep
    split at hstep <;> cases hstep
    · exact Nat.lt_succ_self 3
    · exact (by decide : 1 < 4)
  | pollCheck p addr ms =>
    simp only [hw, hint, if_true] at hstep
    split at hstep <;> cases hstep
    · exact (by decide : 1 < 3)
    · exact Nat.lt_succ_self 2
  | poll p addr ms =>
    simp only [hw] at hstep
    cases hstep
    cases succeeds <;> exact Nat.lt_succ_self 3
  | prepare p addr =>
    simp only [hw] at hstep
    cases hstep
    cases succeeds <;> exact Nat.lt_succ_self 2
  | release p addr =>
    simp only [hw] at hstep
    cases hstep
    exact Nat.lt_succ_self 1
  | publish p addr =>
    simp only [hw, hint, if_true] at hstep
    cases hstep
    exact Nat.lt_succ_self 1

theorem retireStep_left (hr : s.retireRunning = false) (hstep : retireStep s = some s') :
    2 * s'.retireQueue.length + s'.retire.left false < 2 * s.retireQueue.length +
      s.retire.left false := by
  unfold retireStep at hstep
  cases hw : s.retire with
  | exited => simp [hw] at hstep
  | reset page =>
    simp only [hw, Option.some.injEq] at hstep
    rw [← hstep, State.destroy_eq]
    exact Nat.lt_succ_self _
  | loop =>
    cases hq : s.retireQueue with
    | nil =>
      simp only [hw, hq, hr, Bool.false_eq_true, if_false, Option.some.injEq] at hstep
      rw [← hstep]
      simp [Retire.left]
    | cons page rest =>
      simp only [hw, hq, Option.some.injEq] at hstep
      rw [← hstep]
      simp only [List.length_cons, Retire.left]
      omega

/-- The destructor's steps of `ReaderWarmer`. -/
theorem ownerStep_left {header : Option Nat} {loads : Bool} (hc : s.owner.Closing)
    (hstep : ownerStep o header loads s = some s') :
    s'.retireQueue.length ≤ s.retireQueue.length ∧ ∀ signalling,
      s'.owner.left .none < s.owner.left signalling := by
  unfold ownerStep at hstep
  cases ho : s.owner with
  | wake =>
    simp only [ho, Option.some.injEq] at hstep
    rw [← hstep]
    refine ⟨Nat.le_refl _, fun signalling => ?_⟩
    cases signalling with
    | none | notifyRetire => exact (by decide : 4 < 7)
    | lockWarmer => exact (by decide : 4 < 6)
    | notifyWarmer => exact (by decide : 4 < 5)
  | joinRetire | joinWarmer =>
    simp only [ho] at hstep
    split at hstep <;> cases hstep
    exact ⟨Nat.le_refl _, fun _ => Nat.lt_succ_self _⟩
  | releaseWarmed =>
    simp only [ho] at hstep
    split at hstep <;> cases hstep <;> exact ⟨Nat.le_refl _, fun _ => Nat.lt_succ_self _⟩
  | members =>
    simp only [ho, Option.some.injEq] at hstep
    rw [← hstep]
    exact ⟨Nat.zero_le _, fun _ => Nat.lt_succ_self _⟩
  | gone => simp [ho] at hstep
  | _ =>
    rw [ho] at hc
    exact hc.elim

/-- A step of the owner in the destructor. -/
theorem Watch.owner_left {header : Option Nat} {loads : Bool} (h : Watch w)
    (hc : w.journal.owner.Closing) (hstep : HandOff.waitingOwner o header loads w = some w') :
    w'.journal.owner.Closing ∧ w'.left < w.left := by
  have base : ∀ (wait : WarmerWait) (journal : State), wait = w.warmerWait ∨
      wait = w.warmerWait.wake →
      HandOff.ownerStep o header loads w.journal = some journal →
      journal.owner.Closing ∧ Waiting.left ⟨journal, w.retireAsleep, wait, .none⟩ < w.left := by
    intro wait journal hwait hjournal
    have hframe := ownerStep_frame hjournal
    obtain ⟨hqueue, hlt⟩ := ownerStep_left hc hjournal
    have hlt := hlt w.signalling
    have hwarmer : w.journal.warmer.left wait ≤ w.journal.warmer.left w.warmerWait := by
      obtain rfl | rfl := hwait
      · exact Nat.le_refl _
      · exact Warmer.left_wake _ _
    refine ⟨hframe.closing.mpr hc, ?_⟩
    simp only [Waiting.left, hframe.warmer, hframe.retire]
    omega
  unfold HandOff.waitingOwner at hstep
  cases hs : w.signalling with
  | notifyRetire =>
    obtain ⟨p, ho⟩ := h.trim hs
    rw [ho] at hc
    exact hc.elim
  | lockWarmer =>
    have ho := h.place (.inl hs)
    simp only [hs] at hstep
    split at hstep
    · cases hstep
    · cases hstep
      refine ⟨hc, ?_⟩
      simp only [Waiting.left, ho, hs, Owner.left]
      omega
  | notifyWarmer =>
    simp only [hs] at hstep
    obtain ⟨journal, hjournal, rfl⟩ := Option.map_eq_some_iff.mp hstep
    exact base _ journal (.inr rfl) hjournal
  | none =>
    simp only [hs] at hstep
    split at hstep
    · rename_i ho
      cases hstep
      refine ⟨hc, ?_⟩
      have hle := w.journal.retire.left_false w.retireAsleep
      simp only [Waiting.left, ho, hs, Owner.left]
      omega
    · rename_i ho
      rw [ho] at hc
      exact hc.elim
    · rename_i ho
      rw [ho] at hc
      exact hc.elim
    · rename_i ho
      rw [ho] at hc
      exact hc.elim
    · obtain ⟨journal, hjournal, rfl⟩ := Option.map_eq_some_iff.mp hstep
      exact base _ journal (.inl rfl) hjournal

/-- **Every step, of whichever thread, brings the end of the destructor closer.** -/
theorem Watch.step_left {move : WaitMove} (h : Watch w) (hc : w.journal.owner.Closing)
    (hstep : waitStep o move w = some w') : w'.journal.owner.Closing ∧ w'.left < w.left := by
  have hstopped := h.stopped hc
  have hidle : w.journal.owner ≠ .idle := fun ho => by
    rw [ho] at hc
    exact hc
  cases move with
  -- a thread that wakes up has one turn less to make
  | wakeRetire =>
    rw [waitStep] at hstep
    split at hstep
    · rename_i hs
      cases hstep
      refine ⟨hc, ?_⟩
      simp only [Waiting.left, hs, h.loop hs, Retire.left]
      omega
    · cases hstep
  | wakeWarmer =>
    rw [waitStep] at hstep
    split at hstep
    · rename_i hs
      cases hstep
      refine ⟨hc, ?_⟩
      have hwait := h.wait (by rw [hs]; exact fun h => (by cases h))
      simp only [Waiting.left, hs, hwait, Warmer.left]
      omega
    · cases hstep
  | move m =>
    cases m with
    -- the owner is in the destructor, so no other call begins
    | loadPage p | destruct =>
      rw [waitStep] at hstep
      split at hstep
      · simp [HandOff.step, hidle] at hstep
      · cases hstep
    | warmer succeeds =>
      rw [waitStep, HandOff.waitingWarmer] at hstep
      cases hw : w.warmerWait with
      | asleep => simp [hw] at hstep
      | checked =>
        simp only [hw, Option.some.injEq] at hstep
        subst hstep
        refine ⟨hc, ?_⟩
        have hwait := h.wait (by rw [hw]; exact fun h => (by cases h))
        simp only [Waiting.left, hw, hwait, Warmer.left]
        omega
      | awake =>
        have hint : w.journal.interrupted = true := by simp [State.interrupted, hstopped]
        simp only [hw, hint, Bool.true_eq_false, and_false, if_false] at hstep
        obtain ⟨journal, hjournal, rfl⟩ := Option.map_eq_some_iff.mp hstep
        obtain ⟨howner, hretire, hqueue, -⟩ := warmerStep_frame hjournal
        have hlt := warmerStep_left hstopped hjournal
        refine ⟨by rw [howner]; exact hc, ?_⟩
        simp only [Waiting.left, howner, hretire, hqueue, hw]
        omega
    | retire =>
      rw [waitStep, HandOff.waitingRetire] at hstep
      cases hs : w.retireAsleep with
      | true => simp [hs] at hstep
      | false =>
        simp only [hs, hstopped, Bool.false_eq_true, and_false, if_false] at hstep
        obtain ⟨journal, hjournal, rfl⟩ := Option.map_eq_some_iff.mp hstep
        obtain ⟨howner, hwarmer, -, -⟩ := retireStep_frame hjournal
        have hlt := retireStep_left hstopped hjournal
        refine ⟨by rw [howner]; exact hc, ?_⟩
        simp only [Waiting.left, howner, hwarmer, hs]
        omega
    | owner header loads =>
      exact h.owner_left hc hstep

theorem Watch.run_left {moves : List WaitMove} (h : Watch w) (hc : w.journal.owner.Closing)
    (hrun : waitRun o moves w = some w') : moves.length ≤ w.left := by
  induction moves generalizing w with
  | nil => exact Nat.zero_le _
  | cons move moves ih =>
    obtain ⟨w₁, hstep, hrest⟩ := Option.bind_eq_some_iff.mp hrun
    obtain ⟨hc', hlt⟩ := h.step_left hc hstep
    exact Nat.lt_of_le_of_lt (ih (h.step hstep) hc' hrest) hlt

theorem Waiting.left_le (w : Waiting) : w.left ≤ 2 * w.journal.retireQueue.length + 13 := by
  have howner : w.journal.owner.left w.signalling ≤ 7 := by
    unfold Owner.left
    split <;> omega
  have hwarmer : w.journal.warmer.left w.warmerWait ≤ 4 := by
    unfold Warmer.left
    split <;> omega
  have hretire : w.journal.retire.left w.retireAsleep ≤ 2 := by
    unfold Retire.left
    split <;> omega
  unfold Waiting.left
  omega

/-- **A `Journal` whose threads sleep is one whose threads wait**, and no more. -/
structure Woken (o : Options) (w : Waiting) : Prop where
  /-- The run is one of `ReaderWarmer`. -/
  journal : Reaches o w.journal
  /-- The retire thread sleeps only while its queue is empty and it is to run on, or while
  the owner is just about to notify it. -/
  retire : w.retireAsleep = true → (w.journal.retireQueue = [] ∧ w.journal.retireRunning = true) ∨
    w.signalling = .notifyRetire ∨ (w.journal.owner = .wake ∧ w.signalling = .none)
  /-- The warmer sleeps only while no page is requested and it is to run on, or while the
  destructor is still to notify it. -/
  warmer : w.warmerWait = .asleep → w.journal.interrupted = false ∨ w.journal.owner = .wake
  /-- Inside a call, the owner can go on as soon as the warmer is not about to fall asleep. -/
  calls : ¬w.journal.owner.Closing → w.journal.owner ≠ .idle → ∀ header loads,
    (waitStep o (.move (.owner header loads)) w).isSome ∨ w.warmerWait = .checked
  /-- In the destructor one of the three threads can always go on. -/
  enabled : w.journal.owner.Closing → w.journal.owner ≠ .gone → ∀ header loads succeeds,
    (waitStep o (.move (.owner header loads)) w).isSome ∨
      (waitStep o (.move (.warmer succeeds)) w).isSome ∨ (waitStep o (.move .retire) w).isSome
  /-- It comes to an end in every order of steps. -/
  bounded : w.journal.owner.Closing → ∀ moves w', waitRun o moves w = some w' →
    moves.length ≤ 2 * w.journal.retireQueue.length + 13

theorem Watch.enabled {header : Option Nat} {loads succeeds : Bool} (h : Watch w)
    (hc : w.journal.owner.Closing) (hg : w.journal.owner ≠ .gone) :
    (HandOff.waitingOwner o header loads w).isSome ∨ (HandOff.waitingWarmer o succeeds w).isSome ∨
      (HandOff.waitingRetire w).isSome := by
  have hidle : w.journal.owner ≠ .idle := fun ho => by
    rw [ho] at hc
    exact hc
  by_cases hr : w.journal.owner = .joinRetire ∧ w.journal.retire ≠ .exited
  · exact .inr (.inr (h.retire_isSome hc (by rw [hr.1]; exact fun h => (by cases h)) hr.2))
  · by_cases hw : w.journal.owner = .joinWarmer ∧ w.journal.warmer ≠ .exited
    · exact .inr (.inl (h.warmer_isSome hc (by rw [hw.1]; exact fun h => (by cases h)) hw.2))
    · have hsome : (HandOff.waitingOwner o header loads w).isSome ∨ w.warmerWait = .checked :=
        waitingOwner_isSome hidle hg (fun ho => not_not.mp fun hn => hr ⟨ho, hn⟩)
          (fun ho => not_not.mp fun hn => hw ⟨ho, hn⟩)
      obtain howner | hchecked := hsome
      · exact .inl howner
      · refine .inr (.inl ?_)
        rw [HandOff.waitingWarmer, hchecked]
        rfl

/-- **In every run of a `Journal`'s three threads**, nobody waits for nothing. -/
theorem journal_wakeups (o : Options) (w : Waiting) (h : WaitReaches o w) : Woken o w := by
  have hwatch := h.watch
  refine ⟨h.journal, hwatch.retire, fun hs => ?_, fun hc hi header loads => ?_,
    fun hc hg header loads succeeds => hwatch.enabled hc hg,
    fun hc moves w' hrun => Nat.le_trans (hwatch.run_left hc hrun) w.left_le⟩
  · exact (hwatch.warmer (by rw [hs]; exact fun h => (by cases h))).imp id And.left
  · refine waitingOwner_isSome hi (fun ho => hc (by rw [ho]; trivial)) (fun ho => absurd ?_ hc)
      (fun ho => absurd ?_ hc)
    · rw [ho]
      trivial
    · rw [ho]
      trivial

/-- The warmer has looked at its condition when the destructor begins, and falls asleep
before it is notified. -/
def lateLook : List WaitMove :=
  [.move .retire, .move (.warmer true), .move .destruct, .move (.owner none true),
    .move (.warmer true),
   .move (.owner none true), .move (.owner none true), .move .retire, .move (.owner none true),
   .move (.warmer true), .move (.owner none true), .move (.owner none true),
   .move (.owner none true)]

theorem journal_wakeups_lateLook :
    ∃ w, waitRun lazyReader lateLook ⟨lazyReader.start, false, .awake, .none⟩ = some w ∧
      w.journal.owner = .gone ∧ Woken lazyReader w :=
  ⟨_, rfl, rfl, journal_wakeups lazyReader
    _ (WaitReaches.start.run (show waitRun _ lateLook _ = _ from rfl))⟩

end Revoq.HandOff
