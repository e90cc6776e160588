import Mathlib.Logic.Relation
import Mathlib.Tactic.Common

/-! # A worker behind a condition variable

A thread that waits for items in a queue, works them off one by one without the lock,
and leaves when it is told to and the queue is empty.  Between two of its critical
sections anybody may push items, wake it, or tell it to leave.

Sleeping is explicit: a worker that found nothing stays asleep until somebody wakes it,
so that a wakeup can be lost.
-/
namespace WorkQueue
variable {α : Type}

/-- Where the worker is. -/
inductive Place (α : Type) where
  /-- About to take the lock and to look at the condition. -/
  | top
  | asleep
  /-- At work on an item, without the lock. -/
  | busy (a : α)
  /-- About to take the lock again. -/
  | back
  | exited
deriving DecidableEq

/-- The item at work. -/
def Place.item : Place α → Option α
  | .busy a => some a
  | _ => none

/-- The queue, the flag, and what was worked off, in order. -/
structure Queue (α : Type) where
  items : List α := []
  running : Bool
  place : Place α
  done : List α := []
deriving DecidableEq

namespace Queue

/-- What was pushed and is not worked off. -/
def held (q : Queue α) : List α := q.place.item.toList ++ q.items

/-- The worker takes the next item, if there is one. -/
def take (q : Queue α) (otherwise : Place α) : Queue α :=
  match q.items with
  | a :: rest => { q with items := rest, place := .busy a }
  | [] => { q with place := if q.running then otherwise else .exited }

/-- The worker's next step. -/
def workerStep (q : Queue α) : Option (Queue α) :=
  match q.place with
  | .top => some (q.take .asleep)
  | .asleep => none
  | .busy a => some { q with place := .back, done := q.done ++ [a] }
  | .back => some (q.take .top)
  | .exited => none

/-- Somebody pushes items, with the lock. -/
def push (q : Queue α) (as : List α) : Queue α := { q with items := q.items ++ as }

/-- Somebody tells the worker to leave, with the lock. -/
def stop (q : Queue α) : Queue α := { q with running := false }

/-- Somebody wakes the worker, or it wakes by itself. -/
def wake (q : Queue α) : Queue α :=
  { q with place := if let .asleep := q.place then .top else q.place }

/-- The worker does not sleep while there is something to do. -/
def Alert (q : Queue α) : Prop := q.place = .asleep → q.items = [] ∧ q.running = true

/-- A bound on the steps of a worker that was told to leave. -/
def weight (q : Queue α) : Nat :=
  2 * q.items.length + match q.place with
    | .top | .back => 1
    | .asleep | .busy _ => 2
    | .exited => 0

variable {q q' : Queue α}

/-- **Items come out in the order they went in.** -/
theorem order_workerStep (h : q.workerStep = some q') : q'.done ++ q'.held = q.done ++ q.held := by
  obtain ⟨items, running, place, done⟩ := q
  cases place with
  | top | back =>
    cases items with
    | nil => cases h; cases running <;> rfl
    | cons a rest => cases h; rfl
  | busy a =>
    cases h
    simp [held, Place.item]
  | asleep | exited => cases h

theorem running_workerStep (h : q.workerStep = some q') : q'.running = q.running := by
  obtain ⟨items, running, place, done⟩ := q
  cases place with
  | top | back => cases items <;> cases h <;> rfl
  | busy a => cases h; rfl
  | asleep | exited => cases h

theorem alert_workerStep (h : q.workerStep = some q') : q'.Alert := by
  obtain ⟨items, running, place, done⟩ := q
  intro hs
  cases place with
  | top | back =>
    cases items with
    | nil =>
      cases h
      cases running with
      | true => exact ⟨rfl, rfl⟩
      | false => cases hs
    | cons a rest =>
      cases h
      cases hs
  | busy a =>
    cases h
    cases hs
  | asleep | exited => cases h

@[simp] theorem done_push (q : Queue α) (as : List α) : (q.push as).done = q.done := rfl

@[simp] theorem done_stop (q : Queue α) : q.stop.done = q.done := rfl

@[simp] theorem held_stop (q : Queue α) : q.stop.held = q.held := rfl

@[simp] theorem done_wake (q : Queue α) : q.wake.done = q.done := rfl

@[simp] theorem held_push (q : Queue α) (as : List α) : (q.push as).held = q.held ++ as :=
  (List.append_assoc ..).symm

@[simp] theorem held_wake (q : Queue α) : q.wake.held = q.held := by
  obtain ⟨items, running, place, done⟩ := q
  cases place <;> rfl

theorem wake_of_ne (h : q.place ≠ .asleep) : q.wake = q := by
  obtain ⟨items, running, place, done⟩ := q
  cases place <;> first | rfl | exact absurd rfl h

theorem wake_ne_asleep (q : Queue α) : q.wake.place ≠ .asleep := by
  obtain ⟨items, running, place, done⟩ := q
  intro h
  cases place <;> cases h

theorem alert_wake (q : Queue α) : q.wake.Alert := fun h => absurd h q.wake_ne_asleep

/-- A worker that is neither asleep nor gone can go on. -/
theorem workerStep_isSome (hs : q.place ≠ .asleep) (he : q.place ≠ .exited) :
    q.workerStep.isSome := by
  obtain ⟨items, running, place, done⟩ := q
  cases place with
  | top | busy a | back => rfl
  | asleep => exact absurd rfl hs
  | exited => exact absurd rfl he

/-- **A worker that was told to leave gets closer to it** with every step. -/
theorem weight_workerStep (hr : q.running = false) (h : q.workerStep = some q') :
    q'.weight < q.weight := by
  obtain ⟨items, running, place, done⟩ := q
  obtain rfl : running = false := hr
  cases place with
  | top | back =>
    cases items with
    | nil => cases h; exact Nat.lt_succ_self 0
    | cons a rest =>
      cases h
      simp only [weight, take, List.length_cons]
      omega
  | busy a =>
    cases h
    simp only [weight]
    omega
  | asleep | exited => cases h

theorem weight_wake (q : Queue α) : q.wake.weight ≤ q.weight := by
  obtain ⟨items, running, place, done⟩ := q
  cases place with
  | asleep => simp only [weight, wake]; omega
  | top | busy a | back | exited => exact Nat.le_refl _

theorem weight_wake_lt (h : q.place = .asleep) : q.wake.weight < q.weight := by
  obtain ⟨items, running, place, done⟩ := q
  obtain rfl : place = .asleep := h
  simp only [weight, wake]
  omega

/-- A worker that has left has left nothing behind, if it was told to leave after the
last push. -/
def Left (q : Queue α) : Prop := q.place = .exited → q.items = [] ∧ q.running = false

theorem left_workerStep (h : q.workerStep = some q') : q'.Left := by
  obtain ⟨items, running, place, done⟩ := q
  intro hs
  cases place with
  | top | back =>
    cases items with
    | nil =>
      cases h
      cases running with
      | true => cases hs
      | false => exact ⟨rfl, rfl⟩
    | cons a rest =>
      cases h
      cases hs
  | busy a =>
    cases h
    cases hs
  | asleep | exited => cases h

theorem Left.wake (h : q.Left) : q.wake.Left := by
  obtain ⟨items, running, place, done⟩ := q
  cases place with
  | exited => exact h
  | top | asleep | busy a | back => exact fun h => (by cases h)

/-- The worker takes a step. -/
def Works (q q' : Queue α) : Prop := q.workerStep = some q'

/-- The worker works on its own until it has nothing left to do. -/
theorem works_off (ha : q.Alert) (hl : q.Left) :
    ∃ q', Relation.ReflTransGen Works q q' ∧ q'.held = [] := by
  obtain ⟨items, running, place, done⟩ := q
  have hback : ∀ (items : List α) (running : Bool) (done : List α), ∃ q',
      Relation.ReflTransGen Works ⟨items, running, .back, done⟩ q' ∧ q'.held = [] := by
    intro items
    induction items with
    | nil => exact fun running done => ⟨_, .refl, rfl⟩
    | cons a rest ih =>
      intro running done
      obtain ⟨q', hrun, hheld⟩ := ih running (done ++ [a])
      have hbusy : Works ⟨rest, running, .busy a, done⟩ ⟨rest, running, .back, done ++ [a]⟩ := rfl
      exact ⟨q', (hrun.head hbusy).head rfl, hheld⟩
  cases place with
  | asleep =>
    obtain ⟨rfl, -⟩ := ha rfl
    exact ⟨_, .refl, rfl⟩
  | exited =>
    obtain ⟨rfl, -⟩ := hl rfl
    exact ⟨_, .refl, rfl⟩
  | busy a =>
    obtain ⟨q', hrun, hheld⟩ := hback items running (done ++ [a])
    exact ⟨q', hrun.head rfl, hheld⟩
  | back => exact hback items running done
  | top =>
    cases items with
    | nil => exact ⟨_, .refl, rfl⟩
    | cons a rest =>
      obtain ⟨q', hrun, hheld⟩ := hback rest running (done ++ [a])
      have hbusy : Works ⟨rest, running, .busy a, done⟩ ⟨rest, running, .back, done ++ [a]⟩ := rfl
      exact ⟨q', (hrun.head hbusy).head rfl, hheld⟩

end Queue
end WorkQueue
