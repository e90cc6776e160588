import Revoq.WorkQueue
import Mathlib.Data.List.Range
import Mathlib.Data.List.Perm.Basic

/-! # Pages the writer is done with

The tail of `rotatePage`, `retireLoop` and the destructor of `JournalWriter.h`.  The page
that was filled goes to `retired_pages_`; what exceeds `max_retained_pages_` is destroyed
on the spot, or handed to the retire thread, which unmaps it off the writer's thread.  The
destructor hands over the rest and joins.

Pages are numbered as they are loaded.  A critical section of `retire_mutex_` is one step,
and so are the two notifications, which come after it.  A `Page::load` that throws comes
before all this and leaves the pages as they are.
-/
namespace Revoq.PageRetirement

/-- `background_threads_` and `max_retained_pages_`. -/
structure Options where
  backgroundThreads : Bool
  maxRetainedPages : Nat
deriving DecidableEq

/-- Where the writer's thread is in `rotatePage`, with `next_page` and `old_page`, or in
the destructor. -/
inductive Owner where
  | idle
  | retire (nextPage : Nat)
  | trim (nextPage : Nat)
  | handOver (nextPage oldPage : Nat)
  | notify (nextPage : Nat)
  | reset
  | flush
  | wakeAll
  | join
  | clear
  | gone
deriving DecidableEq

/-- The pages of a writer, and its retire thread.  `inline` are the pages that the writer's
own thread has destroyed. -/
structure State where
  owner : Owner := .idle
  currentPage : Option Nat
  retiredPages : List Nat := []
  queue : WorkQueue.Queue Nat
  inline : List Nat := []
  loaded : Nat
deriving DecidableEq

/-- The constructor has loaded the initial page and started the thread. -/
def Options.start (o : Options) : State where
  currentPage := some 0
  queue := ⟨[], o.backgroundThreads, if o.backgroundThreads then .top else .exited, []⟩
  loaded := 1

/-- The next step of the writer's thread. -/
def ownerStep (o : Options) (s : State) : Option State :=
  match s.owner with
  | .idle | .gone => none
  | .retire nextPage =>
      some { s with owner := .trim nextPage, currentPage := none,
                    retiredPages := s.retiredPages ++ s.currentPage.toList }
  | .trim nextPage =>
      match s.retiredPages with
      | oldPage :: rest =>
        if o.maxRetainedPages < s.retiredPages.length then
          if o.backgroundThreads then
            some { s with owner := .handOver nextPage oldPage, retiredPages := rest }
          else some { s with retiredPages := rest, inline := s.inline ++ [oldPage] }
        else some { s with owner := .idle, currentPage := some nextPage }
      | [] => some { s with owner := .idle, currentPage := some nextPage }
  | .handOver nextPage oldPage =>
      some { s with owner := .notify nextPage, queue := s.queue.push [oldPage] }
  | .notify nextPage => some { s with owner := .trim nextPage, queue := s.queue.wake }
  | .reset =>
      some { s with owner := if o.backgroundThreads then .flush else .wakeAll, currentPage := none,
                    inline := s.inline ++ s.currentPage.toList }
  | .flush =>
      some { s with
        owner := .wakeAll, retiredPages := [], queue := (s.queue.push s.retiredPages).stop }
  | .wakeAll => some { s with owner := .join, queue := s.queue.wake }
  | .join => if s.queue.place = .exited then some { s with owner := .clear } else none
  | .clear =>
      some { s with owner := .gone, retiredPages := [], inline := s.inline ++ s.retiredPages }

/-- A call, a step of a thread, or a wakeup that nobody asked for. -/
inductive Move where
  | rotatePage
  | destruct
  | owner
  | worker
  | spurious
deriving DecidableEq

/-- What the move makes of the state, if it can be made. -/
def step (o : Options) (move : Move) (s : State) : Option State :=
  match move with
  | .rotatePage =>
      if s.owner = .idle then some { s with owner := .retire s.loaded, loaded := s.loaded + 1 }
      else none
  | .destruct => if s.owner = .idle then some { s with owner := .reset } else none
  | .owner => ownerStep o s
  | .worker => s.queue.workerStep.map fun queue => { s with queue := queue }
  | .spurious => if s.queue.place = .asleep then some { s with queue := s.queue.wake } else none

/-- The states a writer can get to. -/
inductive Reaches (o : Options) : State → Prop where
  | start : Reaches o o.start
  | step {s s' : State} {move : Move} (h : Reaches o s)
      (hstep : step o move s = some s') : Reaches o s'

/-- The moves one after the other. -/
def run (o : Options) : List Move → State → Option State
  | [], s => some s
  | move :: moves, s => (step o move s).bind (run o moves)

theorem Reaches.run {o : Options} {moves : List Move} {s s' : State} (h : Reaches o s)
    (hrun : run o moves s = some s') : Reaches o s' := by
  induction moves generalizing s with
  | nil =>
    cases hrun
    exact h
  | cons move moves ih =>
    obtain ⟨s₁, hstep, hrest⟩ := Option.bind_eq_some_iff.mp hrun
    exact ih (h.step hstep) hrest

/-! ## What each page is doing -/

/-- `next_page`. -/
def Owner.nextPage : Owner → Option Nat
  | .retire nextPage | .trim nextPage | .handOver nextPage _ | .notify nextPage => some nextPage
  | _ => none

/-- `old_page`. -/
def Owner.oldPage : Owner → Option Nat
  | .handOver _ oldPage => some oldPage
  | _ => none

/-- A page that was just retired may be one too many. -/
def Owner.extra : Owner → Nat
  | .trim _ => 1
  | _ => 0

/-- The destructor has not begun. -/
def Owner.Alive : Owner → Prop
  | .idle | .retire _ | .trim _ | .handOver _ _ | .notify _ => True
  | _ => False

/-- The pages in the writer's hands, the oldest first. -/
def State.inHand (s : State) : List Nat :=
  s.retiredPages ++ s.currentPage.toList ++ s.owner.nextPage.toList

/-- The pages out of its hands: destroyed by either thread, on the way to the retire
thread or with it. -/
def State.outOfHand (s : State) : List Nat :=
  s.inline ++ (s.queue.done ++ s.queue.held) ++ s.owner.oldPage.toList

/-- The pages that were destroyed. -/
def State.destroyed (s : State) : List Nat := s.inline ++ s.queue.done

/-- The retire thread is running: the destructor has not got as far as `flush`. -/
def Owner.Open : Owner → Prop
  | .wakeAll | .join | .clear | .gone => False
  | _ => True

instance : DecidablePred Owner.Alive :=
  fun owner => by cases owner <;> unfold Owner.Alive <;> infer_instance

instance : DecidablePred Owner.Open :=
  fun owner => by cases owner <;> unfold Owner.Open <;> infer_instance

theorem Owner.Alive.open {owner : Owner} (h : owner.Alive) : owner.Open := by
  cases owner <;> trivial

/-- The writer's thread is about to wake the retire thread. -/
def Owner.Waking : Owner → Prop
  | .notify _ | .wakeAll => True
  | _ => False

/-- What `rotatePage` or the destructor has achieved where it stands. -/
def State.Closed (o : Options) (s : State) : Prop :=
  match s.owner with
  | .idle | .retire _ => s.currentPage.isSome = true
  | .trim _ | .notify _ => s.currentPage = none
  | .handOver _ _ => s.currentPage = none ∧ o.backgroundThreads = true
  | .flush => s.currentPage = none ∧ o.backgroundThreads = true
  | .wakeAll | .join => s.currentPage = none ∧ (o.backgroundThreads = true → s.retiredPages = [])
  | .clear =>
      (s.currentPage = none ∧ (o.backgroundThreads = true → s.retiredPages = [])) ∧
        s.queue.place = .exited
  | .gone => (s.currentPage = none ∧ s.retiredPages = []) ∧ s.queue.place = .exited
  | _ => True

/-- **What holds of every state.** -/
structure Inv (o : Options) (s : State) : Prop where
  order : s.owner.Alive → s.outOfHand ++ s.inHand = List.range s.loaded
  perm : (s.outOfHand ++ s.inHand).Perm (List.range s.loaded)
  /-- Nothing goes out of hand as long as fewer pages than allowed are retained. -/
  kept : s.owner.Alive → s.outOfHand ≠ [] → o.maxRetainedPages ≤ s.retiredPages.length
  limit : s.retiredPages.length ≤ o.maxRetainedPages + s.owner.extra
  inline : o.backgroundThreads = true → s.owner.Alive → s.inline = []
  alone : o.backgroundThreads = false → s.queue = ⟨[], false, .exited, []⟩
  running : o.backgroundThreads = true → (s.queue.running = true ↔ s.owner.Open)
  left : s.queue.Left
  alert : s.queue.Alert ∨ s.owner.Waking
  closed : s.Closed o

variable {o : Options} {s s' : State}

theorem Inv.start (o : Options) : Inv o o.start where
  order _ := by cases hb : o.backgroundThreads <;> simp [Options.start, hb] <;> rfl
  perm := by cases hb : o.backgroundThreads <;> simp [Options.start, hb] <;> exact .refl _
  kept _ h := absurd (by cases hb : o.backgroundThreads <;> simp [Options.start, hb] <;> rfl) h
  limit := Nat.zero_le _
  inline _ _ := rfl
  alone hb := by simp [Options.start, hb]
  running hb := by simp [Options.start, hb, Owner.Open]
  left h := by
    cases hb : o.backgroundThreads with
    | true => simp [Options.start, hb] at h
    | false => simp [Options.start, hb]
  alert := by
    refine .inl fun h => ?_
    cases hb : o.backgroundThreads <;> simp [Options.start, hb] at h
  closed := rfl

/-- The queue does something that loses no page. -/
theorem Inv.requeue (h : Inv o s) {queue : WorkQueue.Queue Nat}
    (hitems : queue.done ++ queue.held = s.queue.done ++ s.queue.held)
    (hexited : s.queue.place = .exited → queue = s.queue)
    (hrunning : queue.running = s.queue.running) (hleft : queue.Left)
    (halert : queue.Alert ∨ s.owner.Waking) : Inv o { s with queue := queue } := by
  have hout : State.outOfHand { s with queue := queue } = s.outOfHand := by
    unfold State.outOfHand
    rw [hitems]
  refine ⟨fun ha => hout ▸ h.order ha, hout ▸ h.perm, fun ha hne => h.kept ha (hout ▸ hne), h.limit,
    h.inline, fun hb => ?_, fun hb => ?_, hleft, halert, ?_⟩
  · have hq := h.alone hb
    exact (hexited (by rw [hq])).trans hq
  · rw [← h.running hb, ← hrunning]
  · have hc := h.closed
    unfold State.Closed at hc ⊢
    cases hw : s.owner with
    | clear | gone =>
      rw [hw] at hc
      exact ⟨hc.1, (congrArg _ (hexited hc.2)).trans hc.2⟩
    | _ =>
      rw [hw] at hc
      exact hc

theorem Inv.workerStep (h : Inv o s) {queue : WorkQueue.Queue Nat}
    (hstep : s.queue.workerStep = some queue) :
    Inv o { s with queue := queue } := by
  refine h.requeue (WorkQueue.Queue.order_workerStep hstep) (fun he => ?_)
    (WorkQueue.Queue.running_workerStep hstep) (WorkQueue.Queue.left_workerStep hstep)
    (.inl (WorkQueue.Queue.alert_workerStep hstep))
  simp [WorkQueue.Queue.workerStep, he] at hstep

/-- A wakeup, asked for or not. -/
theorem Inv.wake (h : Inv o s) : Inv o { s with queue := s.queue.wake } := by
  refine h.requeue ?_ (fun he => s.queue.wake_of_ne (by rw [he]; exact fun h => by cases h)) rfl ?_
    (.inl s.queue.alert_wake)
  · rw [s.queue.held_wake]
    rfl
  · exact h.left.wake

/-- The owner goes on in `rotatePage`. -/
theorem Inv.rotating (h : Inv o s) {owner : Owner} {currentPage : Option Nat}
    {retiredPages : List Nat} {queue : WorkQueue.Queue Nat} {inline : List Nat} {loaded : Nat}
    (ha : s.owner.Alive) (ha' : owner.Alive)
    (horder : (State.mk owner currentPage retiredPages queue inline loaded).outOfHand ++
        (State.mk owner currentPage retiredPages queue inline loaded).inHand = List.range loaded)
    (hkept : (State.mk owner currentPage retiredPages queue inline loaded).outOfHand ≠ [] →
        o.maxRetainedPages ≤ retiredPages.length)
    (hlimit : retiredPages.length ≤ o.maxRetainedPages + owner.extra)
    (hinline : o.backgroundThreads = true → inline = [])
    (halone : o.backgroundThreads = false → queue = ⟨[], false, .exited, []⟩)
    (hrunning : queue.running = s.queue.running) (hleft : queue.Left)
    (halert : queue.Alert ∨ owner.Waking)
    (hclosed : (State.mk owner currentPage retiredPages queue inline loaded).Closed o) :
    Inv o ⟨owner, currentPage, retiredPages, queue, inline, loaded⟩ where
  order _ := horder
  perm := .of_eq horder
  kept _ := hkept
  limit := hlimit
  inline hb _ := hinline hb
  alone := halone
  running hb := iff_of_true (hrunning.trans ((h.running hb).mpr ha.open)) ha'.open
  left := hleft
  alert := halert
  closed := hclosed

theorem Inv.rotatePage (h : Inv o s) (hw : s.owner = .idle) :
    Inv o { s with owner := .retire s.loaded, loaded := s.loaded + 1 } := by
  have ha : s.owner.Alive := by rw [hw]; trivial
  have horder := h.order ha
  have hlimit := h.limit
  have hc := h.closed
  simp only [hw, Owner.extra, Nat.add_zero] at hlimit
  rw [State.Closed, hw] at hc
  refine h.rotating ha trivial ?_ (fun hne => h.kept ha ?_) hlimit
    (fun hb => h.inline hb ha) h.alone rfl
    h.left ?_ hc
  · rw [List.range_succ, ← horder]
    simp [State.outOfHand, State.inHand, Owner.nextPage, Owner.oldPage, hw]
  · simpa [State.outOfHand, Owner.oldPage, hw] using hne
  · exact .inl (h.alert.resolve_right (by rw [hw]; exact id))

theorem Inv.retire (h : Inv o s) {n : Nat} (hw : s.owner = .retire n) :
    Inv o { s with owner := .trim n, currentPage := none,
                   retiredPages := s.retiredPages ++ s.currentPage.toList } := by
  have ha : s.owner.Alive := by rw [hw]; trivial
  have hlimit := h.limit
  simp only [hw, Owner.extra, Nat.add_zero] at hlimit
  refine h.rotating ha trivial ?_ (fun hne => ?_) ?_ (fun hb => h.inline hb ha) h.alone
    rfl h.left ?_ rfl
  · rw [← h.order ha]
    simp [State.outOfHand, State.inHand, Owner.nextPage, Owner.oldPage, hw]
  · have hk := h.kept ha (by simpa [State.outOfHand, Owner.oldPage, hw] using hne)
    simp only [List.length_append]
    omega
  · have hone : s.currentPage.toList.length ≤ 1 := by cases s.currentPage <;> simp
    simp only [List.length_append, Owner.extra]
    omega
  · exact .inl (h.alert.resolve_right (by rw [hw]; exact id))

/-- Few enough pages are retained, and the new page becomes the current one. -/
theorem Inv.install (h : Inv o s) {n : Nat} (hw : s.owner = .trim n)
    (hle : s.retiredPages.length ≤ o.maxRetainedPages) :
    Inv o { s with owner := .idle, currentPage := some n } := by
  have ha : s.owner.Alive := by rw [hw]; trivial
  have hcurrent : s.currentPage = none := by
    have hc := h.closed
    rwa [State.Closed, hw] at hc
  refine h.rotating ha trivial ?_ (fun hne => h.kept ha ?_) hle
    (fun hb => h.inline hb ha) h.alone rfl
    h.left ?_ rfl
  · rw [← h.order ha]
    simp [State.outOfHand, State.inHand, Owner.nextPage, Owner.oldPage, hw, hcurrent]
  · simpa [State.outOfHand, Owner.oldPage, hw] using hne
  · exact .inl (h.alert.resolve_right (by rw [hw]; exact id))

/-- The oldest of too many retained pages is taken out, to be handed over. -/
theorem Inv.takeOut (h : Inv o s) {n p : Nat} {rest : List Nat} (hb : o.backgroundThreads = true)
    (hw : s.owner = .trim n) (hr : s.retiredPages = p :: rest)
    (hlt : o.maxRetainedPages < s.retiredPages.length) :
    Inv o { s with owner := .handOver n p, retiredPages := rest } := by
  have ha : s.owner.Alive := by rw [hw]; trivial
  have hlimit := h.limit
  simp only [hw, hr, List.length_cons, Owner.extra] at hlimit hlt
  have hc := h.closed
  rw [State.Closed, hw] at hc
  refine h.rotating ha trivial ?_ (fun _ => by omega) (Nat.le_of_succ_le_succ hlimit)
    (fun hb => h.inline hb ha) h.alone rfl h.left ?_ ⟨hc, hb⟩
  · rw [← h.order ha]
    simp [State.outOfHand, State.inHand, Owner.nextPage, Owner.oldPage, hw, hr]
  · exact .inl (h.alert.resolve_right (by rw [hw]; exact id))

/-- The oldest of too many retained pages is destroyed on the spot. -/
theorem Inv.destroyInline (h : Inv o s) {n p : Nat} {rest : List Nat}
    (hb : o.backgroundThreads = false) (hw : s.owner = .trim n) (hr : s.retiredPages = p :: rest)
    (hlt : o.maxRetainedPages < s.retiredPages.length) :
    Inv o { s with retiredPages := rest, inline := s.inline ++ [p] } := by
  have ha : s.owner.Alive := by rw [hw]; trivial
  have hlimit := h.limit
  simp only [hw, hr, List.length_cons, Owner.extra] at hlimit hlt
  have hc := h.closed
  simp only [State.Closed, hw] at hc
  refine h.rotating ha ha ?_ (fun _ => by omega) ?_
    (fun hb' => absurd (hb.symm.trans hb') Bool.false_ne_true)
    h.alone rfl h.left h.alert ?_
  · rw [← h.order ha]
    simp [State.outOfHand, State.inHand, hr, h.alone hb, WorkQueue.Queue.held, WorkQueue.Place.item,
      Owner.oldPage, hw]
  · simp only [hw, Owner.extra]
    omega
  · simpa only [State.Closed, hw] using hc

theorem Inv.handOver (h : Inv o s) {n p : Nat} (hw : s.owner = .handOver n p) :
    Inv o { s with owner := .notify n, queue := s.queue.push [p] } := by
  have ha : s.owner.Alive := by rw [hw]; trivial
  have hlimit := h.limit
  simp only [hw, Owner.extra, Nat.add_zero] at hlimit
  have hc := h.closed
  rw [State.Closed, hw] at hc
  obtain ⟨hcurrent, hb⟩ := hc
  have hrun : s.queue.running = true := (h.running hb).mpr (by rw [hw]; trivial)
  refine h.rotating ha trivial ?_ (fun _ => h.kept ha ?_) hlimit
    (fun hb => h.inline hb ha) (fun hb' => ?_)
    rfl (fun he => ?_) (.inr trivial) hcurrent
  · rw [← h.order ha]
    simp [State.outOfHand, State.inHand, Owner.nextPage, Owner.oldPage, hw]
  · simp [State.outOfHand, Owner.oldPage, hw]
  · cases hb.symm.trans hb'
  · cases hrun.symm.trans (h.left he).2

theorem Inv.notify (h : Inv o s) {n : Nat} (hw : s.owner = .notify n) :
    Inv o { s with owner := .trim n, queue := s.queue.wake } := by
  have ha : s.owner.Alive := by rw [hw]; trivial
  have hlimit := h.limit
  simp only [hw, Owner.extra, Nat.add_zero] at hlimit
  have hc := h.closed
  rw [State.Closed, hw] at hc
  have hwake := h.wake
  refine h.rotating ha trivial ?_ (fun hne => h.kept ha ?_) (Nat.le_succ_of_le hlimit)
    (fun hb => h.inline hb ha) hwake.alone rfl hwake.left (.inl s.queue.alert_wake) hc
  · rw [← hwake.order ha]
    simp [State.outOfHand, State.inHand, Owner.nextPage, Owner.oldPage, hw]
  · simpa [State.outOfHand, Owner.oldPage, hw] using hne

/-! ## The destructor -/

theorem State.count_pages (s : State) (p : Nat) :
    (s.outOfHand ++ s.inHand).count p = s.inline.count p + s.queue.done.count p +
    s.queue.held.count p +
      s.owner.oldPage.toList.count p + s.retiredPages.count p + s.currentPage.toList.count p +
      s.owner.nextPage.toList.count p := by
  simp only [State.outOfHand, State.inHand, List.count_append]
  omega

/-- The owner goes on in the destructor. -/
theorem Inv.ending (h : Inv o s) (hdead : ¬s'.owner.Alive) (hloaded : s'.loaded = s.loaded)
    (hcount : ∀ p, (s'.outOfHand ++ s'.inHand).count p = (s.outOfHand ++ s.inHand).count p)
    (hlimit : s'.retiredPages.length ≤ o.maxRetainedPages)
    (halone : o.backgroundThreads = false → s'.queue = ⟨[], false, .exited, []⟩)
    (hrunning : o.backgroundThreads = true → (s'.queue.running = true ↔ s'.owner.Open))
    (hleft : s'.queue.Left) (halert : s'.queue.Alert ∨ s'.owner.Waking)
    (hclosed : s'.Closed o) : Inv o s' where
  order ha := absurd ha hdead
  perm := by
    rw [hloaded]
    exact (List.perm_iff_count.mpr hcount).trans h.perm
  kept ha := absurd ha hdead
  limit := Nat.le_add_right_of_le hlimit
  inline _ ha := absurd ha hdead
  alone := halone
  running := hrunning
  left := hleft
  alert := halert
  closed := hclosed

theorem Inv.destruct (h : Inv o s) (hw : s.owner = .idle) : Inv o { s with owner := .reset } := by
  have hlimit := h.limit
  rw [hw] at hlimit
  refine h.ending id rfl (fun p => ?_) hlimit h.alone
    (fun hb => iff_of_true ((h.running hb).mpr (by rw [hw]; trivial)) trivial) h.left
    (.inl (h.alert.resolve_right (by rw [hw]; exact id))) trivial
  rw [State.count_pages, State.count_pages]
  simp only [hw, Owner.oldPage, Owner.nextPage]

theorem Inv.reset (h : Inv o s) (hw : s.owner = .reset) :
    Inv o { s with owner := if o.backgroundThreads then .flush else .wakeAll, currentPage := none,
                   inline := s.inline ++ s.currentPage.toList } := by
  have hlimit := h.limit
  have halert := h.alert.resolve_right (by rw [hw]; exact id)
  have hrun := fun hb => (h.running hb).mpr (by rw [hw]; trivial)
  rw [hw] at hlimit
  cases hb : o.backgroundThreads with
  | true =>
    refine h.ending id rfl (fun p => ?_) hlimit h.alone
      (fun hb => iff_of_true (hrun hb) trivial) h.left (.inl halert) ⟨rfl, hb⟩
    rw [State.count_pages, State.count_pages]
    simp only [hw, Owner.oldPage, Owner.nextPage, if_true, List.count_append,
      Option.toList_none, List.count_nil]
    omega
  | false =>
    refine h.ending id rfl (fun p => ?_) hlimit h.alone (fun hb' => ?_) h.left (.inl halert)
      ⟨rfl, fun hb' => ?_⟩
    · rw [State.count_pages, State.count_pages]
      simp only [hw, Owner.oldPage, Owner.nextPage, Bool.false_eq_true, if_false,
        List.count_append, Option.toList_none, List.count_nil]
      omega
    · cases hb.symm.trans hb'
    · cases hb.symm.trans hb'

theorem Inv.flush (h : Inv o s) (hw : s.owner = .flush) :
    Inv o { s with owner := .wakeAll, retiredPages := [],
                   queue := (s.queue.push s.retiredPages).stop } := by
  have hc := h.closed
  rw [State.Closed, hw] at hc
  obtain ⟨hcurrent, hb⟩ := hc
  have hrun : s.queue.running = true := (h.running hb).mpr (by rw [hw]; trivial)
  refine h.ending id rfl (fun p => ?_) (Nat.zero_le _) (fun hb' => ?_)
    (fun _ => iff_of_false Bool.false_ne_true id) (fun he => ?_)
    (.inr trivial) ⟨hcurrent, fun _ => rfl⟩
  · rw [State.count_pages, State.count_pages]
    simp only [hw, Owner.oldPage, Owner.nextPage, WorkQueue.Queue.held_stop,
      WorkQueue.Queue.done_stop, WorkQueue.Queue.held_push, WorkQueue.Queue.done_push,
        List.count_append,
      List.count_nil]
    omega
  · cases hb.symm.trans hb'
  · cases hrun.symm.trans (h.left he).2

theorem Inv.wakeAll (h : Inv o s) (hw : s.owner = .wakeAll) :
    Inv o { s with owner := .join, queue := s.queue.wake } := by
  have hlimit := h.limit
  have hclosed := h.closed
  have hwake := h.wake
  rw [hw] at hlimit
  rw [State.Closed, hw] at hclosed
  refine h.ending id rfl (fun p => ?_) hlimit hwake.alone (fun hb => ?_) hwake.left
    (.inl s.queue.alert_wake) hclosed
  · rw [State.count_pages, State.count_pages]
    simp only [hw, Owner.oldPage, Owner.nextPage, WorkQueue.Queue.held_wake,
      WorkQueue.Queue.done_wake]
  · have hrun := h.running hb
    rw [hw] at hrun
    exact hrun

theorem Inv.join (h : Inv o s) (hw : s.owner = .join) (he : s.queue.place = .exited) :
    Inv o { s with owner := .clear } := by
  have hlimit := h.limit
  have hclosed := h.closed
  rw [hw] at hlimit
  rw [State.Closed, hw] at hclosed
  refine h.ending id rfl (fun p => ?_) hlimit h.alone (fun hb => ?_) h.left
    (.inl (h.alert.resolve_right (by rw [hw]; exact id))) ⟨hclosed, he⟩
  · rw [State.count_pages, State.count_pages]
    simp only [hw, Owner.oldPage, Owner.nextPage]
  · have hrun := h.running hb
    rw [hw] at hrun
    exact hrun

theorem Inv.clear (h : Inv o s) (hw : s.owner = .clear) :
    Inv o { s with owner := .gone, retiredPages := [], inline := s.inline ++ s.retiredPages } := by
  have hclosed := h.closed
  rw [State.Closed, hw] at hclosed
  refine h.ending id rfl (fun p => ?_) (Nat.zero_le _) h.alone (fun hb => ?_) h.left
    (.inl (h.alert.resolve_right (by rw [hw]; exact id))) ⟨⟨hclosed.1.1, rfl⟩, hclosed.2⟩
  · rw [State.count_pages, State.count_pages]
    simp only [hw, Owner.oldPage, Owner.nextPage, List.count_append, List.count_nil]
    omega
  · have hrun := h.running hb
    rw [hw] at hrun
    exact hrun

/-! ## Every step -/

theorem Inv.ownerStep (h : Inv o s) (hstep : ownerStep o s = some s') : Inv o s' := by
  unfold PageRetirement.ownerStep at hstep
  cases hw : s.owner with
  | idle | gone => simp [hw] at hstep
  | retire n =>
    simp only [hw, Option.some.injEq] at hstep
    exact hstep ▸ h.retire hw
  | trim n =>
    simp only [hw] at hstep
    cases hr : s.retiredPages with
    | nil =>
      simp only [hr, Option.some.injEq] at hstep
      exact hstep ▸ hr ▸ h.install hw (by rw [hr]; exact Nat.zero_le _)
    | cons p rest =>
      simp only [hr] at hstep
      rw [← hr] at hstep
      split at hstep
      · rename_i hlt
        split at hstep
        · rename_i hb
          cases hstep
          exact h.takeOut hb hw hr hlt
        · rename_i hb
          cases hstep
          exact hw ▸ h.destroyInline (Bool.eq_false_iff.mpr hb) hw hr hlt
      · rename_i hle
        cases hstep
        exact h.install hw (Nat.le_of_not_lt hle)
  | handOver n p =>
    simp only [hw, Option.some.injEq] at hstep
    exact hstep ▸ h.handOver hw
  | notify n =>
    simp only [hw, Option.some.injEq] at hstep
    exact hstep ▸ h.notify hw
  | reset =>
    simp only [hw, Option.some.injEq] at hstep
    exact hstep ▸ h.reset hw
  | flush =>
    simp only [hw, Option.some.injEq] at hstep
    exact hstep ▸ h.flush hw
  | wakeAll =>
    simp only [hw, Option.some.injEq] at hstep
    exact hstep ▸ h.wakeAll hw
  | join =>
    simp only [hw] at hstep
    split at hstep
    · rename_i he
      cases hstep
      exact h.join hw he
    · cases hstep
  | clear =>
    simp only [hw, Option.some.injEq] at hstep
    exact hstep ▸ h.clear hw

theorem Inv.step {move : Move} (h : Inv o s) (hstep : step o move s = some s') : Inv o s' := by
  cases move with
  | rotatePage =>
    rw [PageRetirement.step] at hstep
    split at hstep
    · rename_i hw
      cases hstep
      exact h.rotatePage hw
    · cases hstep
  | destruct =>
    rw [PageRetirement.step] at hstep
    split at hstep
    · rename_i hw
      cases hstep
      exact h.destruct hw
    · cases hstep
  | owner => exact h.ownerStep hstep
  | worker =>
    obtain ⟨queue, hqueue, rfl⟩ := Option.map_eq_some_iff.mp hstep
    exact h.workerStep hqueue
  | spurious =>
    rw [PageRetirement.step] at hstep
    split at hstep
    · cases hstep
      exact h.wake
    · cases hstep

theorem Reaches.inv (h : Reaches o s) : Inv o s := by
  induction h with
  | start => exact Inv.start o
  | step _ hstep ih => exact ih.step hstep

/-! ## The account of the pages -/

/-- **Every page is in one place, and is destroyed once.** -/
structure Accounted (o : Options) (s : State) : Prop where
  once : (s.outOfHand ++ s.inHand).Perm (List.range s.loaded)
  /-- Pages go out of hand and are destroyed in the order they were loaded. -/
  order : s.owner.Alive → s.outOfHand ++ s.inHand = List.range s.loaded
  /-- The newest page and the `max_retained_pages_` before it stay mapped. -/
  kept : s.owner.Alive → ∀ p < s.loaded, s.loaded ≤ p + o.maxRetainedPages + 1 → p ∈ s.inHand
  /-- Between two rotations, no others are in the writer's hands. -/
  limit : s.owner = .idle → s.inHand.length ≤ o.maxRetainedPages + 1
  /-- Without a retire thread every page that is out of hand is destroyed. -/
  inline : o.backgroundThreads = false → s.outOfHand = s.inline
  gone : s.owner = .gone → s.destroyed.Perm (List.range s.loaded)

/-- There always is a page to write to, or to become it. -/
theorem Inv.inHand_length (h : Inv o s) (ha : s.owner.Alive) :
    s.retiredPages.length + 1 ≤ s.inHand.length := by
  have hclosed := h.closed
  simp only [State.inHand, List.length_append]
  cases hw : s.owner with
  | idle | retire n =>
    rw [State.Closed, hw] at hclosed
    obtain ⟨p, hp⟩ := Option.isSome_iff_exists.mp hclosed
    simp only [hp, Option.toList_some, List.length_singleton]
    omega
  | trim n | handOver n p | notify n =>
    simp only [Owner.nextPage, Option.toList_some, List.length_singleton]
    omega
  | _ =>
    rw [hw] at ha
    exact ha.elim

theorem Inv.kept_inHand (h : Inv o s) (ha : s.owner.Alive) {p : Nat} (hp : p < s.loaded)
    (hnew : s.loaded ≤ p + o.maxRetainedPages + 1) : p ∈ s.inHand := by
  have horder := h.order ha
  by_cases hout : s.outOfHand = []
  · rw [hout, List.nil_append] at horder
    exact horder ▸ List.mem_range.mpr hp
  · -- what is in hand ends the list of all pages, and is long enough to contain `p`
    have hkept := h.kept ha hout
    have hlength := congrArg List.length horder
    have hmany := h.inHand_length ha
    rw [List.length_append, List.length_range] at hlength
    have hget : (s.outOfHand ++ s.inHand)[p]? = some p := by
      rw [horder, List.getElem?_range hp]
    rw [List.getElem?_append_right (by omega)] at hget
    exact List.mem_of_getElem? hget

/-- **In every run of a writer's two threads each page is accounted for.** -/
theorem page_retirement (o : Options) (s : State) (h : Reaches o s) : Accounted o s := by
  have hinv := h.inv
  refine ⟨hinv.perm, hinv.order, fun ha p hp hnew => hinv.kept_inHand ha hp hnew, fun hw => ?_,
    fun hb => ?_, fun hw => ?_⟩
  · have hlimit := hinv.limit
    have hone : s.currentPage.toList.length ≤ 1 := by cases s.currentPage <;> simp
    simp only [hw, Owner.extra, Nat.add_zero] at hlimit
    simp only [State.inHand, hw, Owner.nextPage, Option.toList_none, List.append_nil,
      List.length_append]
    omega
  · have hold : s.owner.oldPage = none := by
      have hclosed := hinv.closed
      cases hw : s.owner with
      | handOver n p =>
        rw [State.Closed, hw] at hclosed
        cases hb.symm.trans hclosed.2
      | _ => rfl
    simp [State.outOfHand, hold, hinv.alone hb, WorkQueue.Queue.held, WorkQueue.Place.item]
  · have hclosed := hinv.closed
    rw [State.Closed, hw] at hclosed
    obtain ⟨⟨hcurrent, hretired⟩, hexited⟩ := hclosed
    have hperm := hinv.perm
    have hitems := (hinv.left hexited).1
    simpa [State.outOfHand, State.inHand, State.destroyed, hcurrent, hretired, hexited, hitems, hw,
      Owner.oldPage, Owner.nextPage, WorkQueue.Queue.held, WorkQueue.Place.item] using hperm

/-- Two rotations with one retained page, the retire thread falling asleep in between, and
the destructor. -/
def twoRotations : List Move :=
  [.rotatePage, .owner, .owner, .worker,
   .rotatePage, .owner, .owner, .owner, .owner, .owner, .worker, .worker,
   .destruct, .owner, .owner, .owner, .worker, .worker, .worker, .owner, .owner]

theorem page_retirement_twoRotations :
    ∃ s, run ⟨true, 1⟩ twoRotations (Options.start ⟨true, 1⟩) = some s ∧ s.owner = .gone ∧
      s.destroyed = [2, 0, 1] ∧ Accounted ⟨true, 1⟩ s :=
  ⟨_, rfl, rfl, rfl, page_retirement ⟨true, 1⟩
    _ (Reaches.start.run (show run _ twoRotations _ = _ from rfl))⟩

/-! ## Both threads get on -/

/-- How many steps of its own the writer's thread is from the end of `rotatePage`. -/
def State.rank (o : Options) (s : State) : Nat :=
  match s.owner with
  | .retire _ => 5
  | .trim _ => if o.maxRetainedPages < s.retiredPages.length then 4 else 1
  | .handOver _ _ => 3
  | .notify _ => 2
  | _ => 0

/-- How many steps the threads are from the end of the destructor, once `flush` is made. -/
def State.weight (s : State) : Nat :=
  s.queue.weight + match s.owner with
    | .wakeAll => 3
    | .join => 2
    | .clear => 1
    | _ => 0

/-- A wakeup, or a step of the retire thread. -/
theorem queue_step {move : Move} (hm : move = .worker ∨ move = .spurious)
    (hstep : step o move s = some s') :
    ∃ queue, s' = { s with queue := queue } ∧
      (s.queue.running = false → queue.weight < s.queue.weight) := by
  obtain rfl | rfl := hm
  · obtain ⟨queue, hqueue, rfl⟩ := Option.map_eq_some_iff.mp hstep
    exact ⟨queue, rfl, fun hr => WorkQueue.Queue.weight_workerStep hr hqueue⟩
  · rw [PageRetirement.step] at hstep
    split at hstep
    · rename_i hs
      cases hstep
      exact ⟨_, rfl, fun _ => WorkQueue.Queue.weight_wake_lt hs⟩
    · cases hstep

theorem ownerStep_rank (h : Inv o s) (ha : s.owner.Alive) (hstep : ownerStep o s = some s') :
    s'.owner.Alive ∧ s'.rank o + 1 ≤ s.rank o := by
  have hlimit := h.limit
  unfold PageRetirement.ownerStep at hstep
  cases hw : s.owner with
  | idle => simp [hw] at hstep
  | retire n =>
    simp only [hw, Option.some.injEq] at hstep
    subst hstep
    refine ⟨trivial, ?_⟩
    simp only [State.rank, hw]
    split <;> omega
  | trim n =>
    simp only [hw, Owner.extra] at hstep hlimit
    cases hr : s.retiredPages with
    | nil =>
      simp only [hr, Option.some.injEq] at hstep
      subst hstep
      refine ⟨trivial, ?_⟩
      simp only [State.rank, hw]
      split <;> omega
    | cons p rest =>
      simp only [hr, List.length_cons] at hstep hlimit
      -- one page over the limit at most, so trimming ends with this one
      have hrest : ¬o.maxRetainedPages < rest.length := by omega
      split at hstep
      · rename_i hlt
        split at hstep
        · cases hstep
          refine ⟨trivial, ?_⟩
          simp only [State.rank, hw, hr, List.length_cons, if_pos hlt]
          omega
        · cases hstep
          refine ⟨trivial, ?_⟩
          simp only [State.rank, hw, hr, List.length_cons, if_pos hlt, if_neg hrest]
          omega
      · cases hstep
        refine ⟨trivial, ?_⟩
        simp only [State.rank, hw]
        split <;> omega
  | handOver n p =>
    simp only [hw, Option.some.injEq] at hstep
    subst hstep
    refine ⟨trivial, ?_⟩
    simp only [State.rank, hw]
    omega
  | notify n =>
    simp only [hw, Owner.extra, Nat.add_zero, Option.some.injEq] at hstep hlimit
    subst hstep
    refine ⟨trivial, ?_⟩
    simp only [State.rank, hw, if_neg (Nat.not_lt.mpr hlimit)]
    omega
  | _ =>
    rw [hw] at ha
    exact ha.elim

/-- Five steps of its own are enough for a rotation, whatever the retire thread does. -/
theorem owner_count_le {moves : List Move} (h : Inv o s) (ha : s.owner.Alive)
    (hrun : run o moves s = some s')
    (hmoves : ∀ move ∈ moves, move ≠ .rotatePage ∧ move ≠ .destruct) :
    moves.count .owner ≤ s.rank o := by
  induction moves generalizing s with
  | nil => exact Nat.zero_le _
  | cons move moves ih =>
    obtain ⟨s₁, hstep, hrest⟩ := Option.bind_eq_some_iff.mp hrun
    have hinv := h.step hstep
    have hmoves' := fun m hm => hmoves m (List.mem_cons_of_mem _ hm)
    cases move with
    | rotatePage => exact absurd rfl (hmoves _ List.mem_cons_self).1
    | destruct => exact absurd rfl (hmoves _ List.mem_cons_self).2
    | owner =>
      obtain ⟨ha', hlt⟩ := ownerStep_rank h ha hstep
      rw [List.count_cons_self]
      exact (Nat.succ_le_succ (ih hinv ha' hrest hmoves')).trans hlt
    | worker =>
      obtain ⟨queue, rfl, -⟩ := queue_step (.inl rfl) hstep
      have hle := ih hinv ha hrest hmoves'
      rw [List.count_cons_of_ne (fun h => (by cases h))]
      exact hle
    | spurious =>
      obtain ⟨queue, rfl, -⟩ := queue_step (.inr rfl) hstep
      have hle := ih hinv ha hrest hmoves'
      rw [List.count_cons_of_ne (fun h => (by cases h))]
      exact hle

/-- After `flush` every step of either thread, and every wakeup, brings the end closer. -/
theorem step_weight {move : Move} (h : Inv o s) (hclosed : ¬s.owner.Open)
    (hstep : step o move s = some s') :
    ¬s'.owner.Open ∧ s'.weight < s.weight := by
  have hrun : s.queue.running = false := by
    cases hb : o.backgroundThreads with
    | true => exact Bool.eq_false_iff.mpr fun hr => hclosed ((h.running hb).mp hr)
    | false => rw [h.alone hb]
  cases move with
  | rotatePage | destruct =>
    rw [PageRetirement.step] at hstep
    split at hstep
    · rename_i hw
      exact absurd (by rw [hw]; trivial) hclosed
    · cases hstep
  | owner =>
    rw [PageRetirement.step, PageRetirement.ownerStep] at hstep
    cases hw : s.owner with
    | wakeAll =>
      simp only [hw, Option.some.injEq] at hstep
      subst hstep
      have hle := s.queue.weight_wake
      refine ⟨id, ?_⟩
      simp only [State.weight, hw]
      omega
    | join =>
      simp only [hw] at hstep
      split at hstep
      · cases hstep
        refine ⟨id, ?_⟩
        simp only [State.weight, hw]
        omega
      · cases hstep
    | clear =>
      simp only [hw, Option.some.injEq] at hstep
      subst hstep
      refine ⟨id, ?_⟩
      simp only [State.weight, hw]
      omega
    | gone => simp [hw] at hstep
    | _ =>
      rw [hw] at hclosed
      exact absurd trivial hclosed
  | worker =>
    obtain ⟨queue, rfl, hlt⟩ := queue_step (.inl rfl) hstep
    exact ⟨hclosed, Nat.add_lt_add_right (hlt hrun) _⟩
  | spurious =>
    obtain ⟨queue, rfl, hlt⟩ := queue_step (.inr rfl) hstep
    exact ⟨hclosed, Nat.add_lt_add_right (hlt hrun) _⟩

theorem run_length_le {moves : List Move} (h : Inv o s) (hclosed : ¬s.owner.Open)
    (hrun : run o moves s = some s') : moves.length ≤ s.weight := by
  induction moves generalizing s with
  | nil => exact Nat.zero_le _
  | cons move moves ih =>
    obtain ⟨s₁, hstep, hrest⟩ := Option.bind_eq_some_iff.mp hrun
    obtain ⟨hclosed', hlt⟩ := step_weight h hclosed hstep
    exact Nat.lt_of_le_of_lt (ih (h.step hstep) hclosed' hrest) hlt

/-- **Neither thread waits for nothing**, and the destructor comes to its end. -/
structure Progress (o : Options) (s : State) : Prop where
  /-- The retire thread sleeps only while it has nothing to do, or is about to be woken. -/
  alert : s.queue.place = .asleep →
    (s.queue.items = [] ∧ s.queue.running = true) ∨ s.owner.Waking
  /-- Between two rotations it destroys on its own what it was given. -/
  drains : s.owner = .idle → ∃ queue, Relation.ReflTransGen WorkQueue.Queue.Works s.queue queue ∧
    s.outOfHand = s.inline ++ queue.done
  /-- A rotation does not wait for the retire thread, and takes five steps at most. -/
  rotates : s.owner.Alive → (s.owner ≠ .idle → (step o .owner s).isSome) ∧
    ∀ moves s', (∀ move ∈ moves, move ≠ .rotatePage ∧ move ≠ .destruct) → run o moves s = some s' →
      moves.count .owner ≤ 5
  /-- In the destructor, one of the two threads can always go on. -/
  enabled : ¬s.owner.Alive → s.owner ≠ .gone → (step o .owner s).isSome ∨ (step o .worker s).isSome
  /-- Once everything is handed over there is an end to it, in every order of steps. -/
  bounded : ¬s.owner.Open → ∀ moves s', run o moves s = some s' →
    moves.length ≤ 2 * s.queue.items.length + 5

theorem Inv.drains (h : Inv o s) (hw : s.owner = .idle) :
    ∃ queue, Relation.ReflTransGen WorkQueue.Queue.Works s.queue queue ∧
      s.outOfHand = s.inline ++ queue.done := by
  have halert := h.alert.resolve_right (by rw [hw]; exact id)
  obtain ⟨queue, hworks, hheld⟩ := WorkQueue.Queue.works_off halert h.left
  have hitems : queue.done ++ queue.held = s.queue.done ++ s.queue.held := by
    clear hheld
    induction hworks with
    | refl => rfl
    | tail _ hstep ih => exact (WorkQueue.Queue.order_workerStep hstep).trans ih
  refine ⟨queue, hworks, ?_⟩
  rw [hheld, List.append_nil] at hitems
  rw [State.outOfHand, hw, ← hitems]
  exact List.append_nil _

theorem ownerStep_isSome (ha : s.owner.Alive) (hw : s.owner ≠ .idle) : (ownerStep o s).isSome := by
  unfold PageRetirement.ownerStep
  cases hw' : s.owner with
  | idle => exact absurd hw' hw
  | retire n | handOver n p | notify n => rfl
  | trim n =>
    simp only
    split
    · split
      · split <;> rfl
      · rfl
    · rfl
  | _ =>
    rw [hw'] at ha
    exact ha.elim

theorem Inv.enabled (h : Inv o s) (ha : ¬s.owner.Alive) (hg : s.owner ≠ .gone) :
    (PageRetirement.step o .owner s).isSome ∨ (PageRetirement.step o .worker s).isSome := by
  simp only [PageRetirement.step, PageRetirement.ownerStep]
  cases hw : s.owner with
  | reset | flush | wakeAll | clear => exact .inl rfl
  | gone => exact absurd hw hg
  | join =>
    by_cases he : s.queue.place = .exited
    · simp [he]
    · -- the thread is told to leave, so that it is not asleep
      have hs : s.queue.place ≠ .asleep := fun hs => by
        have hrun := ((h.alert.resolve_right (by rw [hw]; exact id)) hs).2
        cases hb : o.backgroundThreads with
        | true => exact absurd ((h.running hb).mp hrun) (by rw [hw]; exact id)
        | false =>
          rw [h.alone hb] at he
          exact he rfl
      obtain ⟨queue, hqueue⟩ :=
        Option.isSome_iff_exists.mp (WorkQueue.Queue.workerStep_isSome hs he)
      simp [hqueue]
  | _ =>
    rw [hw] at ha
    exact absurd trivial ha

/-- **In every run of a writer's two threads nobody is left waiting.** -/
theorem retirement_progress (o : Options) (s : State) (h : Reaches o s) : Progress o s := by
  have hinv := h.inv
  refine ⟨fun hs => hinv.alert.imp (fun ha => ha hs) id, hinv.drains,
    fun ha => ⟨ownerStep_isSome ha, fun moves s' hmoves hrun => ?_⟩, hinv.enabled,
    fun hclosed moves s' hrun => ?_⟩
  · refine (owner_count_le hinv ha hrun hmoves).trans ?_
    unfold State.rank
    split
    · exact Nat.le_refl _
    · split <;> omega
    · omega
    · omega
    · omega
  · refine (run_length_le hinv hclosed hrun).trans ?_
    unfold State.weight WorkQueue.Queue.weight
    split <;> split <;> omega

theorem retirement_progress_twoRotations :
    ∃ s, run ⟨true, 1⟩ (twoRotations.take 15) (Options.start ⟨true, 1⟩) = some s ∧
      s.owner = .wakeAll ∧
      Progress ⟨true, 1⟩ s :=
  ⟨_, rfl, rfl, retirement_progress ⟨true, 1⟩
    _ (Reaches.start.run (show run _ (twoRotations.take 15) _ = _ from rfl))⟩

end Revoq.PageRetirement
