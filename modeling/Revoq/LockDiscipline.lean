import Mathlib.Data.List.Induction
import Revoq.Layout

/-! # The split lock

With `MultiWriterPolicy` every frame is built under `writing_`.  `mark` and
`writeBytes` take it for one call; `openData` takes it and `closeData` gives it
back, in a call of its own.  This module runs any number of threads whose calls
may fail, and asks when `writing_` says who holds it.

It says so exactly as long as no `openData` throws, since nothing gives the lock
back then, and as long as no `closeData` of a thread that holds nothing gives it
back while another thread holds it (`discipline_iff`).
-/
namespace Revoq
open StmtMachine

/-! ## Threads -/

/-- A thread of the process. -/
structure Thread where
  locals : Local := {}
  /-- What is left of the running call, or of its exception handler. -/
  code : List Stmt := []
  /-- The last call the thread entered. -/
  call : Call := .fill []
  /-- The thread holds the lock: from its own successful exchange until that call
  throws, until that `mark` or `writeBytes` ends, or until its `closeData` releases
  it.  A history variable. -/
  holds : Bool := false

/-- Threads that share one writer. -/
structure Threads (ι : Type) where
  world : World
  thread : ι → Thread

/-- What can happen next. -/
inductive Event (ι : Type) where
  /-- An idle thread enters a call. -/
  | call (t : ι) (c : Call) (now : Int64) (env : LoadEnv)
  /-- A thread executes its next statement. -/
  | step (t : ι)
  /-- Other processes and the warmer change the directory and the ring. -/
  | elsewhere (d : Disk) (g : Option PageWarmer)

/-- The call is an `openData`. -/
def Call.isOpenData : Call → Bool
  | .openData .. => true
  | _ => false

/-- Whether a thread holds the lock after a statement. -/
def holdsAfter (writing holds : Bool) : Stmt → Bool
  | .acquire => holds || !writing
  | .release => false
  | _ => holds

namespace Threads
variable {ι : Type} [DecidableEq ι]

/-- A writer that has just been constructed, and threads that have not used it yet. -/
def start (w : World) : Threads ι :=
  ⟨{ w with writer := { w.writer with openFrameHeader := none, writing := false } }, fun _ => {}⟩

/-- Thread `t` goes on as `x`. -/
def move (S : Threads ι) (t : ι) (w : World) (x : Thread) : Threads ι :=
  ⟨w, Function.update S.thread t x⟩

/-- The state after an event; there is none if it cannot happen or kills the
process. -/
def next (P : PageSize) (S : Threads ι) : Event ι → Option (Threads ι)
  | .call t c now env =>
      match (S.thread t).code with
      | [] => some (S.move t S.world { S.thread t with code := c.code true now env, call := c })
      | _ :: _ => none
  | .step t =>
      match (S.thread t).code with
      | [] => none
      | i :: is =>
        match i.exec P (S.world, (S.thread t).locals) with
        | .next (w, l) push =>
            some (S.move t w { S.thread t with
              locals := l
              code := push ++ is
              holds := holdsAfter S.world.writer.writing (S.thread t).holds i })
        | .throw (w, l) =>
            some (S.move t w { S.thread t with
              locals := l
              code := (S.thread t).call.handler true
              holds := (S.thread t).holds && !(S.thread t).call.isOpenData })
        | .fault _ => none
  | .elsewhere d g => some { S with world := { S.world with disk := d, warmer := g } }

/-- The state after a run. -/
def play (P : PageSize) (S : Threads ι) (es : List (Event ι)) : Option (Threads ι) :=
  es.foldlM (next P) S

/-- **The lock is taken exactly when some thread holds it.** -/
def Discipline (S : Threads ι) : Prop :=
  S.world.writer.writing = true ↔ ∃ t, (S.thread t).holds = true

/-- The event does not go wrong: no `openData` throws, and a thread that does not
hold the lock releases it only when nobody does. -/
def Proper (P : PageSize) (S : Threads ι) : Event ι → Prop
  | .step t => ∀ i is, (S.thread t).code = i :: is →
      (i = .release → (S.thread t).holds = true ∨ ∀ u, (S.thread u).holds = false) ∧
      ((S.thread t).call.isOpenData = true → ∀ s,
        i.exec P (S.world, (S.thread t).locals) ≠ .throw s)
  | .call .. | .elsewhere .. => True

end Threads

/-! ## Statements and the lock -/

section
variable {P : PageSize} {i : Stmt} {s s' : World × Local} {push : List Stmt}

/-- Only `acquire` and `release` touch the lock, no statement brings a `release`
with it, and an `acquire` comes only from one that found the lock taken. -/
theorem Stmt.exec_lock (h : i.exec P s = .next s' push) :
    (i ≠ .acquire → i ≠ .release → s'.1.writer.writing = s.1.writer.writing) ∧ .release ∉ push ∧
      (.acquire ∈ push → i = .acquire) := by
  obtain ⟨w, l⟩ := s
  cases i with
  | acquire =>
    simp only [exec] at h
    split at h <;> cases h <;> simp
  | release =>
    cases h
    simp
  | scan env p => cases p <;> cases h <;> simp
  | scanLoad env p rest | seqLoad p rest =>
    cases rest <;> simp only [exec] at h <;> (repeat' split at h) <;> cases h <;> simp
  | hook h' =>
    cases h'.eventTime <;> simp only [exec] at h <;> (repeat' split at h) <;> cases h <;>
      simp [World.store]
  | border n now env =>
    simp only [exec] at h
    split at h <;> cases h <;> simp [rotatePage, sealPage, fillHeader, newFrameHeader]
  | _ =>
    simp only [exec] at h
    (repeat' split at h) <;> cases h <;> simp [World.store]

/-- Code without `acquire` and `release` leaves the lock alone. -/
theorem runs_lock {c d : List Stmt × (World × Local)} (h : Runs (Stmt.exec P) c d)
    (ha : .acquire ∉ c.1) (hr : .release ∉ c.1) :
    d.2.1.writer.writing = c.2.1.writer.writing ∧ .acquire ∉ d.1 ∧ .release ∉ d.1 := by
  induction h with
  | refl => exact ⟨rfl, ha, hr⟩
  | tail _ hs ih =>
    obtain ⟨hsame, ha, hr⟩ := ih
    cases hs with
    | @next i is push s s' he =>
      have hne : i ≠ .acquire := fun e => ha (e ▸ List.mem_cons_self)
      have hne' : i ≠ .release := fun e => hr (e ▸ List.mem_cons_self)
      obtain ⟨hw, hrel, hacq⟩ := Stmt.exec_lock he
      refine ⟨(hw hne hne').trans hsame, fun hm => ?_, fun hm => ?_⟩
      · rcases List.mem_append.mp hm with hm | hm
        · exact hne (hacq hm)
        · exact ha (List.mem_cons_of_mem i hm)
      · rcases List.mem_append.mp hm with hm | hm
        · exact hrel hm
        · exact hr (List.mem_cons_of_mem i hm)

theorem Stmt.exec_throw_lock (h : i.exec P s = .throw s') :
    s'.1.writer.writing = s.1.writer.writing ∧ i ≠ .acquire := by
  obtain ⟨w, l⟩ := s
  cases i with
  | scan env p => cases p <;> cases h
  | scanLoad env p rest | seqLoad p rest =>
    cases rest <;> simp only [exec] at h <;> (repeat' split at h) <;> cases h
  | hook h' =>
    cases h'.eventTime <;> simp only [exec] at h <;> (repeat' split at h) <;> cases h <;>
      simp [World.store]
  | _ =>
    simp only [exec] at h
    (repeat' split at h) <;> cases h <;> simp

end

/-! ## Holding the lock -/

/-- A thread inside `openData` has yet to get the lock, or holds it; and it will not
release it there. -/
structure Opening (x : Thread) : Prop where
  keeps : x.call.isOpenData = true → .release ∉ x.code
  holds : x.call.isOpenData = true → x.code = [] ∨ (∃ is, x.code = .acquire :: is) ∨ x.holds = true

theorem opening_call (x : Thread) (c : Call) (now : Int64) (env : LoadEnv) :
    Opening { x with code := c.code true now env, call := c } := by
  cases c with
  | openData timestamp msgType size flags =>
    refine ⟨fun _ => ?_, fun _ => Or.inr (Or.inl ⟨_, rfl⟩)⟩
    simp [Call.code, openFrame, fillHeader, newFrameHeader]
  | _ => exact ⟨fun h => (by cases h), fun h => (by cases h)⟩

/-- Inside `openData` a statement that is not `acquire` is executed by the holder. -/
theorem Opening.holds_of {x : Thread} (h : Opening x) {i : Stmt} {is : List Stmt}
    (hc : x.code = i :: is) (ho : x.call.isOpenData = true) (hi : i ≠ .acquire) :
    x.holds = true := by
  rcases h.holds ho with e | ⟨js, e⟩ | e
  · rw [e] at hc
    cases hc
  · rw [e] at hc
    exact absurd (List.cons.inj hc).1.symm hi
  · exact e

/-- The thread inside `openData` after a statement. -/
theorem Opening.next {x : Thread} (h : Opening x) {i : Stmt} {is push : List Stmt} {l : Local}
    {holds : Bool} (hc : x.code = i :: is) (hpush : .release ∉ push)
    (hacquire : i = .acquire → push = [.acquire] ∨ holds = true)
    (hother : i ≠ .acquire → i ≠ .release → holds = x.holds) :
    Opening { x with locals := l, code := push ++ is, holds := holds } := by
  refine ⟨fun ho hmem => ?_, fun ho => Or.inr ?_⟩
  · rcases List.mem_append.mp hmem with hm | hm
    · exact hpush hm
    · exact h.keeps ho (hc ▸ List.mem_cons_of_mem i hm)
  · by_cases hi : i = .acquire
    · rcases hacquire hi with rfl | e
      · exact Or.inl ⟨is, rfl⟩
      · exact Or.inr e
    · have hr : i ≠ .release := fun e => h.keeps ho (hc ▸ e ▸ List.mem_cons_self)
      exact Or.inr ((hother hi hr).trans (h.holds_of hc ho hi))

namespace Threads
variable {ι : Type} [DecidableEq ι] {P : PageSize} {S S' : Threads ι}

/-- **What holds as long as every event is `Proper`.** -/
structure Sole (S : Threads ι) : Prop where
  discipline : S.Discipline
  unique : ∀ t u, (S.thread t).holds = true → (S.thread u).holds = true → t = u
  opening : ∀ t, Opening (S.thread t)

omit [DecidableEq ι] in
theorem sole_start (w : World) : Sole (start w : Threads ι) where
  discipline := ⟨fun h => (by cases h), fun ⟨_, h⟩ => (by cases h)⟩
  unique := fun _ _ h => by cases h
  opening := fun _ => ⟨fun h => (by cases h), fun h => (by cases h)⟩

@[simp] theorem move_world (t : ι) (w : World) (x : Thread) : (S.move t w x).world = w := rfl

@[simp] theorem move_self (t : ι) (w : World) (x : Thread) : (S.move t w x).thread t = x :=
  Function.update_self ..

theorem move_of_ne {t u : ι} (w : World) (x : Thread) (h : u ≠ t) :
    (S.move t w x).thread u = S.thread u := Function.update_of_ne h ..

theorem Sole.opening_move (h : Sole S) {t : ι} {w : World} {x : Thread} (hx : Opening x) (u : ι) :
    Opening ((S.move t w x).thread u) := by
  by_cases hu : u = t
  · subst hu
    rwa [move_self]
  · rw [move_of_ne w x hu]
    exact h.opening u

/-- A thread moves and the lock stays as it is. -/
theorem Sole.move_same (h : Sole S) {t : ι} {w : World} {x : Thread}
    (hw : w.writer.writing = S.world.writer.writing) (hh : x.holds = (S.thread t).holds)
    (hx : Opening x) : Sole (S.move t w x) := by
  have holds : ∀ u, ((S.move t w x).thread u).holds = (S.thread u).holds := by
    intro u
    by_cases hu : u = t
    · subst hu
      rwa [move_self]
    · rw [move_of_ne w x hu]
  refine ⟨?_, fun u v => ?_, h.opening_move hx⟩
  · simp only [Discipline, holds, move_world, hw]
    exact h.discipline
  · simp only [holds]
    exact h.unique u v

/-- A thread gets the free lock. -/
theorem Sole.acquire (h : Sole S) {t : ι} {w : World} {x : Thread}
    (hfree : S.world.writer.writing = false) (hw : w.writer.writing = true) (hh : x.holds = true)
    (hx : Opening x) : Sole (S.move t w x) := by
  have none : ∀ u, ¬ (S.thread u).holds = true := fun u hu => by
    have := h.discipline.mpr ⟨u, hu⟩
    rw [hfree] at this
    cases this
  have only : ∀ u, ((S.move t w x).thread u).holds = true → u = t := by
    intro u hu
    by_contra hne
    rw [move_of_ne w x hne] at hu
    exact none u hu
  refine ⟨⟨fun _ => ⟨t, by rw [move_self]; exact hh⟩, fun _ => hw⟩, fun u v hu hv => ?_,
    h.opening_move hx⟩
  rw [only u hu, only v hv]

/-- A thread gives the lock back that it holds, or that nobody holds. -/
theorem Sole.release (h : Sole S) {t : ι} {w : World} {x : Thread}
    (hp : (S.thread t).holds = true ∨ ∀ u, (S.thread u).holds = false)
    (hw : w.writer.writing = false) (hh : x.holds = false) (hx : Opening x) :
    Sole (S.move t w x) := by
  have none : ∀ u, ¬ ((S.move t w x).thread u).holds = true := by
    intro u hu
    by_cases hut : u = t
    · subst hut
      rw [move_self, hh] at hu
      cases hu
    · rw [move_of_ne w x hut] at hu
      rcases hp with hp | hp
      · exact hut (h.unique u t hu hp)
      · rw [hp u] at hu
        cases hu
  refine ⟨⟨fun hw' => ?_, fun ⟨u, hu⟩ => absurd hu (none u)⟩, fun u _ hu => absurd hu (none u),
    h.opening_move hx⟩
  rw [move_world, hw] at hw'
  cases hw'

/-- **One proper event.** -/
theorem Sole.next (h : Sole S) {e : Event ι} (hp : Proper P S e) (he : S.next P e = some S') :
    Sole S' := by
  cases e with
  | call t c now env =>
    simp only [Threads.next] at he
    split at he <;> cases he
    exact h.move_same rfl rfl (opening_call ..)
  | elsewhere d g =>
    cases he
    exact ⟨h.discipline, h.unique, h.opening⟩
  | step t =>
    simp only [Threads.next] at he
    split at he
    · cases he
    next i is hc =>
    obtain ⟨hrelease, hthrow⟩ := hp i is hc
    split at he
    next w l push hexec =>
      cases he
      obtain ⟨hsame, hpush, -⟩ := Stmt.exec_lock hexec
      -- the exchange, the store that gives the lock up, and everything else
      by_cases hacq : i = .acquire
      · subst hacq
        simp only [Stmt.exec] at hexec
        cases hw : S.world.writer.writing with
        | true =>
          rw [hw, if_pos rfl] at hexec
          cases hexec
          refine h.move_same rfl (by simp [holdsAfter]) ((h.opening t).next hc hpush ?_ ?_)
          · exact fun _ => Or.inl rfl
          · exact fun hne => absurd rfl hne
        | false =>
          rw [hw, if_neg Bool.false_ne_true] at hexec
          cases hexec
          refine h.acquire hw rfl (by simp [holdsAfter]) ((h.opening t).next hc hpush ?_ ?_)
          · exact fun _ => Or.inr (by simp [holdsAfter])
          · exact fun hne => absurd rfl hne
      by_cases hrel : i = .release
      · subst hrel
        cases hexec
        refine h.release (hrelease rfl) rfl rfl ((h.opening t).next hc hpush ?_ ?_)
        · exact fun e => by cases e
        · exact fun _ hne => absurd rfl hne
      · have hholds : holdsAfter S.world.writer.writing (S.thread t).holds i =
            (S.thread t).holds := by
          cases i <;> first | rfl | contradiction
        refine h.move_same (hsame hacq hrel) hholds ((h.opening t).next hc hpush ?_ ?_)
        · exact fun e => absurd e hacq
        · exact fun _ _ => hholds
    next w l hexec =>
      cases he
      obtain ⟨hsame, -⟩ := Stmt.exec_throw_lock hexec
      cases ho : (S.thread t).call.isOpenData with
      | true => exact absurd hexec (hthrow ho _)
      | false =>
        refine h.move_same hsame (by simp) ⟨fun h' => ?_, fun h' => ?_⟩ <;>
          exact absurd (ho.symm.trans h') Bool.false_ne_true
    · cases he

/-- **An improper event breaks the discipline at once.** -/
theorem Sole.broken (h : Sole S) {e : Event ι} (hp : ¬ Proper P S e) (he : S.next P e = some S') :
    ¬ S'.Discipline := by
  cases e with
  | call | elsewhere => exact absurd trivial hp
  | step t =>
    simp only [Proper, not_forall] at hp
    obtain ⟨i, is, hc, hp⟩ := hp
    simp only [Threads.next, hc] at he
    by_cases hrel : i = .release ∧ ¬ ((S.thread t).holds = true ∨ ∀ u, (S.thread u).holds = false)
    · obtain ⟨rfl, hno⟩ := hrel
      rw [not_or, not_forall] at hno
      obtain ⟨ht, u, hu⟩ := hno
      rw [Bool.not_eq_false] at hu
      have hne : u ≠ t := fun e => ht (e ▸ hu)
      cases he
      intro hd
      have := hd.mpr ⟨u, by rw [move_of_ne _ _ hne]; exact hu⟩
      cases this
    · have hopen : (S.thread t).call.isOpenData = true ∧
          ∃ s, i.exec P (S.world, (S.thread t).locals) = .throw s := by
        by_contra hno
        refine hp ⟨fun hi => ?_, fun ho s hs => hno ⟨ho, s, hs⟩⟩
        by_contra hn
        exact hrel ⟨hi, hn⟩
      obtain ⟨ho, ⟨w, l⟩, hexec⟩ := hopen
      obtain ⟨hsame, hacq⟩ := Stmt.exec_throw_lock hexec
      have hholds := (h.opening t).holds_of hc ho hacq
      rw [hexec] at he
      cases he
      intro hd
      obtain ⟨u, hu⟩ := hd.mp (hsame.trans (h.discipline.mpr ⟨t, hholds⟩))
      by_cases hut : u = t
      · subst hut
        rw [move_self] at hu
        simp [ho] at hu
      · rw [move_of_ne _ _ hut] at hu
        exact hut (h.unique u t hu hholds)

theorem play_concat {es : List (Event ι)} {e : Event ι} (h : play P S (es ++ [e]) = some S') :
    ∃ T, play P S es = some T ∧ T.next P e = some S' := by
  simp only [play, List.foldlM_append, List.foldlM_cons, List.foldlM_nil, bind_pure] at h
  exact Option.bind_eq_some_iff.mp h

/-- A run all of whose events are proper keeps the lock's state true. -/
theorem sole_of_proper {w : World} {es : List (Event ι)} {T : Threads ι}
    (hp : ∀ fs e S, fs ++ [e] <+: es → play P (start w) fs = some S → Sole S → Proper P S e)
    (h : play P (start w) es = some T) : Sole T := by
  induction es using List.reverseRecOn generalizing T with
  | nil =>
    cases h
    exact sole_start w
  | append_singleton fs e ih =>
    obtain ⟨S, hS, he⟩ := play_concat h
    have hs := ih (fun gs e' S' hpre => hp gs e' S' (hpre.trans (List.prefix_append ..))) hS
    exact hs.next (hp fs e S (List.prefix_refl _) hS hs) he

/-- Along a run the lock's state is true exactly as long as every event is proper. -/
theorem discipline_iff {w : World} {es : List (Event ι)} {T : Threads ι}
    (h : play P (start w) es = some T) :
    (∀ fs S, fs <+: es → play P (start w) fs = some S → S.Discipline) ↔
      ∀ fs e S, fs ++ [e] <+: es → play P (start w) fs = some S → Proper P S e := by
  have hplay : ∀ fs, fs <+: es → ∃ S, play P (start w : Threads ι) fs = some S := by
    rintro fs ⟨gs, rfl⟩
    rw [play, List.foldlM_append] at h
    obtain ⟨S, hS, -⟩ := Option.bind_eq_some_iff.mp h
    exact ⟨S, hS⟩
  refine ⟨fun hd fs e S hpre hS => ?_, fun hp fs S hpre hS => ?_⟩
  · -- all events before were proper, so this one would be the first to break it
    have step : ∀ fs e S, fs ++ [e] <+: es → play P (start w) fs = some S → Sole S →
        Proper P S e := by
      intro fs e S hpre hS hs
      by_contra hno
      obtain ⟨S', hS'⟩ := hplay _ hpre
      obtain ⟨S₀, hS₀, he⟩ := play_concat hS'
      cases hS.symm.trans hS₀
      exact hs.broken hno he (hd _ S' hpre hS')
    have hpre' : fs <+: es := (List.prefix_append ..).trans hpre
    exact step fs e S hpre hS
      (sole_of_proper (fun gs e' S' hg => step gs e' S' (hg.trans hpre')) hS)
  · exact (sole_of_proper (fun gs e S' hg hS' _ => hp gs e S' (hg.trans hpre) hS') hS).discipline

end Threads

/-! ## The result -/

/-- **When the lock's state is true.**  In every state of a run `writing_` is set
exactly when some thread holds it, if and only if no `openData` of the run throws and
no thread releases a lock that another one holds. -/
theorem lock_discipline_iff {ι : Type} [DecidableEq ι] (P : PageSize) (w : World)
    (es : List (Event ι)) (T : Threads ι) (h : Threads.play P (.start w) es = some T) :
    (∀ fs S, fs <+: es → Threads.play P (.start w) fs = some S → S.Discipline) ↔
      ∀ fs e S, fs ++ [e] <+: es → Threads.play P (.start w) fs = some S → Threads.Proper P S e :=
  Threads.discipline_iff h

/-- Two threads, one of which has just marked. -/
theorem lock_discipline_mark :
    ∃ T : Threads Bool, Threads.play pageSizeDefault (.start (fresh true).1)
        [.call true (.mark 1 7) 5 .succeeds, .step true] = some T ∧
      (T.thread true).holds = true ∧
      ((∀ fs S, fs <+: [.call true (.mark 1 7) 5 .succeeds, .step true] →
          Threads.play pageSizeDefault (.start (fresh true).1) fs = some S → S.Discipline) ↔
        ∀ fs e S, fs ++ [e] <+: [.call true (.mark 1 7) 5 .succeeds, .step true] →
          Threads.play pageSizeDefault (.start (fresh true).1) fs = some S →
            Threads.Proper pageSizeDefault S e) :=
  ⟨_, rfl, rfl, lock_discipline_iff pageSizeDefault (fresh true).1 _ _ rfl⟩

/-- What an observer sees of two threads. -/
def Threads.observe (T : Threads Bool) : Bool × Bool × Bool :=
  (T.world.writer.writing, (T.thread false).holds, (T.thread true).holds)

theorem Threads.not_discipline_of_observe {T : Threads Bool} {b : Bool}
    (h : T.observe = (b, !b, false)) : ¬ T.Discipline := by
  simp only [observe, Prod.mk.injEq] at h
  obtain ⟨h1, h2, h3⟩ := h
  intro hd
  rw [Discipline, Bool.exists_bool, h1, h2, h3] at hd
  cases b <;> simp at hd

/-- A thread whose `openData` fails to map the next page. -/
def failingOpen : List (Event Bool) :=
  .call false (.openData 1 7 (2 * 1024 * 1024 - 160) 0) 5 .succeeds :: List.replicate 17
    (.step false) ++
    .call false (.closeData (2 * 1024 * 1024 - 160) {}) 5 .succeeds :: List.replicate 7
      (.step false) ++
    .call false (.openData 1 7 8 0) 5 { mapFails := true } :: List.replicate 8 (.step false)

/-- A thread that closes the frame another thread has open. -/
def strayClose : List (Event Bool) :=
  .call false (.openData 1 7 8 0) 5 .succeeds :: List.replicate 17 (.step false) ++
    .call true (.closeData 8 {}) 5 .succeeds :: List.replicate 7 (.step true)

/-- A writer in an empty directory: the first thread's failing `openData` leaves the
lock taken for ever, and the second thread's `closeData` takes it from the first. -/
theorem lock_left_and_lost :
    ∃ s, Ends (Stmt.exec pageSizeDefault) (construct .succeeds 0) (fresh true) (.returns s) ∧
      (∃ T, Threads.play pageSizeDefault (.start s.1) failingOpen = some T ∧ ¬ T.Discipline) ∧
      (∃ T, Threads.play pageSizeDefault (.start s.1) strayClose = some T ∧ ¬ T.Discipline) := by
  have h : (run (Stmt.exec pageSizeDefault) 30 (construct .succeeds 0) (fresh true)).ended.map
      (fun s =>
      ((Threads.play pageSizeDefault (.start s.1) failingOpen).map Threads.observe,
        (Threads.play pageSizeDefault (.start s.1) strayClose).map Threads.observe)) =
      some (some (true, false, false), some (false, true, false)) := by decide +kernel
  obtain ⟨s, hs, h⟩ := Option.map_eq_some_iff.mp h
  obtain ⟨h1, h2⟩ := Prod.mk.inj h
  obtain ⟨T₁, hT₁, ho₁⟩ := Option.map_eq_some_iff.mp h1
  obtain ⟨T₂, hT₂, ho₂⟩ := Option.map_eq_some_iff.mp h2
  exact ⟨s, .of_runs (runs_of_ended hs), ⟨T₁, hT₁, Threads.not_discipline_of_observe ho₁⟩,
    ⟨T₂, hT₂, Threads.not_discipline_of_observe ho₂⟩⟩

end Revoq
