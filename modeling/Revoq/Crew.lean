import Revoq.Broadcast

/-! # Several threads and a warmer

Threads that share a `MultiWriterPolicy` writer, beside the warmer thread of that writer
and readers of other processes.

What the warmer keeps towards the writer (`Tandem.Inv`) is about one thread with its code
and its registers.  Under the lock it does not matter which thread that is: it holds of
the thread inside a write, as if it were alone, and between two writes of any thread.
-/
namespace Revoq
open ByteImage StmtMachine SharedLog

/-! ## The system -/

/-- Threads that share a writer, and its warmer. -/
structure Crew (n : Nat) where
  threads : Multi n
  warmer : WarmerThread

namespace Crew
variable {n : Nat}

/-- Who moves. -/
inductive Mover (n : Nat) where
  | thread (t : Fin n)
  | warmer
deriving DecidableEq

/-- The constructor has returned, and each thread is about to run its program. -/
def start (programs : Fin n → List Write) (S : Tandem) : Crew n :=
  ⟨.start programs S.world, S.thread⟩

/-- A thread as the writer beside the warmer. -/
def view (S : Crew n) (t : Fin n) : Tandem :=
  ⟨S.threads.code t, S.threads.world, S.threads.locals t, S.warmer⟩

/-- The state after a step; there is none if it cannot be made or fails. -/
def next (P : PageSize) (S : Crew n) : Mover n → Option (Crew n)
  | .thread t =>
      match S.threads.code t with
      | [] => none
      | i :: is =>
        match i.exec P (S.threads.world, S.threads.locals t) with
        | .next (w, l) push =>
            some { S with
              threads := ⟨w, Function.update S.threads.code t (push ++ is),
                Function.update S.threads.locals t l⟩ }
        | .throw _ | .fault _ => none
  | .warmer =>
      (warmerStep P S.threads.world S.warmer).map fun x => ⟨{ S.threads with world := x.1 }, x.2⟩

/-- No thread opens the file of a page that the warmer initialises. -/
def Timely (S : Crew n) : Mover n → Prop
  | .thread t => (S.view t).Timely .writer
  | .warmer => True

/-- Threads and warmer as a feed. -/
def feed (P : PageSize) : Feed (Crew n) where
  world := fun S => S.threads.world
  put := fun S d =>
      { S with threads := { S.threads with world := { S.threads.world with disk := d } } }
  next := fun S S' => ∃ m, S.Timely m ∧ S.next P m = some S'

end Crew

/-! ## Statements, threads and pages -/

section
variable {P : PageSize} {i : Stmt} {w w' : World} {l l' : Local} {push code : List Stmt}
  {b : Bool} {h : Hand}

/-- Only the swap of the pages changes the current one. -/
theorem Stmt.exec_currentPage (he : i.exec P (w, l) = .next (w', l') push) :
    w'.writer.currentPage = w.writer.currentPage ∨ i = .swapPage ∧
      w'.writer.currentPage = l.load.page := by
  cases i with
  | swapPage =>
    cases he
    exact .inr ⟨rfl, rfl⟩
  | scan env p => cases p <;> cases he <;> exact .inl rfl
  | scanLoad env p rest | seqLoad p rest =>
    cases rest <;> simp only [exec] at he <;> (repeat' split at he) <;> cases he <;> exact .inl rfl
  | hook h' =>
    cases h'.eventTime <;> simp only [exec] at he <;> (repeat' split at he) <;>
      cases he <;> exact .inl rfl
  | _ =>
    simp only [exec] at he
    (repeat' split at he) <;> cases he <;> exact .inl rfl

/-- The writer goes on to later pages only. -/
theorem Hand.Agrees.currentPage_mono (hc : handed b h (i :: code) = true)
    (hat : h.Agrees w.writer l) (he : i.exec P (w, l) = .next (w', l') push) :
    w.writer.currentPage ≤ w'.writer.currentPage := by
  rcases Stmt.exec_currentPage he with hp | ⟨rfl, hp⟩
  · exact Nat.le_of_eq hp.symm
  · cases h with
    | opened =>
      obtain ⟨-, hid, hpage⟩ := hat
      omega
    | rest | bumped => cases hc

theorem OnPages.mono {j j' : JournalWriter} (hpages : OnPages j l)
    (hle : j.currentPage ≤ j'.currentPage)
    (hopened : ∀ s, j'.openFrameHeader = some s → s.page ≤ j'.currentPage) : OnPages j' l :=
  ⟨Nat.le_trans hpages.header hle, Nat.le_trans hpages.reference hle, hopened⟩

/-- Writes under the lock begin and end on the current page. -/
theorem handed_locked (ws : List Write) : handed b .rest (ws.flatMap (Write.code true)) = true := by
  induction ws with
  | nil => rfl
  | cons x ws ih =>
    rw [List.flatMap_cons, Write.code_true, List.cons_append, List.append_assoc]
    show handed b .rest (x.code false ++ (.release :: ws.flatMap (Write.code true))) = true
    rw [handed_write]
    exact ih

end

/-- Code that does not take the lock, up to its release. -/
theorem Multi.inside_quiet {c rest : List Stmt} (hc : .acquire ∉ c) :
    Multi.inside (c ++ .release :: rest) = true := by
  induction c with
  | nil => rfl
  | cons i c ih =>
    have hrest := ih fun hm => hc (List.mem_cons_of_mem i hm)
    cases i with
    | acquire => exact absurd List.mem_cons_self hc
    | release => rfl
    | _ => exact hrest

namespace Multi
variable {n : Nat} {P : PageSize} {programs : Fin n → List Write} {S : Multi n}
  {hist : List (Fin n × Write)}
variable {rest : Fin n → List Write} {t : Fin n} {ws : List Write} {w : Write} {c : List Stmt}
  {x : World} {l : Local}

theorem Waiting.world (h : Waiting S t ws) (x : World) : Waiting { S with world := x } t ws :=
  ⟨h.code, h.closed, h.thread⟩

/-- What others do between two writes. -/
theorem Free.stable (h : Free P programs hist rest S) (hl : l.load.opened = false)
    (hs : Stable P (ctxOf P .empty) (S.world, l) (x, l)) :
    Free P programs hist rest { S with world := x } := by
  obtain ⟨l', hidle⟩ := h.idle
  refine ⟨h.programs, ?_, ⟨l, (hidle.switch hl).stable hs⟩, fun t => (h.waiting t).world x⟩
  exact (congrArg JournalWriter.writing hs.writer).trans h.unlocked

/-- What others do during a write. -/
theorem Held.stable (h : Held P programs hist rest t w c S)
    (hs : Stable P (ctxOf P .empty) (S.world, S.locals t) (x, S.locals t)) :
    Held P programs hist rest t w c { S with world := x } := by
  refine ⟨h.programs, ?_, fun u hu => (h.waiting u hu).world x, h.code, h.quiet,
    h.safe.rely Stable.trans hs⟩
  exact (congrArg JournalWriter.writing hs.writer).trans h.locked

end Multi

namespace Tandem
variable {P : PageSize} {S : Tandem} {l : Local} {code : List Stmt}

/-- Between two writes another thread may be the writer. -/
theorem Inv.switch (h : Inv P S) (hrest : Hand.rest.Agrees S.world.writer S.locals)
    (hcode : handed S.world.warmer.isSome .rest code = true) (hl : l.load.opened = false)
    (hpages : OnPages S.world.writer l) : Inv P ⟨code, S.world, l, S.thread⟩ := by
  have hfront : front ⟨code, S.world, l, S.thread⟩ = S.front :=
    (frontier_of_closed hl).trans (frontier_of_closed hrest.1).symm
  refine ⟨⟨.rest, hcode, hl, hrest.2⟩, hpages, ?_, ?_, h.waits, h.offers, ?_⟩ <;> rw [hfront]
  · exact h.files
  · exact h.above
  · exact h.knows

end Tandem

/-! ## The invariant -/

namespace Crew
variable {n : Nat} {P : PageSize} {programs : Fin n → List Write} {S S' : Crew n} {t u : Fin n}

/-- **Where threads and warmer stand.** -/
structure Stands (P : PageSize) (programs : Fin n → List Write) (S : Crew n) : Prop where
  serial : Multi.Serial P programs S.threads
  pages : ∀ t, OnPages S.threads.world.writer (S.threads.locals t)
  /-- Between two writes. -/
  free : S.threads.world.writer.writing = false → Tandem.Inv P ⟨[], S.threads.world, {}, S.warmer⟩
  /-- Inside a write. -/
  held : ∀ t, Multi.inside (S.threads.code t) = true → Tandem.Inv P (S.view t)

/-- A statement of a thread, seen from the threads and seen from the thread. -/
theorem next_thread (he : S.next P (.thread t) = some S') :
    Multi.Step P t S.threads S'.threads ∧ S'.warmer = S.warmer ∧
      (S.view t).next P .writer = some (S'.view t) ∧
      ∃ i is w l push, S.threads.code t = i :: is ∧ i.exec P (S.threads.world, S.threads.locals t) =
        .next (w, l) push ∧
        S'.threads.world = w := by
  simp only [next] at he
  split at he
  · cases he
  · rename_i i is hcode
    split at he <;> cases he
    rename_i w l push hexec
    refine ⟨.step hcode hexec, rfl, ?_, i, is, w, l, push, hcode, hexec, rfl⟩
    simp only [view, Tandem.next, hcode, hexec, Function.update_self]

/-- The other threads stay where they are. -/
theorem next_other (he : S.next P (.thread t) = some S') (hu : u ≠ t) :
    S'.threads.code u = S.threads.code u ∧ S'.threads.locals u = S.threads.locals u := by
  simp only [next] at he
  split at he
  · cases he
  · split at he <;> cases he
    exact ⟨Function.update_of_ne hu .., Function.update_of_ne hu ..⟩

/-- What a thread does that waits for another one's lock. -/
theorem spin {hist : List (Fin n × Write)} {rest : Fin n → List Write} {w : Write} {c : List Stmt}
    (h : Multi.Held P programs hist rest u w c S.threads) (hne : t ≠ u)
    (he : S.next P (.thread t) = some S') :
    S' = S := by
  obtain ⟨hstep, hwarmer, -⟩ := next_thread he
  have hthreads := (h.waiting t hne).spin h.locked hstep
  obtain ⟨threads, warmer⟩ := S
  obtain ⟨threads', warmer'⟩ := S'
  exact congrArg₂ Crew.mk hthreads hwarmer

/-- Between two calls the writer's page is the current one. -/
theorem agrees_of_idle {C : Ctx} {tail : Slot} {log : List Entry} {w : World} {l l' : Local}
    (h : Idle P C tail log (w, l)) (hl : l'.load.opened = false) : Hand.rest.Agrees w.writer l' :=
  ⟨hl, h.cursor.pageId.trans h.cursor.page.symm⟩

/-- The thread that is about to execute a statement, unless it waits for the lock. -/
theorem Stands.view (h : Stands P programs S) (he : S.next P (.thread t) = some S') :
    Tandem.Inv P (S.view t) ∨ S' = S := by
  cases h.serial with
  | free hist rest hfree =>
    obtain ⟨l, hidle⟩ := hfree.idle
    have hwait := hfree.waiting t
    left
    refine (h.free hfree.unlocked).switch (agrees_of_idle hidle rfl) ?_ hwait.closed (h.pages t)
    rw [hwait.code]
    exact handed_locked _
  | held hist rest u w c hheld =>
    by_cases htu : t = u
    · subst htu
      left
      refine h.held t ?_
      rw [hheld.code]
      exact Multi.inside_quiet hheld.quiet.1
    · exact .inr (spin hheld htu he)

/-- Only one thread is inside a write. -/
theorem Stands.inside_unique (h : Stands P programs S) (ht : Multi.inside (S.threads.code t) = true)
    (hu : Multi.inside (S.threads.code u) = true) : t = u := by
  obtain ⟨hist, rest, w, c, hheld⟩ := h.serial.inside_iff ht
  by_contra hne
  rw [(hheld.waiting u (Ne.symm hne)).code, not_inside_writes] at hu
  cases hu

/-- While a thread is inside a write, the statements of the others change nothing. -/
theorem Stands.undisturbed (h : Stands P programs S)
    (he : S.next P (.thread t) = some S') (hne : u ≠ t)
    (hu : Multi.inside (S.threads.code u) = true) : S' = S := by
  obtain ⟨hist, rest, w, c, hheld⟩ := h.serial.inside_iff hu
  exact spin hheld (Ne.symm hne) he

/-- **A statement of a thread.** -/
theorem Stands.thread (hok : ∀ t, ∀ w ∈ programs t, w.Ok P) (h : Stands P programs S)
    (ht : S.Timely (.thread t)) (he : S.next P (.thread t) = some S') : Stands P programs S' := by
  obtain ⟨hstep, hwarmer, hnext, i, is, w, l, push, hcode, hexec, hw⟩ := next_thread he
  have hserial := h.serial.step hok hstep
  rcases h.view he with hv | rfl
  · have hv' := hv.writer ht hnext
    refine ⟨hserial, fun u => ?_, fun hfree => ?_, fun u hu => ?_⟩
    · by_cases hut : u = t
      · subst hut
        exact hv'.pages
      · rw [(next_other he hut).2]
        refine (h.pages u).mono ?_ hv'.pages.opened
        obtain ⟨x, hx, hat⟩ := hv.hand
        rw [show (S.view t).code = i :: is from hcode] at hx
        rw [hw]
        exact hat.currentPage_mono hx hexec
    · cases hserial with
      | free hist rest hfree' =>
        obtain ⟨l', hidle⟩ := hfree'.idle
        refine hv'.switch (agrees_of_idle hidle (hfree'.waiting t).closed) rfl rfl ?_
        exact ⟨Nat.zero_le _, Nat.zero_le _, hv'.pages.opened⟩
      | held hist rest u w c hheld =>
        rw [hheld.locked] at hfree
        cases hfree
    · by_cases hut : u = t
      · subst hut
        exact hv'
      · rw [(next_other he hut).1] at hu
        cases h.undisturbed he hut hu
        exact h.held u hu
  · exact h

/-- **A step of the warmer.** -/
theorem Stands.warmer (h : Stands P programs S) (he : S.next P .warmer = some S') :
    Stands P programs S' ∧ S'.threads.world.log = S.threads.world.log := by
  obtain ⟨⟨w, x⟩, hx, rfl⟩ := Option.map_eq_some_iff.mp he
  have hstep : ∀ (c : List Stmt) (l : Local), Tandem.Inv P ⟨c, S.threads.world, l, S.warmer⟩ →
      Tandem.Inv P ⟨c, w, l, x⟩ ∧ Stable P (ctxOf P .empty) (S.threads.world, l) (w, l) := by
    intro c l hinv
    refine hinv.warmer ?_
    show (warmerStep P S.threads.world S.warmer).map _ = _
    rw [hx]
    rfl
  cases h.serial with
  | free hist rest hfree =>
    obtain ⟨hinv, hstable⟩ := hstep [] {} (h.free hfree.unlocked)
    refine ⟨⟨.free hist rest (hfree.stable rfl hstable), fun t => ?_, fun _ => hinv,
      fun t ht => ?_⟩, hstable.log⟩
    · exact (congrArg (OnPages · _) hstable.writer).mpr (h.pages t)
    · rw [show Multi.inside (S.threads.code t) =
        false by rw [(hfree.waiting t).code, not_inside_writes]] at ht
      cases ht
  | held hist rest t x' c hheld =>
    have ht : Multi.inside (S.threads.code t) = true := by
      rw [hheld.code]
      exact Multi.inside_quiet hheld.quiet.1
    obtain ⟨hinv, hstable⟩ := hstep _ _ (h.held t ht)
    have hheld' := hheld.stable hstable
    refine ⟨⟨.held hist rest t x' c hheld', fun u => ?_, fun hfree => ?_, fun u hu => ?_⟩,
      hstable.log⟩
    · exact (congrArg (OnPages · _) hstable.writer).mpr (h.pages u)
    · cases hheld'.locked.symm.trans hfree
    · cases h.inside_unique ht hu
      exact hinv

/-- A thread that has statements left can go on. -/
theorem Stands.progress (h : Stands P programs S) (hcode : S.threads.code t ≠ []) :
    (S.next P (.thread t)).isSome := by
  cases hS : S.threads.code t with
  | nil => exact absurd hS hcode
  | cons i is =>
    obtain ⟨⟨w, l⟩, push, hexec⟩ := h.serial.progress hS
    simp only [next, hS, hexec]
    rfl

/-- The threads alone move, while the warmer initialises nothing. -/
theorem feed_threads (hplace : ∀ p, ¬ S.warmer.place.Initialises p) {T : Multi n}
    (h : Multi.Reaches P S.threads T) :
    Relation.ReflTransGen (feed P).next S ⟨T, S.warmer⟩ := by
  induction h with
  | refl => exact .refl
  | tail _ hs ih =>
    obtain ⟨t, hs⟩ := hs
    refine ih.tail ⟨.thread t, fun _ => hplace _, ?_⟩
    cases hs with
    | step hcode hexec => simp only [next, hcode, hexec]

/-- **The journal of threads and warmer can be followed and grows.** -/
theorem feed_grows (hok : ∀ t, ∀ w ∈ programs t, w.Ok P) (htime : ∀ t, ∀ w ∈ programs t, w.Timely) :
    (feed (n := n) P).Grows P (Stands P programs) := by
  refine ⟨fun _ => rfl, fun S S' h hnext => ?_, fun S h => h.serial.followable htime⟩
  obtain ⟨m, ht, he⟩ := hnext
  cases m with
  | thread t =>
    refine ⟨h.thread hok ht he, ?_⟩
    obtain ⟨-, -, -, i, is, w, l, push, -, hexec, hw⟩ := next_thread he
    show S.threads.world.log <+: S'.threads.world.log
    rw [hw]
    exact Stmt.exec_log hexec
  | warmer =>
    obtain ⟨h', hlog⟩ := h.warmer he
    exact ⟨h', hlog ▸ List.prefix_refl _⟩

end Crew

/-! ## From the constructor to the threads -/

/-- A session without the lock never touches it. -/
theorem Job.Reaches.unlocked {P : PageSize} {d : Disk} {j : Job} {c : List Stmt × (World × Local)}
    (h : j.Reaches P d c) : c.2.1.writer.writing = false ∧ .acquire ∉ c.1 ∧ .release ∉ c.1 := by
  unfold Job.Reaches at h
  induction h with
  | refl =>
    have hwrites : ∀ i ∈ j.writes.flatMap (Write.code false), i ≠ .acquire ∧ i ≠ .release := by
      intro i hi
      obtain ⟨w, -, hw⟩ := List.mem_flatMap.mp hi
      exact ⟨fun he => (lock_notMem_code w).1 (he ▸ hw), fun he => (lock_notMem_code w).2 (he ▸ hw)⟩
    have hcode : ∀ i ∈ j.code, i ≠ .acquire ∧ i ≠ .release := by
      intro i hi
      rcases List.mem_append.mp hi with hi | hi
      · unfold construct loadInitialPage at hi
        constructor <;> rintro rfl <;> split at hi <;> simp at hi
      · exact hwrites i hi
    exact ⟨rfl, fun hm => (hcode _ hm).1 rfl, fun hm => (hcode _ hm).2 rfl⟩
  | tail _ hs ih =>
    cases hs with
    | own hs =>
      obtain ⟨hw, ha, hr⟩ := runs_lock (.single hs) ih.2.1 ih.2.2
      exact ⟨hw.trans ih.1, ha, hr⟩
    | warm _ hs => exact ⟨(congrArg JournalWriter.writing hs.writer).trans ih.1, ih.2⟩

/-- **The constructor has returned, whatever the warmer has done meanwhile.** -/
theorem Tandem.Follows.stands {P : PageSize} {j : Job} {S : Tandem} {n : Nat}
    (programs : Fin n → List Write) (h : Tandem.Follows P j S) (hj : j.Ok P)
    (hwrites : j.writes = []) (hcode : S.code = []) :
    Crew.Stands P programs (.start programs S) ∧ S.world.log = [] := by
  have hat := h.reaches.at (mapped_empty P) hj
  have hunlocked := h.reaches.unlocked.1
  rw [hcode] at hat
  obtain ⟨thread, tail, hlog, hidle⟩ := hat.ended
  have hempty : S.world.log = [] := by
    refine (show S.world.log = _ from hlog).trans ?_
    rw [Job.plan, hwrites]
    rfl
  rw [show (S.world, S.locals).1.log = [] from hempty] at hidle
  have htail : (⟨1, pageHeaderSize⟩ : Slot) = tail := hidle.state.live.chain
  have hinv : Tandem.Inv P S := by
    rcases h.inv with rfl | hinv
    · rw [Tandem.start, Job.code_eq] at hcode
      exact absurd (List.append_eq_nil_iff.mp hcode).1 (by simp [construct])
    · exact hinv
  refine ⟨⟨Multi.serial_start (htail ▸ hidle) hunlocked, fun t => ?_, fun _ => ?_, fun t ht => ?_⟩,
    hempty⟩
  · exact ⟨Nat.zero_le _, Nat.zero_le _, hinv.pages.opened⟩
  · exact hinv.switch (Crew.agrees_of_idle hidle hidle.closed) rfl rfl
      ⟨Nat.zero_le _, Nat.zero_le _, hinv.pages.opened⟩
  · rw [show Multi.inside ((Crew.start programs S).threads.code t) =
      false from not_inside_writes _] at ht
    cases ht

/-- **Readers beside several threads and a warmer.**  Whatever the interleaving, the threads
make one journal of their writes, in which each thread's frames stand in its program's
order, and the readers share that journal as one log. -/
theorem broadcast_beside_crew (P : PageSize) (writerPrefault : Bool) (warmupPages : Nat)
    (hwarm : warmupPages ≤ ringSize) {n : Nat} (programs : Fin n → List Write)
    (hok : ∀ t, ∀ w ∈ programs t, w.Ok P) (htime : ∀ t, ∀ w ∈ programs t, w.Timely)
    (ms : List Mover) (S₀ : Tandem)
    (h₀ : (Tandem.start ⟨writerPrefault, warmupPages, []⟩).play P ms = some S₀)
    (ht₀ : (Tandem.start ⟨writerPrefault, warmupPages, []⟩).TimelyRun P ms) (hctor : S₀.code = [])
    {ι : Type} [DecidableEq ι] (prefault : ι → Bool) (es : List (SharedLog.Event ι Frame))
    (A : Audience (Crew n) ι)
    (h : Observed.Trace (Audience.Step (Crew.feed P) P prefault)
    (Audience.start (.start programs S₀)) es A) :
    Broadcast (Crew.feed P) P prefault [] es A ∧ Multi.Serialised P programs A.feed.threads ∧
      (∀ t, A.feed.threads.code t ≠ [] → (A.feed.next P (.thread t)).isSome) ∧
      (∀ t u S', Multi.inside (A.feed.threads.code t) = true → u ≠ t →
        A.feed.next P (.thread u) = some S' →
        S' = A.feed) ∧
      ∀ t, dataOf (A.feed.threads.world.log.filter fun e => e.thread = t.val) <+:
        (programs t).map fun w => w.request.frame 0 := by
  have hj : Job.Ok P ⟨writerPrefault, warmupPages, []⟩ := ⟨hwarm, fun w hw => by cases hw⟩
  obtain ⟨hstands, hlog⟩ :=
    Tandem.Follows.stands programs ((Tandem.follows_start P _).play h₀ ht₀).1 hj rfl hctor
  obtain ⟨hlast, hbroadcast⟩ := Audience.broadcast (Crew.feed_grows hok htime) hstands h
  refine ⟨?_, hlast.serial.serialised hok, fun t => hlast.progress, fun t u S' ht hne he => ?_,
    hlast.serial.thread_prefix hok⟩
  · have hempty : ((Crew.feed P).world (Crew.start programs S₀)).log.map Entry.frame = [] := by
      show S₀.world.log.map Entry.frame = []
      rw [hlog]
      rfl
    rw [← hempty]
    exact hbroadcast
  · exact hlast.undisturbed he (Ne.symm hne) ht

/-- A reader joins before either of two threads has started, with the warmer on, and takes
what both write. -/
theorem broadcast_beside_crew_two :
    ∃ k S₀ es A, (Tandem.start ⟨true, 1, []⟩).play pageSizeDefault
        (List.replicate k .writer) = some S₀ ∧
      Observed.Trace
        (Audience.Step (Crew.feed pageSizeDefault) pageSizeDefault fun _ : Fin 2 => false)
        (Audience.start (.start ![[.mark 5 1 7], [.bytes 5 3 9 [4]]] S₀)) es A ∧
      takes 1 es = A.feed.threads.world.log.map Entry.frame ∧
      [(7, []), (9, [4])] ⊆
        (dataOf A.feed.threads.world.log).map (fun f => (f.msgType, f.payload)) ∧
      Broadcast (Crew.feed pageSizeDefault) pageSizeDefault (fun _ : Fin 2 => false) [] es A := by
  let programs : Fin 2 → List Write := ![[.mark 5 1 7], [.bytes 5 3 9 [4]]]
  have hok : ∀ t, ∀ w ∈ programs t, w.Ok pageSizeDefault := by decide
  let j : Job := ⟨true, 1, []⟩
  have hj : j.Ok pageSizeDefault := by decide
  obtain ⟨k, S₀, h₀, hctor, hthread⟩ := Tandem.constructed hj
  have ht₀ := Tandem.timelyRun_writer (P := pageSizeDefault) (S := Tandem.start j) (fun _ => id) k
  have hstands := (Tandem.Follows.stands programs
    ((Tandem.follows_start pageSizeDefault j).play h₀ ht₀).1 hj rfl hctor).1
  -- both threads write to the end, and the reader takes what they have written
  obtain ⟨T, hT, hdone⟩ := hstands.serial.finishes hok
  have hmoves := Crew.feed_threads (S := Crew.start programs S₀)
    (by rw [Crew.start, hthread]; exact fun _ => id) hT
  obtain ⟨es, A, htrace, hlog, htakes⟩ :=
    Audience.follows_along (Crew.feed_grows hok (by decide)) hstands hmoves (1 : Fin 2)
  have hlog : A.feed.threads.world.log.map Entry.frame = T.world.log.map Entry.frame := hlog
  have hwritten := fun t => (((hstands.serial.reaches hok hT).written hok hdone t).map
    fun f => (f.msgType, f.payload)).subset
  refine ⟨k, S₀, es, A, h₀, htrace, htakes, ?_, (broadcast_beside_crew pageSizeDefault true 1
    (by decide) programs hok (by decide) _ S₀ h₀ ht₀ hctor (fun _ : Fin 2 => false) es A htrace).1⟩
  rw [dataOf_congr hlog]
  exact List.cons_subset.mpr ⟨hwritten 0 (by decide),
    List.cons_subset.mpr ⟨hwritten 1 (by decide), List.nil_subset _⟩⟩

end Revoq
