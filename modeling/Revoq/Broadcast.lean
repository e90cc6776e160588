import Revoq.Audience
import Revoq.MultiWriter
import Revoq.WarmupTransparency

/-! # Broadcasting

Any number of readers beside a writer with its warmer thread, and beside several
threads that share one writer.
-/
namespace Revoq
open ByteImage StmtMachine SharedLog

/-! ## A writer and its warmer -/

namespace Tandem
variable {P : PageSize} {j : Job} {S S' : Tandem}

/-- The writer and the warmer as a feed. -/
def feed (P : PageSize) : Feed Tandem where
  world := fun S => S.world
  put := fun S d => { S with world := { S.world with disk := d } }
  next := fun S S' => ∃ m, S.Timely m ∧ S.next P m = some S'

/-- The constructor has returned, and the writes are under way. -/
structure Working (P : PageSize) (j : Job) (S : Tandem) : Prop where
  follows : Follows P j S
  safe : ∃ thread, Safe P (ctxOf P .empty) (j.plan P .empty thread) (fun s => ∃ tail,
    Idle P (ctxOf P .empty) tail (j.plan P .empty thread) s) S.code (S.world, S.locals)

theorem Working.step (h : Working P j S) {m : Mover} (ht : S.Timely m) (he : S.next P m = some S') :
    Working P j S' := by
  refine ⟨(h.follows.step ht he).1, ?_⟩
  obtain ⟨thread, hsafe⟩ := h.safe
  refine ⟨thread, ?_⟩
  cases m with
  | writer => exact hsafe.step Stable.refl (next_writer he)
  | warmer =>
    obtain ⟨hsome, hcode⟩ := next_warmer he
    rcases h.follows.inv with rfl | hinv
    · cases hsome
    · rw [hcode]
      exact hsafe.rely Stable.trans (hinv.warmer he).2

theorem Working.followable (h : Working P j S) (htime : ∀ w ∈ j.writes, w.Timely) :
    Followable P S.world := by
  obtain ⟨thread, hsafe⟩ := h.safe
  obtain ⟨hpre, tail, hlive⟩ := hsafe.inv (.refl _)
  exact hlive.followable fun e he => journal_times (p := (0 ≤ ·)) htime e (hpre.subset he)

theorem feed_grows (htime : ∀ w ∈ j.writes, w.Timely) : (feed P).Grows P (Working P j) := by
  refine ⟨fun _ => rfl, fun S S' h hnext => ?_, fun S h => h.followable htime⟩
  obtain ⟨m, ht, he⟩ := hnext
  exact ⟨h.step ht he, (h.follows.step ht he).2⟩

/-- A timely run is one of the feed. -/
theorem feed_play {ms : List Mover} (h : S.play P ms = some S') (ht : S.TimelyRun P ms) :
    Relation.ReflTransGen (feed P).next S S' := by
  induction ms generalizing S with
  | nil =>
    cases h
    exact .refl
  | cons m ms ih =>
    rw [play_cons, Option.bind_eq_some_iff] at h
    obtain ⟨S₁, hnext, hrest⟩ := h
    exact .head ⟨m, ht.1, hnext⟩ (ih hrest (ht.2 S₁ hnext))

/-- A writer that is left alone makes all its writes. -/
theorem Working.finishes (h : Working P j S) (hj : j.Ok P)
    (hplace : ∀ p, ¬ S.thread.place.Initialises p) :
    ∃ S', Relation.ReflTransGen (feed P).next S S' ∧
      dataOf S'.world.log = j.writes.map fun w => w.request.frame 0 := by
  obtain ⟨thread, hsafe⟩ := h.safe
  obtain ⟨s', hruns, tail, hidle⟩ := hsafe.terminates Stable.refl
  obtain ⟨n, hplay⟩ := play_writer hruns
  refine ⟨_, feed_play hplay (timelyRun_writer hplace n), ?_⟩
  have hlog : s'.1.log = j.plan P .empty thread := hidle.state.log
  show dataOf s'.1.log = _
  rw [hlog]
  exact dataOf_journal hj.writes

/-- All that is left of the code is the writes. -/
theorem Follows.working (h : Follows P j S) (hj : j.Ok P)
    (hctor : S.code = j.writes.flatMap (Write.code false)) : Working P j S := by
  refine ⟨h, ?_⟩
  have hat := h.reaches.at (mapped_empty P) hj
  generalize hcode : S.code = code at hat
  generalize hs : (S.world, S.locals) = s at hat
  cases hat with
  | @constructing i is s hat =>
    have hlen : (i :: is).length + j.work.length =
        (j.writes.flatMap (Write.code false)).length := by
      rw [← List.length_append]
      exact congrArg List.length (hcode.symm.trans hctor)
    have hwork : (j.writes.flatMap (Write.code false)).length ≤ j.work.length := by
      rw [Job.work, List.length_append]
      exact Nat.le_add_left ..
    rw [List.length_cons] at hlen
    omega
  | @working thread code s hsafe => exact ⟨thread, hsafe⟩

end Tandem

/-- **Readers beside a writer and its warmer.**  Whatever the interleaving, the readers
cannot tell the page files from a log they share, and that log is what was written. -/
theorem broadcast_beside_warmer (P : PageSize) (j : Job) (hj : j.Ok P)
    (htime : ∀ w ∈ j.writes, w.Timely) (ms : List Mover) (S₀ : Tandem)
    (h₀ : (Tandem.start j).play P ms = some S₀) (ht₀ : (Tandem.start j).TimelyRun P ms)
    (hctor : S₀.code = j.writes.flatMap (Write.code false)) {ι : Type} [DecidableEq ι]
    (prefault : ι → Bool) (es : List (SharedLog.Event ι Frame)) (A : Audience Tandem ι)
    (h : Observed.Trace (Audience.Step (Tandem.feed P) P prefault) (Audience.start S₀) es A) :
    Broadcast (Tandem.feed P) P prefault (S₀.world.log.map Entry.frame) es A ∧
      dataOf A.feed.world.log <+: j.writes.map fun w => w.request.frame 0 := by
  have hwork := ((Tandem.follows_start P j).play h₀ ht₀).1.working hj hctor
  obtain ⟨hlast, hbroadcast⟩ := Audience.broadcast (Tandem.feed_grows htime) hwork h
  refine ⟨hbroadcast, ?_⟩
  obtain ⟨thread, hsafe⟩ := hlast.safe
  rw [← dataOf_journal hj.writes]
  exact dataOf_prefix (hsafe.inv (.refl _)).1

/-- Left alone, the constructor returns. -/
theorem Tandem.constructed {P : PageSize} {j : Job} (hj : j.Ok P) :
    ∃ k S, (start j).play P (List.replicate k .writer) = some S ∧
      S.code = j.writes.flatMap (Write.code false) ∧ S.thread = (start j).thread := by
  obtain ⟨s, hrun, -⟩ := construct_returns P j.prefault
  have hctor : Runs (Stmt.exec P) (j.code, j.start .empty) (j.work, s) := by
    rw [Job.code_eq]
    exact hrun.append j.work
  have hruns : ∃ s', Runs (Stmt.exec P) (j.code, j.start .empty)
      (j.writes.flatMap (Write.code false), s') := by
    unfold Job.work at hctor
    split at hctor
    · exact ⟨s, hctor⟩
    · have hstarted := hctor.tail (.next (if_neg (Nat.not_lt.mpr hj.warmup)))
      have hupdates : ∀ s : World × Local, ∃ s', StmtMachine.Step (Stmt.exec P)
          (.updateCurrentPage :: j.writes.flatMap (Write.code false), s)
          ([] ++ j.writes.flatMap (Write.code false), s') := fun _ => ⟨_, .next rfl⟩
      obtain ⟨s', hs'⟩ := hupdates _
      exact ⟨s', hstarted.tail hs'⟩
  obtain ⟨s', hruns⟩ := hruns
  obtain ⟨k, hk⟩ := play_writer (S := start j) hruns
  exact ⟨k, _, hk, rfl, rfl⟩

/-- One of two readers joins before two writes are made, and takes both when they are. -/
theorem broadcast_beside_warmer_two :
    ∃ k S₀ es A, (Tandem.start ⟨true, 1, [.mark 5 1 7, .bytes 5 3 9 [4]]⟩).play pageSizeDefault
        (List.replicate k .writer) = some S₀ ∧
      Observed.Trace
        (Audience.Step (Tandem.feed pageSizeDefault) pageSizeDefault fun _ : Fin 2 => false)
        (Audience.start S₀) es A ∧
      takes 0 es = A.feed.world.log.map Entry.frame ∧
      ((dataOf A.feed.world.log).map fun f => (f.msgType, f.payload)) = [(7, []), (9, [4])] ∧
      Broadcast (Tandem.feed pageSizeDefault) pageSizeDefault (fun _ : Fin 2 => false)
        (S₀.world.log.map Entry.frame) es A := by
  let j : Job := ⟨true, 1, [.mark 5 1 7, .bytes 5 3 9 [4]]⟩
  have hj : j.Ok pageSizeDefault := by decide
  obtain ⟨k, S₀, h₀, hctor, hthread⟩ := Tandem.constructed hj
  have ht₀ := Tandem.timelyRun_writer (P := pageSizeDefault) (S := Tandem.start j) (fun _ => id) k
  have hwork := ((Tandem.follows_start pageSizeDefault j).play h₀ ht₀).1.working hj hctor
  have all := fun es A h => broadcast_beside_warmer pageSizeDefault j hj (by decide) _ S₀ h₀ ht₀
    hctor (fun _ : Fin 2 => false) es A h
  obtain ⟨S', hwrites, hdata⟩ := hwork.finishes hj (by rw [hthread]; exact fun _ => id)
  obtain ⟨es, A, htrace, hlog, htakes⟩ :=
    Audience.follows_along (Tandem.feed_grows (by decide)) hwork hwrites (0 : Fin 2)
  refine ⟨k, S₀, es, A, h₀, htrace, htakes, ?_, (all es A htrace).1⟩
  have hlog : A.feed.world.log.map Entry.frame = S'.world.log.map Entry.frame := hlog
  rw [dataOf_congr hlog, hdata]
  rfl

/-! ## Several threads -/

namespace Multi
variable {n : Nat} {P : PageSize} {programs : Fin n → List Write} {S S' : Multi n}

/-- The threads as a feed. -/
def feed (P : PageSize) : Feed (Multi n) where
  world := fun S => S.world
  put := fun S d => { S with world := { S.world with disk := d } }
  next := fun S S' => ∃ t, Step P t S S'

/-- What is committed belongs to writes that got the lock. -/
theorem Serial.live (h : Serial P programs S) :
    ∃ (hist : List (Fin n × Write)) (rest : Fin n → List Write)
    (tail : Slot), S.world.log <+: logOf P hist ∧
    Live P (ctxOf P .empty) S.world.disk S.world.log tail ∧
    ∀ t, programs t = (hist.filter fun x => x.1 = t).map Prod.snd ++ rest t := by
  cases h with
  | free hist rest h =>
    obtain ⟨l, hi⟩ := h.idle
    have hlog : S.world.log = logOf P hist := hi.state.log
    refine ⟨hist, rest, endOf ⟨1, pageHeaderSize⟩ (logOf P hist),
      hlog ▸ List.prefix_refl _, ?_, h.programs⟩
    rw [hlog]
    exact hi.state.live
  | held hist rest t w c h =>
    obtain ⟨hpre, tail, hlive⟩ := h.safe.inv (.refl _)
    exact ⟨_, rest, tail, hpre, hlive, h.programs⟩

/-- A write of the history is one of a program. -/
theorem mem_programs {hist : List (Fin n × Write)} {rest : Fin n → List Write}
    (hprog : ∀ t, programs t = (hist.filter fun x => x.1 = t).map Prod.snd ++ rest t)
    {x : Fin n × Write} (hx : x ∈ hist) : x.2 ∈ programs x.1 := by
  rw [hprog x.1]
  exact List.mem_append_left _ (List.mem_map.mpr ⟨x, List.mem_filter.mpr ⟨hx, by simp⟩, rfl⟩)

theorem Serial.followable (h : Serial P programs S) (htime : ∀ t, ∀ w ∈ programs t, w.Timely) :
    Followable P S.world := by
  obtain ⟨hist, rest, tail, hpre, hlive, hprog⟩ := h.live
  refine hlive.followable fun e he => ?_
  have hmap : logOf P hist = layOut P ⟨1, pageHeaderSize⟩ 0
      ((hist.map fun x => (x.1.val, x.2)).map fun r => (r.1, r.2.request)) := by
    rw [logOf, List.map_map]
    rfl
  refine layOut_times (p := (0 ≤ ·)) ?_ e (hmap ▸ hpre.subset he)
  intro r hr
  obtain ⟨x, hx, rfl⟩ := List.mem_map.mp hr
  exact htime x.1 x.2 (mem_programs hprog hx)

theorem feed_grows (hok : ∀ t, ∀ w ∈ programs t, w.Ok P) (htime : ∀ t, ∀ w ∈ programs t, w.Timely) :
    (feed (n := n) P).Grows P (Serial P programs) := by
  refine ⟨fun _ => rfl, fun S S' h hnext => ?_, fun S h => h.followable htime⟩
  obtain ⟨t, hs⟩ := hnext
  refine ⟨h.step hok hs, ?_⟩
  cases hs with
  | step _ hexec => exact Stmt.exec_log hexec

/-- At any moment a thread's frames are the first of its program. -/
theorem Serial.thread_prefix (hok : ∀ t, ∀ w ∈ programs t, w.Ok P)
    (h : Serial P programs S) (t : Fin n) :
    dataOf (S.world.log.filter fun e => e.thread = t.val) <+: (programs t).map fun w =>
        w.request.frame 0 := by
  obtain ⟨hist, rest, tail, hpre, -, hprog⟩ := h.live
  have hall : dataOf ((logOf P hist).filter fun e => e.thread = t.val) =
      ((hist.filter fun x => x.1 = t).map Prod.snd).map fun w => w.request.frame 0 := by
    rw [logOf, dataOf_thread_layOut]
    · rw [List.filter_map, List.map_map, List.map_map]
      simp only [Function.comp_def, Fin.val_inj]
    · intro r hr
      obtain ⟨x, hx, rfl⟩ := List.mem_map.mp hr
      exact (hok x.1 x.2 (mem_programs hprog hx)).isData
  refine List.IsPrefix.trans ( dataOf_prefix (hpre.filter _)) ?_
  rw [hall, hprog t, List.map_append]
  exact List.prefix_append ..

end Multi

/-- **Readers beside several threads.**  The readers share one log with all threads,
whatever the interleaving of the threads' statements and the readers' calls, and in it
each thread's frames stand in its program's order. -/
theorem broadcast_beside_threads (P : PageSize) (writerPrefault : Bool) {n : Nat}
    (programs : Fin n → List Write) (hok : ∀ t, ∀ w ∈ programs t, w.Ok P)
    (htime : ∀ t, ∀ w ∈ programs t, w.Timely) (s₀ : World × Local)
    (h₀ : Runs (Stmt.exec P) (construct .succeeds 0, fresh writerPrefault) ([], s₀))
    {ι : Type} [DecidableEq ι] (prefault : ι → Bool) (es : List (SharedLog.Event ι Frame))
    (A : Audience (Multi n) ι)
    (h : Observed.Trace (Audience.Step (Multi.feed P) P prefault)
    (Audience.start (.start programs s₀.1)) es A) :
    Broadcast (Multi.feed P) P prefault [] es A ∧
      ∀ t, dataOf (A.feed.world.log.filter fun e => e.thread = t.val) <+:
        (programs t).map fun w => w.request.frame 0 := by
  obtain ⟨s, hs, hi⟩ := construct_returns P writerPrefault
  cases Runs.final_unique h₀ hs
  have hw :=
    (runs_lock hs (by simp [construct, loadInitialPage]) (by simp [construct, loadInitialPage])).1
  have hlog : s₀.1.log = [] := hi.state.log
  obtain ⟨hlast, hbroadcast⟩ := Audience.broadcast (Multi.feed_grows hok htime)
    (show Multi.Serial P programs _ from Multi.serial_start hi hw) h
  refine ⟨?_, hlast.thread_prefix hok⟩
  have hempty : ((Multi.feed P).world (Multi.start programs s₀.1)).log.map Entry.frame = [] := by
    show s₀.1.log.map Entry.frame = []
    rw [hlog]
    rfl
  rw [← hempty]
  exact hbroadcast

/-- A reader joins before either of two threads has started, and takes what both write. -/
theorem broadcast_beside_threads_two :
    ∃ s₀ es A, Runs (Stmt.exec pageSizeDefault) (construct .succeeds 0, fresh true) ([], s₀) ∧
      Observed.Trace
        (Audience.Step (Multi.feed pageSizeDefault) pageSizeDefault fun _ : Fin 2 => false)
        (Audience.start (.start ![[.mark 5 1 7], [.bytes 5 3 9 [4]]] s₀.1)) es A ∧
      takes 1 es = A.feed.world.log.map Entry.frame ∧
      [(7, []), (9, [4])] ⊆ (dataOf A.feed.world.log).map (fun f => (f.msgType, f.payload)) ∧
      Broadcast (Multi.feed pageSizeDefault) pageSizeDefault (fun _ : Fin 2 => false) [] es A := by
  let programs : Fin 2 → List Write := ![[.mark 5 1 7], [.bytes 5 3 9 [4]]]
  have hok : ∀ t, ∀ w ∈ programs t, w.Ok pageSizeDefault := by decide
  obtain ⟨s₀, h₀, hi⟩ := construct_returns pageSizeDefault true
  have hw := (runs_lock h₀ (by simp [construct, loadInitialPage])
    (by simp [construct, loadInitialPage])).1
  have hserial : Multi.Serial pageSizeDefault programs _ := Multi.serial_start hi hw
  obtain ⟨T, hT, hdone⟩ := hserial.finishes hok
  obtain ⟨es, A, htrace, hlog, htakes⟩ :=
    Audience.follows_along (Multi.feed_grows hok (by decide)) hserial hT (1 : Fin 2)
  have hlog : A.feed.world.log.map Entry.frame = T.world.log.map Entry.frame := hlog
  refine ⟨s₀, es, A, h₀, htrace, htakes, ?_, (broadcast_beside_threads pageSizeDefault true programs
    hok (by decide) s₀ h₀ (fun _ : Fin 2 => false) es A htrace).1⟩
  have hwritten := fun t =>
    (((hserial.reaches hok hT).written hok hdone t).map fun f => (f.msgType, f.payload)).subset
  rw [dataOf_congr hlog]
  exact List.cons_subset.mpr ⟨hwritten 0 (by decide),
    List.cons_subset.mpr ⟨hwritten 1 (by decide), List.nil_subset _⟩⟩

end Revoq
