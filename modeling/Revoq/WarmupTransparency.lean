import Revoq.PageFullness
import Revoq.WarmerInvariant

/-! # A warmer nobody notices

A session with a warmer commits the same frames to the same places as one without, and
keeps them, as long as the writer never opens the file of a page the warmer is about to
initialise.

Without that condition it is not so.  The warmer asks whether the file exists long before
it stores the header and the zeros, and stores them although `loadMmapBuffer` has found a
file meanwhile.  If the writer falls back to `Page::load` in between, creates the page and
publishes frames on it, they are erased.
-/
namespace Revoq
open ByteImage StmtMachine

/-! ## The frames of a directory -/

/-- **The frames committed in a directory**: they follow one another from the first page
on, and where the next one would stand there is none. -/
structure Committed (d : Disk) (es : List Entry) : Prop where
  frames : ∀ e ∈ es, FrameAt (d.image e.slot.page) e.slot.offset e.frame
  tail : ∃ t, Chained ⟨1, pageHeaderSize⟩ es t ∧
    ((d.size t.page).isSome → getFrameLength (d.image t.page) t.offset = 0)

/-- What is left of an entry on disk, without the timestamp of a sentinel. -/
def Entry.undated (e : Entry) : Slot × Frame :=
  (e.slot, if e.frame.IsPageEnd then { e.frame with genTime := 0 } else e.frame)

/-- The write, made while the clock shows `now`. -/
def Write.at (now : Int64) : Write → Write
  | .data _ timestamp msgType flags payload eventTime =>
      .data now timestamp msgType flags payload eventTime
  | .bytes _ timestamp msgType payload => .bytes now timestamp msgType payload
  | .mark _ timestamp msgType => .mark now timestamp msgType

/-- The same writes, whatever the clock shows. -/
def SameWrites (ws ws' : List Write) : Prop := ws.map (Write.at 0) = ws'.map (Write.at 0)

instance (ws ws' : List Write) : Decidable (SameWrites ws ws') :=
  inferInstanceAs (Decidable (_ = _))

section
variable {P : PageSize} {d : Disk} {es : List Entry}

theorem Write.at_request (now : Int64) (x : Write) :
    (x.at now).request = { x.request with now } := by
  cases x <;> rfl

theorem Write.at_ok {now : Int64} {x : Write} : (x.at now).Ok P ↔ x.Ok P := by
  cases x with
  | data | bytes | mark =>
    exact ⟨fun h => ⟨h.low, h.high, h.data, h.fits⟩, fun h => ⟨h.low, h.high, h.data, h.fits⟩⟩

theorem SameWrites.ok {ws ws' : List Write} (h : SameWrites ws ws') (hws : ∀ x ∈ ws, x.Ok P) :
    ∀ x ∈ ws', x.Ok P := by
  intro x hx
  have hmem : x.at 0 ∈ ws.map (Write.at 0) := by
    rw [show ws.map (Write.at 0) = ws'.map (Write.at 0) from h]
    exact List.mem_map_of_mem hx
  obtain ⟨y, hy, hxy⟩ := List.mem_map.mp hmem
  exact Write.at_ok.mp (hxy ▸ Write.at_ok.mpr (hws y hy))

/-- The clock only shows in the dates of sentinels. -/
theorem place_undated (P : PageSize) (thread thread' : Nat) (t : Slot) (seq : UInt64)
    (r : Request) (now : Int64) :
    (place P thread t seq { r with now }).map Entry.undated =
    (place P thread' t seq r).map Entry.undated ∧
      (place P thread t seq { r with now }).length = (place P thread' t seq r).length ∧
      endOf t (place P thread t seq { r with now }) = endOf t (place P thread' t seq r) := by
  unfold place makeRoom
  by_cases ho : Overflows P t r.stride
  · have ho' : Overflows P t ({ r with now } : Request).stride := ho
    simp only [if_pos ho, if_pos ho']
    exact ⟨rfl, rfl, rfl⟩
  · have ho' : ¬ Overflows P t ({ r with now } : Request).stride := ho
    simp only [if_neg ho, if_neg ho']
    exact ⟨rfl, rfl, rfl⟩

theorem journal_undated (P : PageSize) (thread thread' : Nat) (t : Slot) (seq : UInt64)
    (ws : List Write) :
    (journal P thread t seq (ws.map (Write.at 0))).map Entry.undated =
      (journal P thread' t seq ws).map Entry.undated := by
  induction ws generalizing t seq with
  | nil => rfl
  | cons x ws ih =>
    obtain ⟨hmap, hlength, hend⟩ := place_undated P thread thread' t seq x.request 0
    rw [List.map_cons, journal_cons, journal_cons, List.map_append, List.map_append,
      Write.at_request, hmap, hlength, hend, ih]

/-- **The same writes make the same journal**, but for the dates of sentinels. -/
theorem SameWrites.journal_eq {ws ws' : List Write} (h : SameWrites ws ws')
    (thread thread' : Nat) (t : Slot) (seq : UInt64) :
    (journal P thread t seq ws).map Entry.undated = (journal P thread' t seq ws').map
    Entry.undated := by
  rw [← journal_undated P 0 thread, ← journal_undated P 0 thread',
    show ws.map (Write.at 0) = _ from h]

end

/-! ## A session in an empty directory -/

section
variable {P : PageSize} {j : Job} {code : List Stmt} {s : World × Local}

/-- A page without a frame has no length at its first slot. -/
theorem Ahead.first_zero {d : Disk} {p : Nat} (h : Ahead P blank d p) (hp : (d.size p).isSome) :
    getFrameLength (d.image p) pageHeaderSize = 0 := by
  have hroomy := P.roomy
  have hword : getFrameLength (d.image p) pageHeaderSize = getFrameLength blank pageHeaderSize :=
    load_congr ((h.area hp).mono (Set.Ico_subset_Ico_right (by
      show 64 + 0 + 4 ≤ P.bytes
      omega)))
  rw [hword]
  exact load_blank ..

/-- At any point of a session the log is what is committed on disk. -/
theorem Job.At.committed (h : Job.At P .empty j code s) : Committed s.1.disk s.1.log := by
  rcases h.state with ⟨hlog, hb⟩ | ⟨thread, tail, -, hlive⟩
  · rw [hlog]
    exact ⟨fun e he => (by cases he), ⟨1, pageHeaderSize⟩, rfl, (hb.above 1 (by decide)).first_zero⟩
  · exact ⟨hlive.frames, tail, hlive.chain, fun _ => hlive.tail_zero fun _ _ => wordsZero_blank _⟩

/-- The session can always go on. -/
theorem Job.At.progress {i : Stmt} {is : List Stmt} (h : Job.At P .empty j (i :: is) s) :
    ∃ s' push, i.exec P s = .next s' push := by
  generalize hcode : i :: is = code at h
  cases h with
  | constructing h =>
    obtain ⟨rfl, -⟩ := List.cons.inj hcode
    rcases h.step (mapped_empty P) with ⟨s', push, hexec, -⟩ | ⟨-, -, p, hpos, hle, -⟩
    · exact ⟨s', push, hexec⟩
    · exact absurd hle (Nat.not_le.mpr hpos)
  | working h =>
    subst hcode
    cases h with
    | cons _ progress _ => exact progress s (Stable.refl s)

end

/-! ## Runs of the two threads -/

namespace Tandem
variable {P : PageSize} {j : Job} {S S' : Tandem} {m : Mover} {ms : List Mover}

/-- **The pair is at a point a session can be at**, and keeps its invariant once the
constructor has looked at the directory. -/
structure Follows (P : PageSize) (j : Job) (S : Tandem) : Prop where
  reaches : j.Reaches P .empty (S.code, (S.world, S.locals))
  inv : S = start j ∨ Inv P S

theorem follows_start (P : PageSize) (j : Job) : Follows P j (start j) := ⟨.refl, .inl rfl⟩

/-- A statement of the writer is one of the session. -/
theorem next_writer (he : S.next P .writer = some S') :
    StmtMachine.Step (Stmt.exec P) (S.code, (S.world, S.locals))
      (S'.code, (S'.world, S'.locals)) := by
  simp only [next] at he
  split at he
  · cases he
  · rename_i i is hcode
    split at he <;> cases he
    rename_i w' l' push hexec
    rw [hcode]
    exact .next hexec

theorem next_warmer (he : S.next P .warmer = some S') :
    S.world.warmer.isSome ∧ S'.code = S.code := by
  obtain ⟨⟨w, t⟩, hw, rfl⟩ := Option.map_eq_some_iff.mp he
  refine ⟨?_, rfl⟩
  simp only [warmerStep] at hw
  split at hw
  · cases hw
  · rename_i g hg
    rw [hg]
    rfl

/-- The constructor finds no page. -/
theorem inv_started (he : (start j).next P .writer = some S') : Inv P S' := by
  have hcode : j.code = .findLastWrittenPage .succeeds :: j.code.drop 1 := by
    rw [Job.code_eq]
    rfl
  simp only [next, start] at he
  rw [hcode] at he
  cases he
  refine ⟨⟨.rest, handed_job j, rfl, rfl⟩, ⟨Nat.le_refl 0, Nat.le_refl 0, fun s hs => by cases hs⟩,
    fun p h0 hp => ?_, fun p _ hs => ?_, fun _ => rfl, fun g hg => ?_, fun g hg => ?_⟩
  · exact absurd hp (Nat.not_le.mpr h0)
  · cases hs
  · cases hg
  · cases hg

/-- **One step of the pair.** -/
theorem Follows.step (h : Follows P j S) (ht : S.Timely m) (he : S.next P m = some S') :
    Follows P j S' ∧ S.world.log <+: S'.world.log := by
  cases m with
  | writer =>
    have hstep := next_writer he
    refine ⟨⟨h.reaches.tail (.own hstep), .inr ?_⟩, step_log hstep⟩
    rcases h.inv with rfl | hinv
    · exact inv_started he
    · exact hinv.writer ht he
  | warmer =>
    obtain ⟨hsome, hcode⟩ := next_warmer he
    rcases h.inv with rfl | hinv
    · cases hsome
    · obtain ⟨hinv', hstable⟩ := hinv.warmer he
      have hreaches := h.reaches.tail (.warm hsome hstable)
      rw [← hcode] at hreaches
      have hlog : S.world.log = S'.world.log := hstable.log.symm
      exact ⟨⟨hreaches, .inr hinv'⟩, hlog ▸ List.prefix_refl _⟩

theorem play_cons : S.play P (m :: ms) = (S.next P m).bind fun S' => S'.play P ms := rfl

/-- **A run of the pair.** -/
theorem Follows.play (h : Follows P j S) (hplay : S.play P ms = some S') (ht : S.TimelyRun P ms) :
    Follows P j S' ∧ S.world.log <+: S'.world.log := by
  induction ms generalizing S with
  | nil =>
    cases hplay
    exact ⟨h, List.prefix_refl _⟩
  | cons m ms ih =>
    rw [play_cons, Option.bind_eq_some_iff] at hplay
    obtain ⟨S₁, hnext, hrest⟩ := hplay
    obtain ⟨h₁, hlog₁⟩ := h.step ht.1 hnext
    obtain ⟨h', hlog'⟩ := ih h₁ hrest (ht.2 S₁ hnext)
    exact ⟨h', hlog₁.trans hlog'⟩

end Tandem

/-- **Transparency of the warmer.**  From an empty directory, in every run in which the
writer never opens the file of a page the warmer is about to initialise, a committed
frame stays as it is, and the frames on disk are those of the same writes without a
warmer, up to the dates of sentinels. -/
theorem warmup_transparent (P : PageSize) (j j₀ : Job) (ms₁ ms₂ : List Mover) (S₁ S₂ : Tandem)
    (s₀ : World × Local) (hj : j.Ok P) (h1 : (Tandem.start j).play P ms₁ = some S₁)
    (ht1 : (Tandem.start j).TimelyRun P ms₁) (h2 : S₁.play P ms₂ = some S₂)
    (ht2 : S₁.TimelyRun P ms₂) (hzero : j₀.warmupPages = 0) (hsame : SameWrites j.writes j₀.writes)
    (h0 : j₀.Reaches P .empty ([], s₀)) :
    (∀ e ∈ S₁.world.log, FrameAt (S₁.world.disk.image e.slot.page) e.slot.offset e.frame ∧
      e ∈ S₂.world.log ∧ FrameAt (S₂.world.disk.image e.slot.page) e.slot.offset e.frame) ∧
    Committed S₂.world.disk S₂.world.log ∧ Committed s₀.1.disk s₀.1.log ∧
    S₂.world.log.map Entry.undated <+: s₀.1.log.map Entry.undated ∧
    (S₂.code = [] → S₂.world.log.map Entry.undated = s₀.1.log.map Entry.undated) ∧
    (S₂.code ≠ [] → (S₂.next P .writer).isSome) := by
  obtain ⟨hf1, -⟩ := (Tandem.follows_start P j).play h1 ht1
  obtain ⟨hf2, hlog⟩ := hf1.play h2 ht2
  have hat1 := hf1.reaches.at (mapped_empty P) hj
  have hat2 := hf2.reaches.at (mapped_empty P) hj
  have hj0 : j₀.Ok P := ⟨by rw [hzero]; exact Nat.zero_le _, hsame.ok hj.writes⟩
  have hat0 := h0.at (mapped_empty P) hj0
  obtain ⟨thread₀, tail₀, hplan₀, -⟩ := hat0.ended
  -- up to time stamps a session writes the same frames on whichever thread
  have hplan : ∀ thread, (j.plan P .empty thread).map Entry.undated =
      s₀.1.log.map Entry.undated := by
    intro thread
    rw [hplan₀]
    exact hsame.journal_eq thread thread₀ _ _
  refine ⟨fun e he =>
    ⟨hat1.committed.frames e he, hlog.subset he, hat2.committed.frames e (hlog.subset he)⟩,
    hat2.committed, hat0.committed, ?_, fun hend => ?_, fun hcode => ?_⟩
  · rcases hat2.state with ⟨hempty, -⟩ | ⟨thread, -, hprefix, -⟩
    · rw [show S₂.world.log = [] from hempty]
      exact List.nil_prefix
    · rw [← hplan thread]
      exact hprefix.map Entry.undated
  · rw [hend] at hat2
    obtain ⟨thread, -, hlog2, -⟩ := hat2.ended
    rw [← hplan thread]
    exact congrArg _ hlog2
  · cases hS : S₂.code with
    | nil => exact absurd hS hcode
    | cons i is =>
      rw [hS] at hat2
      obtain ⟨⟨w, l⟩, push, hexec⟩ := hat2.progress
      simp only [Tandem.next, hS]
      rw [show i.exec P (S₂.world, S₂.locals) = _ from hexec]
      rfl

/-! ## Runs of one thread -/

/-- A session left alone runs to its end. -/
theorem Job.At.terminates {P : PageSize} {j : Job} {code : List Stmt}
    {s : World × Local} (hj : j.Ok P) (h : Job.At P .empty j code s) :
    ∃ s', Runs (Stmt.exec P) (code, s) ([], s') := by
  cases h with
  | constructing h =>
    obtain ⟨s₀, hctor, hat⟩ := h.returns (mapped_empty P)
      (.inr fun p hpos hle => absurd hle (Nat.not_le.mpr hpos))
    obtain ⟨s', hwork, -⟩ := (Job.work_safe hj hat).terminates Stable.refl
    exact ⟨s', Relation.ReflTransGen.trans (hctor.append _) hwork⟩
  | working h =>
    obtain ⟨s', hruns, -⟩ := h.terminates Stable.refl
    exact ⟨s', hruns⟩

/-- A warmer that was started stays. -/
theorem Stmt.exec_warmer {P : PageSize} {i : Stmt} {s s' : World × Local} {push : List Stmt}
    (h : i.exec P s = .next s' push) (hs : s.1.warmer.isSome) : s'.1.warmer.isSome := by
  obtain ⟨w, l⟩ := s
  cases i with
  | updateCurrentPage =>
    cases h
    exact (Option.isSome_map ..).trans hs
  | scan env p => cases p <;> cases h <;> exact hs
  | scanLoad env p rest | seqLoad p rest =>
    cases rest <;> simp only [exec] at h <;> (repeat' split at h) <;> cases h <;> exact hs
  | hook h' =>
    cases h'.eventTime <;> simp only [exec] at h <;> (repeat' split at h) <;> cases h <;> exact hs
  | _ =>
    simp only [exec] at h
    (repeat' split at h) <;> cases h <;> first | exact hs | rfl

theorem runs_warmer {P : PageSize} {c c' : List Stmt × (World × Local)}
    (h : Runs (Stmt.exec P) c c') (hc : c.2.1.warmer.isSome) : c'.2.1.warmer.isSome := by
  induction h with
  | refl => exact hc
  | tail _ hstep ih =>
    cases hstep with
    | next he => exact Stmt.exec_warmer he ih

namespace Tandem
variable {P : PageSize} {j : Job} {S S' : Tandem} {ms ms' : List Mover}

/-- The warmer has left its first place, so it was started. -/
theorem Follows.started (h : Follows P j S) (hp : S.thread.place ≠ .boot) :
    S.world.warmer.isSome := by
  rcases h.inv with rfl | hinv
  · exact absurd rfl hp
  · cases hg : S.world.warmer with
    | none => exact absurd (hinv.waits hg) hp
    | some g => rfl

theorem play_append : S.play P (ms ++ ms') = (S.play P ms).bind fun S' => S'.play P ms' :=
  List.foldlM_append ..

theorem TimelyRun.append (h : S.TimelyRun P ms)
    (h' : ∀ S', S.play P ms = some S' → S'.TimelyRun P ms') :
    S.TimelyRun P (ms ++ ms') := by
  induction ms generalizing S with
  | nil => exact h' S rfl
  | cons m ms ih =>
    refine ⟨h.1, fun S₁ hnext => ih (h.2 S₁ hnext) fun S' hplay => h' S' ?_⟩
    rw [play_cons, show S.next P m = some S₁ from hnext]
    exact hplay

theorem timelyRun_warmer (S : Tandem) (n : Nat) : S.TimelyRun P (List.replicate n .warmer) := by
  induction n generalizing S with
  | zero => trivial
  | succ n ih => exact ⟨trivial, fun S' _ => ih S'⟩

theorem next_thread (he : S.next P .writer = some S') : S'.thread = S.thread := by
  simp only [next] at he
  split at he
  · cases he
  · split at he <;> cases he
    rfl

/-- The writer may do what it likes while the warmer initialises nothing. -/
theorem timelyRun_writer (h : ∀ p, ¬ S.thread.place.Initialises p) (n : Nat) :
    S.TimelyRun P (List.replicate n .writer) := by
  induction n generalizing S with
  | zero => trivial
  | succ n ih =>
    refine ⟨fun _ => h _, fun S' hnext => ih ?_⟩
    rw [next_thread hnext]
    exact h

/-- The writer moves alone. -/
theorem play_writer {c : List Stmt × (World × Local)}
    (h : Runs (Stmt.exec P) (S.code, (S.world, S.locals)) c) :
    ∃ n, S.play P (List.replicate n .writer) =
      some { S with code := c.1, world := c.2.1, locals := c.2.2 } := by
  induction h with
  | refl => exact ⟨0, rfl⟩
  | tail _ hstep ih =>
    obtain ⟨n, hn⟩ := ih
    refine ⟨n + 1, ?_⟩
    rw [List.replicate_succ', play_append, hn]
    cases hstep with
    | next he =>
      show Option.bind (next P _ .writer) some = _
      simp only [next, he]
      rfl

/-- The warmer moves alone, while it warms a page. -/
theorem play_warmer {c i : Nat} {idx : Fin ringSize} {code : List WarmStmt}
    {d : Disk} {r : WarmRegs} {x : List WarmStmt × (Disk × WarmRegs)}
    (hsome : S.world.warmer.isSome) (hp : S.thread.place = .warm c i idx code r)
    (hd : S.world.disk = d) (h : Runs (WarmStmt.exec P) (code, (d, r)) x) :
    ∃ n, S.play P (List.replicate n .warmer) = some { S with
      world := { S.world with disk := x.2.1 }
      thread := { S.thread with place := .warm c i idx x.1 x.2.2 } } := by
  induction h with
  | refl =>
    subst hd
    rw [← hp]
    exact ⟨0, rfl⟩
  | tail _ hstep ih =>
    obtain ⟨n, hn⟩ := ih
    refine ⟨n + 1, ?_⟩
    rw [List.replicate_succ', play_append, hn]
    obtain ⟨g, hg⟩ := Option.isSome_iff_exists.mp hsome
    cases hstep with
    | next he =>
      show Option.bind (next P _ .warmer) some = _
      simp only [next, warmerStep, hg, he]
      rfl

end Tandem

/-! ## A fallback that overlaps a warm-up -/

/-- **A warmer that has missed the file erases the page**, whatever is in it by then. -/
theorem warm_erases (P : PageSize) (p : Nat) (d : Disk) :
    ∃ d' r, Runs (WarmStmt.exec P) (mmapCode.map WarmStmt.mmap ++ [.initNew],
        (d, ⟨⟨p, true, true, false, 0, false⟩, false⟩)) ([], (d', r)) ∧
      ∀ x, pageHeaderSize ≤ x → x < P.bytes → d'.image p x = 0 := by
  obtain ⟨d₁, r, -, rfl, -, hst⟩ := mmap_straight P true p d
  have hput := (warm_puts_straight (P := P) (d := d₁) (warmPuts P) (r := ⟨r, false⟩)).run_append 0
    []
  rw [List.append_nil] at hput
  have hrun : run (WarmStmt.exec P) 12 (mmapCode.map WarmStmt.mmap ++ [.initNew])
      (d, ⟨⟨r.page, true, true, false, 0, false⟩, false⟩) =
      .next (d₁.writeAll r.page (warmPuts P), ⟨r, false⟩) [] := by
    refine ((straight_mmap hst false).run_append 7 [.initNew]).trans ?_
    rw [run, WarmStmt.exec]
    simp only [List.append_nil]
    exact hput
  refine ⟨_, _, runs_of_run hrun, fun x h1 h2 => ?_⟩
  have hwarm : warmPuts P = (initPuts P).tail ++ [(pageHeaderSize, P.bytes - pageHeaderSize, 0)] :=
    rfl
  rw [writeAll_image, hwarm, imageAfter, List.foldl_append]
  have hx : x < pageHeaderSize + (P.bytes - pageHeaderSize) := by omega
  exact store_zero_apply h1 hx

/-- A session whose second write needs a second page. -/
def overlapJob : Job := ⟨true, 1, [largeWrite, .mark 5 1 7]⟩

theorem overlapJob_ok : overlapJob.Ok pageSizeDefault := by
  refine ⟨by decide, fun w hw => ?_⟩
  rcases List.mem_cons.mp hw with rfl | hw
  · exact largeWrite_ok
  · obtain rfl := List.mem_singleton.mp hw
    decide

/-- Its last frame. -/
theorem overlapJob_plan (thread : Nat) :
    ⟨⟨2, 64⟩, (Write.mark 5 1 7).request.frame 2, thread⟩ ∈ overlapJob.plan pageSizeDefault
    .empty thread := by
  have hroom : ¬ Overflows pageSizeDefault ⟨1, 64⟩ largeWrite.request.stride := by
    rw [largeWrite_stride]
    decide
  have hplace : place pageSizeDefault thread ⟨1, 64⟩ 0 largeWrite.request =
      [⟨⟨1, 64⟩, largeWrite.request.frame 0, thread⟩] := by
    simp only [place, makeRoom, if_neg hroom]
    rfl
  have hend : endOf ⟨1, 64⟩ [⟨⟨1, 64⟩, largeWrite.request.frame 0, thread⟩] = ⟨1, 2097088⟩ := by
    show Slot.after ⟨1, 64⟩ (largeWrite.request.frame 0) = _
    rw [Slot.after_data (largeWrite_ok.isData.not_pageEnd 0), Request.frame_stride,
      largeWrite_stride]
  show _ ∈ journal pageSizeDefault thread ⟨1, 64⟩ 0 [largeWrite, .mark 5 1 7]
  rw [journal_cons, hplace, hend]
  refine List.mem_append_right _ ?_
  show _ ∈ [(⟨⟨1, 2097088⟩, pageEndFrame 5 1, thread⟩ : Entry),
      ⟨⟨2, 64⟩, (Write.mark 5 1 7).request.frame 2, thread⟩]
  exact List.mem_cons_of_mem _ List.mem_cons_self

/-- The constructor, and then `n` steps of the warmer. -/
def overlapStart (n : Nat) : List Mover := List.replicate 18 .writer ++ List.replicate n .warmer

theorem overlapStart_timely (n : Nat) :
    (Tandem.start overlapJob).TimelyRun pageSizeDefault (overlapStart n) :=
  .append (Tandem.timelyRun_writer (fun _ => id) 18) fun S' _ => S'.timelyRun_warmer n

/-- The writer's rest of the session, from where the warmer stands. -/
theorem overlapJob_rest {n : Nat} {S : Tandem}
    (hplay : (Tandem.start overlapJob).play pageSizeDefault (overlapStart n) = some S) :
    ∃ k s, S.play pageSizeDefault (List.replicate k .writer) =
        some { S with code := [], world := s.1, locals := s.2 } ∧
      overlapJob.Reaches pageSizeDefault .empty ([], s) ∧
      (S.thread.place ≠ .boot → s.1.warmer.isSome) := by
  obtain ⟨hf, -⟩ := (Tandem.follows_start pageSizeDefault overlapJob).play hplay
    (overlapStart_timely n)
  have hat := hf.reaches.at (mapped_empty _) overlapJob_ok
  obtain ⟨s, hruns⟩ := hat.terminates overlapJob_ok
  obtain ⟨k, hk⟩ := Tandem.play_writer hruns
  exact ⟨k, s, hk, hf.reaches.trans
    (Relation.ReflTransGen.mono (fun _ _ h => Job.Step.own h) _ _ hruns),
    fun hp => runs_warmer hruns (hf.started hp)⟩

/-- The writer rotates onto a page that the warmer has made. -/
theorem warmup_transparent_overlap :
    ∃ k S₁ S₂ s₀, (Tandem.start overlapJob).play pageSizeDefault (overlapStart 41) = some S₁ ∧
      S₁.play pageSizeDefault (List.replicate k .writer) = some S₂ ∧ S₂.code = [] ∧
      (⟨true, 0, [largeWrite, .mark 9 1 7]⟩ : Job).Reaches pageSizeDefault .empty ([], s₀) ∧
      S₂.world.log.map Entry.undated = s₀.1.log.map Entry.undated := by
  have hplace : ((Tandem.start overlapJob).play pageSizeDefault (overlapStart 41)).map
      (fun S => S.thread.place) =
      some (.cleanup 1 0) := by decide +kernel
  obtain ⟨S₁, h1, hcleanup⟩ := Option.map_eq_some_iff.mp hplace
  obtain ⟨k, s, h2, -, -⟩ := overlapJob_rest h1
  have hsame : SameWrites overlapJob.writes [largeWrite, .mark 9 1 7] := rfl
  have hok : (⟨true, 0, [largeWrite, .mark 9 1 7]⟩ : Job).Ok pageSizeDefault :=
    ⟨Nat.zero_le _, hsame.ok overlapJob_ok.writes⟩
  obtain ⟨s₀, h0⟩ := Job.returns (mapped_empty _) hok (.inl rfl)
  have htimely : S₁.TimelyRun pageSizeDefault (List.replicate k .writer) :=
    Tandem.timelyRun_writer (by rw [hcleanup]; exact fun _ => id) k
  have hall := warmup_transparent _ overlapJob ⟨true, 0, [largeWrite, .mark 9 1 7]⟩ _ _ S₁ _ s₀
    overlapJob_ok h1 (overlapStart_timely 41) h2 htimely rfl hsame h0
  exact ⟨k, S₁, _, s₀, h1, h2, rfl, h0, hall.2.2.2.2.1 rfl⟩

/-- **A warm-up erases a committed frame.**  The warmer finds no file for page 2; the
writer then fills page 1, creates page 2 by `Page::load` and commits a frame there; the
warmer goes on and zeroes the page. -/
theorem warmer_erases_frame :
    ∃ n k S₁ S₂ e, (Tandem.start overlapJob).play pageSizeDefault
      (overlapStart 21 ++ List.replicate n .writer) = some S₁ ∧
      S₁.play pageSizeDefault (List.replicate k .warmer) = some S₂ ∧ overlapJob.Ok pageSizeDefault ∧
      e ∈ S₁.world.log ∧ FrameAt (S₁.world.disk.image e.slot.page) e.slot.offset e.frame ∧
      ¬ FrameAt (S₂.world.disk.image e.slot.page) e.slot.offset e.frame := by
  have hplace : ((Tandem.start overlapJob).play pageSizeDefault (overlapStart 21)).map
      (fun S => S.thread.place) =
      some (.warm 1 1 ⟨0, by decide⟩ (mmapCode.map WarmStmt.mmap ++ [.initNew])
        ⟨⟨2, true, true, false, 0, false⟩, false⟩) := by decide +kernel
  obtain ⟨S, h0, hwarm⟩ := Option.map_eq_some_iff.mp hplace
  obtain ⟨n, s, h1, hreaches, hsome⟩ := overlapJob_rest h0
  have hat := hreaches.at (mapped_empty _) overlapJob_ok
  obtain ⟨thread, tail, hlog, -⟩ := hat.ended
  have hmem : (⟨⟨2, 64⟩, (Write.mark 5 1 7).request.frame 2, thread⟩ : Entry) ∈ s.1.log := by
    rw [hlog]
    exact overlapJob_plan thread
  obtain ⟨d, r, hwruns, hzero⟩ := warm_erases pageSizeDefault 2 s.1.disk
  obtain ⟨k, h2⟩ := Tandem.play_warmer (S := { S with code := [], world := s.1, locals := s.2 })
    (hsome (by rw [hwarm]; exact Warming.noConfusion)) hwarm rfl hwruns
  refine ⟨n, k, _, _, _, ?_, h2, overlapJob_ok, hmem, hat.committed.frames _ hmem, fun hframe => ?_⟩
  · rw [Tandem.play_append, h0]
    exact h1
  · have hlength : getFrameLength (d.image 2) 64 = 32 := hframe.length
    have hblank : getFrameLength (d.image 2) 64 = getFrameLength blank 64 :=
      load_congr fun x hx => hzero x hx.1 (Nat.lt_trans hx.2 (by decide))
    rw [hblank] at hlength
    exact absurd hlength (by decide)

end Revoq
