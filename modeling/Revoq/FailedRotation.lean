import Revoq.Capacity
import Revoq.Reader

/-! # A rotation that fails

`rotatePage` takes a page id before it asks for the page, and does not give it back
when the page cannot be had.  The page, the cursor and the sequence are as before, so
the writer goes on; but its next rotation skips a page id, and no reader gets across.
-/
namespace Revoq
open ByteImage StmtMachine

variable {P : PageSize}

/-- What the writer knows of where it stands. -/
structure SamePlace (j j' : JournalWriter) : Prop where
  pageId : j'.currentPageId = j.currentPageId
  page : j'.currentPage = j.currentPage
  cursor : j'.currentFrameAddress = j.currentFrameAddress
  sequence : j'.currentSequence = j.currentSequence

/-- What runs when a write is left by an exception: that of `openData` releases
nothing. -/
def Write.handler (serialize : Bool) : Write → List Stmt
  | .data .. => []
  | .bytes .. | .mark .. => if serialize then [.release] else []

/-- **Attempts that fail**, one after the other; meanwhile the directory and the
warmer's ring change as they like. -/
inductive Attempts (P : PageSize) (serialize : Bool) (s : World × Local) :
    Nat → World × Local → Prop where
  | start : Attempts P serialize s 0 s
  | elsewhere {n : Nat} {w : World} {l : Local} (h : Attempts P serialize s n (w, l)) (d : Disk)
      (g : Option PageWarmer) : Attempts P serialize s n ({ w with disk := d, warmer := g }, l)
  | failed {n : Nat} {s₁ s₂ s₃ : World × Local} {w : Write} {env : LoadEnv}
      (h : Attempts P serialize s n s₁)
      (call : Ends (Stmt.exec P) (w.attempt serialize env) s₁ (.throws s₂))
      (handler : Ends (Stmt.exec P) (w.handler serialize) s₂ (.returns s₃)) :
      Attempts P serialize s (n + 1) s₃

/-- **A write that throws** was thrown out of a rotation that has taken a page id. -/
theorem failed_of_throws {serialize : Bool} {w : Write} {env : LoadEnv} {s s' : World × Local}
    (hlow : pageHeaderSize ≤ s.1.writer.currentFrameAddress)
    (h : Ends (Stmt.exec P) (w.attempt serialize env) s (.throws s')) : Failed s s' := by
  obtain ⟨hok, hno⟩ := ends_write (P := P) serialize w env (attempt_lock_free h) hlow
  by_cases hn : Crosses P s.1.writer w.payload.length → NextPage P s.1 env
  · obtain ⟨t, o, ht, -⟩ := hok hn
    cases h.unique ht
  · obtain ⟨t, ht, hf⟩ := hno hn
    cases h.unique ht
    exact hf

/-- The handler changes the lock only. -/
theorem handler_place {serialize : Bool} {w : Write} {s s' : World × Local}
    (h : Ends (Stmt.exec P) (w.handler serialize) s (.returns s')) :
    SamePlace s.1.writer s'.1.writer := by
  have hrelease : Ends (Stmt.exec P) (if serialize then [.release] else []) s (.returns s') →
      SamePlace s.1.writer s'.1.writer := by
    intro h
    obtain ⟨b, hb⟩ := ends_release (P := P) serialize (s := s)
    cases h.unique hb
    exact ⟨rfl, rfl, rfl, rfl⟩
  cases w with
  | data =>
    cases h
    exact ⟨rfl, rfl, rfl, rfl⟩
  | bytes | mark => exact hrelease h

/-- **Each failed attempt takes a page id** and leaves the rest in place. -/
theorem Attempts.place {serialize : Bool} {s s' : World × Local} {n : Nat}
    (h : Attempts P serialize s n s') (hlow : pageHeaderSize ≤ s.1.writer.currentFrameAddress) :
    SamePlace { s.1.writer with currentPageId := s.1.writer.currentPageId + n } s'.1.writer := by
  induction h with
  | start => exact ⟨rfl, rfl, rfl, rfl⟩
  | elsewhere _ _ _ ih => exact ⟨ih.pageId, ih.page, ih.cursor, ih.sequence⟩
  | failed _ call handler ih =>
    have hf := failed_of_throws (by rw [ih.cursor]; exact hlow) call
    have hh := handler_place handler
    constructor
    · rw [hh.pageId, hf.pageId, ih.pageId]
      rfl
    · rw [hh.page, hf.page, ih.page]
    · rw [hh.cursor, hf.cursor, ih.cursor]
    · rw [hh.sequence, hf.sequence, ih.sequence]

/-- **No failed rotation is atomic.**  From every state a writer can be in, with or
without a warmer: a write whose rotation does not get its page throws and leaves the
writer with another page id, and only that.  After any number of such attempts, the
rotation of a write that succeeds goes on to the page after the current one if and
only if there were none. -/
theorem failed_rotation_never_atomic (P : PageSize) (serialize : Bool) (s : World × Local)
    (hs : Reachable P serialize s) (hfree : serialize = true → s.1.writer.writing = false) :
    (∀ (w : Write) (env : LoadEnv), Crosses P s.1.writer w.payload.length → ¬ NextPage P s.1 env →
      ∃ s', Ends (Stmt.exec P) (w.attempt serialize env) s (.throws s') ∧
        ¬ SamePlace s.1.writer s'.1.writer ∧
        SamePlace { s.1.writer with currentPageId := s.1.writer.currentPageId + 1 } s'.1.writer) ∧
    ∀ (n : Nat) (s₁ s' : World × Local) (w : Write) (env : LoadEnv),
      s.1.writer.currentPageId = s.1.writer.currentPage → Attempts P serialize s n s₁ →
      nextPageOf s₁.1 = s₁.1.writer.currentPageId + 1 → Crosses P s₁.1.writer w.payload.length →
      Ends (Stmt.exec P) (w.attempt serialize env) s₁ (.returns s') →
      s'.1.writer.currentPage = s.1.writer.currentPage + n + 1 ∧
        (s'.1.writer.currentPage = s.1.writer.currentPage + 1 ↔ n = 0) := by
  have hlow := hs.sound.low
  constructor
  · intro w env hc hno
    obtain ⟨s', he, hf⟩ := (ends_write (P := P) serialize w env hfree hlow).2 fun h => hno (h hc)
    refine ⟨s', he, fun h => ?_, hf.pageId, hf.page, hf.cursor, hf.sequence⟩
    have := hf.pageId.symm.trans h.pageId
    omega
  · intro n s₁ s' w env hid hatt hnext hc he
    have hplace := hatt.place hlow
    have hlow₁ : pageHeaderSize ≤ s₁.1.writer.currentFrameAddress := by
      rw [hplace.cursor]
      exact hlow
    have hpage : s'.1.writer.currentPage = s.1.writer.currentPage + n + 1 := by
      obtain ⟨hok, hno⟩ := ends_write (P := P) serialize w env (attempt_lock_free he) hlow₁
      by_cases hn : Crosses P s₁.1.writer w.payload.length → NextPage P s₁.1 env
      · obtain ⟨t, o, ht, hw, -, -, hon⟩ := hok hn
        cases he.unique ht
        rw [← hw.page, hon.crossed hc, hnext, hplace.pageId, ← hid]
      · obtain ⟨t, ht, -⟩ := hno hn
        cases he.unique ht
    refine ⟨hpage, ?_⟩
    rw [hpage]
    omega

/-! ## A run -/

/-- `open` fails. -/
def LoadEnv.refuses : LoadEnv := { openFails := true }

/-- A writer whose first frame fills its page, in an empty directory. -/
def filledPage : Option (World × Local) :=
  (run (Stmt.exec pageSizeDefault) 60 (construct .succeeds 0) (fresh true)).ended.bind fun s₀ =>
    (run (Stmt.exec pageSizeDefault) 60
      ((Call.openData 1 7 2096960 0).code false 5 .succeeds) s₀).ended.bind
      fun s₁ => if s₁.1.writer.openFrameHeader = some ⟨1, 64⟩ ∧ s₁.1.writer.currentPage = 1 then
        (run (Stmt.exec pageSizeDefault) 60
          ((Call.closeData 2096960 {}).code false 5 .succeeds) s₁).ended
      else none

theorem filledPage_reachable {s : World × Local} (h : filledPage = some s) :
    Reachable pageSizeDefault false s := by
  obtain ⟨s₀, h₀, h⟩ := Option.bind_eq_some_iff.mp h
  obtain ⟨s₁, h₁, h⟩ := Option.bind_eq_some_iff.mp h
  split at h
  · rename_i ho
    obtain ⟨ho, hpage⟩ := ho
    have hconstructed : Reachable pageSizeDefault false s₀ :=
      .constructed (.of_runs (runs_of_ended h₀))
    have hroom : (Call.openData 1 7 2096960 0).HasRoom pageSizeDefault s₀ :=
      show SizeFits pageSizeDefault 2096960 by decide
    have hopen : Reachable pageSizeDefault false s₁ :=
      .returned hconstructed hroom (.of_runs (runs_of_ended h₁))
    have hclose : (Call.closeData 2096960 {}).HasRoom pageSizeDefault s₁ := by
      intro o ho'
      cases ho.symm.trans ho'
      exact ⟨hpage.symm, by decide, by decide, by decide⟩
    have hends : Ends (Stmt.exec pageSizeDefault)
        ((Call.closeData 2096960 {}).code false 5 .succeeds) s₁
      (.returns s) := .of_runs (runs_of_ended h)
    exact .returned hopen hclose hends
  · cases h

/-- From there, no `mark` whose page cannot be opened is atomic. -/
theorem failed_rotation_mark :
    ∃ s s', Reachable pageSizeDefault false s ∧
      Ends (Stmt.exec pageSizeDefault) ((Write.mark 5 2 7).attempt false .refuses) s (.throws s') ∧
      ¬ SamePlace s.1.writer s'.1.writer := by
  have h : filledPage.map (fun s => (s.1.writer.currentFrameAddress, s.1.warmer.isNone)) =
      some (2097088, true) := by
    decide +kernel
  obtain ⟨s, hs, hresult⟩ := Option.map_eq_some_iff.mp h
  obtain ⟨hcur, hwarm⟩ := Prod.mk.inj hresult
  have hr := filledPage_reachable hs
  have hcross : Crosses pageSizeDefault s.1.writer (Write.mark 5 2 7).payload.length := by
    rw [Crosses, hcur]
    decide
  have hno : ¬ NextPage pageSizeDefault s.1 .refuses := by
    rw [NextPage, Option.isNone_iff_eq_none.mp hwarm]
    intro hl
    cases hl.opens
  obtain ⟨s', he, hsame, -⟩ :=
    (failed_rotation_never_atomic pageSizeDefault false s hr fun h => by cases h).1 _ _ hcross hno
  exact ⟨s, s', hr, he, hsame⟩

/-- What a reader joined from time 0 is shown until nothing more comes. -/
def typesRead (prefault : Bool) (d : Disk) : Except Halt (List UInt16) :=
  (Reader.join pageSizeDefault 1 prefault 0 d).bind fun x =>
    (x.2.drain pageSizeDefault 4 x.1).map (List.map fun f => f.msgType)

/-- The next `mark` succeeds: its frame is on page 3, behind a sentinel on page 1.  A
lazy reader dies where it asks for page 2; one that prefaults creates page 2 and waits
there. -/
theorem failed_rotation_skips_page :
    ∃ s s' s'', Reachable pageSizeDefault false s ∧
      s.1.writer.currentPageId = 1 ∧ s'.1.writer.currentPageId = 2 ∧
      Ends (Stmt.exec pageSizeDefault) ((Write.mark 5 2 7).attempt false .refuses) s (.throws s') ∧
      Ends (Stmt.exec pageSizeDefault) ((Write.mark 5 2 7).attempt false .succeeds) s'
        (.returns s'') ∧
      (s''.1.log.map fun e => (e.slot.page, e.frame.msgType)) = [(1, 7), (1, 10000), (3, 7)] ∧
      typesRead false s''.1.disk = .error .died ∧
      typesRead true s''.1.disk = .ok [7, 10000] := by
  have h : filledPage.bind (fun s =>
      (run (Stmt.exec pageSizeDefault) 60 ((Write.mark 5 2 7).attempt false .refuses) s).thrown.bind
        fun s' => (run (Stmt.exec pageSizeDefault) 60
          ((Write.mark 5 2 7).attempt false .succeeds) s').ended.map fun s'' =>
            (([s.1.writer.currentPageId, s'.1.writer.currentPageId],
              s''.1.log.map fun e => (e.slot.page, e.frame.msgType)),
              (typesRead false s''.1.disk, typesRead true s''.1.disk))) =
      some (([1, 2], [(1, 7), (1, 10000), (3, 7)]), (.error .died, .ok [7, 10000])) := by
    decide +kernel
  obtain ⟨s, hs, h⟩ := Option.bind_eq_some_iff.mp h
  obtain ⟨s', hs', h⟩ := Option.bind_eq_some_iff.mp h
  obtain ⟨s'', hs'', hresult⟩ := Option.map_eq_some_iff.mp h
  simp only [Prod.mk.injEq, List.cons.injEq, and_true] at hresult
  obtain ⟨⟨⟨hid, hid'⟩, hlog⟩, hlazy, hprefault⟩ := hresult
  exact ⟨s, s', s'', filledPage_reachable hs, hid, hid', .of_thrown hs',
    .of_runs (runs_of_ended hs''), hlog, hlazy, hprefault⟩

end Revoq
