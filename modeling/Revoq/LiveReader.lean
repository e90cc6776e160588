import Revoq.Layout

/-! # A reader beside a writer

A writer thread and one reader of another process, interleaved at single stores of
the writer and single calls of the reader.  Whatever the reader has delivered is a
prefix of what the writer has committed (`Following`): it stands at a slot of the
writer's chain, and the slot behind the chain shows no frame.
-/
namespace Revoq
open ByteImage StmtMachine

/-- `join` needs at least one turn of its loops. -/
theorem Reader.join_zero {P : PageSize} {prefault : Bool} {time : Int64} {d : Disk}
    {x : Disk × Reader} : Reader.join P 0 prefault time d ≠ .ok x := by
  intro h
  obtain ⟨_, -, h⟩ := Except.bind_eq_ok.mp h
  obtain ⟨_, -, h⟩ := Except.bind_eq_ok.mp h
  cases h

/-- `join` from time 0 stands at the first slot and changes nothing, if nothing there
is from before time 0: neither the frame at the slot, nor the end of a full page. -/
theorem Reader.join_first {P : PageSize} {d : Disk} {p : Nat} (hu : InUse P d p)
    (hfirst : d.listPageId.head? = some p)
    (hend : ¬ (Page.isFull (d.image p) ∧ Page.endTime (d.image p) < 0))
    (htime : getFrameLength (d.image p) pageHeaderSize = 0 ∨
      ¬ (readHeader (d.image p) pageHeaderSize).genTime < 0) (fuel : Nat) (prefault : Bool) :
    ∃ r, Reader.join P (fuel + 1) prefault 0 d = .ok (d, r) ∧ r.At ⟨p, pageHeaderSize⟩ := by
  let r : Reader := ⟨prefault, some p, pageHeaderSize⟩
  have hr : r.At ⟨p, pageHeaderSize⟩ := ⟨rfl, rfl⟩
  refine ⟨r, ?_, hr⟩
  have hfind : Page.findPageId P 0 d = .ok (d, p) := by
    rw [Page.findPageId]
    cases hl : d.listPageId with
    | nil => rw [hl] at hfirst; cases hfirst
    | cons q ids =>
      rw [hl] at hfirst
      cases hfirst
      rfl
  have hload : ({ prefault } : Reader).loadPage P p d = .ok (d, r) :=
    Reader.loadPage_inUse hu (by simp)
  rw [Reader.join, Reader.seekToTime, hfind]
  simp only [Except.ok_bind, hload]
  rw [Reader.skipPages, if_neg (by rw [hr.image]; exact hend)]
  simp only [Except.ok_bind]
  rw [Reader.skipFrames, if_neg]
  rintro ⟨hdata, hlt⟩
  rw [hr.image] at hlt
  rcases htime with h0 | hge
  · rw [hr.look_none h0] at hdata
    cases hdata
  · exact hge hlt

/-- `join` from time 0 stands before the first frame of a readable chain. -/
theorem Readable.join {P : PageSize} {d : Disk} {p : Nat} {es : List Entry} {t : Slot}
    (h : Readable P d ⟨p, pageHeaderSize⟩ es t) (hfirst : d.listPageId.head? = some p)
    (hlast : lastFramePosition (d.image p) = pageHeaderSize ∨
      ∃ e ∈ es, e.slot = ⟨p, lastFramePosition (d.image p)⟩)
    (htime : ∀ e ∈ es, 0 ≤ e.frame.genTime) (fuel : Nat) (prefault : Bool) :
    ∃ r, Reader.join P (fuel + 1) prefault 0 d = .ok (d, r) ∧ r.At ⟨p, pageHeaderSize⟩ := by
  have frame_time : ∀ e ∈ es, ¬ (readHeader (d.image e.slot.page) e.slot.offset).genTime < 0 := by
    intro e he
    rw [(h.frames e he).header]
    exact Int64.not_lt.mpr (htime e he)
  -- whatever stands at the first slot was not stamped before time 0
  have first_time : getFrameLength (d.image p) pageHeaderSize = 0 ∨
      ¬ (readHeader (d.image p) pageHeaderSize).genTime < 0 := by
    cases es with
    | nil =>
      have ht : (⟨p, pageHeaderSize⟩ : Slot) = t := h.chain
      have hstop := h.stop
      rw [← ht] at hstop
      exact Or.inl hstop
    | cons e es =>
      have hslot : e.slot = ⟨p, pageHeaderSize⟩ := h.chain.1
      have := frame_time e List.mem_cons_self
      rw [hslot] at this
      exact Or.inr this
  have hend : ¬ Page.endTime (d.image p) < 0 := by
    unfold Page.endTime
    split
    · decide
    · rename_i hne
      rcases hlast with h64 | ⟨e, he, hs⟩
      · rw [h64] at hne ⊢
        exact first_time.resolve_left hne
      · have := frame_time e he
        rwa [hs] at this
  exact Reader.join_first (h.used p (Nat.le_refl _) h.chain.page_le) hfirst (fun hc => hend hc.2)
    first_time fuel prefault

/-! ## The system -/

/-- A writer thread and a reader. -/
structure Pair where
  code : List Stmt
  state : World × Local
  /-- Absent until `join` has returned. -/
  reader : Option Reader := none
  view : Option FrameView := none
  delivered : List Frame := []

/-- One statement of the writer, or one call of the reader. -/
inductive Pair.Step (P : PageSize) (prefault : Bool) : Pair → Pair → Prop where
  | write {c : Pair} {code : List Stmt} {state : World × Local}
      (h : StmtMachine.Step (Stmt.exec P) (c.code, c.state) (code, state)) :
      Step P prefault c { c with code, state }
  | join {c : Pair} {w : World} {l : Local} {d : Disk} {r : Reader} {fuel : Nat}
      (hw : c.state = (w, l)) (hnone : c.reader = none)
      (h : Reader.join P fuel prefault 0 w.disk = .ok (d, r)) :
      Step P prefault c { c with state := ({ w with disk := d }, l), reader := some r }
  | tryCurrentFrame {c : Pair} {r : Reader} (hr : c.reader = some r) :
      Step P prefault c { c with view := r.tryCurrentFrame c.state.1.disk }
  | advance {c : Pair} {w : World} {l : Local} {d : Disk} {r r' : Reader} {v : FrameView}
      (hw : c.state = (w, l)) (hr : c.reader = some r) (hv : c.view = some v)
      (h : r.advance P v w.disk = .ok (d, r')) :
      Step P prefault c { c with
        state := ({ w with disk := d }, l)
        reader := some r'
        view := none
        delivered := c.delivered ++ [r.frame v w.disk] }

/-- The pair gets from one state to another. -/
abbrev Pair.Reaches (P : PageSize) (prefault : Bool) : Pair → Pair → Prop :=
  Relation.ReflTransGen (Pair.Step P prefault)

/-- The reader has delivered the first part of the log and stands behind it. -/
structure Reads (log : List Entry) (r : Reader) (view : Option FrameView) (delivered : List Frame) :
    Prop where
  split : ∃ done rest slot, log = done ++ rest ∧ delivered = done.map Entry.frame ∧
    Chained ⟨1, pageHeaderSize⟩ done slot ∧ r.At slot ∧
    ∀ v, view = some v → ∃ e rest', rest = e :: rest' ∧ v = viewOf e.frame

/-- **The invariant of a writer and a reader**: the writer's code is safe and ends with
the whole log, and the reader follows its log. -/
structure Following (P : PageSize) (full : List Entry) (c : Pair) : Prop where
  writer : Safe P (ctxOf P .empty) full (fun s => s.1.log = full) c.code c.state
  joined : ∀ r, c.reader = some r → Reads c.state.1.log r c.view c.delivered
  absent : c.reader = none → c.view = none ∧ c.delivered = []

section
variable {P : PageSize} {full log : List Entry} {c c' : Pair} {prefault : Bool}

theorem wordsZero_blank (P : PageSize) : WordsZero P blank := fun _ _ _ _ => load_blank ..

/-- What a reader finds at any point of the writer's code. -/
theorem Following.readable (h : Following P full c) :
    ∃ tail, Live P (ctxOf P .empty) c.state.1.disk c.state.1.log tail ∧
      Readable P c.state.1.disk ⟨1, pageHeaderSize⟩ c.state.1.log tail ∧
        c.state.1.log <+: full := by
  obtain ⟨hpre, tail, hlive⟩ := h.writer.inv (.refl _)
  exact ⟨tail, hlive, hlive.readable fun _ _ => wordsZero_blank P, hpre⟩

theorem Readable.drop {d : Disk} {s t slot : Slot} {done rest : List Entry}
    (h : Readable P d s (done ++ rest) t) (hc : Chained s done slot) :
    Readable P d slot rest t := by
  induction done generalizing s with
  | nil =>
    obtain rfl : s = slot := hc
    exact h
  | cons e done ih => exact ih h.tail hc.2

theorem Disk.head_listPageId {d : Disk} (h0 : d.size 0 = none) (h1 : (d.size 1).isSome) :
    d.listPageId.head? = some 1 := by
  have htop : 1 ≤ d.top := by
    by_contra hlt
    rw [d.absent 1 (by omega)] at h1
    cases h1
  obtain ⟨n, hn⟩ := Nat.exists_eq_add_of_le htop
  have hrange : List.range (d.top + 1) = 0 :: 1 :: (List.range' 2 n) := by
    rw [List.range_eq_range', hn, show 1 + n + 1 = n + 1 + 1 by omega, List.range'_succ,
      List.range'_succ]
  rw [Disk.listPageId, hrange, List.filter_cons_of_neg (by simp [h0]),
    List.filter_cons_of_pos (by simpa using h1)]
  rfl

/-- The writer's first page is the first page file. -/
theorem Live.head_listPageId {d : Disk} {tail : Slot} (h : Live P (ctxOf P .empty) d log tail) :
    d.listPageId.head? = some 1 := by
  obtain ⟨size, hs, -⟩ := (h.ready 1 (Nat.le_refl 1) h.first_le).size
  exact Disk.head_listPageId (h.below 0 (show 0 < 1 by decide)).1 (by rw [hs]; rfl)

/-- A call of `join` from time 0, at any point of the writer's code. -/
theorem Following.join (h : Following P full c) (htime : ∀ e ∈ full, 0 ≤ e.frame.genTime)
    (fuel : Nat) (prefault : Bool) :
    ∃ r, Reader.join P (fuel + 1) prefault 0 c.state.1.disk = .ok (c.state.1.disk, r) ∧
      r.At ⟨1, pageHeaderSize⟩ := by
  obtain ⟨tail, hlive, hread, hpre⟩ := h.readable
  exact hread.join hlive.head_listPageId (hlive.last 1 (Nat.le_refl 1) hlive.first_le)
    (fun e he => htime e (hpre.subset he)) fuel prefault

/-- A reader that has not delivered everything is shown the next frame, and can
advance over it. -/
theorem Reads.next {d : Disk} {r : Reader} {view : Option FrameView}
    {delivered : List Frame} {tail : Slot} (h : Reads log r view delivered)
    (hread : Readable P d ⟨1, pageHeaderSize⟩ log tail) :
    (∃ e, log[delivered.length]? = some e ∧ r.tryCurrentFrame d = some (viewOf e.frame) ∧
      (∀ v, view = some v → v = viewOf e.frame) ∧ r.frame (viewOf e.frame) d = e.frame ∧
      ∃ r', r.advance P (viewOf e.frame) d = .ok (d, r') ∧
        Reads log r' none (delivered ++ [e.frame])) ∨
    delivered = log.map Entry.frame ∧ r.tryCurrentFrame d = none ∧ view = none := by
  obtain ⟨done, rest, slot, rfl, rfl, hchain, hr, hview⟩ := h.split
  have hrest := hread.drop hchain
  cases rest with
  | nil =>
    refine Or.inr ⟨by rw [List.append_nil], ?_, ?_⟩
    · have hs : slot = tail := hrest.chain
      exact hr.look_none (hs ▸ hrest.stop)
    · cases view with
      | none => rfl
      | some v =>
        obtain ⟨e, rest', he, -⟩ := hview v rfl
        cases he
  | cons e rest =>
    obtain ⟨hlook, hframe, r', hadv, hr'⟩ := hrest.advance hr
    refine Or.inl ⟨e, by simp, hlook, ?_, hframe, r', hadv,
      ⟨done ++ [e], rest, _, by simp, by simp, ?_, hr', fun v hv => by cases hv⟩⟩
    · intro v hv
      obtain ⟨e', rest', he, rfl⟩ := hview v hv
      cases he
      rfl
    · exact hchain.append ⟨hrest.chain.1, rfl⟩

theorem Reads.mono {r : Reader} {view : Option FrameView} {delivered : List Frame}
    {log' : List Entry} (h : Reads log r view delivered) (hlog : log <+: log') :
    Reads log' r view delivered := by
  obtain ⟨done, rest, slot, rfl, hdel, hchain, hr, hview⟩ := h.split
  obtain ⟨ext, rfl⟩ := hlog
  refine ⟨done, rest ++ ext, slot, by rw [List.append_assoc], hdel, hchain, hr, fun v hv => ?_⟩
  obtain ⟨e, rest', rfl, hve⟩ := hview v hv
  exact ⟨e, rest' ++ ext, rfl, hve⟩

/-- **One step of the pair keeps the invariant.** -/
theorem Following.step (h : Following P full c) (htime : ∀ e ∈ full, 0 ≤ e.frame.genTime)
    (hs : Pair.Step P prefault c c') : Following P full c' := by
  cases hs with
  | write hstep =>
    exact ⟨h.writer.step Stable.refl hstep, fun r hr => (h.joined r hr).mono (step_log hstep),
      h.absent⟩
  | @join w l d r fuel hw hnone hj =>
    cases fuel with
    | zero => exact absurd hj Reader.join_zero
    | succ fuel =>
      obtain ⟨r', hj', hr'⟩ := h.join htime fuel prefault
      rw [hw] at hj'
      cases hj.symm.trans hj'
      obtain ⟨hv, hdel⟩ := h.absent hnone
      refine ⟨hw ▸ h.writer, fun q hq => ?_, fun hn => by cases hn⟩
      cases hq
      exact ⟨[], _, _, rfl, by rw [hdel]; rfl, rfl, hr', fun v hv' => by rw [hv] at hv'; cases hv'⟩
  | @tryCurrentFrame r hr =>
    obtain ⟨tail, -, hread, -⟩ := h.readable
    refine ⟨h.writer, fun q hq => ?_, fun hn => by cases hr.symm.trans hn⟩
    obtain rfl : r = q := Option.some.inj (hr.symm.trans hq)
    obtain ⟨done, rest, slot, hlog, hdel, hchain, hat, -⟩ := (h.joined r hr).split
    refine ⟨done, rest, slot, hlog, hdel, hchain, hat, fun v hv => ?_⟩
    have hrest := (hlog ▸ hread).drop hchain
    cases rest with
    | nil =>
      have hst : slot = tail := hrest.chain
      rw [hat.look_none (hst ▸ hrest.stop)] at hv
      cases hv
    | cons e rest =>
      obtain ⟨hlook, -⟩ := hrest.advance hat
      cases hlook.symm.trans hv
      exact ⟨e, rest, rfl, rfl⟩
  | @advance w l d r r' v hw hr hv hadv =>
    obtain ⟨tail, -, hread, -⟩ := h.readable
    rcases (h.joined r hr).next hread
      with ⟨e, -, -, hview, hframe, r'', hadv', hreads⟩ | ⟨-, -, hnone⟩
    · obtain rfl := hview v hv
      rw [hw] at hadv' hframe
      cases hadv.symm.trans hadv'
      refine ⟨hw ▸ h.writer, fun q hq => ?_, fun hn => by cases hn⟩
      cases hq
      show Reads w.log r' none (c.delivered ++ [r.frame (viewOf e.frame) w.disk])
      rw [hframe]
      rw [hw] at hreads
      exact hreads
    · rw [hnone] at hv
      cases hv

theorem Following.reaches (h : Following P full c) (htime : ∀ e ∈ full, 0 ≤ e.frame.genTime)
    (hs : Pair.Reaches P prefault c c') : Following P full c' := by
  induction hs with
  | refl => exact h
  | tail _ hstep ih => exact ih.step htime hstep

/-- What a reader can rely on while a writer makes the writes `ws`. -/
structure LivePublication (P : PageSize) (prefault : Bool) (ws : List Write) (c : Pair) : Prop where
  delivered : c.delivered <+: c.state.1.log.map Entry.frame
  /-- What is committed, sentinels aside, is what was written: type, flags, times and
  payload, in order. -/
  written : dataOf c.state.1.log <+: ws.map fun w => w.request.frame 0
  /-- A writer that is done has written all of it. -/
  done : c.code = [] → dataOf c.state.1.log = ws.map fun w => w.request.frame 0
  sequence : ∀ i e, c.state.1.log[i]? = some e → e.frame.sequence = UInt64.ofNat i
  /-- A committed frame that was not delivered yet is shown. -/
  shown : ∀ r, c.reader = some r → c.delivered.length < c.state.1.log.length →
    (r.tryCurrentFrame c.state.1.disk).isSome
  /-- No call of the reader fails or changes the journal. -/
  joins : c.reader = none →
    ∃ r, Reader.join P 1 prefault 0 c.state.1.disk = .ok (c.state.1.disk, r)
  advances : ∀ r v, c.reader = some r → c.view = some v →
    ∃ r', r.advance P v c.state.1.disk = .ok (c.state.1.disk, r')
  /-- The writer is never held up. -/
  writes : c.code ≠ [] → ∃ c', StmtMachine.Step (Stmt.exec P) (c.code, c.state) c'

theorem Following.publication {ws : List Write} (h : Following P full c)
    (htime : ∀ e ∈ full, 0 ≤ e.frame.genTime)
    (hfull : dataOf full = ws.map fun w => w.request.frame 0) :
    LivePublication P prefault ws c := by
  obtain ⟨tail, hlive, hread, hpre⟩ := h.readable
  refine ⟨?_, hfull ▸ dataOf_prefix hpre, ?_, ?_, ?_, ?_, ?_, ?_⟩
  · cases hr : c.reader with
    | none => exact (h.absent hr).2 ▸ List.nil_prefix
    | some r =>
      obtain ⟨done, rest, -, hlog, hdel, -⟩ := (h.joined r hr).split
      rw [hlog, hdel, List.map_append]
      exact List.prefix_append ..
  · intro hcode
    have hsafe := h.writer
    rw [hcode] at hsafe
    rw [hsafe.post Stable.refl, hfull]
  · intro i e he
    have := hlive.sequence i e he
    rwa [ctxOf_empty, UInt64.zero_add] at this
  · intro r hr hlt
    rcases (h.joined r hr).next hread with ⟨e, -, hlook, -⟩ | ⟨hall, -⟩
    · rw [hlook]
      rfl
    · rw [hall, List.length_map] at hlt
      omega
  · intro _
    obtain ⟨r, hj, -⟩ := h.join htime 0 prefault
    exact ⟨r, hj⟩
  · intro r v hr hv
    rcases (h.joined r hr).next hread with ⟨e, -, -, hview, -, r', hadv, -⟩ | ⟨-, -, hnone⟩
    · exact ⟨r', hview v hv ▸ hadv⟩
    · rw [hnone] at hv
      cases hv
  · intro hne
    have hsafe := h.writer
    cases hcode : c.code with
    | nil => exact absurd hcode hne
    | cons i is =>
      rw [hcode] at hsafe
      cases hsafe with
      | cons _ progress _ =>
        obtain ⟨s', push, he⟩ := progress _ (.refl _)
        exact ⟨_, .next he⟩

/-- The write's own time and the clock it meets are not before time 0. -/
def Write.Timely (w : Write) : Prop := 0 ≤ w.timestamp ∧ 0 ≤ w.now

instance (w : Write) : Decidable w.Timely := inferInstanceAs (Decidable (_ ∧ _))

/-- The state in which the writer's constructor has returned and nobody has joined. -/
def Pair.start (ws : List Write) (s₀ : World × Local) : Pair :=
  ⟨ws.flatMap (Write.code false), s₀, none, none, []⟩

theorem following_start {ws : List Write} (hws : ∀ w ∈ ws, w.Ok P) {s₀ : World × Local}
    (h₀ : Runs (Stmt.exec P) (construct .succeeds 0, fresh prefault) ([], s₀)) :
    Following P (journal P s₀.2.thread ⟨1, pageHeaderSize⟩ 0 ws) (Pair.start ws s₀) := by
  obtain ⟨s, hrun, hi⟩ := construct_returns P prefault
  obtain rfl := h₀.final_unique hrun
  exact ⟨(hi.safe hws rfl).mono (fun _ h => h) fun _ hi' => hi'.state.log,
    fun r hr => (by cases hr), fun _ => ⟨rfl, rfl⟩⟩

/-- **Live publication.**  Whatever the interleaving of the writer's statements with
the reader's calls, the reader delivers a prefix of what is committed, and what is
committed is what was written, all of it once the writer is done. -/
theorem live_publication (P : PageSize) (writerPrefault readerPrefault : Bool) (ws : List Write)
    (hws : ∀ w ∈ ws, w.Ok P) (htime : ∀ w ∈ ws, w.Timely) (s₀ : World × Local)
    (h₀ : Runs (Stmt.exec P) (construct .succeeds 0, fresh writerPrefault) ([], s₀)) (c : Pair)
    (hc : Pair.Reaches P readerPrefault (Pair.start ws s₀) c) :
    LivePublication P readerPrefault ws c := by
  have hgen : ∀ e ∈ journal P s₀.2.thread ⟨1, pageHeaderSize⟩ 0 ws, 0 ≤ e.frame.genTime :=
    journal_times (p := (0 ≤ ·)) htime
  exact ((following_start hws h₀).reaches hgen hc).publication hgen (dataOf_journal hws)

/-- The writer's statements are steps of the pair. -/
theorem Pair.reaches_of_runs (prefault : Bool) {code : List Stmt} {s : World × Local}
    (h : Runs (Stmt.exec P) (c.code, c.state) (code, s)) :
    Pair.Reaches P prefault c { c with code, state := s } := by
  generalize hx : (c.code, c.state) = x at h
  generalize hy : (code, s) = y at h
  induction h generalizing code s with
  | refl =>
    subst hx
    cases hy
    exact .refl
  | @tail b _ _ hstep ih =>
    obtain ⟨code₁, s₁⟩ := b
    subst hy
    exact (ih rfl).tail (.write (c := { c with code := code₁, state := s₁ }) hstep)

/-- A reader that is behind is shown the next frame and moves over it. -/
theorem Following.delivers (h : Following P full c) (htime : ∀ e ∈ full, 0 ≤ e.frame.genTime)
    (prefault : Bool) {r : Reader} (hr : c.reader = some r)
    (hlt : c.delivered.length < c.state.1.log.length) :
    ∃ c' r', Pair.Reaches P prefault c c' ∧ Following P full c' ∧ c'.reader = some r' ∧
      c'.code = c.code ∧ c'.state.1.log = c.state.1.log ∧
      c'.delivered.length = c.delivered.length + 1 := by
  obtain ⟨tail, -, hread, -⟩ := h.readable
  rcases (h.joined r hr).next hread with ⟨e, -, hlook, -, -, r', hadv, -⟩ | ⟨hall, -⟩
  · have hstep₁ : Pair.Step P prefault c { c with view := some (viewOf e.frame) } := by
      rw [← hlook]
      exact .tryCurrentFrame hr
    have hstep₂ : Pair.Step P prefault { c with view := some (viewOf e.frame) } _ :=
      .advance rfl hr rfl hadv
    exact ⟨_, r', (Relation.ReflTransGen.single hstep₁).tail hstep₂,
      (h.step htime hstep₁).step htime hstep₂, rfl, rfl, rfl, by rw [List.length_append]; rfl⟩
  · rw [hall, List.length_map] at hlt
    omega

/-- Left alone, a reader delivers all that is committed. -/
theorem Following.catchesUp (h : Following P full c) (htime : ∀ e ∈ full, 0 ≤ e.frame.genTime)
    (prefault : Bool) {r : Reader} (hr : c.reader = some r) :
    ∃ c', Pair.Reaches P prefault c c' ∧ c'.code = c.code ∧ c'.state.1.log = c.state.1.log ∧
      c'.delivered = c'.state.1.log.map Entry.frame := by
  obtain ⟨n, hn⟩ : ∃ n, c.delivered.length + n = c.state.1.log.length := by
    obtain ⟨done, rest, -, hlog, hdel, -⟩ := (h.joined r hr).split
    exact ⟨rest.length, by rw [hlog, hdel, List.length_map, List.length_append]⟩
  induction n generalizing c r with
  | zero =>
    obtain ⟨done, rest, -, hlog, hdel, -⟩ := (h.joined r hr).split
    rw [hlog, hdel, List.length_map, List.length_append] at hn
    obtain rfl : rest = [] := List.length_eq_zero_iff.mp (by omega)
    exact ⟨c, .refl, rfl, rfl, by rw [hdel, hlog, List.append_nil]⟩
  | succ n ih =>
    obtain ⟨c₁, r₁, hreach₁, h₁, hr₁, hcode₁, hlog₁, hlen⟩ :=
      h.delivers htime prefault hr (by omega)
    obtain ⟨c', hreach, hcode, hlog, hall⟩ := ih h₁ hr₁ (by rw [hlen, hlog₁]; omega)
    exact ⟨c', hreach₁.trans hreach, hcode.trans hcode₁, hlog.trans hlog₁, hall⟩

/-- A reader that joins before two writes are made, and has both when they are. -/
theorem live_publication_two :
    ∃ s₀ c, Runs (Stmt.exec pageSizeDefault) (construct .succeeds 0, fresh true) ([], s₀) ∧
      Pair.Reaches pageSizeDefault false (Pair.start [.mark 5 1 7, .bytes 5 3 9 [4]] s₀) c ∧
      c.code = [] ∧ c.delivered = c.state.1.log.map Entry.frame ∧
      ((dataOf c.state.1.log).map fun f => (f.msgType, f.payload)) = [(7, []), (9, [4])] ∧
      LivePublication pageSizeDefault false [.mark 5 1 7, .bytes 5 3 9 [4]] c := by
  obtain ⟨s₀, h₀, hi⟩ := construct_returns pageSizeDefault true
  have hws : ∀ w ∈ [Write.mark 5 1 7, .bytes 5 3 9 [4]], w.Ok pageSizeDefault := by decide
  have hgen : ∀ e ∈ journal pageSizeDefault s₀.2.thread ⟨1, pageHeaderSize⟩ 0
      [.mark 5 1 7, .bytes 5 3 9 [4]], 0 ≤ e.frame.genTime :=
    journal_times (p := (0 ≤ ·)) (by decide)
  have hstart := following_start hws h₀
  obtain ⟨r, hj, -⟩ := hstart.join hgen 0 false
  have hjoin : Pair.Step pageSizeDefault false _ _ := .join rfl rfl hj
  obtain ⟨s, hs, -⟩ := (hi.safe hws rfl).terminates Stable.refl
  have hwrites := Pair.reaches_of_runs false (c := ⟨_, _, some r, none, []⟩) hs
  have hreach := Relation.ReflTransGen.head hjoin hwrites
  obtain ⟨c, hread, hcode, -, hall⟩ := (hstart.reaches hgen hreach).catchesUp hgen false rfl
  have hc := hreach.trans hread
  have hpub := live_publication pageSizeDefault true false _ hws (by decide) s₀ h₀ c hc
  refine ⟨s₀, c, h₀, hc, hcode, hall, ?_, hpub⟩
  rw [hpub.done hcode]
  rfl

end
end Revoq
