import Revoq.CrashScan
import Revoq.RestartReading

/-! # Resuming a journal

Sessions follow one another in one directory, each destructed or cut off by a crash
at any statement.  The next constructor looks for the last page that counts as written,
scans it for the last sequence number and goes on behind it.  It finds the end of the
journal if the page of the last committed frame counts as written, and if the scan
stops behind that frame (`Resumable`); neither is sure.  A page with one frame has its
`last_frame_position` at the first frame and does not count, and on a page that was
taken over from a session that had crashed there may be a payload where the scan
looks for a length.
-/
namespace Revoq
open ByteImage StmtMachine

/-- **The histories of a journal**: the directory, and what was committed in it.  Each
session starts where `ok` holds, and ends anywhere. -/
inductive History (P : PageSize) (ok : Disk → List Entry → Prop) : Disk → List Entry → Prop where
  | start : History P ok .empty []
  | session {d : Disk} {log : List Entry} {j : Job} {c : List Stmt × (World × Local)}
      (earlier : History P ok d log) (resumes : ok d log) (fits : j.Ok P)
      (reached : j.Reaches P d c) :
      History P ok c.2.1.disk (log ++ c.2.1.log)

/-- One more than the greatest sequence number of the entries, 0 if there is none. -/
def Follows (log : List Entry) (seq : UInt64) : Prop :=
  log = [] ∧ seq = 0 ∨
    ∃ g ∈ log, (∀ e ∈ log, e.frame.sequence ≤ g.frame.sequence) ∧
      seq.toNat = g.frame.sequence.toNat + 1

/-- What a session that found `d`, with the frames `log`, has left of them, and how it
goes on from them. -/
structure ResumeSafe (d : Disk) (log : List Entry) (w : World) : Prop where
  bytes : ∀ e ∈ log, ∀ a, e.slot.offset ≤ a → a < e.slot.offset + e.frame.length →
    w.disk.image e.slot.page a = d.image e.slot.page a
  numbered : ∀ e, w.log.head? = some e → Follows log e.frame.sequence

/-- **What the constructor relies on** to find the end of the journal. -/
structure Resumable (P : PageSize) (d : Disk) (log : List Entry) : Prop where
  counted : ∀ e, log.getLast? = some e → pageHeaderSize < lastFramePosition (d.image e.slot.page)
  stops : ∀ e, log.getLast? = some e → ¬ e.frame.IsPageEnd →
    ScanStops P (d.image e.slot.page) (e.slot.offset + e.frame.stride)
  numbers : log.length < 2 ^ 64

/-! ## Frames that stay where they are -/

/-- **The frames on the pages from `first` on**: they stand on disk page by page, and
each page that counts as written has some. -/
structure Archive (P : PageSize) (d : Disk) (first : Nat) (seq : UInt64)
    (es : List Entry) : Prop where
  frames : ∀ e ∈ es, FrameAt (d.image e.slot.page) e.slot.offset e.frame
  placed : ∀ e ∈ es, e.WellPlaced P
  used : ∀ e ∈ es, InUse P d e.slot.page
  above : ∀ e ∈ es, first ≤ e.slot.page
  sequence : ∀ i e, es[i]? = some e → e.frame.sequence = seq + UInt64.ofNat i
  pages : es.Pairwise fun a b => a.slot.page ≤ b.slot.page
  layout : ∀ p, ∃ o, Abut pageHeaderSize (onPage es p) o ∧
    ∀ e ∈ (onPage es p).dropLast, ¬ e.frame.IsPageEnd
  written : ∀ p, first ≤ p → Written d p → onPage es p ≠ []

theorem Chained.pages {s t : Slot} {es : List Entry} (h : Chained s es t) :
    es.Pairwise fun a b => a.slot.page ≤ b.slot.page := by
  induction es generalizing s with
  | nil => exact List.Pairwise.nil
  | cons e es ih =>
    obtain ⟨he, htail⟩ := h
    refine List.Pairwise.cons (fun x hx => ?_) (ih htail)
    have hle : s.page ≤ (s.after e.frame).page := by
      rcases s.after_page e.frame with ⟨heq, -⟩ | heq <;> omega
    have := htail.after_start hx
    rw [he]
    omega

section
variable {P : PageSize} {C : Ctx} {d d' : Disk} {log es es' : List Entry} {tail : Slot}
variable {first first' : Nat} {seq seq' : UInt64}

/-- An empty stretch of pages. -/
theorem Archive.nil (h : ∀ p, first ≤ p → ¬ Written d p) : Archive P d first seq [] where
  frames e he := by cases he
  placed e he := by cases he
  used e he := by cases he
  above e he := by cases he
  sequence i e he := by cases he
  pages := List.Pairwise.nil
  layout p := ⟨pageHeaderSize, rfl, fun e he => (by cases he)⟩
  written p hp hw := absurd hw (h p hp)

/-- What a session leaves, at every store. -/
theorem Live.archive (h : Live P C d log tail) : Archive P d C.first C.seq log where
  frames := h.frames
  placed := h.placed
  used e he := h.inUse (h.entry_first_le he) (h.entry_page_le he)
  above e he := h.entry_first_le he
  sequence := h.sequence
  pages := h.chain.pages
  layout p := by
    by_cases hp : C.first ≤ p ∧ p ≤ tail.page
    · obtain ⟨o, habut, hdata, -⟩ := h.onPage_layout hp.1 hp.2
      exact ⟨o, habut, hdata⟩
    · have hnil : onPage log p = [] := by
        refine List.eq_nil_iff_forall_not_mem.mpr fun e he => hp ?_
        obtain ⟨hmem, rfl⟩ := mem_onPage.mp he
        exact ⟨h.entry_first_le hmem, h.entry_page_le hmem⟩
      rw [hnil]
      exact ⟨pageHeaderSize, rfl, fun e he => (by cases he)⟩
  written p hp hw := by
    rcases Nat.lt_or_ge tail.page p with hlt | hle
    · exact absurd hw (h.ahead p hlt).not_written
    · rcases h.last p hp hle with h64 | ⟨e, he, hslot⟩
      · exact absurd hw.2 (by rw [h64]; exact Nat.lt_irrefl _)
      · exact List.ne_nil_of_mem (mem_onPage.mpr ⟨he, by rw [hslot]⟩)

theorem onPage_append (es es' : List Entry) (p : Nat) :
    onPage (es ++ es') p = onPage es p ++ onPage es' p :=
  List.filter_append ..

/-- **Two stretches of pages, one behind the other.** -/
theorem Archive.append (h : Archive P d first seq es) (h' : Archive P d' first' seq' es')
    (hseq : seq' = seq + UInt64.ofNat es.length) (hlt : ∀ e ∈ es, e.slot.page < first')
    (hle : first ≤ first') (hsame : ∀ p, p < first' → d.SameFile d' p) :
    Archive P d' first seq (es ++ es') := by
  have hlow : ∀ p, first' ≤ p → onPage es p = [] := by
    intro p hp
    refine List.eq_nil_iff_forall_not_mem.mpr fun e he => ?_
    obtain ⟨hmem, rfl⟩ := mem_onPage.mp he
    exact absurd (hlt e hmem) (Nat.not_lt.mpr hp)
  have hhigh : ∀ p, p < first' → onPage es' p = [] := by
    intro p hp
    refine List.eq_nil_iff_forall_not_mem.mpr fun e he => ?_
    obtain ⟨hmem, rfl⟩ := mem_onPage.mp he
    exact absurd (h'.above e hmem) (Nat.not_le.mpr hp)
  refine ⟨fun e he => ?_, fun e he => ?_, fun e he => ?_, fun e he => ?_, fun i e he => ?_,
    ?_, fun p => ?_, fun p hp hw => ?_⟩
  · rcases List.mem_append.mp he with he | he
    · rw [(hsame _ (hlt e he)).2]
      exact h.frames e he
    · exact h'.frames e he
  · exact (List.mem_append.mp he).elim (h.placed e) (h'.placed e)
  · rcases List.mem_append.mp he with he | he
    · exact (h.used e he).of_same (hsame _ (hlt e he))
    · exact h'.used e he
  · rcases List.mem_append.mp he with he | he
    · exact h.above e he
    · exact Nat.le_trans hle (h'.above e he)
  · rcases Nat.lt_or_ge i es.length with hi | hi
    · rw [List.getElem?_append_left hi] at he
      exact h.sequence i e he
    · rw [List.getElem?_append_right hi] at he
      rw [h'.sequence _ e he, hseq, UInt64.add_assoc, ← UInt64.ofNat_add, Nat.add_sub_cancel' hi]
  · refine List.pairwise_append.mpr ⟨h.pages, h'.pages, fun a ha b hb => ?_⟩
    exact Nat.le_of_lt (Nat.lt_of_lt_of_le (hlt a ha) (h'.above b hb))
  · rw [onPage_append]
    rcases Nat.lt_or_ge p first' with hp | hp
    · rw [hhigh p hp, List.append_nil]
      exact h.layout p
    · rw [hlow p hp, List.nil_append]
      exact h'.layout p
  · rw [onPage_append]
    rcases Nat.lt_or_ge p first' with hp' | hp'
    · have hw' : Written d p := by
        obtain ⟨h1, h2⟩ := hw
        rw [(hsame p hp').1] at h1
        rw [(hsame p hp').2] at h2
        exact ⟨h1, h2⟩
      exact List.append_ne_nil_of_left_ne_nil (h.written p hp hw') _
    · exact List.append_ne_nil_of_right_ne_nil _ (h'.written p hp' hw)

/-! ## Where the constructor goes on -/

/-- The page of the last committed frame is the last written one. -/
theorem Archive.lastWritten_eq (h : Archive P d 1 seq log) (hr : Resumable P d log) {e : Entry}
    (he : log.getLast? = some e) : lastWritten d = e.slot.page := by
  have hmem : e ∈ log := List.mem_of_getLast? he
  obtain ⟨size, hs, -⟩ := (h.used e hmem).ready.size
  refine Revoq.lastWritten_eq ⟨by rw [hs]; rfl, hr.counted e he⟩ fun q hq hw => ?_
  obtain ⟨x, hx⟩ :=
    List.exists_mem_of_ne_nil _ (h.written q (Nat.le_trans (h.above e hmem) (Nat.le_of_lt hq)) hw)
  obtain ⟨hlog, rfl⟩ := mem_onPage.mp hx
  obtain ⟨init, rfl⟩ := List.getLast?_eq_some_iff.mp he
  rcases List.mem_append.mp hlog with hinit | hlast
  · have := (List.pairwise_append.mp h.pages).2.2 x hinit e (List.mem_singleton.mpr rfl)
    omega
  · rw [List.mem_singleton.mp hlast] at hq
    exact Nat.lt_irrefl _ hq

/-- No committed frame is behind the page the constructor finds. -/
theorem Archive.page_le (h : Archive P d 1 seq log) (hr : Resumable P d log) {e : Entry}
    (he : e ∈ log) :
    e.slot.page ≤ lastWritten d := by
  rcases List.eq_nil_or_concat log with rfl | ⟨init, x, rfl⟩
  · cases he
  · rw [List.concat_eq_append] at *
    rw [h.lastWritten_eq hr List.getLast?_concat]
    rcases List.mem_append.mp he with he | he
    · exact (List.pairwise_append.mp h.pages).2.2 e he x (List.mem_singleton.mpr rfl)
    · rw [List.mem_singleton.mp he]

/-- The scan of its page finds the last committed frame. -/
theorem Archive.scan (h : Archive P d 1 0 log) (hr : Resumable P d log) {e : Entry}
    (he : log.getLast? = some e) :
    findLastSequenceNumber P (d.image e.slot.page) = some e.frame.sequence := by
  have hmem : e ∈ log := List.mem_of_getLast? he
  have hlast : (onPage log e.slot.page).getLast? = some e := by
    obtain ⟨init, rfl⟩ := List.getLast?_eq_some_iff.mp he
    have hself : onPage [e] e.slot.page = [e] := List.filter_cons_of_pos (decide_eq_true rfl)
    rw [onPage_append, hself]
    exact List.getLast?_concat
  obtain ⟨o, habut, hdata⟩ := h.layout e.slot.page
  have hseq : (0 : UInt64).toNat + log.length ≤ 2 ^ 64 := by
    have := hr.numbers
    show 0 + log.length ≤ 2 ^ 64
    omega
  have hscan := findLastSequenceNumber_page (P := P) (h.used e hmem).ready.header.headerLength habut
    (fun x hx => by
      obtain ⟨hx, hpage⟩ := mem_onPage.mp hx
      exact hpage ▸ h.frames x hx)
    (fun x hx => h.placed x (mem_onPage.mp hx).1) (increases_onPage h.sequence hseq _) hdata ?_
  · rw [hscan, lastOf, hlast]
    rfl
  · intro hopen
    obtain ⟨init, hinit⟩ := List.getLast?_eq_some_iff.mp hlast
    rw [hinit] at habut
    obtain ⟨u, -, hu, rfl⟩ := habut.split
    rw [← hu]
    exact hr.stops e he (hopen e hlast)

/-- **The constructor goes on with the next number.** -/
theorem Archive.nextSequence_eq (h : Archive P d 1 0 log) (hr : Resumable P d log) :
    nextSequence P d = UInt64.ofNat log.length := by
  rcases List.eq_nil_or_concat log with rfl | ⟨init, e, rfl⟩
  · have hzero : lastWritten d = 0 := by
      by_contra hpos
      have hpos' : 0 < lastWritten d := Nat.pos_of_ne_zero hpos
      exact h.written _ hpos' (lastWritten_spec hpos') rfl
    rw [nextSequence, if_pos hzero]
    rfl
  · rw [List.concat_eq_append] at *
    have he : (init ++ [e]).getLast? = some e := List.getLast?_concat
    have hpage := h.lastWritten_eq hr he
    have hpos := h.above e (by simp)
    have hnum := h.sequence init.length e (by simp)
    rw [nextSequence, if_neg (by omega), hpage, findLastSequenceNumber_eq (h.scan hr he), hnum,
      UInt64.zero_add, List.length_append, UInt64.ofNat_add]
    rfl

/-! ## Along a history -/

variable {j : Job} {c : List Stmt × (World × Local)}

/-- What a session adds, wherever it is cut off. -/
theorem Job.Reaches.archive (hmap : Mapped P d) (hj : j.Ok P) (h : j.Reaches P d c) :
    Archive P c.2.1.disk (lastWritten d + 1) (nextSequence P d) c.2.1.log := by
  rcases (h.at hmap hj).state with ⟨hlog, hb⟩ | ⟨thread, tail, -, hlive⟩
  · rw [hlog]
    exact .nil fun p hp => (hb.above p hp).not_written
  · exact hlive.archive

/-- **One session keeps the archive.** -/
theorem Archive.session (h : Archive P d 1 0 log) (hr : Resumable P d log)
    (hmap : Mapped P d) (hj : j.Ok P) (hreach : j.Reaches P d c) :
    Archive P c.2.1.disk 1 0 (log ++ c.2.1.log) := by
  refine h.append (hreach.archive hmap hj) ?_ (fun e he => Nat.lt_succ_of_le (h.page_le hr he))
    (Nat.le_add_left ..) fun p hp => (hreach.at hmap hj).kept (Nat.le_of_lt_succ hp)
  rw [h.nextSequence_eq hr, UInt64.zero_add]

theorem History.archive (h : History P (Resumable P) d log) : Mapped P d ∧ Archive P d 1 0 log := by
  induction h with
  | start => exact ⟨mapped_empty P, .nil fun p _ hw => by cases hw.1⟩
  | session _ hr hj hreach ih =>
    obtain ⟨hmap, harch⟩ := ih
    exact ⟨(hreach.at hmap hj).mapped hmap, harch.session hr hmap hj hreach⟩

/-- The number behind the last one. -/
theorem Archive.follows (h : Archive P d 1 0 log) (hlen : log.length < 2 ^ 64) :
    Follows log (UInt64.ofNat log.length) := by
  have hval : ∀ (i : Nat) (e : Entry), log[i]? = some e → e.frame.sequence.toNat = i := by
    intro i e he
    obtain ⟨hi, -⟩ := List.getElem?_eq_some_iff.mp he
    rw [h.sequence i e he, UInt64.zero_add]
    exact UInt64.toNat_ofNat_of_lt (Nat.lt_trans hi hlen)
  rcases List.eq_nil_or_concat log with rfl | ⟨init, g, rfl⟩
  · exact Or.inl ⟨rfl, rfl⟩
  · rw [List.concat_eq_append] at *
    have hg := hval init.length g (by simp)
    refine Or.inr ⟨g, by simp, fun e he => ?_, ?_⟩
    · obtain ⟨i, hi, rfl⟩ := List.mem_iff_getElem.mp he
      rw [UInt64.le_iff_toNat_le, hg, hval i _ (List.getElem?_eq_getElem hi)]
      rw [List.length_append] at hi
      exact Nat.le_of_lt_succ hi
    · rw [hg, UInt64.toNat_ofNat_of_lt' hlen, List.length_append]
      rfl

end

/-- **Resume safety.**  In a history whose sessions all found the end of the journal, a
session that finds it too never changes a byte of a committed frame, and goes on with
the next sequence number; wherever it is cut off. -/
theorem resume_safety (P : PageSize) (d : Disk) (log : List Entry) (j : Job)
    (c : List Stmt × (World × Local)) (h : History P (Resumable P) d log) (hr : Resumable P d log)
    (hj : j.Ok P) (hreach : j.Reaches P d c) : ResumeSafe d log c.2.1 := by
  obtain ⟨hmap, harch⟩ := h.archive
  constructor
  · intro e he a _ _
    rw [((hreach.at hmap hj).kept (harch.page_le hr he)).2]
  · intro e he
    have hseq := (hreach.archive hmap hj).sequence 0 e (by rw [← List.head?_eq_getElem?]; exact he)
    rw [harch.nextSequence_eq hr] at hseq
    rw [hseq, show UInt64.ofNat 0 = 0 from rfl, UInt64.add_zero]
    exact harch.follows hr.numbers

/-- A history of two sessions with two writes each. -/
theorem resume_safety_two :
    ∃ d log c, History pageSizeDefault (Resumable pageSizeDefault) d log ∧ log.length = 2 ∧
      twoWrites.Reaches pageSizeDefault d ([], c) ∧ ResumeSafe d log c.1 := by
  have hok : twoWrites.Ok pageSizeDefault := by decide
  obtain ⟨s, hs⟩ := Job.returns (mapped_empty _) hok (Or.inl rfl)
  obtain ⟨thread, tail, hlog, hi⟩ := (hs.at (mapped_empty _) hok).ended
  have hplan : s.1.log = [⟨⟨1, 64⟩, (Write.mark 5 1 7).request.frame 0, thread⟩,
      ⟨⟨1, 128⟩, (Write.bytes 5 3 9 [4]).request.frame 1, thread⟩] := by
    rw [hlog]
    exact twoWrites_plan thread
  have hlive := hi.state.live
  rw [hplan] at hlive
  obtain ⟨-, hsecond, (hend : Slot.after _ _ = tail)⟩ := hlive.chain
  rw [← hsecond] at hend
  obtain rfl : (⟨1, 192⟩ : Slot) = tail :=
    (show (⟨1, 192⟩ : Slot) = Slot.after ⟨1, 128⟩
      ((Write.bytes 5 3 9 [4]).request.frame 1) by decide).trans hend
  have hhist := History.session (.start : History pageSizeDefault (Resumable pageSizeDefault) _ _)
    ⟨fun e he => (by cases he), fun e he => (by cases he), by decide⟩ hok hs
  rw [List.nil_append] at hhist
  obtain ⟨c, hc⟩ := Job.returns (hhist.archive.1) hok (Or.inl rfl)
  refine ⟨_, _, c, hhist, by rw [hplan]; rfl, hc, resume_safety _ _ _ twoWrites ([], c) hhist
    ⟨?_, ?_, ?_⟩ hok hc⟩
  · intro e he
    rw [hplan] at he
    cases he
    show pageHeaderSize < lastFramePosition (s.1.disk.image 1)
    rw [hi.state.extra.lasts 1 (Nat.le_refl 1) (Nat.le_refl 1), hplan]
    exact (by decide : 64 < 128)
  · intro e he _
    rw [hplan] at he
    cases he
    refine scanStops_of_zero ?_
    have hstride : ((Write.bytes 5 3 9 [4]).request.frame 1).stride = 64 := by decide
    have hzero := hlive.tail_zero fun _ _ => wordsZero_blank _
    show getFrameLength (s.1.disk.image 1)
        (128 + ((Write.bytes 5 3 9 [4]).request.frame 1).stride) = 0
    rw [hstride]
    exact hzero
  · rw [hplan]
    exact (by decide : 2 < 2 ^ 64)

/-- A session with one `mark`. -/
def oneMark (timestamp : Int64) : Job := ⟨true, 0, [.mark 5 timestamp 7]⟩

theorem oneMark_plan {timestamp : Int64} {d : Disk} (h : lastWritten d = 0) (thread : Nat) :
    (oneMark timestamp).plan pageSizeDefault d thread =
      [⟨⟨1, 64⟩, (Write.mark 5 timestamp 7).request.frame 0, thread⟩] := by
  have hroom : ¬ Overflows pageSizeDefault ⟨1, 64⟩ (Write.mark 5 timestamp 7).request.stride := by
    have hstride : (Write.mark 5 timestamp 7).request.stride = 64 := by
      show alignUp (frameHeaderSize + 0) frameAlignment = 64
      decide
    rw [hstride]
    decide
  rw [Job.plan, nextSequence, if_pos h, h]
  show place pageSizeDefault thread ⟨1, 64⟩ 0 (Write.mark 5 timestamp 7).request ++ [] = _
  rw [List.append_nil, place, makeRoom, if_neg hroom]
  rfl

/-- **A lone frame is overwritten.**  A session commits one frame and is destructed; the
next one starts on the same page, at the same address, with sequence number 0. -/
theorem lone_frame_overwritten :
    ∃ d log c, History pageSizeDefault (fun _ _ => True) d log ∧ (oneMark 2).Ok pageSizeDefault ∧
      (oneMark 2).Reaches pageSizeDefault d ([], c) ∧
      (∃ e ∈ log, FrameAt (d.image e.slot.page) e.slot.offset e.frame ∧
        ¬ FrameAt (c.1.disk.image e.slot.page) e.slot.offset e.frame) ∧ ¬ ResumeSafe d log c.1 := by
  have hok : (oneMark 1).Ok pageSizeDefault := by decide
  have hok' : (oneMark 2).Ok pageSizeDefault := by decide
  obtain ⟨s, hs⟩ := Job.returns (mapped_empty _) hok (Or.inl rfl)
  have hat := hs.at (mapped_empty _) hok
  obtain ⟨thread, tail, hlog, hi⟩ := hat.ended
  rw [oneMark_plan rfl] at hlog
  have hlive := hi.state.live
  -- the header still points at the first frame, so the page does not count as written
  have hzero : lastWritten s.1.disk = 0 := by
    by_contra hne
    have hw := lastWritten_spec (Nat.pos_of_ne_zero hne)
    have hlasts := hi.state.extra.lasts
    rw [hlog] at hlive hlasts
    rcases Nat.lt_or_ge tail.page (lastWritten s.1.disk) with hlt | hle
    · exact (hlive.ahead _ hlt).not_written hw
    · have hlt := (hlive.written_iff hlasts (Nat.pos_of_ne_zero hne) hle).mp hw
      have hone : ∀ p, lastOn [⟨⟨1, 64⟩, (Write.mark 5 1 7).request.frame 0, thread⟩] p =
          pageHeaderSize := by
        intro p
        rw [← List.nil_append [_], lastOn_concat]
        split <;> rfl
      rw [hone] at hlt
      exact Nat.lt_irrefl _ hlt
  have hmap := hat.mapped (mapped_empty _)
  obtain ⟨c, hc⟩ := Job.returns hmap hok' (Or.inl rfl)
  obtain ⟨thread', tail', hlog', hi'⟩ := (hc.at hmap hok').ended
  rw [oneMark_plan hzero] at hlog'
  have hfirst := hlive.frames ⟨⟨1, 64⟩, (Write.mark 5 1 7).request.frame 0, thread⟩
    (by rw [hlog]; simp)
  have hsecond := hi'.state.live.frames ⟨⟨1, 64⟩, (Write.mark 5 2 7).request.frame 0, thread'⟩
    (by rw [hlog']; simp)
  refine ⟨_, _, c, .session .start trivial hok hs, hok', hc,
    ⟨_, by rw [hlog]; exact List.mem_singleton.mpr rfl, hfirst, fun hkept => ?_⟩, fun hsafe => ?_⟩
  · have hne : (Write.mark 5 1 7).request.frame 0 ≠ (Write.mark 5 2 7).request.frame 0 := by decide
    exact hne (hkept.frame.symm.trans hsecond.frame)
  · have hnum := hsafe.numbered _ (by rw [hlog']; rfl)
    rw [hlog] at hnum
    rcases hnum with ⟨hnil, -⟩ | ⟨g, -, -, hval⟩
    · cases hnil
    · cases hval

end Revoq
