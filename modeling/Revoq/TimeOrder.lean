import Revoq.LinearMerge

/-! # Data frames and time

`rotatePage` stamps its sentinels with the clock, while data frames carry the user's
times.  The merge does not tell them apart: a sentinel that is stamped late holds back
the data frames behind it, and frames of other journals with later times overtake
them.

A frame is held back to the largest `gen_time` up to it in its own journal, its
*level*.  `time_ordered_iff` says in these terms when data frames come in order.
-/
namespace Revoq
open StmtMachine HeapContract GreedyMerge

/-- A frame the user asked for. -/
def Frame.IsUserData (f : Frame) : Prop := ¬ f.IsPageEnd

instance (f : Frame) : Decidable f.IsUserData := inferInstanceAs (Decidable (¬ _))

/-- **What one session has written**, with times that do not decrease; the clock is
anything. -/
structure SessionJournal (files : Files) (x : Location × UInt32) (ws : List Write)
    (es : List Entry) : Prop where
  ok : ∀ w ∈ ws, w.Ok (findPageSize x.1.category x.2) ∧ w.Timely
  before : ∀ w ∈ ws, w.timestamp < Int64.maxValue ∧ w.now < Int64.maxValue
  nondecreasing : (ws.map Write.timestamp).Pairwise (· ≤ ·)
  session : ∃ prefault s, Runs (Stmt.exec (findPageSize x.1.category x.2))
    (session ws, fresh prefault) ([], s) ∧
    files x.1.uid x.2 = s.1.disk ∧ s.1.log = es

section
variable {files : Files} {x : Location × UInt32} {ws : List Write} {es : List Entry}

theorem SessionJournal.storedAt (h : SessionJournal files x ws es) : StoredAt files x es := by
  obtain ⟨prefault, s, hrun, hdisk, rfl⟩ := h.session
  exact storedAt_session hdisk h.ok hrun

theorem SessionJournal.in_time (h : SessionJournal files x ws es) :
    ∀ e ∈ es, e.frame.genTime < Int64.maxValue := by
  obtain ⟨prefault, s, hrun, -, rfl⟩ := h.session
  intro e he
  obtain ⟨w, hw, ht | ht⟩ := session_genTime (fun w hw => (h.ok w hw).1) hrun he
  · rw [ht]
    exact (h.before w hw).1
  · rw [ht]
    exact (h.before w hw).2

/-- The user's frames carry the user's times. -/
theorem SessionJournal.times (h : SessionJournal files x ws es) :
    (dataOf es).map (fun f => f.genTime) = ws.map Write.timestamp := by
  obtain ⟨prefault, s, hrun, -, rfl⟩ := h.session
  obtain ⟨⟨thread, hlog⟩, -⟩ := session_log _ prefault (fun w hw => (h.ok w hw).1) hrun
  rw [hlog, dataOf_journal fun w hw => (h.ok w hw).1, List.map_map]
  rfl

theorem SessionJournal.sorted (h : SessionJournal files x ws es) :
    ((es.map Entry.frame).filter fun f => f.IsUserData).Pairwise
      fun a b => genTimeKey a ≤ genTimeKey b := by
  have hp := h.nondecreasing
  rw [← h.times, dataOf, List.map_map, List.pairwise_map] at hp
  rw [List.filter_map, List.pairwise_map]
  exact hp.imp fun hle => Int64.le_iff_toInt_le.mp hle

end

/-- The journals' contents, each with the writes that made it. -/
def SessionJournals (files : Files) (js : List (Location × UInt32))
    (srcs : List (List Entry)) : Prop :=
  List.Forall₂ (fun x es => ∃ ws, SessionJournal files x ws es) js srcs

section
variable {files : Files} {js : List (Location × UInt32)} {srcs : List (List Entry)}

theorem SessionJournals.mem (h : SessionJournals files js srcs) {es : List Entry}
    (hes : es ∈ srcs) :
    ∃ x ws, SessionJournal files x ws es := by
  obtain ⟨i, hlt, rfl⟩ := List.getElem_of_mem hes
  have hlt' : i < js.length := h.length_eq ▸ hlt
  obtain ⟨ws, hws⟩ := List.forall₂_iff_get.mp h |>.2 i hlt' hlt
  exact ⟨_, ws, hws⟩

/-- Times from 0 on. -/
theorem SessionJournals.nonneg (h : SessionJournals files js srcs) :
    ∀ l ∈ framesOf srcs, ∀ f ∈ l, 0 ≤ genTimeKey f := by
  intro l hl f hf
  obtain ⟨es, hes, rfl⟩ := List.mem_map.mp hl
  obtain ⟨e, he, rfl⟩ := List.mem_map.mp hf
  obtain ⟨x, ws, hrec⟩ := h.mem hes
  have := Int64.le_iff_toInt_le.mp (hrec.storedAt.2 e he)
  rwa [Int64.toInt_zero] at this

theorem SessionJournals.sorted (h : SessionJournals files js srcs) : ∀ l ∈ framesOf srcs,
    (l.filter fun f => f.IsUserData).Pairwise fun a b => genTimeKey a ≤ genTimeKey b := by
  intro l hl
  obtain ⟨es, hes, rfl⟩ := List.mem_map.mp hl
  obtain ⟨x, ws, hrec⟩ := h.mem hes
  exact hrec.sorted

theorem SessionJournals.in_time (h : SessionJournals files js srcs) : InTime srcs := by
  intro es hes
  obtain ⟨x, ws, hrec⟩ := h.mem hes
  exact hrec.in_time

/-- **The data frames of a drain**, in terms of levels. -/
theorem SessionJournals.delivered (h : SessionJournals files js srcs) (H : MergeHeap)
    (prefault : Bool) (fuel : Nat) (h2 : 2 ≤ js.length) (h3 : js.length ≤ 3) (hd : Distinct js) :
    ∃ r, ReaderCall.execAll H (joinAll (fuel + 1) js)
      (files, { prefault := prefault }) = some (files, r) ∧
      ∀ turns, total srcs < turns → ∃ out r',
        JournalReader.drain H turns (files, r) = some (out, (files, r')) ∧
        (((out.map Prod.snd).filter fun f => f.IsUserData).Pairwise
          (fun a b => a.genTime ≤ b.genTime) ↔
          InOrder genTimeKey Frame.IsUserData 0 (framesOf srcs)) := by
  have hst : List.Forall₂ (StoredAt files) js srcs := h.imp fun _ _ ⟨ws, hws⟩ => hws.storedAt
  obtain ⟨r, hr, hj⟩ := (joined_new files prefault).joinAll hd hst H fuel
  rw [List.nil_append, List.nil_append] at hj
  have hlen := hj.length_eq
  have hne : r.journals ≠ [] := by
    intro hnil
    rw [hnil, List.length_nil] at hlen
    omega
  have hlin : r.usesHeap = false := by
    have : ¬ r.journals.length > 3 := by omega
    simp [JournalReader.usesHeap, this]
  refine ⟨r, hr, fun turns hturns => ?_⟩
  obtain ⟨out, r', hdrain, hmerge, -⟩ :=
    (hj.readsFrom h2).drains_linear hne hlin hj.needsRebuild h.in_time turns hturns
  refine ⟨out, r', hdrain, ?_⟩
  rw [← hmerge.sorted_iff h.nonneg Frame.IsUserData h.sorted]
  simp only [genTimeKey, Int64.le_iff_toInt_le]

end

/-- **When data frames come in order of time.**  Two or three journals, joined from time
0, each written in one session with times that do not decrease, and sentinels with any
stamps: the data frames that draining delivers come with nondecreasing `gen_time` if
and only if, of two data frames of different journals, the one whose journal reaches
the lower level with it (or of equal levels the one of the journal joined first) has
no larger `gen_time`. -/
theorem time_ordered_iff (H : MergeHeap) (prefault : Bool) (files : Files)
    (js : List (Location × UInt32)) (srcs : List (List Entry)) (fuel : Nat) (h2 : 2 ≤ js.length)
    (h3 : js.length ≤ 3) (hd : Distinct js) (hrec : SessionJournals files js srcs) :
    ∃ r, ReaderCall.execAll H (joinAll (fuel + 1) js)
      (files, { prefault := prefault }) = some (files, r) ∧
      ∀ turns, total srcs < turns → ∃ out r',
        JournalReader.drain H turns (files, r) = some (out, (files, r')) ∧
        (((out.map Prod.snd).filter fun f => f.IsUserData).Pairwise
          (fun a b => a.genTime ≤ b.genTime) ↔
          InOrder genTimeKey Frame.IsUserData 0 (framesOf srcs)) :=
  hrec.delivered H prefault fuel h2 h3 hd

/-! ## Journals with and without a rotation -/

/-- What a session of writes leaves, read as a journal. -/
theorem recorded_session {ws : List Write} (hok : ∀ w ∈ ws, w.Ok pageSizeDefault ∧ w.Timely)
    (hbefore : ∀ w ∈ ws, w.timestamp < Int64.maxValue ∧ w.now < Int64.maxValue)
    (hsorted : (ws.map Write.timestamp).Pairwise (· ≤ ·)) :
    ∃ (d : Disk) (thread : Nat), ∀ (files : Files) (uid : UInt32), files uid 0 = d →
      SessionJournal files (⟨uid, .log⟩, 0) ws
        (journal pageSizeDefault thread ⟨1, pageHeaderSize⟩ 0 ws) := by
  obtain ⟨s, -, hrun, -⟩ := session_returns pageSizeDefault true fun w hw => (hok w hw).1
  obtain ⟨⟨thread, hlog⟩, -⟩ := session_log pageSizeDefault true (fun w hw => (hok w hw).1) hrun
  exact ⟨s.1.disk, thread, fun files uid hdisk =>
    ⟨hok, hbefore, hsorted, true, s, hrun, hdisk, hlog⟩⟩

/-- Two journals with a `mark` each. -/
theorem time_ordered_marks :
    ∃ (files : Files) (r : JournalReader) (out : List (Nat × Frame)) (s : Files × JournalReader),
      ReaderCall.execAll mergeBySorting (joinAll 1 [(⟨1, .log⟩, 0), (⟨2, .log⟩, 0)])
        (files, { prefault := false }) = some (files, r) ∧
      JournalReader.drain mergeBySorting 3 (files, r) = some (out, s) ∧
      ((out.map Prod.snd).filter fun f => f.IsUserData).Pairwise fun a b =>
        a.genTime ≤ b.genTime := by
  obtain ⟨d, thread, hrec⟩ := recorded_session
    (show ∀ w ∈ [Write.mark 5 1 7], w.Ok pageSizeDefault ∧ w.Timely by decide)
    (by decide) (by decide)
  have hall : SessionJournals (fun _ _ => d) [(⟨1, .log⟩, 0), (⟨2, .log⟩, 0)]
      [journal pageSizeDefault thread ⟨1, pageHeaderSize⟩ 0 [.mark 5 1 7],
        journal pageSizeDefault thread ⟨1, pageHeaderSize⟩ 0 [.mark 5 1 7]] :=
    .cons ⟨_, hrec _ 1 rfl⟩ (.cons ⟨_, hrec _ 2 rfl⟩ .nil)
  obtain ⟨r, hr, hdrain⟩ := time_ordered_iff mergeBySorting false _ _ _ 0 (by decide) (by decide)
    (by decide) hall
  obtain ⟨out, r', hout, hiff⟩ := hdrain 3 (Nat.lt_succ_self _)
  refine ⟨_, r, out, _, hr, hout, hiff.mpr ?_⟩
  have hframes : framesOf [journal pageSizeDefault thread ⟨1, pageHeaderSize⟩ 0 [.mark 5 1 7],
      journal pageSizeDefault thread ⟨1, pageHeaderSize⟩ 0 [.mark 5 1 7]] =
      List.replicate 2 [(Write.mark 5 1 7).request.frame 0] := rfl
  rw [hframes]
  -- both journals hold the same frame
  intro i j l l' hl hl' _ x hx y hy _ _ _
  have hone : ∀ {k : Nat} {m : List Frame},
      (List.replicate 2 [(Write.mark 5 1 7).request.frame 0])[k]? = some m →
      m = [(Write.mark 5 1 7).request.frame 0] := fun hm =>
    List.eq_of_mem_replicate (List.mem_of_getElem? hm)
  rw [hone hl] at hx
  rw [hone hl'] at hy
  rw [List.mem_singleton.mp hx, List.mem_singleton.mp hy]

/-- A frame that fills its page. -/
def pageful : Write := .bytes 5 1 7 (List.replicate 2096960 0)

theorem pageful_stride : pageful.request.stride = 2097024 := by
  simp only [Request.stride, Write.request, Write.payload, pageful, List.length_replicate]
  decide

theorem pageful_ok : pageful.Ok pageSizeDefault ∧ pageful.Timely := by
  refine ⟨⟨by decide, by decide, by decide, ?_⟩, by decide, by decide⟩
  simp only [Write.payload, pageful, List.length_replicate]
  decide

/-- A write that fills its page, and another one while the clock shows 100. -/
theorem journal_rotates {w : Write} (hs : w.request.stride = 2097024) (hd : w.request.IsData)
    (thread : Nat) :
    (journal pageSizeDefault thread ⟨1, pageHeaderSize⟩ 0 [w, .mark 100 2 7]).map Entry.frame =
      [w.request.frame 0, pageEndFrame 100 1, (Write.mark 100 2 7).request.frame 2] := by
  have hplace : place pageSizeDefault thread ⟨1, pageHeaderSize⟩ 0 w.request =
      [⟨⟨1, pageHeaderSize⟩, w.request.frame 0, thread⟩] := by
    rw [place, makeRoom, hs, if_neg (by decide)]
    rfl
  have hend : endOf ⟨1, pageHeaderSize⟩ (place pageSizeDefault thread ⟨1, pageHeaderSize⟩ 0
      w.request) = ⟨1, 2097088⟩ := by
    rw [hplace, endOf, List.foldl_cons, List.foldl_nil, Slot.after_data (hd.not_pageEnd 0),
      Request.frame_stride, hs]
    simp only [pageHeaderSize]
  have htail : (journal pageSizeDefault thread ⟨1, 2097088⟩ 1 [.mark 100 2 7]).map Entry.frame =
      [pageEndFrame 100 1, (Write.mark 100 2 7).request.frame 2] := rfl
  have hseq : 0 + UInt64.ofNat
      (place pageSizeDefault thread ⟨1, pageHeaderSize⟩ 0 w.request).length = 1 := by
    rw [hplace]
    rfl
  rw [journal_cons, hend, hseq, List.map_append, htail, hplace]
  rfl

/-- Two journals: a page-filling frame stamped 1 and one stamped 2 that is written
while the clock shows 100, and a frame stamped 50.  The frame stamped 50 is delivered
before the one stamped 2. -/
theorem time_order_overtaken :
    ∃ (files : Files) (srcs : List (List Entry)) (r : JournalReader) (out : List (Nat × Frame))
      (s : Files × JournalReader),
      SessionJournals files [(⟨1, .log⟩, 0), (⟨2, .log⟩, 0)] srcs ∧
      ReaderCall.execAll mergeBySorting (joinAll 1 [(⟨1, .log⟩, 0), (⟨2, .log⟩, 0)])
        (files, { prefault := false }) = some (files, r) ∧
      JournalReader.drain mergeBySorting (total srcs + 1) (files, r) = some (out, s) ∧
      ¬ ((out.map Prod.snd).filter fun f => f.IsUserData).Pairwise fun a b =>
          a.genTime ≤ b.genTime := by
  have hok : ∀ w ∈ [pageful, .mark 100 2 7], w.Ok pageSizeDefault ∧ w.Timely := by
    intro w hw
    rcases List.mem_cons.mp hw with rfl | hw
    · exact pageful_ok
    · rw [List.mem_singleton.mp hw]
      decide
  have hbefore : ∀ w ∈ [pageful, .mark 100 2 7], w.timestamp < Int64.maxValue ∧
      w.now < Int64.maxValue := by
    intro w hw
    rcases List.mem_cons.mp hw with rfl | hw
    · exact ⟨by decide, by decide⟩
    · rw [List.mem_singleton.mp hw]
      decide
  obtain ⟨d, thread, hrec⟩ := recorded_session hok hbefore
    (List.pairwise_pair.mpr (by decide))
  obtain ⟨d', thread', hrec'⟩ :=
    recorded_session
      (show ∀ w ∈ [Write.mark 5 50 7], w.Ok pageSizeDefault ∧ w.Timely by decide)
      (by decide) (by decide)
  let files : Files := fun uid _ => if uid = 1 then d else d'
  have hall : SessionJournals files [(⟨1, .log⟩, 0), (⟨2, .log⟩, 0)]
      [journal pageSizeDefault thread ⟨1, pageHeaderSize⟩ 0 [pageful, .mark 100 2 7],
        journal pageSizeDefault thread' ⟨1, pageHeaderSize⟩ 0 [.mark 5 50 7]] :=
    .cons ⟨_, hrec files 1 rfl⟩ (.cons ⟨_, hrec' files 2 rfl⟩ .nil)
  obtain ⟨r, hr, hdrain⟩ := hall.delivered mergeBySorting false 0 (by decide)
    (by decide) (by decide)
  obtain ⟨out, r', hout, hiff⟩ := hdrain _ (Nat.lt_succ_self _)
  refine ⟨files, _, r, out, _, hall, hr, hout, fun hsorted => ?_⟩
  have hord := hiff.mp hsorted
  rw [framesOf, List.map_cons, journal_rotates pageful_stride pageful_ok.1.isData] at hord
  -- the frame stamped 2 has level 100, the one stamped 50 has level 50
  have := hord 0 1 _ _ rfl rfl (by decide) (100, (Write.mark 100 2 7).request.frame 2)
    (List.mem_cons_of_mem _ (List.mem_cons_of_mem _ List.mem_cons_self))
    (50, (Write.mark 5 50 7).request.frame 0) List.mem_cons_self (by decide) (by decide) (by decide)
  exact absurd this (by decide)

end Revoq
