import Revoq.GreedyMerge
import Revoq.MergeSelect

/-! # Draining several journals

A reader has joined journals whose page files do not change any more.  Each journal
stands in front of a chain of frames (`InFront`); a turn of `tryCurrentFrame` and
`advance` takes the head of one chain (`ReadsFrom.shown`).  Which one is taken is up
to the selection, so draining is a merge of the chains.
-/
namespace Revoq
open ByteImage StmtMachine HeapContract GreedyMerge

/-- **Fixed contents**: the page files hold the frames from their first page on, each
page can be loaded, and the first page's `last_frame_position` is at one of them. -/
structure Stored (P : PageSize) (d : Disk) (es : List Entry) : Prop where
  readable : ∃ p t, Readable P d ⟨p, pageHeaderSize⟩ es t ∧ d.listPageId.head? = some p ∧
    (lastFramePosition (d.image p) = pageHeaderSize ∨
      ∃ e ∈ es, e.slot = ⟨p, lastFramePosition (d.image p)⟩)

/-- What one session has written in an empty directory. -/
theorem stored_session {P : PageSize} {prefault : Bool} {ws : List Write} (hws : ∀ w ∈ ws, w.Ok P)
    {s : World × Local} (hrun : Runs (Stmt.exec P) (session ws, fresh prefault) ([], s)) :
    Stored P s.1.disk s.1.log := by
  obtain ⟨-, tail, hi⟩ := session_log P prefault hws hrun
  have hlive := hi.state.live
  exact ⟨1, tail, hlive.readable fun _ _ => wordsZero_blank P, hlive.head_listPageId,
    hlive.last 1 (Nat.le_refl 1) hlive.first_le⟩

/-- Its frames are stamped by the user or by the clock. -/
theorem session_genTime {P : PageSize} {prefault : Bool} {ws : List Write} (hws : ∀ w ∈ ws, w.Ok P)
    {s : World × Local} (hrun : Runs (Stmt.exec P) (session ws, fresh prefault) ([], s)) {e : Entry}
    (he : e ∈ s.1.log) : ∃ w ∈ ws, e.frame.genTime = w.timestamp ∨ e.frame.genTime = w.now := by
  obtain ⟨⟨thread, hlog⟩, -⟩ := session_log P prefault hws hrun
  rw [hlog] at he
  obtain ⟨r, hr, -, htime⟩ := mem_layOut he
  obtain ⟨w, hw, rfl⟩ := List.mem_map.mp hr
  exact ⟨w, hw, htime⟩

/-- The journal stands in front of the frames. -/
structure InFront (files : Files) (j : Journal) (es : List Entry) : Prop where
  readable : ∃ s t, j.cursor.At s ∧ Readable j.pageSize (j.disk files) s es t

theorem Journal.hasData_eq (j : Journal) (files : Files) :
    j.hasData files = (j.cursor.tryCurrentFrame (j.disk files)).isSome := by
  unfold hasData Reader.tryCurrentFrame
  split <;> simp_all [Journal.current]

theorem Journal.put_disk (j : Journal) (files : Files) : j.put files (j.disk files) = files := by
  funext uid destId
  unfold put
  split
  · rename_i h
    rw [h.1, h.2]
    rfl
  · rfl

section
variable {files : Files} {j : Journal} {e : Entry} {es : List Entry}

theorem InFront.hasData_nil (h : InFront files j []) : j.hasData files = false := by
  obtain ⟨s, t, hat, hread⟩ := h.readable
  have hst : s = t := hread.chain
  rw [j.hasData_eq, hat.look_none (hst ▸ hread.stop)]
  rfl

/-- What is seen of the first frame. -/
structure Seen (files : Files) (j : Journal) (f : Frame) : Prop where
  hasData : j.hasData files = true
  current : j.current files = Revoq.viewOf f
  genTime : j.genTime files = f.genTime
  frame : j.cursor.frame (Revoq.viewOf f) (j.disk files) = f

theorem InFront.seen (h : InFront files j (e :: es)) : Seen files j e.frame := by
  obtain ⟨s, t, hat, hread⟩ := h.readable
  obtain ⟨hlook, hframe, -⟩ := hread.advance hat
  have hs : e.slot = s := hread.chain.1
  have hf := hread.frames e List.mem_cons_self
  have hcur : j.current files = Revoq.viewOf e.frame := by
    unfold Reader.tryCurrentFrame at hlook
    split at hlook
    · exact Option.some.inj hlook
    · cases hlook
  refine ⟨?_, hcur, ?_, hframe⟩
  · rw [j.hasData_eq, hlook]
    rfl
  · rw [Journal.genTime, hat.image, hat.offset, ← hs, hf.header]

/-- Moving over it. -/
theorem InFront.next (h : InFront files j (e :: es)) :
    ∃ c, j.next (j.current files) files = .ok (files, { j with cursor := c }) ∧
      InFront files { j with cursor := c } es := by
  obtain ⟨s, t, hat, hread⟩ := h.readable
  obtain ⟨-, -, c, hadv, hat'⟩ := hread.advance hat
  refine ⟨c, ?_, ⟨_, t, hat', hread.tail⟩⟩
  have hn : j.cursor.next j.pageSize (Revoq.viewOf e.frame)
      (j.disk files) = .ok (j.disk files, c) := hadv
  rw [h.seen.current, Journal.next, hn]
  simp only [Except.ok_map, j.put_disk]

end

/-! ## Turns -/

/-- The frames of each journal. -/
def framesOf (srcs : List (List Entry)) : List (List Frame) := srcs.map (List.map Entry.frame)

/-- The `gen_time` of a journal's first frame. -/
def firstTime (srcs : List (List Entry)) (i : Nat) : Option Int64 :=
  (srcs[i]?.bind List.head?).map fun e => e.frame.genTime

/-- What a merge goes by. -/
def genTimeKey (f : Frame) : Int := f.genTime.toInt

/-- The reader's journals stand in front of these frames; there are several. -/
structure ReadsFrom (files : Files) (r : JournalReader) (srcs : List (List Entry)) : Prop where
  standing : List.Forall₂ (InFront files) r.journals srcs
  address : ∀ (i : Nat) (j : Journal), r.journals[i]? = some j → j.address = i
  singleJournal : r.singleJournal = none
  singleFrame : r.singleFrame = none

section
variable {H : MergeHeap} {files : Files} {r q : JournalReader} {srcs : List (List Entry)} {i : Nat}
  {e : Entry} {rest : List Entry}

theorem ReadsFrom.of_journals (h : ReadsFrom files r srcs) (hj : q.journals = r.journals)
    (h1 : q.singleJournal = r.singleJournal) (h2 : q.singleFrame = r.singleFrame) :
    ReadsFrom files q srcs :=
  ⟨hj ▸ h.standing, hj ▸ h.address, h1.trans h.singleJournal, h2.trans h.singleFrame⟩

theorem ReadsFrom.refresh (h : ReadsFrom files r srcs) : ReadsFrom files (r.refresh H files) srcs :=
  h.of_journals JournalReader.refresh_journals sameJournals_refresh.singleJournal
    sameJournals_refresh.singleFrame

theorem ReadsFrom.length_eq (h : ReadsFrom files r srcs) : r.journals.length = srcs.length :=
  h.standing.length_eq

theorem ReadsFrom.journal (h : ReadsFrom files r srcs) {es : List Entry} (hs : srcs[i]? = some es) :
    ∃ j, r.journals[i]? = some j ∧ InFront files j es := by
  obtain ⟨hlt, rfl⟩ := List.getElem?_eq_some_iff.mp hs
  have hlt' : i < r.journals.length := h.length_eq ▸ hlt
  exact ⟨_, List.getElem?_eq_getElem hlt', List.forall₂_iff_get.mp h.standing |>.2 i hlt' hlt⟩

/-- The heads are the first frames. -/
theorem ReadsFrom.heads_eq (h : ReadsFrom files r srcs) (i : Nat) :
    r.heads files i = firstTime srcs i := by
  unfold firstTime
  cases hs : srcs[i]? with
  | none =>
    have : r.journals.length ≤ i := by
      rw [h.length_eq]
      exact List.getElem?_eq_none_iff.mp hs
    rw [JournalReader.heads, List.getElem?_eq_none this]
    rfl
  | some es =>
    obtain ⟨j, hj, hst⟩ := h.journal hs
    rw [JournalReader.heads_of hj]
    cases es with
    | nil => simp [Journal.head, hst.hasData_nil]
    | cons e es => exact Journal.head_eq_some.mpr ⟨hst.seen.hasData, hst.seen.genTime⟩

theorem ReadsFrom.heads_some (h : ReadsFrom files r srcs) {t : Int64}
    (ht : r.heads files i = some t) :
    ∃ e rest, srcs[i]? = some (e :: rest) ∧ e.frame.genTime = t := by
  rw [h.heads_eq, firstTime, Option.map_eq_some_iff] at ht
  obtain ⟨e, he, rfl⟩ := ht
  obtain ⟨es, hes, hhead⟩ := Option.bind_eq_some_iff.mp he
  cases es with
  | nil => cases hhead
  | cons a rest =>
    cases hhead
    exact ⟨e, rest, hes, rfl⟩

theorem ReadsFrom.heads_of_cons (h : ReadsFrom files r srcs) (hs : srcs[i]? = some (e :: rest)) :
    r.heads files i = some e.frame.genTime := by
  rw [h.heads_eq, firstTime, hs]
  rfl

theorem framesOf_heads {f : Frame} {l : List Frame} (h : Heads (framesOf srcs) i f l) :
    ∃ e rest, srcs[i]? = some (e :: rest) ∧ e.frame = f ∧ rest.map Entry.frame = l := by
  rw [Heads, framesOf, List.getElem?_map, Option.map_eq_some_iff] at h
  obtain ⟨es, hes, hmap⟩ := h
  cases es with
  | nil => cases hmap
  | cons e rest =>
    obtain ⟨h1, h2⟩ := List.cons.inj hmap
    exact ⟨e, rest, hes, h1, h2⟩

theorem heads_framesOf (hs : srcs[i]? = some (e :: rest)) :
    Heads (framesOf srcs) i e.frame (rest.map Entry.frame) := by
  rw [Heads, framesOf, List.getElem?_map, hs]
  rfl

theorem framesOf_set (srcs : List (List Entry)) (i : Nat) (rest : List Entry) :
    framesOf (srcs.set i rest) = (framesOf srcs).set i (rest.map Entry.frame) := List.map_set

/-- A least head is a frame a greedy merge may take. -/
theorem ReadsFrom.least (h : ReadsFrom files r srcs) (hl : LeastHead (r.heads files) i)
    (hs : srcs[i]? = some (e :: rest)) :
    Least genTimeKey (framesOf srcs) i e.frame (rest.map Entry.frame) := by
  obtain ⟨t, ht, hall⟩ := hl
  cases (h.heads_of_cons hs).symm.trans ht
  refine ⟨heads_framesOf hs, fun k f l hk => ?_⟩
  obtain ⟨e', rest', hs', rfl, -⟩ := framesOf_heads hk
  exact Int64.le_iff_toInt_le.mp (hall k _ (h.heads_of_cons hs'))

theorem ReadsFrom.firstLeast (h : ReadsFrom files r srcs) (hl : FirstLeastHead (r.heads files) i)
    (hs : srcs[i]? = some (e :: rest)) :
    FirstLeast genTimeKey (framesOf srcs) i e.frame (rest.map Entry.frame) := by
  refine ⟨h.least hl.least hs, fun k f l hlt hk => ?_⟩
  obtain ⟨t, ht, hall⟩ := hl
  cases (h.heads_of_cons hs).symm.trans ht
  obtain ⟨e', rest', hs', rfl, -⟩ := framesOf_heads hk
  exact Int64.lt_iff_toInt_lt.mp ((hall k _ (h.heads_of_cons hs')).2 hlt)

theorem ReadsFrom.dry (h : ReadsFrom files r srcs) (hd : Dry (r.heads files)) :
    ∀ l ∈ framesOf srcs, l = [] := by
  intro l hl
  obtain ⟨es, hes, rfl⟩ := List.mem_map.mp hl
  obtain ⟨k, hk⟩ := List.mem_iff_getElem?.mp hes
  cases es with
  | nil => rfl
  | cons e rest =>
    have := hd k
    rw [h.heads_of_cons hk] at this
    cases this

theorem ReadsFrom.deref (h : ReadsFrom files r srcs) {j : Journal} (hj : r.journals[i]? = some j) :
    r.deref i = some j := by
  obtain ⟨hlt, hget⟩ := List.getElem?_eq_some_iff.mp hj
  rw [JournalReader.deref, List.find?_eq_some_iff_getElem]
  refine ⟨by simp [h.address i j hj], i, hlt, hget, fun k hk => ?_⟩
  have := h.address k _ (List.getElem?_eq_getElem (Nat.lt_trans hk hlt))
  simp only [this, Bool.not_eq_eq_eq_not, Bool.not_true, decide_eq_false_iff_not]
  omega

/-- **A turn**: the current frame is shown, read and passed over. -/
theorem ReadsFrom.shown (h : ReadsFrom files r srcs)
    (hi : (r.refresh H files).currentJournalIdx = some i) (hs : srcs[i]? = some (e :: rest)) :
    ∃ v, r.tryCurrentFrame H files = some (some v, r.refresh H files) ∧ v.frame = i ∧
      (r.refresh H files).frame v files = some e.frame ∧
      ∃ journals, JournalReader.advance H v.toFrameView (files, r.refresh H files) =
          JournalReader.reselect H (files, { r.refresh H files with journals := journals }) ∧
        ReadsFrom files { r.refresh H files with journals := journals } (srcs.set i rest) ∧
        journals.length = r.journals.length := by
  have hq : ReadsFrom files (r.refresh H files) srcs := h.refresh
  generalize hqe : r.refresh H files = q at hi hq
  obtain ⟨j, hj, hst⟩ := hq.journal hs
  have hseen := hst.seen
  have hlt : i < q.journals.length := (List.getElem?_eq_some_iff.mp hj).1
  have hraw : q.currentFrameRaw = some j := by
    rw [JournalReader.currentFrameRaw_eq, hi]
    exact hj
  have havail : r.isDataAvailable H files = some (true, q) := by
    unfold JournalReader.isDataAvailable
    simp only [h.singleFrame, hqe, hraw, hseen.hasData]
  have hview : JournalReader.viewOf files j = some ⟨Revoq.viewOf e.frame, i⟩ := by
    rw [JournalReader.viewOf, if_pos hseen.hasData, hseen.current, hq.address i j hj]
  refine ⟨⟨Revoq.viewOf e.frame, i⟩, ?_, rfl, ?_, ?_⟩
  · unfold JournalReader.tryCurrentFrame
    simp only [h.singleFrame, havail, hraw, Option.map_some, hview]
  · rw [JournalReader.frame, hq.deref hj, Option.map_some, hseen.frame]
  · obtain ⟨c, hnext, hst'⟩ := hst.next
    refine ⟨q.journals.set i { j with cursor := c }, ?_,
      ⟨?_, ?_, hq.singleJournal, hq.singleFrame⟩, ?_⟩
    · rw [JournalReader.advance_several hq.singleJournal,
        JournalReader.next_several hi hlt hq.singleJournal]
      simp only [JournalReader.stepJournal, hj, hnext, Result.andThen]
    · rw [List.forall₂_iff_get]
      refine ⟨by simp [hq.length_eq], fun k hk hk' => ?_⟩
      simp only [List.get_eq_getElem, List.getElem_set]
      split
      · exact hst'
      · exact (List.forall₂_iff_get.mp hq.standing).2 k (by simpa using hk) (by simpa using hk')
    · intro k j' hk
      by_cases hik : i = k
      · subst hik
        rw [List.getElem?_set_self hlt] at hk
        cases hk
        exact hq.address i j hj
      · rw [List.getElem?_set_ne hik] at hk
        exact hq.address k j' hk
    · rw [List.length_set, ← hqe, JournalReader.refresh_journals]

/-- **No frame is shown** when nothing could be selected. -/
theorem ReadsFrom.not_shown (h : ReadsFrom files r srcs) (hne : r.journals ≠ [])
    (hi : (r.refresh H files).currentJournalIdx = none) :
    r.tryCurrentFrame H files = some (none, { r.refresh H files with needsRebuild := true }) := by
  have hraw : (r.refresh H files).currentFrameRaw = none := by
    rw [JournalReader.currentFrameRaw_eq, hi]
    rfl
  have hemp : (r.refresh H files).journals.isEmpty = false := by
    rw [JournalReader.refresh_journals]
    simpa using hne
  have havail : r.isDataAvailable H files = some
      (false, { r.refresh H files with needsRebuild := true }) := by
    unfold JournalReader.isDataAvailable
    simp only [h.singleFrame, hraw, hemp, Bool.false_eq_true, if_false]
  unfold JournalReader.tryCurrentFrame
  simp only [h.singleFrame, havail]

end

/-! ## Draining -/

/-- **Draining is a merge** of the journals' frames by `pick`, and when it is over no
frame is shown any more. -/
def DrainsAs (pick : List (List Frame) → Nat → Frame → List Frame → Prop) (H : MergeHeap)
    (files : Files) (r : JournalReader) (srcs : List (List Entry)) : Prop :=
  ∀ fuel, total srcs < fuel → ∃ out r', JournalReader.drain H fuel (files, r) =
    some (out, (files, r')) ∧
    Merges pick (framesOf srcs) out ∧ r'.tryCurrentFrame H files = some (none, r')

section
variable {pick : List (List Frame) → Nat → Frame → List Frame → Prop}
  {H : MergeHeap} {files : Files} {r : JournalReader} {srcs : List (List Entry)} {i : Nat}
  {e : Entry} {rest : List Entry}

/-- A turn, and what comes after it. -/
theorem ReadsFrom.drains_shown (h : ReadsFrom files r srcs)
    (hi : (r.refresh H files).currentJournalIdx = some i) (hs : srcs[i]? = some (e :: rest))
    (hpick : pick (framesOf srcs) i e.frame (rest.map Entry.frame))
    (hnext : ∀ journals,
      ReadsFrom files { r.refresh H files with journals := journals } (srcs.set i rest) →
      journals.length = r.journals.length →
      ∃ q, JournalReader.reselect H (files, { r.refresh H files with journals := journals }) =
          .returns (files, q) ∧ DrainsAs pick H files q (srcs.set i rest)) :
    DrainsAs pick H files r srcs := by
  intro fuel hfuel
  cases fuel with
  | zero => cases hfuel
  | succ fuel =>
    obtain ⟨v, hlook, hv, hframe, journals, hadv, hreads, hlen⟩ := h.shown hi hs
    obtain ⟨q, hq, hdrains⟩ := hnext journals hreads hlen
    have hheads : Heads srcs i e rest := hs
    obtain ⟨out, r', hdrain, hmerge, hend⟩ := hdrains fuel (by
      have := hheads.total_eq
      omega)
    refine ⟨(i, e.frame) :: out, r', ?_, .take hpick (framesOf_set srcs i rest ▸ hmerge), hend⟩
    rw [JournalReader.drain]
    simp only [hlook, hframe, hadv, hq, hdrain, Option.map_some, hv]

/-- The end: a rebuild is due and there are no heads. -/
theorem ReadsFrom.drains_dry (h : ReadsFrom files r srcs) (hne : r.journals ≠ [])
    (hd : Dry (r.heads files)) (hn : r.needsRebuild = true) : DrainsAs pick H files r srcs := by
  have once : ∀ q : JournalReader, ReadsFrom files q srcs → q.journals = r.journals →
      q.needsRebuild = true →
      q.tryCurrentFrame H files = some
        (none, { q with currentJournalIdx := none, needsRebuild := true }) := by
    intro q hq hj hqn
    have hrefresh :
        q.refresh H files = { q with currentJournalIdx := none, needsRebuild := false } := by
      rw [JournalReader.refresh, if_pos hqn, rebuildHeap_dry (hj ▸ hne) fun i => ?_]
      rw [JournalReader.heads, hj]
      exact hd i
    have := hq.not_shown (H := H) (hj ▸ hne) (by rw [hrefresh])
    rw [this, hrefresh]
  intro fuel hfuel
  cases fuel with
  | zero => cases hfuel
  | succ fuel =>
    refine ⟨[], { r with currentJournalIdx := none, needsRebuild := true }, ?_,
      .done (h.dry hd), ?_⟩
    · rw [JournalReader.drain]
      simp only [once r h rfl hn]
    · exact once _ (h.of_journals rfl rfl rfl) rfl rfl

end

/-! ## Joining -/

/-- The calls that join the journals from time 0. -/
def joinAll (fuel : Nat) (js : List (Location × UInt32)) : List ReaderCall :=
  js.map fun x => .join fuel x.1 x.2 0

/-- The page files of a journal that is not joined yet hold the frames. -/
def StoredAt (files : Files) (x : Location × UInt32) (es : List Entry) : Prop :=
  Stored (findPageSize x.1.category x.2) (files x.1.uid x.2) es ∧ ∀ e ∈ es, 0 ≤ e.frame.genTime

/-- The calls that join the journals at a time. -/
def joinAllAt (fuel : Nat) (time : Int64) (js : List (Location × UInt32)) : List ReaderCall :=
  js.map fun x => .join fuel x.1 x.2 time

/-- A new reader of the journal that seeks the time ends up in front of the frames. -/
def SeeksTo (files : Files) (prefault : Bool) (fuel : Nat) (time : Int64) (x : Location × UInt32)
    (es : List Entry) : Prop :=
  ∃ c s t, Reader.join (findPageSize x.1.category x.2) fuel prefault time (files x.1.uid x.2) =
      .ok (files x.1.uid x.2, c) ∧ c.At s ∧
    Readable (findPageSize x.1.category x.2) (files x.1.uid x.2) s es t

theorem StoredAt.seeksTo {files : Files} {x : Location × UInt32} {es : List Entry}
    (h : StoredAt files x es) (prefault : Bool) (fuel : Nat) :
    SeeksTo files prefault (fuel + 1) 0 x es := by
  obtain ⟨⟨p, t, hread, hfirst, hlast⟩, htime⟩ := h
  obtain ⟨c, hseek, hat⟩ := hread.join hfirst hlast htime fuel prefault
  exact ⟨c, _, t, hseek, hat, hread⟩

theorem storedAt_session {files : Files} {x : Location × UInt32} {prefault : Bool} {ws : List Write}
    {s : World × Local} (hdisk : files x.1.uid x.2 = s.1.disk)
    (hws : ∀ w ∈ ws, w.Ok (findPageSize x.1.category x.2) ∧ w.Timely)
    (hrun : Runs (Stmt.exec (findPageSize x.1.category x.2)) (session ws, fresh prefault) ([], s)) :
    StoredAt files x s.1.log := by
  refine ⟨hdisk ▸ stored_session (fun w hw => (hws w hw).1) hrun, fun e he => ?_⟩
  obtain ⟨w, hw, h | h⟩ := session_genTime (fun w hw => (hws w hw).1) hrun he
  · rw [h]
    exact (hws w hw).2.1
  · rw [h]
    exact (hws w hw).2.2

/-- No two of the journals are the same. -/
def Distinct (js : List (Location × UInt32)) : Prop := (js.map fun x => (x.1.uid, x.2)).Nodup

instance (js : List (Location × UInt32)) : Decidable (Distinct js) :=
  inferInstanceAs (Decidable (List.Nodup _))

/-- The reader has joined the journals, and done nothing else. -/
structure Joined (files : Files) (r : JournalReader) (js : List (Location × UInt32))
    (srcs : List (List Entry)) : Prop where
  standing : List.Forall₂ (InFront files) r.journals srcs
  address : ∀ (i : Nat) (j : Journal), r.journals[i]? = some j → j.address = i
  labels : (r.journals.map fun j => (j.location, j.destId)) = js
  allocated : r.allocated = r.journals.length
  needsRebuild : r.needsRebuild = true
  useHeap : r.useHeap = true
  heap : r.heap = []
  bookkeeping : Bookkeeping r

section
variable {H : MergeHeap} {files : Files} {r : JournalReader} {js : List (Location × UInt32)}
  {srcs : List (List Entry)}

theorem Joined.keys (h : Joined files r js srcs) :
    r.journals.map Journal.key = js.map fun x => makeKey x.1.uid x.2 := by
  rw [← h.labels, List.map_map]
  rfl

theorem joined_new (files : Files) (prefault : Bool) :
    Joined files { prefault := prefault } [] [] :=
  ⟨.nil, fun i j h => (by cases h), rfl, rfl, rfl, rfl, rfl,
    ⟨rfl, List.nodup_nil, fun j hj => (by cases hj), fun _ => ⟨rfl, rfl⟩⟩⟩

/-- **Joining one more journal.** -/
theorem Joined.joinAt (h : Joined files r js srcs) {x : Location × UInt32} {es : List Entry}
    (hnew : Distinct (js ++ [x])) {fuel : Nat} {time : Int64}
    (hseeks : SeeksTo files r.prefault fuel time x es) :
    ∃ r', JournalReader.join fuel x.1 x.2 time (files, r) = .returns (files, r') ∧
      Joined files r' (js ++ [x]) (srcs ++ [es]) ∧ r'.prefault = r.prefault := by
  -- another journal, hence another key
  obtain ⟨location, destId⟩ := x
  have hkey : makeKey location.uid destId ∉ r.joinedKeys := by
    rw [h.bookkeeping.keys, List.mem_toFinset, h.keys, List.mem_map]
    rintro ⟨y, hy, hk⟩
    obtain ⟨h1, h2⟩ := makeKey_injective hk
    rw [Distinct, List.map_append, List.nodup_append] at hnew
    exact hnew.2.2 _ (List.mem_map_of_mem hy) _ (List.mem_singleton.mpr rfl) (by rw [h1, h2])
  obtain ⟨c, s, t, hseek, hat, hread⟩ := hseeks
  let j : Journal := ⟨r.allocated, location, destId, c⟩
  have hstand : InFront files j es := ⟨s, t, hat, hread⟩
  obtain ⟨r', hr'⟩ : ∃ r' : JournalReader, r' = { r with
    journals := r.journals ++ [j]
    joinedKeys := insert (makeKey location.uid destId) r.joinedKeys
    allocated := r.allocated + 1 } := ⟨_, rfl⟩
  have hjoin : JournalReader.join fuel location destId time (files, r) =
      .returns (files, { r'.refreshSingleJournal with needsRebuild := true }) := by
    have hseek' : Reader.seekToTime (findPageSize location.category destId) fuel time
        { prefault := r.prefault } (files location.uid destId) =
          .ok (files location.uid destId, c) := hseek
    have hput := Journal.put_disk ⟨r.allocated, location, destId, { prefault := r.prefault }⟩ files
    simp only [Journal.disk] at hput
    simp only [JournalReader.join, if_neg hkey, Journal.pageSize, Journal.disk,
      hseek', hput, hr', j]
  refine ⟨_, hjoin, ⟨?_, ?_, ?_, ?_, rfl, ?_, ?_, h.bookkeeping.join (Or.inl hjoin)⟩, ?_⟩ <;>
    simp only [JournalReader.refreshSingleJournal_prefault,
      JournalReader.refreshSingleJournal_journals, JournalReader.refreshSingleJournal_allocated,
        JournalReader.refreshSingleJournal_useHeap, JournalReader.refreshSingleJournal_heap, hr']
  · exact List.rel_append h.standing (.cons hstand .nil)
  · intro i j' hi
    rcases Nat.lt_trichotomy i r.journals.length with hlt | rfl | hgt
    · rw [List.getElem?_append_left hlt] at hi
      exact h.address i j' hi
    · rw [List.getElem?_concat_length] at hi
      cases hi
      exact h.allocated
    · rw [List.getElem?_eq_none (by simp; omega)] at hi
      cases hi
  · simp only [List.map_append, h.labels, List.map_cons, List.map_nil, j]
  · simp only [List.length_append, List.length_singleton, h.allocated]
  · exact h.useHeap
  · exact h.heap

/-- **Joining them all** at a time. -/
theorem Joined.joinAllAt (h : Joined files r js srcs) {js' : List (Location × UInt32)}
    {srcs' : List (List Entry)} (hd : Distinct (js ++ js')) {fuel : Nat} {time : Int64}
    (hst : List.Forall₂ (SeeksTo files r.prefault fuel time) js' srcs') (H : MergeHeap) :
    ∃ r', ReaderCall.execAll H (Revoq.joinAllAt fuel time js') (files, r) = some (files, r') ∧
      Joined files r' (js ++ js') (srcs ++ srcs') := by
  generalize hp : r.prefault = prefault at hst
  induction hst generalizing r js srcs with
  | nil =>
    rw [List.append_nil, List.append_nil]
    exact ⟨r, rfl, h⟩
  | @cons x es js' srcs' hx _ ih =>
    rw [List.append_cons] at hd ⊢
    have hd' : Distinct (js ++ [x]) := by
      rw [Distinct, List.map_append, List.nodup_append] at hd
      exact hd.1
    obtain ⟨r₁, hr₁, hj₁, hp₁⟩ := h.joinAt hd' (hp ▸ hx)
    obtain ⟨r', hr', hj'⟩ := ih hj₁ hd (hp₁.trans hp)
    refine ⟨r', ?_, by rw [List.append_cons srcs]; exact hj'⟩
    rw [Revoq.joinAllAt, List.map_cons, ReaderCall.execAll, ReaderCall.exec, hr₁]
    exact hr'

/-- **Joining them all.** -/
theorem Joined.joinAll (h : Joined files r js srcs) {js' : List (Location × UInt32)}
    {srcs' : List (List Entry)} (hd : Distinct (js ++ js'))
    (hst : List.Forall₂ (StoredAt files) js' srcs') (H : MergeHeap) (fuel : Nat) :
    ∃ r', ReaderCall.execAll H (Revoq.joinAll (fuel + 1) js') (files, r) = some (files, r') ∧
      Joined files r' (js ++ js') (srcs ++ srcs') :=
  h.joinAllAt hd (hst.imp fun _ _ hx => hx.seeksTo r.prefault fuel) H

theorem Joined.length_eq (h : Joined files r js srcs) : r.journals.length = js.length := by
  rw [← h.labels, List.length_map]

theorem Joined.readsFrom (h : Joined files r js srcs) (h2 : 2 ≤ js.length) :
    ReadsFrom files r srcs := by
  have hlen : r.journals.length ≠ 1 := by
    rw [h.length_eq]
    omega
  obtain ⟨h1, h2⟩ := h.bookkeeping.several hlen
  exact ⟨h.standing, h.address, h1, h2⟩

end

/-! ## Journals to try things on -/

/-- Four journals. -/
def fourJournals : List (Location × UInt32) :=
  [(⟨0, .log⟩, 0), (⟨1, .log⟩, 0), (⟨2, .log⟩, 0), (⟨3, .log⟩, 0)]

/-- Their page files. -/
def fourFiles (s₀ s₁ s₂ s₃ : World × Local) : Files := fun uid _ =>
  if uid = 0 then s₀.1.disk else if uid = 1 then s₁.1.disk else if uid = 2 then
    s₂.1.disk else s₃.1.disk

/-- What a session of a few writes leaves. -/
def written (ws : List Write) : Option (World × Local) :=
  (run (Stmt.exec pageSizeDefault) 90 (session ws) (fresh true)).ended

end Revoq
