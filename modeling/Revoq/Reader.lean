import Revoq.Construct

/-! # Reading a journal

`Journal` of `Journal.h` and the single-journal path of `JournalReader`.  A reader
stands at a frame address of a mapped page.  `tryCurrentFrame` looks at the length
and type there, `advance` moves behind the frame, or to the next page after a
sentinel.

The reader's warmer thread is left out: it only ever offers a read-only mapping of
the page file that `Page::load` would map.  `page_frame_nb_` is never read.
-/
namespace Revoq
open ByteImage StmtMachine

namespace Page

/-- `Page::load` by a process that is not interrupted; a load has at most 13
statements. -/
def load (P : PageSize) (isWriting prefault : Bool) (p : Nat) (d : Disk) :
    Outcome (Disk × LoadRegs) LoadStmt :=
  run (LoadStmt.exec P) 13 (loadCode .succeeds) (d, ⟨p, isWriting, prefault, false, 0, false⟩)

/-- `Page::beginTime`. -/
def beginTime (m : Image) : Int64 :=
  if getFrameLength m (firstFrameAddress m) = 0 then 0
  else (readHeader m (firstFrameAddress m)).genTime

/-- `Page::endTime`. -/
def endTime (m : Image) : Int64 :=
  if getFrameLength m (lastFramePosition m) = 0 then 0
  else (readHeader m (lastFramePosition m)).genTime

/-- `Page::addressBorder`, relative to the page. -/
def addressBorder (m : Image) : Nat := PageField.pageSize.get m 0 - frameAlignment

/-- `Page::isFull`. -/
def isFull (m : Image) : Bool :=
  decide (lastFramePosition m + framePhysicalLength (getFrameLength m (lastFramePosition m)) >
    addressBorder m)

/-- The binary search of `Page::findPageId` over the page ids, between two indices; a
subscript outside the vector is read as the end of the process. -/
def searchPageId (P : PageSize) (ids : List Nat) (time : Int64) :
    Nat → Int → Int → Nat → Disk → Except Halt (Disk × Nat)
  | 0, _, _, _, _ => .error .unfinished
  | fuel + 1, left, right, best, d =>
      if left ≤ right then
        let mid := left + (right - left) / 2
        if mid < 0 then .error .died
        else
          match ids[mid.toNat]? with
          | none => .error .died
          | some page =>
            (load P false false page d).value.bind fun (d, _) =>
              let begin := beginTime (d.image page)
              -- a page without frames counts as too late
              if begin = 0 then searchPageId P ids time fuel left (mid - 1) best d
              else if begin ≤ time then searchPageId P ids time fuel (mid + 1) right page d
              else searchPageId P ids time fuel left (mid - 1) best d
      else .ok (d, best)

/-- `Page::findPageId`. -/
def findPageId (P : PageSize) (time : Int64) (d : Disk) : Except Halt (Disk × Nat) :=
  match d.listPageId with
  | [] => .ok (d, 1)
  | first :: ids =>
      if time = 0 then .ok (d, first)
      else searchPageId P (first :: ids) time (ids.length + 2) 0 ids.length first d

end Page

/-- A reader's `Journal`: its mode, and the page and frame it stands at. -/
structure Reader where
  prefault : Bool
  page : Option Nat := none
  offset : Nat := 0
deriving DecidableEq

/-- `JournalReader::FrameView`. -/
structure FrameView where
  frameLength : Nat
  msgType : Nat
deriving DecidableEq

namespace Reader

/-- `Journal::loadPage`.  A lazy reader that asks for a page whose file is missing dies:
its `open` creates the file empty, and the mapping has no readable byte. -/
def loadPage (P : PageSize) (r : Reader) (p : Nat) (d : Disk) : Except Halt (Disk × Reader) :=
  if r.page = some p then .ok (d, r)
  else (Page.load P false r.prefault p d).value.map fun (d, _) =>
    (d, { r with page := some p, offset := firstFrameAddress (d.image p) })

/-- The page the reader has mapped. -/
def image (r : Reader) (d : Disk) : Image := d.image (r.page.getD 0)

/-- `Journal::next(frame_length, msg_type)`. -/
def next (P : PageSize) (r : Reader) (v : FrameView) (d : Disk) : Except Halt (Disk × Reader) :=
  if v.msgType = MsgType.pageEnd.toHeader.toNat then r.loadPage P (r.page.getD 0 + 1) d
  else .ok (d, { r with offset := r.offset + framePhysicalLength v.frameLength })

/-- What the frame wrapper shows at the reader's position. -/
def current (r : Reader) (d : Disk) : FrameView :=
  ⟨getFrameLength (r.image d) r.offset, getMsgType (r.image d) r.offset⟩

/-- `tryCurrentFrame`, for a single journal. -/
def tryCurrentFrame (r : Reader) (d : Disk) : Option FrameView :=
  if hasData (r.current d).frameLength (r.current d).msgType then some (r.current d) else none

/-- `advance`, for a single journal. -/
def advance (P : PageSize) (r : Reader) (v : FrameView) (d : Disk) :
    Except Halt (Disk × Reader) :=
  r.next P v d

/-- What a consumer reads of the frame it was shown. -/
def frame (r : Reader) (v : FrameView) (d : Disk) : Frame :=
  ⟨readHeader (r.image d) r.offset, readPayload (r.image d) r.offset (getDataLength v.frameLength)⟩

/-- The page loop of `seekToTime`. -/
def skipPages (P : PageSize) (time : Int64) : Nat → Reader → Disk → Except Halt (Disk × Reader)
  | 0, _, _ => .error .unfinished
  | fuel + 1, r, d =>
      if Page.isFull (r.image d) ∧ Page.endTime (r.image d) < time then
        (r.loadPage P (r.page.getD 0 + 1) d).bind fun (d, r) => skipPages P time fuel r d
      else .ok (d, r)

/-- The frame loop of `seekToTime`. -/
def skipFrames (P : PageSize) (time : Int64) : Nat → Reader → Disk → Except Halt (Disk × Reader)
  | 0, _, _ => .error .unfinished
  | fuel + 1, r, d =>
      if (r.tryCurrentFrame d).isSome ∧ (readHeader (r.image d) r.offset).genTime < time then
        (r.next P (r.current d) d).bind fun (d, r) => skipFrames P time fuel r d
      else .ok (d, r)

/-- `Journal::seekToTime`; each loop is given `fuel` turns. -/
def seekToTime (P : PageSize) (fuel : Nat) (time : Int64) (r : Reader) (d : Disk) :
    Except Halt (Disk × Reader) :=
  (Page.findPageId P time d).bind fun (d, p) =>
    (r.loadPage P p d).bind fun (d, r) =>
      (skipPages P time fuel r d).bind fun (d, r) => skipFrames P time fuel r d

/-- `JournalReader::join` of its first journal. -/
def join (P : PageSize) (fuel : Nat) (prefault : Bool) (fromTime : Int64) (d : Disk) :
    Except Halt (Disk × Reader) := seekToTime P fuel fromTime { prefault } d

/-- `tryCurrentFrame` and `advance` until no frame is shown, for at most `fuel` frames. -/
def drain (P : PageSize) : Nat → Reader → Disk → Except Halt (List Frame)
  | 0, _, _ => .error .unfinished
  | fuel + 1, r, d =>
      match r.tryCurrentFrame d with
      | none => .ok []
      | some v => (r.advance P v d).bind fun (d', r') => (drain P fuel r' d').map (r.frame v d :: ·)

end Reader

/-! ## Standing on a chain -/

/-- **Loading a page in use changes nothing.** -/
theorem InUse.load {P : PageSize} {d : Disk} {p : Nat} (hu : InUse P d p)
    (isWriting prefault : Bool) :
    ∃ r, Page.load P isWriting prefault p d = .next (d, r) [] := by
  have go : ∀ n k r, k + n = 7 → r.page = p → (1 ≤ k → r.fileExists = true) →
      ∃ r', run (LoadStmt.exec P) (n + 6) ((Page.loadCode .succeeds).drop k) (d, r) =
        .next (d, r') [] := by
    intro n
    induction n with
    | zero =>
      rintro k r rfl - -
      exact ⟨r, rfl⟩
    | succ n ih =>
      rintro k r hk rfl hf
      obtain ⟨i, r', hcode, hexec, hpage, -, -, hfound⟩ := hu.load_step (k := k) (by omega) hf
      obtain ⟨r'', hrun⟩ := ih (k + 1) r' (by omega) hpage fun _ => hfound
      refine ⟨r'', ?_⟩
      rw [hcode, show n + 1 + 6 = n + 6 + 1 from rfl, run, hexec]
      exact hrun
  exact go 7 0 _ rfl rfl fun h => absurd h (by decide)

theorem Reader.loadPage_inUse {P : PageSize} {d : Disk} {p : Nat} (hu : InUse P d p) {r : Reader}
    (hr : r.page ≠ some p) :
    r.loadPage P p d = .ok (d, { r with page := some p, offset := pageHeaderSize }) := by
  obtain ⟨l, hl⟩ := hu.load false r.prefault
  have hfirst : firstFrameAddress (d.image p) = pageHeaderSize := hu.ready.header.headerLength
  rw [loadPage, if_neg hr, hl]
  simp only [Outcome.value, Except.ok_map, hfirst]

/-- The frames `es` stand on disk from slot `s` to slot `t`, where there is none. -/
structure Readable (P : PageSize) (d : Disk) (s : Slot) (es : List Entry) (t : Slot) : Prop where
  chain : Chained s es t
  frames : ∀ e ∈ es, FrameAt (d.image e.slot.page) e.slot.offset e.frame
  placed : ∀ e ∈ es, e.WellPlaced P
  stop : getFrameLength (d.image t.page) t.offset = 0
  used : ∀ p, s.page ≤ p → p ≤ t.page → InUse P d p

/-- The reader stands at the slot. -/
structure Reader.At (r : Reader) (s : Slot) : Prop where
  page : r.page = some s.page
  offset : r.offset = s.offset

/-- What `tryCurrentFrame` shows of a frame. -/
def viewOf (f : Frame) : FrameView := ⟨f.length, f.msgType.toNat⟩

theorem Entry.WellPlaced.stride_eq {P : PageSize} {e : Entry} (h : e.WellPlaced P) :
    framePhysicalLength e.frame.length = e.frame.stride := by
  have hn := P.narrow
  have hlt : e.frame.stride < 2 ^ 32 := by
    by_cases hp : e.frame.IsPageEnd
    · have : e.frame.length = 32 := by simp [Frame.length, (h.sentinel hp).1, frameHeaderSize]
      rw [Frame.stride, this]
      decide
    · have := h.data hp
      omega
  exact Nat.mod_eq_of_lt hlt

section
variable {P : PageSize} {d : Disk} {s t : Slot} {e : Entry} {es : List Entry} {r : Reader}

theorem Reader.At.image (h : r.At s) : r.image d = d.image s.page := by
  rw [Reader.image, h.page]
  rfl

theorem Reader.At.current (h : r.At s) :
    r.current d = ⟨getFrameLength (d.image s.page) s.offset,
      getMsgType (d.image s.page) s.offset⟩ := by
  rw [Reader.current, h.image, h.offset]

/-- At a slot without a frame there is nothing to see. -/
theorem Reader.At.look_none (h : r.At s) (hz : getFrameLength (d.image s.page) s.offset = 0) :
    r.tryCurrentFrame d = none := by
  rw [tryCurrentFrame, h.current, if_neg]
  simp [hasData, hz]

/-- At a frame, `tryCurrentFrame` shows it. -/
theorem Reader.At.look_some (h : r.At e.slot)
    (hf : FrameAt (d.image e.slot.page) e.slot.offset e.frame) (hw : e.WellPlaced P) :
    r.tryCurrentFrame d = some (viewOf e.frame) := by
  have hcur : r.current d = viewOf e.frame := by
    rw [h.current, hf.length, hf.getMsgType]
    rfl
  have hlen := e.frame.length_pos
  have htype : 0 < e.frame.msgType.toNat := by
    refine Nat.pos_of_ne_zero fun h0 => hw.visible (UInt16.toNat_inj.mp h0)
  rw [tryCurrentFrame, hcur, if_pos]
  simp [hasData, viewOf, hlen, htype]

/-- The consumer of a view reads the frame. -/
theorem Reader.At.frame_eq (h : r.At e.slot)
    (hf : FrameAt (d.image e.slot.page) e.slot.offset e.frame) :
    r.frame (viewOf e.frame) d = e.frame := by
  rw [Reader.frame, h.image, h.offset, show (viewOf e.frame).frameLength = e.frame.length from rfl,
    ← hf.length]
  exact hf.frame

/-- `advance` over a frame moves to the next slot and changes nothing. -/
theorem Reader.At.advance (h : r.At e.slot) (hw : e.WellPlaced P)
    (hu : e.frame.IsPageEnd → InUse P d (e.slot.page + 1)) :
    ∃ r', r.advance P (viewOf e.frame) d = .ok (d, r') ∧ r'.At (e.slot.after e.frame) := by
  by_cases hp : e.frame.IsPageEnd
  · have hview : (viewOf e.frame).msgType = MsgType.pageEnd.toHeader.toNat :=
      congrArg UInt16.toNat hp
    refine ⟨{ r with page := some (e.slot.page + 1), offset := pageHeaderSize }, ?_, ?_⟩
    · have hne : r.page ≠ some (e.slot.page + 1) := by
        rw [h.page]
        exact fun he => absurd (Option.some.inj he) (by omega)
      rw [Reader.advance, Reader.next, if_pos hview, h.page]
      exact Reader.loadPage_inUse (hu hp) hne
    · rw [Slot.after_pageEnd hp]
      exact ⟨rfl, rfl⟩
  · have hview : (viewOf e.frame).msgType ≠ MsgType.pageEnd.toHeader.toNat :=
      fun he => hp (UInt16.toNat_inj.mp he)
    refine ⟨{ r with offset := r.offset + e.frame.stride }, ?_, ?_⟩
    · rw [Reader.advance, Reader.next, if_neg hview, ← hw.stride_eq]
      rfl
    · rw [Slot.after_data hp]
      exact ⟨h.page, by rw [← h.offset]⟩

namespace Readable

theorem tail (h : Readable P d s (e :: es) t) : Readable P d (s.after e.frame) es t := by
  refine ⟨h.chain.2, fun x hx => h.frames x (List.mem_cons_of_mem _ hx),
    fun x hx => h.placed x (List.mem_cons_of_mem _ hx), h.stop, fun p h1 h2 => h.used p ?_ h2⟩
  have : s.page ≤ (s.after e.frame).page := by
    rcases s.after_page e.frame with ⟨h, -⟩ | h <;> omega
  omega

theorem advance (h : Readable P d s (e :: es) t) (hr : r.At s) :
    r.tryCurrentFrame d = some (viewOf e.frame) ∧ r.frame (viewOf e.frame) d = e.frame ∧
      ∃ r', r.advance P (viewOf e.frame) d = .ok (d, r') ∧ r'.At (s.after e.frame) := by
  have hslot : e.slot = s := h.chain.1
  rw [← hslot] at hr ⊢
  have hf := h.frames e List.mem_cons_self
  have hw := h.placed e List.mem_cons_self
  refine ⟨hr.look_some hf hw, hr.frame_eq hf, hr.advance hw fun hp => ?_⟩
  have hle := h.chain.2.page_le
  rw [Slot.after_pageEnd hp] at hle
  rw [hslot]
  exact h.used _ (Nat.le_succ _) hle

/-- **Draining a readable chain delivers it.** -/
theorem drain (h : Readable P d s es t) (hr : r.At s) {fuel : Nat} (hfuel : es.length < fuel) :
    r.drain P fuel d = .ok (es.map Entry.frame) := by
  induction es generalizing s r fuel with
  | nil =>
    cases fuel with
    | zero => cases hfuel
    | succ fuel =>
      have hst : s = t := h.chain
      rw [Reader.drain, hr.look_none (hst ▸ h.stop)]
      rfl
  | cons e es ih =>
    cases fuel with
    | zero => cases hfuel
    | succ fuel =>
      obtain ⟨hlook, hframe, r', hadv, hr'⟩ := h.advance hr
      have hrest := ih h.tail hr' (Nat.lt_of_succ_lt_succ hfuel)
      rw [Reader.drain, hlook]
      simp only [hadv, Except.ok_bind, hrest, hframe, Except.ok_map, List.map_cons]

end Readable
end

/-! ## What a session leaves to read -/

/-- No frame area the session started from has anything where a length could be. -/
def WordsZero (P : PageSize) (b : Image) : Prop :=
  ∀ o, 64 ∣ o → 64 ≤ o → o + 4 ≤ P.bytes → getFrameLength b o = 0

theorem Live.inUse {P : PageSize} {C : Ctx} {d : Disk} {log : List Entry} {tail : Slot}
    (h : Live P C d log tail) {p : Nat} (h1 : C.first ≤ p) (h2 : p ≤ tail.page) : InUse P d p := by
  refine ⟨h.ready p h1 h2, ?_, ?_⟩
  · rcases h.last p h1 h2 with h64 | ⟨e, he, hs⟩
    · exact Nat.le_of_eq h64.symm
    · have := (h.entry_grid he).2
      rwa [hs] at this
  · rcases h.last p h1 h2 with h64 | ⟨e, he, hs⟩
    · rw [h64]
      exact pageHeaderSize_lt P
    · have := h.entry_room he
      rw [hs] at this
      exact Nat.lt_of_lt_of_le (Nat.lt_add_of_pos_right (by decide)) this

theorem Live.tail_zero {P : PageSize} {C : Ctx} {d : Disk} {log : List Entry} {tail : Slot}
    (h : Live P C d log tail) (hz : ∀ p, C.first ≤ p → WordsZero P (C.base p)) :
    getFrameLength (d.image tail.page) tail.offset = 0 := by
  rcases h.tailWord with h0 | hb
  · exact h0
  · rw [hb]
    have := h.room
    exact hz _ h.first_le _ h.grid.1 h.grid.2 (by omega)

theorem Live.readable {P : PageSize} {C : Ctx} {d : Disk} {log : List Entry} {tail : Slot}
    (h : Live P C d log tail) (hz : ∀ p, C.first ≤ p → WordsZero P (C.base p)) :
    Readable P d ⟨C.first, pageHeaderSize⟩ log tail :=
  ⟨h.chain, h.frames, h.placed, h.tail_zero hz, fun _ h1 h2 => h.inUse h1 h2⟩

end Revoq
