import Revoq.PageFile

/-! # The writer

`JournalWriter` of `JournalWriter.h`.  Its constructor and methods are lists of
statements; each statement is one access to the writer's shared fields, to the
warmer's ring, or one store into a mapped page.

A state is the shared `World` (directory, writer object, warmer, and the log of
the length stores made so far) with the `Local`s of the thread that executes.
`Entry`s of the log, `Local.meant` and `Local.opened` are history variables: they
record what a call set out to publish, and no statement branches on them.

Frame addresses are kept as offsets into a page (`Slot`), and page ids as natural
numbers, where the source has an `int` that is only ever counted up.  A rotation stands for
the `retired_pages_` and retire-thread bookkeeping too, which only unmaps pages.
Once the constructor has returned, `current_page_` is never null again, so the
methods' test for it is left out.
-/
namespace Revoq
open ByteImage StmtMachine

/-- A frame address: a page and an offset in it. -/
structure Slot where
  page : Nat
  offset : Nat
deriving DecidableEq

/-- A length store that has been made: where, and the frame it published. -/
structure Entry where
  slot : Slot
  frame : Frame
  /-- The thread that made the store. -/
  thread : Nat
deriving DecidableEq

/-- The mutable fields of a `JournalWriter`. -/
structure JournalWriter where
  prefault : Bool
  currentPageId : Nat
  /-- The id of the `Page` object in `current_page_`. -/
  currentPage : Nat
  /-- `current_frame_address_`, relative to `current_page_`. -/
  currentFrameAddress : Nat
  currentSequence : UInt64
  openFrameHeader : Option Slot := none
  writing : Bool := false
deriving DecidableEq

/-- `kWriterPageWarmerRingSize`. -/
def ringSize : Nat := 16

/-- `PageWarmer::PageSlot`. -/
structure PageSlot where
  /-- `-1` empty, `-2` being warmed, else the id of a ready page. -/
  pageId : Int := -1
  /-- The page whose file is mapped at `address`, unless it is null. -/
  address : Option Nat := none
  size : Nat := 0
  sequence : Nat := 0
  isOwned : Bool := false
deriving DecidableEq

/-- The fields of a `PageWarmer` that the writer and the warmer thread share. -/
structure PageWarmer where
  warmupDistance : Nat
  writeIndex : Nat := 0
  readIndex : Nat := 0
  currentPage : Int := -1
  ring : Fin ringSize → PageSlot := fun _ => {}

/-- `ring_[n & (RingSize - 1)]`. -/
def PageWarmer.slotIndex (n : Nat) : Fin ringSize := ⟨n % ringSize, Nat.mod_lt n (by decide)⟩

/-- `getWarmedPage` takes a slot: the caller owns the mapping now. -/
def PageWarmer.claim (g : PageWarmer) (idx : Fin ringSize) : PageWarmer :=
  { g with
    ring := Function.update g.ring idx { g.ring idx with pageId := -1, isOwned := false }
    readIndex := (PageWarmer.slotIndex (idx + 1)).val }

/-- What the threads of a writer process share. -/
structure World where
  disk : Disk
  writer : JournalWriter
  log : List Entry
  warmer : Option PageWarmer := none

/-- The locals of a thread inside a call, and what it keeps between
`openData` and `closeData`. -/
structure Local where
  thread : Nat := 0
  /-- `frame_header`, `end_hdr` or `hdr`. -/
  frameHeader : Slot := ⟨0, 0⟩
  /-- The frame the call is about to publish. -/
  meant : Frame := ⟨⟨0, 0, 0, 0, 0⟩, []⟩
  /-- The address of the `T&` that `openData` returned. -/
  reference : Slot := ⟨0, 0⟩
  /-- The frame the thread has open, as the caller and a hook that threw left it. -/
  opened : Frame := ⟨⟨0, 0, 0, 0, 0⟩, []⟩
  newPageId : Nat := 0
  load : LoadRegs := ⟨0, true, false, false, 0, false⟩
deriving DecidableEq

/-- The metadata hook of `closeData`: it may set the event time, and may throw. -/
structure Hook where
  eventTime : Option Int64 := none
  throws : Bool := false
deriving DecidableEq

/-- The statements of the writer's methods. -/
inductive Stmt where
  /-- One `writing_.exchange(true)`, repeated until it returns `false`. -/
  | acquire
  /-- `writing_.store(false)`. -/
  | release
  /-- The border test of `openFrame`; `now` and `env` are what a rotation would meet. -/
  | border (payloadSize : Nat) (now : Int64) (env : LoadEnv)
  /-- `new_page_id = current_page_id_.fetch_add(1) + 1`. -/
  | bumpPage
  /-- `if (page_warmer_)` of `rotatePage`. -/
  | nextPage (env : LoadEnv)
  /-- `getWarmedPage` loads the page id of its `i`-th slot. -/
  | probe (env : LoadEnv) (start i : Nat)
  /-- `getWarmedPage` tries to claim a slot that held the page. -/
  | claimSlot (env : LoadEnv) (start i : Nat)
  | loadFromAddress
  | updateCurrentPage
  /-- A statement of `Page::load(new_page_id, true, prefault_)`. -/
  | load (s : LoadStmt)
  /-- Takes `current_frame_address_` as the frame to build. -/
  | takeCursor (header : FrameHeader)
  /-- A store to a field of the frame's header. -/
  | put (f : Field) (value : Nat)
  | nextSeq
  | putSeq
  /-- A payload byte of `memcpy`. -/
  | putByte (i : Nat) (b : UInt8)
  /-- `open_frame_header_ = …`, and the reference is returned. -/
  | setOpen
  /-- A byte the caller stores through the reference. -/
  | fillByte (i : Nat) (b : UInt8)
  /-- `closeData` reads `open_frame_header_`, and throws if there is none. -/
  | takeOpen
  | hook (h : Hook)
  /-- The release-store of the length. -/
  | publish (payloadSize : Nat)
  | setLastFramePosition
  | moveCursor (payloadSize : Nat)
  | clearOpen
  /-- `current_page_ = next_page`, and the cursor goes to its first frame. -/
  | swapPage
  | findLastWrittenPage (env : LoadEnv)
  /-- The loop of `findLastWrittenPage` at a page. -/
  | scan (env : LoadEnv) (page : Nat)
  /-- Inside the `try` of that loop: what is left of `Page::load`. -/
  | scanLoad (env : LoadEnv) (page : Nat) (rest : List LoadStmt)
  | findLastSequenceNumber (env : LoadEnv) (page : Nat)
  /-- Inside the `try` of `findLastSequenceNumber`. -/
  | seqLoad (page : Nat) (rest : List LoadStmt)
  | startWarmer (warmupPages : Nat)

/-- `size_t total_size = sizeof(FrameHeader) + payload_size`. -/
def totalSize (payloadSize : Nat) : Nat := sizeT (frameHeaderSize + payloadSize)

/-- The stride `openFrame` and `closeFrame` compute for a payload. -/
def strideOf (payloadSize : Nat) : Nat := framePhysicalLength (narrow32 (totalSize payloadSize))

/-- `new (raw) FrameHeader{}`. -/
def newFrameHeader : List Stmt :=
  [.put FrameField.length 0, .put FrameField.msgType 0, .put FrameField.flags 0,
    .put FrameField.sequence 0, .put FrameField.genTime 0, .put FrameField.eventTime 0]

/-- The stores to a new header up to its sequence number. -/
def fillHeader (h : FrameHeader) : List Stmt :=
  newFrameHeader ++
    [.put FrameField.genTime h.genTime.toUInt64.toNat, .put FrameField.eventTime 0,
      .put FrameField.msgType h.msgType.toNat, .put FrameField.flags h.flags.toNat,
        .nextSeq, .putSeq]

/-- The header of a sentinel; its sequence is assigned when it is written. -/
def pageEndHeader (now : Int64) : FrameHeader := ⟨MsgType.pageEnd.toHeader, frameNormal, 0, now, 0⟩

/-- The sentinel part of `rotatePage` and the page swap. -/
def sealPage (now : Int64) : List Stmt :=
  .takeCursor (pageEndHeader now) :: fillHeader (pageEndHeader now) ++
    [.publish 0, .setLastFramePosition, .swapPage]

/-- `rotatePage`. -/
def rotatePage (now : Int64) (env : LoadEnv) : List Stmt :=
  .bumpPage :: .nextPage env :: sealPage now

/-- `openFrame`. -/
def openFrame (header : FrameHeader) (payloadSize : Nat) (now : Int64)
    (env : LoadEnv) : List Stmt :=
  .border payloadSize now env :: .takeCursor header :: fillHeader header ++
    [.put FrameField.length 0]

/-- `closeFrame`. -/
def closeFrame (payloadSize : Nat) (h : Hook) : List Stmt :=
  [.hook h, .publish payloadSize, .setLastFramePosition, .moveCursor payloadSize]

/-- The calls a user of the writer makes. -/
inductive Call where
  | openData (timestamp : Int64) (msgType : MsgType) (size : Nat) (flags : UInt16)
  /-- The user stores bytes through the reference `openData` returned. -/
  | fill (bytes : List UInt8)
  | closeData (size : Nat) (h : Hook)
  | mark (timestamp : Int64) (msgType : MsgType)
  | writeBytes (timestamp : Int64) (msgType : MsgType) (data : List UInt8)
deriving DecidableEq

/-- The header a call starts its frame with. -/
def headerOf (timestamp : Int64) (msgType : MsgType) (flags : UInt16) : FrameHeader :=
  ⟨msgType.toHeader, flags, 0, timestamp, 0⟩

/-- The statements of a call; `serialize` is the writer policy. -/
def Call.code (serialize : Bool) (now : Int64) (env : LoadEnv) : Call → List Stmt
  | .openData timestamp msgType size flags =>
      (if serialize then [.acquire] else []) ++
        openFrame (headerOf timestamp msgType flags) size now env ++ [.setOpen]
  | .fill bytes => bytes.mapIdx Stmt.fillByte
  | .closeData size h =>
      .takeOpen :: closeFrame size h ++ .clearOpen :: (if serialize then [.release] else [])
  | .mark timestamp msgType =>
      (if serialize then [.acquire] else []) ++
        openFrame (headerOf timestamp msgType frameNormal) 0 now env ++ closeFrame 0 {} ++
        (if serialize then [.release] else [])
  | .writeBytes timestamp msgType data =>
      (if serialize then [.acquire] else []) ++
        openFrame (headerOf timestamp msgType frameNormal) data.length now env ++
        data.mapIdx Stmt.putByte ++ closeFrame data.length {} ++
        (if serialize then [.release] else [])

/-- What runs when the call is left by an exception: `closeData` releases by
hand and `mark` and `writeBytes` through their guard; `openData` does nothing. -/
def Call.handler (serialize : Bool) : Call → List Stmt
  | .openData .. | .fill _ => []
  | .closeData .. | .mark .. | .writeBytes .. => if serialize then [.release] else []

/-- `loadInitialPage`. -/
def loadInitialPage (env : LoadEnv) : List Stmt :=
  .bumpPage :: (Page.loadCode env).map Stmt.load ++ [.swapPage]

/-- The constructor. -/
def construct (env : LoadEnv) (warmupPages : Nat) : List Stmt :=
  .findLastWrittenPage env :: loadInitialPage env ++
    (if warmupPages = 0 then [] else [.startWarmer warmupPages, .updateCurrentPage])

/-- The writer object when its constructor is entered. -/
def JournalWriter.new (prefault : Bool) : JournalWriter := ⟨prefault, 0, 0, 0, 0, none, false⟩

/-- The loop of `findLastSequenceNumber`: the sequence number of the last frame
found from `addr` on.  A turn moves on by at least `frameAlignment`, which bounds
the number of turns. -/
def lastSequenceFrom (P : PageSize) (m : Image) : Nat → Nat → Option UInt64 → Option UInt64
  | 0, _, last => last
  | fuel + 1, addr, last =>
      let len := getFrameLength m addr
      let stride := framePhysicalLength len
      let seq := UInt64.ofNat (FrameField.sequence.get m addr)
      if addr + frameHeaderSize > P.bytes then last
      else if len = 0 ∨ len < frameHeaderSize ∨ len > P.bytes then last
      else if addr + stride > P.bytes then last
      else if getMsgType m addr = MsgType.pageEnd.toHeader.toNat then some seq
      else lastSequenceFrom P m fuel (addr + stride) (some seq)

/-- `findLastSequenceNumber`, once the page is mapped. -/
def lastSequence (P : PageSize) (m : Image) : UInt64 :=
  (lastSequenceFrom P m (P.bytes / frameAlignment + 1) (firstFrameAddress m) none).getD 0

/-- Stores a word into the frame at `s`. -/
def World.store (w : World) (s : Slot) (offset width value : Nat) : World :=
  { w with disk := w.disk.write s.page (s.offset + offset) width value }

/-- One statement of a writer thread. -/
def Stmt.exec (P : PageSize) : Stmt → World × Local → Outcome (World × Local) Stmt
  | .acquire, (w, l) =>
      if w.writer.writing then .next (w, l) [.acquire]
      else .next ({ w with writer := { w.writer with writing := true } }, l) []
  | .release, (w, l) => .next ({ w with writer := { w.writer with writing := false } }, l) []
  | .border payloadSize now env, (w, l) =>
      if w.writer.currentFrameAddress + strideOf payloadSize > P.bytes - frameAlignment then
        .next (w, l) (rotatePage now env)
      else .next (w, l) []
  | .bumpPage, (w, l) =>
      .next ({ w with writer := { w.writer with currentPageId := w.writer.currentPageId + 1 } },
        { l with
          newPageId := w.writer.currentPageId + 1
          load := ⟨w.writer.currentPageId + 1, true, w.writer.prefault, false, 0, false⟩ }) []
  | .nextPage env, (w, l) =>
      match w.warmer with
      | none => .next (w, l) ((Page.loadCode env).map Stmt.load)
      | some g => .next (w, l) [.probe env g.readIndex 0, .updateCurrentPage]
  | .probe env start i, (w, l) =>
      match w.warmer with
      | none => .fault (w, l)
      | some g =>
        if i ≥ ringSize then .next (w, l) ((Page.loadCode env).map Stmt.load)
        else if (g.ring (PageWarmer.slotIndex (start + i))).pageId = l.newPageId then
          .next (w, l) [.claimSlot env start i]
        else .next (w, l) [.probe env start (i + 1)]
  | .claimSlot env start i, (w, l) =>
      match w.warmer with
      | none => .fault (w, l)
      | some g =>
        let idx := PageWarmer.slotIndex (start + i)
        let slot := g.ring idx
        if slot.pageId = l.newPageId then
          let w := { w with warmer := some (g.claim idx) }
          match slot.address with
          | none => .next (w, l) ((Page.loadCode env).map Stmt.load)
          | some page =>
            .next (w, { l with load := { l.load with page := page, opened := true } })
              [.loadFromAddress]
        else .next (w, l) [.probe env start (i + 1)]
  | .loadFromAddress, (w, l) =>
      let m := w.disk.image l.load.page
      if PageField.version.get m 0 = journalPageVersion ∧ firstFrameAddress m = pageHeaderSize then
        .next (w, l) []
      else .throw (w, l)
  | .updateCurrentPage, (w, l) =>
      .next ({ w with
        warmer := w.warmer.map fun g => { g with currentPage := w.writer.currentPageId } }, l) []
  | .load s, (w, l) =>
      match s.exec P (w.disk, l.load) with
      | .next (d, r) push => .next ({ w with disk := d }, { l with load := r }) (push.map Stmt.load)
      | .throw (d, r) => .throw ({ w with disk := d }, { l with load := r })
      | .fault (d, r) => .fault ({ w with disk := d }, { l with load := r })
  | .takeCursor header, (w, l) =>
      .next (w, { l with
        frameHeader := ⟨w.writer.currentPage, w.writer.currentFrameAddress⟩,
          meant := ⟨header, []⟩ }) []
  | .put f value, (w, l) => .next (w.store l.frameHeader f.offset f.width value, l) []
  | .nextSeq, (w, l) =>
      .next ({ w with writer := { w.writer with currentSequence := w.writer.currentSequence + 1 } },
        { l with meant := { l.meant with sequence := w.writer.currentSequence } }) []
  | .putSeq, (w, l) =>
      .next (w.store l.frameHeader FrameField.sequence.offset FrameField.sequence.width
        l.meant.sequence.toNat, l) []
  | .putByte i b, (w, l) =>
      .next (w.store l.frameHeader (frameHeaderSize + i) 1 b.toNat,
        { l with meant := { l.meant with payload := l.meant.payload ++ [b] } }) []
  | .setOpen, (w, l) =>
      .next ({ w with writer := { w.writer with openFrameHeader := some l.frameHeader } },
        { l with reference := l.frameHeader, opened := l.meant }) []
  | .fillByte i b, (w, l) =>
      .next (w.store l.reference (frameHeaderSize + i) 1 b.toNat,
        { l with opened := { l.opened with payload := l.opened.payload ++ [b] } }) []
  | .takeOpen, (w, l) =>
      match w.writer.openFrameHeader with
      | none => .throw (w, l)
      | some s => .next (w, { l with frameHeader := s, meant := l.opened }) []
  | .hook h, (w, l) =>
      let (w, l) := match h.eventTime with
        | none => (w, l)
        | some t => (w.store l.frameHeader FrameField.eventTime.offset FrameField.eventTime.width
            t.toUInt64.toNat, { l with meant := { l.meant with eventTime := t } })
      if h.throws then .throw (w, { l with opened := l.meant }) else .next (w, l) []
  | .publish payloadSize, (w, l) =>
      let w' := w.store l.frameHeader FrameField.length.offset FrameField.length.width
        (narrow32 (totalSize payloadSize))
      .next ({ w' with log := w.log ++ [⟨l.frameHeader, l.meant, l.thread⟩] }, l) []
  -- `closeData` may find its frame on a page that was rotated away since.  The code then
  -- stores a difference of two mappings' addresses and goes on; the model, which has no
  -- addresses, stops there
  | .setLastFramePosition, (w, l) =>
      if l.frameHeader.page = w.writer.currentPage then
        let d := w.disk.write w.writer.currentPage PageField.lastFramePosition.offset
          PageField.lastFramePosition.width l.frameHeader.offset
        .next ({ w with disk := d }, l) []
      else .fault (w, l)
  | .moveCursor payloadSize, (w, l) =>
      .next ({ w with writer := { w.writer with
        currentFrameAddress := l.frameHeader.offset + strideOf payloadSize } }, l) []
  | .clearOpen, (w, l) =>
      .next ({ w with writer := { w.writer with openFrameHeader := none } }, l) []
  | .swapPage, (w, l) =>
      .next ({ w with writer := { w.writer with
        currentPage := l.load.page
        currentFrameAddress := firstFrameAddress (w.disk.image l.load.page) } },
        { l with load := { l.load with opened := false } }) []
  | .findLastWrittenPage env, (w, l) =>
      match w.disk.listPageId.getLast? with
      | none => .next (w, l) []
      | some highest => .next (w, l) [.scan env highest]
  | .scan _ 0, (w, l) => .next (w, l) []
  | .scan env (page + 1), (w, l) =>
      .next (w, { l with load := ⟨page + 1, false, w.writer.prefault, false, 0, false⟩ })
        [.scanLoad env (page + 1) (Page.loadCode env)]
  | .scanLoad env page (s :: rest), (w, l) =>
      match s.exec P (w.disk, l.load) with
      | .next (d, r) push =>
          .next ({ w with disk := d }, { l with load := r }) [.scanLoad env page (push ++ rest)]
      | .throw (d, r) => .next ({ w with disk := d }, { l with load := r }) [.scan env (page - 1)]
      | .fault (d, r) => .fault ({ w with disk := d }, { l with load := r })
  | .scanLoad env page [], (w, l) =>
      if lastFramePosition (w.disk.image page) > pageHeaderSize then
        .next (w, l) [.findLastSequenceNumber env page]
      else .next (w, l) [.scan env (page - 1)]
  | .findLastSequenceNumber env page, (w, l) =>
      .next ({ w with writer := { w.writer with currentPageId := page } },
        { l with load := ⟨page, false, w.writer.prefault, false, 0, false⟩ })
        [.seqLoad page (Page.loadCode env)]
  | .seqLoad page (s :: rest), (w, l) =>
      match s.exec P (w.disk, l.load) with
      | .next (d, r) push =>
          .next ({ w with disk := d }, { l with load := r }) [.seqLoad page (push ++ rest)]
      | .throw (d, r) =>
          .next ({ w with disk := d, writer := { w.writer with currentSequence := 0 + 1 } },
            { l with load := r }) []
      | .fault (d, r) => .fault ({ w with disk := d }, { l with load := r })
  | .seqLoad page [], (w, l) =>
      .next ({ w with writer := { w.writer with
        currentSequence := lastSequence P (w.disk.image page) + 1 } }, l) []
  | .startWarmer warmupPages, (w, l) =>
      if warmupPages > ringSize then .throw (w, l)
      else
        .next ({ w with warmer := some { warmupDistance := min warmupPages (ringSize / 2) } }, l) []

/-- The log only grows. -/
theorem Stmt.exec_log {P : PageSize} {i : Stmt} {s s' : World × Local} {push : List Stmt}
    (h : i.exec P s = .next s' push) : s.1.log <+: s'.1.log := by
  obtain ⟨w, l⟩ := s
  cases i with
  | publish =>
    cases h
    exact List.prefix_append ..
  | scan env p => cases p <;> cases h <;> exact List.prefix_refl _
  | scanLoad env p rest | seqLoad p rest =>
    cases rest <;> simp only [exec] at h <;> (repeat' split at h) <;> cases h <;>
      exact List.prefix_refl _
  | hook h' =>
    cases h'.eventTime <;> simp only [exec] at h <;> (repeat' split at h) <;> cases h <;>
      exact List.prefix_refl _
  | _ =>
    simp only [exec] at h
    (repeat' split at h) <;> cases h <;> exact List.prefix_refl _

theorem step_log {P : PageSize} {c c' : List Stmt × (World × Local)}
    (h : StmtMachine.Step (Stmt.exec P) c c') : c.2.1.log <+: c'.2.1.log := by
  cases h with
  | next he => exact Stmt.exec_log he

end Revoq
