import Revoq.LiveReader

/-! # The Python binding

`JournalWriter.write` and the iterator of `JournalReader` in `revoq_py.cpp`.  `write`
passes any 32-bit `msg_type` on; the frame header keeps 16 bits of it.  A type that is
0 there hides the frame and everything behind it, and one that is that of `PageEnd`
sends the reader to the next page.

The reader has joined one journal, so `isDataAvailable` and `tryCurrentFrame` look at
the same frame.
-/
namespace Revoq
open ByteImage StmtMachine

/-- A call of `write`; `now` is what the clock shows should it rotate. -/
structure PyWrite where
  msgType : MsgType
  genTime : Int64
  data : List UInt8
  now : Int64
deriving DecidableEq

/-- The binding's lambda: `w.writeBytes(gen_time, static_cast<MsgType>(msg_type), …)`. -/
def PyWrite.write (c : PyWrite) : Write := .bytes c.now c.genTime c.msgType c.data

/-- `FrameSnap`. -/
structure FrameSnap where
  sequence : UInt64
  msgType : MsgType
  genTime : Int64
  eventTime : Int64
  flags : UInt16
  payload : List UInt8
deriving DecidableEq

/-- `Frame::getMsgType`, as a number a `MsgType` can hold. -/
def MsgType.ofHeader (t : UInt16) : MsgType := Int32.ofNat t.toNat

/-- `FrameSnap::from`. -/
def FrameSnap.from (f : Frame) : FrameSnap :=
  ⟨f.sequence, .ofHeader f.msgType, f.genTime, f.eventTime, f.flags, f.payload⟩

/-- How an iteration ends. -/
inductive IterationEnd where
  | stopIteration
  /-- `snap_and_advance` raised, or the interpreter died in it. -/
  | halted (how : Halt)
deriving DecidableEq

/-- **The iterator**, for at most `fuel` frames.  `snap_and_advance` takes the snapshot
first; if `advance` does not return it is lost. -/
def iterate (P : PageSize) : Nat → Reader → Disk → List FrameSnap × IterationEnd
  | 0, _, _ => ([], .halted .unfinished)
  | fuel + 1, r, d =>
      match r.tryCurrentFrame d with
      | none => ([], .stopIteration)
      | some v =>
        match r.advance P v d with
        | .error how => ([], .halted how)
        | .ok (d', r') =>
          let rest := iterate P fuel r' d'
          (.from (r.frame v d) :: rest.1, rest.2)

/-- Some of the sentinels are left out: frames of type `PageEnd` without a payload. -/
inductive DropsSentinels : List FrameSnap → List FrameSnap → Prop where
  | nil : DropsSentinels [] []
  | keep {s : FrameSnap} {snaps kept : List FrameSnap} (h : DropsSentinels snaps kept) :
      DropsSentinels (s :: snaps) (s :: kept)
  | drop {s : FrameSnap} {snaps kept : List FrameSnap} (ht : s.msgType = MsgType.pageEnd)
      (hp : s.payload = []) (h : DropsSentinels snaps kept) : DropsSentinels (s :: snaps) kept

theorem DropsSentinels.subset {snaps kept : List FrameSnap} (h : DropsSentinels snaps kept) :
    ∀ s ∈ kept, s ∈ snaps := by
  induction h with
  | nil => exact fun _ h => h
  | keep _ ih =>
    intro s hs
    rcases List.mem_cons.mp hs with rfl | hs
    · exact List.mem_cons_self
    · exact List.mem_cons_of_mem _ (ih s hs)
  | drop _ _ _ ih => exact fun s hs => List.mem_cons_of_mem _ (ih s hs)

/-- Iterating over a readable chain takes a snapshot of each of its frames. -/
theorem Readable.iterate {P : PageSize} {d : Disk} {s t : Slot} {es : List Entry} {r : Reader}
    (h : Readable P d s es t) (hr : r.At s) {fuel : Nat} (hfuel : es.length < fuel) :
    iterate P fuel r d = (es.map fun e => .from e.frame, .stopIteration) := by
  induction es generalizing s r fuel with
  | nil =>
    cases fuel with
    | zero => cases hfuel
    | succ fuel =>
      have hst : s = t := h.chain
      rw [Revoq.iterate, hr.look_none (hst ▸ h.stop)]
      rfl
  | cons e es ih =>
    cases fuel with
    | zero => cases hfuel
    | succ fuel =>
      obtain ⟨hlook, hframe, r', hadv, hr'⟩ := h.advance hr
      have hrest := ih h.tail hr' (Nat.lt_of_succ_lt_succ hfuel)
      rw [Revoq.iterate, hlook]
      simp only [hadv, hrest, hframe, List.map_cons]

/-- The call's data fits a page, and neither its time nor the clock is before time 0. -/
structure PyWrite.Fits (P : PageSize) (c : PyWrite) : Prop where
  fits : alignUp (frameHeaderSize + c.data.length) frameAlignment ≤ P.bytes - 128
  genTime : 0 ≤ c.genTime
  now : 0 ≤ c.now

instance (P : PageSize) (c : PyWrite) : Decidable (c.Fits P) :=
  decidable_of_iff (alignUp (frameHeaderSize + c.data.length) frameAlignment ≤ P.bytes - 128 ∧
    0 ≤ c.genTime ∧ 0 ≤ c.now)
      ⟨fun ⟨h1, h2, h3⟩ => ⟨h1, h2, h3⟩, fun h => ⟨h.fits, h.genTime, h.now⟩⟩

/-- The call's type survives the header and is not that of a sentinel. -/
structure PyWrite.Kept (c : PyWrite) : Prop where
  low : 1 ≤ c.msgType.toInt
  high : c.msgType.toInt ≤ 65535
  data : c.msgType ≠ MsgType.pageEnd

instance (c : PyWrite) : Decidable c.Kept :=
  decidable_of_iff (1 ≤ c.msgType.toInt ∧ c.msgType.toInt ≤ 65535 ∧ c.msgType ≠ MsgType.pageEnd)
    ⟨fun ⟨h1, h2, h3⟩ => ⟨h1, h2, h3⟩, fun h => ⟨h.low, h.high, h.data⟩⟩

theorem PyWrite.Kept.ok {P : PageSize} {c : PyWrite} (h : c.Kept) (hf : c.Fits P) : c.write.Ok P :=
  ⟨h.low, h.high, h.data, hf.fits⟩

end Revoq
