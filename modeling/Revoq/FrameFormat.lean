import Mathlib.Tactic.Linarith
import Revoq.ByteImage

/-! # Frames

The frame format of `JournalFrame.h`.  A frame is a 32-byte header followed by
its payload; the next frame starts at the next multiple of 64.  The header's
first word is the frame's length, stored last: a frame whose length word is
zero is not there yet.

Widths matter in three places and are kept explicit: the length word has 32
bits, `framePhysicalLength` computes and returns a `uint32_t`, and `MsgType` is
a 32-bit enumeration that the header keeps in 16 bits.
-/
namespace Revoq
open ByteImage

/-! ## Constants -/

/-- `JOURNAL_PAGE_VERSION`. -/
def journalPageVersion : Nat := 2

/-- `FRAME_ALIGNMENT`. -/
def frameAlignment : Nat := 64

/-- `sizeof(FrameHeader)`. -/
def frameHeaderSize : Nat := 32

/-- `FRAME_NORMAL`. -/
def frameNormal : UInt16 := 0

/-- `enum class MsgType : std::int32_t`; a caller may pass any value of the type. -/
abbrev MsgType := Int32

/-- `MsgType::PageEnd`. -/
def MsgType.pageEnd : MsgType := 10000

/-- `static_cast<uint16_t>(msg_type)`. -/
def MsgType.toHeader (t : MsgType) : UInt16 := t.toUInt32.toUInt16

/-- `static_cast<uint32_t>` of a `size_t`. -/
def narrow32 (n : Nat) : Nat := n % 2 ^ 32

/-- A `size_t` result. -/
def sizeT (n : Nat) : Nat := n % 2 ^ 64

/-- `alignUp`.  Its only caller passes 32-bit values, so the `size_t` sum is exact. -/
def alignUp (value alignment : Nat) : Nat := (value + alignment - 1) / alignment * alignment

/-- `framePhysicalLength`: the stride of a frame, as a `uint32_t`. -/
def framePhysicalLength (logicalLength : Nat) : Nat :=
  narrow32 (alignUp logicalLength frameAlignment)

theorem alignUp_dvd (n : Nat) : 64 ∣ alignUp n frameAlignment := Nat.dvd_mul_left ..

theorem le_alignUp (n : Nat) : n ≤ alignUp n frameAlignment := by
  simp only [alignUp, frameAlignment]
  omega

theorem alignUp_lt (n : Nat) : alignUp n frameAlignment < n + 64 := by
  simp only [alignUp, frameAlignment]
  omega

/-! ## Headers -/

/-- A field of a packed record: its offset and width in bytes. -/
structure Field where
  offset : Nat
  width : Nat
deriving DecidableEq

/-- The field's value in the record at `base`. -/
def Field.get (f : Field) (m : Image) (base : Nat) : Nat := load m (base + f.offset) f.width

namespace FrameField

def length : Field := ⟨0, 4⟩
def msgType : Field := ⟨4, 2⟩
def flags : Field := ⟨6, 2⟩
def sequence : Field := ⟨8, 8⟩
def genTime : Field := ⟨16, 8⟩
def eventTime : Field := ⟨24, 8⟩

end FrameField

/-- The metadata of a `FrameHeader`: every field but the length. -/
@[ext] structure FrameHeader where
  msgType : UInt16
  flags : UInt16
  sequence : UInt64
  genTime : Int64
  eventTime : Int64
deriving DecidableEq

/-- A frame: its metadata and its payload. -/
structure Frame extends FrameHeader where
  payload : List UInt8
deriving DecidableEq

namespace Frame

/-- The logical length, in exact arithmetic. -/
def length (f : Frame) : Nat := frameHeaderSize + f.payload.length

/-- The room the frame takes, in exact arithmetic. -/
def stride (f : Frame) : Nat := alignUp f.length frameAlignment

/-- The frame is a sentinel: readers leave the page after it. -/
def IsPageEnd (f : Frame) : Prop := f.msgType = MsgType.pageEnd.toHeader

instance (f : Frame) : Decidable f.IsPageEnd := inferInstanceAs (Decidable (_ = _))

theorem length_le_stride (f : Frame) : f.length ≤ f.stride := le_alignUp _

theorem header_le_stride (f : Frame) : frameHeaderSize ≤ f.stride :=
  Nat.le_trans (Nat.le_add_right ..) f.length_le_stride

theorem stride_dvd (f : Frame) : 64 ∣ f.stride := alignUp_dvd _

theorem stride_pos (f : Frame) : 64 ≤ f.stride := by
  obtain ⟨k, hk⟩ := f.stride_dvd
  have := f.header_le_stride
  simp only [frameHeaderSize] at this
  omega

end Frame

/-! ## Reading a frame in place -/

/-- `Frame::getFrameLength`. -/
def getFrameLength (m : Image) (o : Nat) : Nat := FrameField.length.get m o

/-- The metadata `Frame`'s accessors return for the header at `o`. -/
def readHeader (m : Image) (o : Nat) : FrameHeader where
  msgType := UInt16.ofNat (FrameField.msgType.get m o)
  flags := UInt16.ofNat (FrameField.flags.get m o)
  sequence := UInt64.ofNat (FrameField.sequence.get m o)
  genTime := (UInt64.ofNat (FrameField.genTime.get m o)).toInt64
  eventTime := (UInt64.ofNat (FrameField.eventTime.get m o)).toInt64

/-- `Frame::getMsgType`: the 16-bit field, widened. -/
def getMsgType (m : Image) (o : Nat) : Nat := FrameField.msgType.get m o

/-- `Frame::getDataLength(frame_length)`. -/
def getDataLength (frameLength : Nat) : Nat :=
  if frameLength < frameHeaderSize then 0 else frameLength - frameHeaderSize

/-- `Frame::hasData(frame_length, msg_type)`. -/
def hasData (frameLength msgType : Nat) : Bool := decide (0 < frameLength) && decide (0 < msgType)

/-- The payload bytes `Frame::dataAsBytes` points at. -/
def readPayload (m : Image) (o n : Nat) : List UInt8 :=
  (List.range n).map fun i => m (o + frameHeaderSize + i)

/-- Everything a consumer can read of the frame at `o`. -/
def readFrame (m : Image) (o : Nat) : Frame where
  toFrameHeader := readHeader m o
  payload := readPayload m o (getDataLength (getFrameLength m o))

/-- The committed frame `f` stands at offset `o`. -/
structure FrameAt (m : Image) (o : Nat) (f : Frame) : Prop where
  length : getFrameLength m o = f.length
  frame : readFrame m o = f

theorem readHeader_congr {m m' : Image} {o : Nat}
    (h : Set.EqOn m m' (Set.Ico (o + 4) (o + frameHeaderSize))) :
    readHeader m o = readHeader m' o := by
  have field : ∀ f : Field, 4 ≤ f.offset → f.offset + f.width ≤ 32 → f.get m o = f.get m' o :=
    fun f h1 h2 => load_congr (h.mono (Set.Ico_subset_Ico (by omega)
      (by simp only [frameHeaderSize]; omega)))
  simp only [readHeader, field FrameField.msgType (by decide) (by decide),
    field FrameField.flags (by decide) (by decide),
    field FrameField.sequence (by decide) (by decide),
    field FrameField.genTime (by decide) (by decide),
    field FrameField.eventTime (by decide) (by decide)]

theorem readPayload_congr {m m' : Image} {o n : Nat}
    (h : Set.EqOn m m' (Set.Ico (o + frameHeaderSize) (o + frameHeaderSize + n))) :
    readPayload m o n = readPayload m' o n := by
  refine List.map_congr_left fun i hi => h ⟨by omega, ?_⟩
  have := List.mem_range.mp hi
  omega

theorem length_readPayload (m : Image) (o n : Nat) : (readPayload m o n).length = n := by
  simp [readPayload]

theorem FrameAt.mk' {m : Image} {o : Nat} {f : Frame} (hl : getFrameLength m o = f.length)
    (hh : readHeader m o = f.toFrameHeader) (hp : readPayload m o f.payload.length = f.payload) :
    FrameAt m o f := by
  have hd : getDataLength (getFrameLength m o) = f.payload.length := by
    rw [hl, getDataLength, Frame.length, if_neg (by omega)]
    omega
  exact ⟨hl, by rw [readFrame, hd, hh, hp]⟩

theorem FrameAt.header {m : Image} {o : Nat} {f : Frame} (h : FrameAt m o f) :
    readHeader m o = f.toFrameHeader := congrArg Frame.toFrameHeader h.frame

theorem FrameAt.payload {m : Image} {o : Nat} {f : Frame} (h : FrameAt m o f) :
    readPayload m o f.payload.length = f.payload := by
  have hp : readPayload m o (getDataLength (getFrameLength m o)) = f.payload :=
    congrArg Frame.payload h.frame
  have hn := congrArg List.length hp
  rw [length_readPayload] at hn
  rwa [hn] at hp

/-- **A committed frame depends only on its own bytes.** -/
theorem FrameAt.congr {m m' : Image} {o : Nat} {f : Frame} (hf : FrameAt m o f)
    (h : Set.EqOn m m' (Set.Ico o (o + f.length))) : FrameAt m' o f := by
  have hlen : f.length = frameHeaderSize + f.payload.length := rfl
  refine FrameAt.mk' ?_ ?_ ?_
  · rw [← hf.length]
    refine (load_congr (h.mono (Set.Ico_subset_Ico (by simp [FrameField.length]) ?_))).symm
    simp only [FrameField.length, hlen, frameHeaderSize]
    omega
  · rw [← hf.header]
    exact (readHeader_congr (h.mono (Set.Ico_subset_Ico (by omega) (by omega)))).symm
  · rw [← readPayload_congr (h.mono (Set.Ico_subset_Ico (by omega) (by omega)))]
    exact hf.payload

theorem Frame.length_pos (f : Frame) : 0 < f.length := by
  simp only [length, frameHeaderSize]
  omega

/-- The message type a reader sees is the one in the header. -/
theorem FrameAt.getMsgType {m : Image} {o : Nat} {f : Frame} (h : FrameAt m o f) :
    getMsgType m o = f.msgType.toNat := by
  have hm : UInt16.ofNat (FrameField.msgType.get m o) = f.msgType :=
    congrArg FrameHeader.msgType h.header
  have hlt : FrameField.msgType.get m o < 2 ^ 16 := load_lt m (o + 4) 2
  rw [Revoq.getMsgType, ← hm, UInt16.toNat_ofNat', Nat.mod_eq_of_lt hlt]

end Revoq
