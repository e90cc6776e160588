import Mathlib.Data.Finset.Basic
import Revoq.HeapContract
import Revoq.LiveReader

/-! # Reading several journals

`JournalReader` of `JournalReader.h`.  It keeps the joined journals in a vector and
shows the current frame of one of them, which it finds by one of three ways: there
is only one journal; a scan for the least `gen_time`; or, for more than three
journals, a heap of `(gen_time, index)` pairs.

Five fields are kept in step by hand: the vector, the set of joined keys, the two
pointers to a single journal, the current index and the heap.  A subscript out of
range, and the use of a pointer to a journal that is gone, is the outcome `faults`
(or no result at all, for a call that does not throw).

A call whose page load does not return is the outcome `throws`, with everything as it
was before.  `Halt` says whether the load threw or the process died in it; where it
died no call follows, so reading both as an exception only adds runs.

The heap functions of the standard library are a `HeapImpl`.  The page files of all
journals are a `Files`; locations are told apart by their `uid`, which the code
takes for unique as well.
-/
namespace Revoq
open ByteImage StmtMachine HeapContract

/-- What a reader looks at of a `Location`. -/
structure Location where
  uid : UInt32
  category : Category
deriving DecidableEq

/-- The page files of each journal, by location and destination. -/
abbrev Files := UInt32 → UInt32 → Disk

/-- `JournalReader::makeKey`. -/
def makeKey (locationUid destId : UInt32) : UInt64 :=
  (locationUid.toUInt64 <<< 32) ||| destId.toUInt64

/-- Different locations or destinations have different keys. -/
theorem makeKey_injective {a b c d : UInt32} (h : makeKey a b = makeKey c d) : a = c ∧ b = d := by
  have key : ∀ x y : UInt32, (makeKey x y).toNat = 2 ^ 32 * x.toNat + y.toNat := by
    intro x y
    have hx := x.toNat_lt
    have hy := y.toNat_lt
    rw [makeKey, UInt64.toNat_or, UInt64.toNat_shiftLeft, UInt32.toNat_toUInt64,
      UInt32.toNat_toUInt64, show (32 : UInt64).toNat % 64 = 32 from rfl, Nat.mod_eq_of_lt (by
        rw [Nat.shiftLeft_eq]
        omega), ← Nat.shiftLeft_add_eq_or_of_lt hy, Nat.shiftLeft_eq, Nat.mul_comm]
  have hk := congrArg UInt64.toNat h
  rw [key, key] at hk
  have hb := b.toNat_lt
  have hd := d.toNat_lt
  exact ⟨UInt32.toNat_inj.mp (by omega), UInt32.toNat_inj.mp (by omega)⟩

/-- A `Journal` object of a reader. -/
structure Journal where
  /-- The object's address; no address is used twice. -/
  address : Nat
  location : Location
  destId : UInt32
  /-- The page and frame it stands at. -/
  cursor : Reader
deriving DecidableEq

namespace Journal

def key (j : Journal) : UInt64 := makeKey j.location.uid j.destId

def pageSize (j : Journal) : PageSize := findPageSize j.location.category j.destId

/-- The journal's page files. -/
def disk (j : Journal) (files : Files) : Disk := files j.location.uid j.destId

/-- `Frame::getFrameLength` and `getMsgType` of the journal's frame. -/
def current (j : Journal) (files : Files) : FrameView := j.cursor.current (j.disk files)

/-- `Frame::hasData()` of the journal's frame. -/
def hasData (j : Journal) (files : Files) : Bool :=
  Revoq.hasData (j.current files).frameLength (j.current files).msgType

/-- `Frame::getGenTime` of the journal's frame. -/
def genTime (j : Journal) (files : Files) : Int64 :=
  (readHeader (j.cursor.image (j.disk files)) j.cursor.offset).genTime

/-- The journal has its files changed. -/
def put (j : Journal) (files : Files) (d : Disk) : Files := fun uid destId =>
  if uid = j.location.uid ∧ destId = j.destId then d else files uid destId

/-- `Journal::next(frame_length, msg_type)`. -/
def next (j : Journal) (v : FrameView) (files : Files) : Except Halt (Files × Journal) :=
  (j.cursor.next j.pageSize v (j.disk files)).map fun (d, c) =>
    (j.put files d, { j with cursor := c })

end Journal

/-- What the heap holds: `(gen_time, index)`. -/
abbrev HeapEntry := Int64 × Nat

/-- `JournalComparator`. -/
def journalComparator (a b : HeapEntry) : Bool := decide (a.1 > b.1)

theorem journalComparator_eq (a b : HeapEntry) :
    journalComparator a b = decide (b.1.toInt < a.1.toInt) := by
  simp only [journalComparator, gt_iff_lt, Int64.lt_iff_toInt_lt]

/-- The standard library's heap functions under `JournalComparator`. -/
abbrev MergeHeap := HeapImpl journalComparator

/-- Heap functions that sort. -/
def mergeBySorting : MergeHeap :=
  sorting (fun e => e.1.toInt) journalComparator journalComparator_eq

/-- A `JournalReader`. -/
structure JournalReader where
  prefault : Bool
  /-- `none` stands for `static_cast<size_t>(-1)`. -/
  currentJournalIdx : Option Nat := none
  needsRebuild : Bool := true
  useHeap : Bool := true
  journals : List Journal := []
  /-- The address of a `Journal`, or null. -/
  singleJournal : Option Nat := none
  /-- The address of the `Journal` whose `Frame` it is, or null. -/
  singleFrame : Option Nat := none
  joinedKeys : Finset UInt64 := ∅
  heap : List HeapEntry := []
  /-- The address the next `Journal` will have. -/
  allocated : Nat := 0

/-- `JournalReader::FrameView`. -/
structure MergedView extends FrameView where
  /-- The address of the `Journal` whose `Frame` it is. -/
  frame : Nat
deriving DecidableEq

namespace JournalReader

/-- The object behind a pointer, if it is still there. -/
def deref (r : JournalReader) (address : Nat) : Option Journal :=
  r.journals.find? fun j => j.address = address

/-- `currentFrameRaw`: the journal whose frame it returns, if it is not null. -/
def currentFrameRaw (r : JournalReader) : Option Journal :=
  match r.currentJournalIdx with
  | none => none
  | some i => if h : i < r.journals.length then some (r.journals.get ⟨i, h⟩) else none

/-- `refreshSingleJournal`. -/
def refreshSingleJournal (r : JournalReader) : JournalReader :=
  match r.journals with
  | [j] =>
      { r with
        singleJournal := some j.address, singleFrame := some j.address,
        currentJournalIdx := some 0 }
  | _ => { r with singleJournal := none, singleFrame := none }

/-- `join`; the loops of `seekToTime` are given `fuel` turns. -/
def join (fuel : Nat) (location : Location) (destId : UInt32) (fromTime : Int64) :
    Files × JournalReader → Result (Files × JournalReader)
  | (files, r) =>
      let key := makeKey location.uid destId
      if key ∈ r.joinedKeys then .returns (files, r)
      else
        let j : Journal := ⟨r.allocated, location, destId, { prefault := r.prefault }⟩
        match j.cursor.seekToTime j.pageSize fuel fromTime (j.disk files) with
        | .error _ => .throws (files, r)
        -- a seek that throws leaves the vector, the keys and the pointers alone
        | .ok (d, c) =>
            let r := { r with
              journals := r.journals ++ [{ j with cursor := c }]
              joinedKeys := insert key r.joinedKeys
              allocated := r.allocated + 1 }
            .returns (j.put files d, { r.refreshSingleJournal with needsRebuild := true })

/-- `disjoin`. -/
def disjoin (locationUid : UInt32) (r : JournalReader) : JournalReader :=
  let journals := r.journals.filter fun j => j.location.uid ≠ locationUid
  if journals.length ≠ r.journals.length then
    let r := { r with
      journals := journals
      joinedKeys := (journals.map Journal.key).toFinset
      currentJournalIdx := none }
    { r.refreshSingleJournal with needsRebuild := true }
  else r

/-- `setUseHeap`. -/
def setUseHeap (useHeap : Bool) (r : JournalReader) : JournalReader :=
  { r with useHeap := useHeap, needsRebuild := true }

/-- The test of `rebuildHeap` and `next` for the heap. -/
def usesHeap (r : JournalReader) : Bool := r.useHeap && decide (r.journals.length > 3)

/-- The loop body of `findMinimumLinear` on `(min_time, min_index)`. -/
def scanStep (files : Files) (best : Int64 × Option Nat) (x : Journal × Nat) : Int64 × Option Nat :=
  -- strictly below: a frame of the initial `min_time` is never selected
  if x.1.hasData files ∧ x.1.genTime files < best.1 then (x.1.genTime files, some x.2) else best

/-- `findMinimumLinear`. -/
def findMinimumLinear (files : Files) (r : JournalReader) : Option Nat :=
  (r.journals.zipIdx.foldl (scanStep files) (Int64.maxValue, none)).2

/-- The pairs `rebuildHeap` collects. -/
def heapEntries (files : Files) (r : JournalReader) : List HeapEntry :=
  r.journals.zipIdx.filterMap fun (j, i) => if j.hasData files then
    some (j.genTime files, i) else none

/-- `rebuildHeap`.  The index is read off `temp` as `std::make_heap` leaves it, and
the queue is built from `temp` after that. -/
def rebuildHeap (H : MergeHeap) (files : Files) (r : JournalReader) : JournalReader :=
  if r.journals = [] then { r with currentJournalIdx := none, needsRebuild := false }
  else if r.usesHeap then
    if r.heapEntries files = [] then { r with currentJournalIdx := none, needsRebuild := false }
    else
      let temp := H.makeHeap (r.heapEntries files)
      { r with
        currentJournalIdx := temp.head?.map Prod.snd, heap := H.queue temp, needsRebuild := false }
  else { r with currentJournalIdx := r.findMinimumLinear files, needsRebuild := false }

/-- `updateHeap`; there is no result if its subscript is out of range. -/
def updateHeap (H : MergeHeap) (files : Files) (r : JournalReader) : Option JournalReader :=
  if r.heap = [] then some { r with needsRebuild := true }
  else
    match r.currentJournalIdx with
    | none => none
    | some i =>
      match r.journals[i]? with
      | none => none
      | some j =>
        -- the top is popped, whichever journal it belongs to
        let popped := H.pop r.heap
        let heap := if j.hasData files then H.push popped (j.genTime files, i) else popped
        match heap with
        | [] => some { r with heap := [], currentJournalIdx := none, needsRebuild := true }
        | top :: rest => some { r with heap := top :: rest, currentJournalIdx := some top.2 }

/-- The rebuild at the start of `isDataAvailable`. -/
def refresh (H : MergeHeap) (files : Files) (r : JournalReader) : JournalReader :=
  if r.needsRebuild then r.rebuildHeap H files else r

/-- `isDataAvailable`. -/
def isDataAvailable (H : MergeHeap) (files : Files) (r : JournalReader) :
    Option (Bool × JournalReader) :=
  match r.singleFrame with
  | some address => (r.deref address).map fun j => (j.hasData files, r)
  | none =>
    let r := r.refresh H files
    match r.currentFrameRaw with
    | some j => some (j.hasData files, r)
    -- a reader that has nothing to show selects again at the next look
    | none => some (false, if r.journals.isEmpty then r else { r with needsRebuild := true })

/-- The view of a journal's frame, if it has data. -/
def viewOf (files : Files) (j : Journal) : Option MergedView :=
  if j.hasData files then some { toFrameView := j.current files, frame := j.address } else none

/-- `tryCurrentFrame`. -/
def tryCurrentFrame (H : MergeHeap) (files : Files) (r : JournalReader) :
    Option (Option MergedView × JournalReader) :=
  match r.singleFrame with
  | some address => (r.deref address).map fun j => (viewOf files j, r)
  | none =>
    match r.isDataAvailable H files with
    | none => none
    | some (false, r) => some (none, r)
    | some (true, r) => r.currentFrameRaw.map fun j => (viewOf files j, r)

/-- `next` of the journal at an index, over the frame it is shown. -/
def stepJournal (i : Nat) (v : Journal → FrameView) :
    Files × JournalReader → Result (Files × JournalReader)
  | (files, r) =>
      match r.journals[i]? with
      | none => .faults (files, r)
      | some j =>
        match j.next (v j) files with
        | .error _ => .throws (files, r)
        | .ok (files, j) => .returns (files, { r with journals := r.journals.set i j })

/-- `next` of the journal behind a pointer. -/
def stepSingle (address : Nat) (v : Journal → FrameView) :
    Files × JournalReader → Result (Files × JournalReader)
  | (files, r) => stepJournal (r.journals.findIdx fun j => j.address = address) v (files, r)

/-- The end of `JournalReader::next`, when the current journal has moved. -/
def reselect (H : MergeHeap) : Files × JournalReader → Result (Files × JournalReader)
  | (files, r) =>
      if r.usesHeap then
        match r.updateHeap H files with
        | none => .faults (files, r)
        | some r => .returns (files, r)
      else .returns (files, { r with needsRebuild := true })

/-- `JournalReader::next`. -/
def next (H : MergeHeap) : Files × JournalReader → Result (Files × JournalReader)
  | (files, r) =>
      match r.currentJournalIdx with
      | none => .returns (files, r)
      | some i =>
        if i ≥ r.journals.length then .returns (files, r)
        else
          match r.singleJournal with
          | some address => stepSingle address (fun j => j.current files) (files, r)
          | none => (stepJournal i (fun j => j.current files) (files, r)).andThen (reselect H)

/-- `advance`. -/
def advance (H : MergeHeap) (current : FrameView) :
    Files × JournalReader → Result (Files × JournalReader)
  | (files, r) =>
      match r.singleJournal with
      | some address => stepSingle address (fun _ => current) (files, r)
      | none => next H (files, r)

/-- `nextStatic`, for a dispatcher that returns. -/
def nextStatic (H : MergeHeap) : Files × JournalReader → Result (Files × JournalReader)
  | (files, r) =>
      match r.tryCurrentFrame H files with
      | none => .faults (files, r)
      | some (none, r) => .returns (files, r)
      | some (some v, r) => advance H v.toFrameView (files, r)

/-- What a consumer reads of the frame it was shown. -/
def frame (v : MergedView) (files : Files) (r : JournalReader) : Option Frame :=
  (r.deref v.frame).map fun j => j.cursor.frame v.toFrameView (j.disk files)

/-- `tryCurrentFrame` and `advance` until no frame is shown, for at most `fuel`
frames; each frame comes with the address of its journal. -/
def drain (H : MergeHeap) :
    Nat → Files × JournalReader → Option (List (Nat × Frame) × (Files × JournalReader))
  | 0, _ => none
  | fuel + 1, (files, r) =>
      match r.tryCurrentFrame H files with
      | none => none
      | some (none, r) => some ([], (files, r))
      | some (some v, r) =>
        match r.frame v files, advance H v.toFrameView (files, r) with
        | some f, .returns s => (drain H fuel s).map fun (out, s) => ((v.frame, f) :: out, s)
        | _, _ => none

end JournalReader

/-- The calls of a reader. -/
inductive ReaderCall where
  | join (fuel : Nat) (location : Location) (destId : UInt32) (fromTime : Int64)
  | disjoin (locationUid : UInt32)
  | setUseHeap (useHeap : Bool)
  | isDataAvailable
  | tryCurrentFrame
  | next
  | advance (current : FrameView)
  | nextStatic

/-- What a call does. -/
def ReaderCall.exec (H : MergeHeap) (s : Files × JournalReader) :
    ReaderCall → Result (Files × JournalReader)
  | .join fuel location destId fromTime => JournalReader.join fuel location destId fromTime s
  | .disjoin locationUid => .returns (s.1, s.2.disjoin locationUid)
  | .setUseHeap useHeap => .returns (s.1, s.2.setUseHeap useHeap)
  | .isDataAvailable =>
      match s.2.isDataAvailable H s.1 with
      | none => .faults s
      | some (_, r) => .returns (s.1, r)
  | .tryCurrentFrame =>
      match s.2.tryCurrentFrame H s.1 with
      | none => .faults s
      | some (_, r) => .returns (s.1, r)
  | .next => JournalReader.next H s
  | .advance current => JournalReader.advance H current s
  | .nextStatic => JournalReader.nextStatic H s

/-- Calls one after the other, as long as they return. -/
def ReaderCall.execAll (H : MergeHeap) :
    List ReaderCall → Files × JournalReader → Option (Files × JournalReader)
  | [], s => some s
  | c :: cs, s => (c.exec H s).returned.bind (execAll H cs)

/-! ## What the calls leave alone -/

namespace JournalReader
variable {H : MergeHeap} {files files' : Files} {r r' : JournalReader}

@[simp] theorem rebuildHeap_journals : (r.rebuildHeap H files).journals = r.journals := by
  unfold rebuildHeap
  split_ifs <;> rfl

@[simp] theorem refresh_journals : (r.refresh H files).journals = r.journals := by
  unfold refresh
  split <;> simp

@[simp] theorem refreshSingleJournal_journals : r.refreshSingleJournal.journals = r.journals := by
  unfold refreshSingleJournal
  split <;> rfl

@[simp] theorem refreshSingleJournal_joinedKeys :
    r.refreshSingleJournal.joinedKeys = r.joinedKeys := by
  unfold refreshSingleJournal
  split <;> rfl

@[simp] theorem refreshSingleJournal_allocated :
    r.refreshSingleJournal.allocated = r.allocated := by
  unfold refreshSingleJournal
  split <;> rfl

@[simp] theorem refreshSingleJournal_useHeap : r.refreshSingleJournal.useHeap = r.useHeap := by
  unfold refreshSingleJournal
  split <;> rfl

@[simp] theorem refreshSingleJournal_heap : r.refreshSingleJournal.heap = r.heap := by
  unfold refreshSingleJournal
  split <;> rfl

@[simp] theorem refreshSingleJournal_prefault : r.refreshSingleJournal.prefault = r.prefault := by
  unfold refreshSingleJournal
  split <;> rfl

theorem currentFrameRaw_eq (r : JournalReader) :
    r.currentFrameRaw = r.currentJournalIdx.bind fun i => r.journals[i]? := by
  unfold currentFrameRaw
  cases r.currentJournalIdx with
  | none => rfl
  | some i =>
    simp only [Option.bind_some]
    split
    · rename_i h
      rw [List.getElem?_eq_getElem h]
      rfl
    · rename_i h
      rw [List.getElem?_eq_none (by omega)]

/-! ### The branches of `next` and `advance` -/

theorem next_of_none (hi : r.currentJournalIdx = none) :
    next H (files, r) = .returns (files, r) := by
  simp only [next, hi]

theorem next_of_ge {i : Nat} (hi : r.currentJournalIdx = some i) (hlen : r.journals.length ≤ i) :
    next H (files, r) = .returns (files, r) := by
  simp only [next, hi, ge_iff_le, hlen, if_true]

theorem next_single {i address : Nat} (hi : r.currentJournalIdx = some i)
    (hlen : i < r.journals.length) (hs : r.singleJournal = some address) :
    next H (files, r) = stepSingle address (fun j => j.current files) (files, r) := by
  simp only [next, hi, ge_iff_le, Nat.not_le.mpr hlen, if_false, hs]

theorem next_several {i : Nat} (hi : r.currentJournalIdx = some i) (hlen : i < r.journals.length)
    (hs : r.singleJournal = none) :
    next H (files, r) = (stepJournal i (fun j => j.current files) (files, r)).andThen
      (reselect H) := by
  simp only [next, hi, ge_iff_le, Nat.not_le.mpr hlen, if_false, hs]

theorem advance_single {address : Nat} {v : FrameView} (hs : r.singleJournal = some address) :
    advance H v (files, r) = stepSingle address (fun _ => v) (files, r) := by
  simp only [advance, hs]

theorem advance_several {v : FrameView} (hs : r.singleJournal = none) :
    advance H v (files, r) = next H (files, r) := by
  simp only [advance, hs]

end JournalReader

end Revoq
