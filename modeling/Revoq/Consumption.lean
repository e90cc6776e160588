import Revoq.MergeDrain

/-! # Four ways to consume the stream

A consumer of a `JournalReader` loops over `isDataAvailable`, `tryCurrentFrame` and
`next`; or over `tryCurrentFrame` and `advance`; or over `nextStatic`; or it hands the
loop to `TypedJournalDispatcher::run`.  The first three loops have the same turns
from any state a reader can be in (`nextTurn_eq`, `staticTurn_eq`), so they visit the
same frames.  The dispatcher makes the same turns too, with a call to a handler
between the look and the move (`Dispatcher.run_eq`).
-/
namespace Revoq
open StmtMachine HeapContract

/-- A frame as a consumer gets it: its view, and what can be read of it. -/
structure Shown where
  view : MergedView
  frame : Frame
deriving DecidableEq

/-- One turn of a consuming loop. -/
inductive Turn where
  /-- There is no frame, and the loop is over. -/
  | ended (s : Files × JournalReader)
  /-- A frame was visited, and the reader asked to move on. -/
  | visit (x : Shown) (moved : Result (Files × JournalReader))
  /-- The process dies. -/
  | fault (s : Files × JournalReader)

/-- How a loop stands after some turns. -/
inductive LoopState where
  | running (s : Files × JournalReader)
  | ended (s : Files × JournalReader)
  | threw (s : Files × JournalReader)
  | fault (s : Files × JournalReader)

/-- The reader where a loop stands. -/
def LoopState.state : LoopState → Files × JournalReader
  | running s | ended s | threw s | fault s => s

/-- No call has thrown so far. -/
def LoopState.Fine : LoopState → Prop
  | running _ | ended _ => True
  | threw _ | fault _ => False

/-- At most `n` turns of a loop: the frames visited, and how the loop stands. -/
def loop (turn : Files × JournalReader → Turn) :
    Nat → Files × JournalReader → List Shown × LoopState
  | 0, s => ([], .running s)
  | n + 1, s =>
      match turn s with
      | .ended s => ([], .ended s)
      | .fault s => ([], .fault s)
      | .visit x (.returns s) => (x :: (loop turn n s).1, (loop turn n s).2)
      | .visit x (.throws s) => ([x], .threw s)
      | .visit x (.faults s) => ([x], .fault s)

namespace JournalReader

/-- The consumer reads the frame it was shown; then the reader moves on. -/
def visit (v : MergedView) (s : Files × JournalReader)
    (moved : Result (Files × JournalReader)) : Turn :=
  match s.2.frame v s.1 with
  | none => .fault s
  | some f => .visit ⟨v, f⟩ moved

/-- `while (auto v = tryCurrentFrame()) { …; advance(v); }`. -/
def advanceTurn (H : MergeHeap) : Files × JournalReader → Turn
  | (files, r) =>
      match r.tryCurrentFrame H files with
      | none => .fault (files, r)
      | some (none, r) => .ended (files, r)
      | some (some v, r) => visit v (files, r) (advance H v.toFrameView (files, r))

end JournalReader

/-! ## The loops have the same turns -/

/-- The index of a single journal is 0. -/
def IndexPlaced (r : JournalReader) : Prop := r.singleJournal ≠ none → r.currentJournalIdx = some 0

section
variable {H : MergeHeap} {files : Files} {r r' : JournalReader} {s : Files × JournalReader}
open JournalReader

theorem refresh_refresh : (r.refresh H files).refresh H files = r.refresh H files := by
  have hn : (r.refresh H files).needsRebuild = false := by
    unfold refresh
    split
    · exact rebuildHeap_needsRebuild
    · rename_i hn
      simpa using hn
  rw [refresh, if_neg (by rw [hn]; decide)]

/-- **What a look finds**, with a single journal. -/
theorem look_single (H : MergeHeap) (files : Files) (hb : Bookkeeping r) {address : Nat}
    (hs : r.singleFrame = some address) :
    ∃ j, r.journals = [j] ∧ j.address = address ∧
      r.isDataAvailable H files = some (j.hasData files, r) ∧
      r.tryCurrentFrame H files = some (JournalReader.viewOf files j, r) := by
  obtain ⟨j, hj, hd, haddr⟩ := hb.deref hs
  refine ⟨j, hj, haddr, ?_, ?_⟩
  · simp only [isDataAvailable, hs, hd, Option.map_some]
  · simp only [tryCurrentFrame, hs, hd, Option.map_some]

/-- **What a look finds**, with several journals or none. -/
theorem look_several (H : MergeHeap) (files : Files) (hs : r.singleFrame = none) :
    r.isDataAvailable H files = some (false, r.settled H files) ∧
        r.tryCurrentFrame H files = some (none, r.settled H files) ∨
      ∃ j, r.isDataAvailable H files = some (true, r.refresh H files) ∧
        (r.refresh H files).currentFrameRaw = some j ∧ j.hasData files = true ∧
        r.tryCurrentFrame H files = some (JournalReader.viewOf files j, r.refresh H files) := by
  have hdata := @isDataAvailable_several H files r hs
  cases hraw : (r.refresh H files).currentFrameRaw with
  | none =>
    left
    rw [hraw, Option.map_none, Option.getD_none] at hdata
    exact ⟨hdata, by simp only [tryCurrentFrame, hs, hdata]⟩
  | some j =>
    rw [hraw, Option.map_some, Option.getD_some, settled_of_raw hraw] at hdata
    cases hj : j.hasData files with
    | false =>
      left
      rw [hj] at hdata
      rw [settled_of_raw hraw]
      exact ⟨hdata, by simp only [tryCurrentFrame, hs, hdata]⟩
    | true =>
      right
      rw [hj] at hdata
      exact ⟨j, hdata, rfl, hj, by simp only [tryCurrentFrame, hs, hdata, hraw, Option.map_some]⟩

theorem viewOf_of_hasData {j : Journal} (h : j.hasData files = true) :
    JournalReader.viewOf files j = some { toFrameView := j.current files, frame := j.address } :=
      if_pos h

theorem viewOf_of_not {j : Journal} (h : j.hasData files = false) :
    JournalReader.viewOf files j = none :=
  if_neg (by rw [h]; decide)

/-- **A look changes nothing for the next one.** -/
theorem look_again (hb : Bookkeeping r) {v : MergedView}
    (h : r.tryCurrentFrame H files = some (some v, r')) :
    r'.tryCurrentFrame H files = some (some v, r') := by
  cases hs : r.singleFrame with
  | some address =>
    obtain ⟨j, -, -, -, hlook⟩ := look_single H files hb hs
    obtain rfl : r = r' := (Prod.mk.inj (Option.some.inj (hlook.symm.trans h))).2
    exact h
  | none =>
    rcases look_several H files hs with ⟨-, hlook⟩ | ⟨j, -, hraw, hj, hlook⟩
    · cases hlook.symm.trans h
    · obtain rfl : r.refresh H files = r' := (Prod.mk.inj (Option.some.inj (hlook.symm.trans h))).2
      have hs' : (r.refresh H files).singleFrame = none := sameJournals_refresh.singleFrame.trans hs
      have hdata := @isDataAvailable_several H files _ hs'
      rw [refresh_refresh, hraw, Option.map_some, Option.getD_some, hj,
        settled_of_raw (by rw [refresh_refresh]; exact hraw), refresh_refresh] at hdata
      rw [hlook] at h
      rw [← h]
      simp only [tryCurrentFrame, hs', hdata, hraw, Option.map_some]

/-- A look moves no journal, and shows the frame a single journal stands at. -/
theorem look_journals (hb : Bookkeeping r) {v : Option MergedView}
    (h : r.tryCurrentFrame H files = some (v, r')) :
    r'.journals = r.journals ∧
      ∀ w, v = some w → ∀ j ∈ r.journals, r.singleJournal = some j.address →
        w.toFrameView = j.current files := by
  cases hs : r.singleFrame with
  | some address =>
    obtain ⟨j, hj, -, -, hlook⟩ := look_single H files hb hs
    obtain ⟨rfl, rfl⟩ := Prod.mk.inj (Option.some.inj (hlook.symm.trans h))
    refine ⟨rfl, fun w hw x hx _ => ?_⟩
    rw [hj] at hx
    rw [List.mem_singleton.mp hx]
    cases hd : j.hasData files with
    | false =>
      rw [viewOf_of_not hd] at hw
      cases hw
    | true =>
      rw [viewOf_of_hasData hd] at hw
      cases hw
      rfl
  | none =>
    refine ⟨?_, fun w _ x _ hx => ?_⟩
    · rw [tryCurrentFrame_several hs h, settled_journals]
    · rw [hb.singleJournal_eq, hs] at hx
      cases hx

/-- **A look before a look** finds the same. -/
theorem look_twice (H : MergeHeap) (files : Files) (hb : Bookkeeping r) :
    (∃ r', r.isDataAvailable H files = some (false, r') ∧
      r.tryCurrentFrame H files = some (none, r')) ∨
    ∃ v r', r.isDataAvailable H files = some (true, r') ∧
      r.tryCurrentFrame H files = some (some v, r') ∧
      r'.tryCurrentFrame H files = some (some v, r') := by
  cases hs : r.singleFrame with
  | some address =>
    obtain ⟨j, -, -, hdata, hlook⟩ := look_single H files hb hs
    cases hd : j.hasData files with
    | false => exact Or.inl ⟨r, hd ▸ hdata, viewOf_of_not hd ▸ hlook⟩
    | true =>
      rw [viewOf_of_hasData hd] at hlook
      exact Or.inr ⟨_, r, hd ▸ hdata, hlook, hlook⟩
  | none =>
    rcases look_several H files hs with ⟨hdata, hlook⟩ | ⟨j, hdata, -, hj, hlook⟩
    · exact Or.inl ⟨_, hdata, hlook⟩
    · rw [viewOf_of_hasData hj] at hlook
      exact Or.inr ⟨_, _, hdata, hlook, look_again hb hlook⟩

/-- The call leaves the index of a single journal in place. -/
def KeepsPlaced : Result (Files × JournalReader) → Prop
  | .returns s | .throws s => IndexPlaced s.2
  | .faults _ => True

theorem keepsPlaced_of_none (hn : r.singleJournal = none) {x : Result (Files × JournalReader)}
    (hk : KeepsJournals r x) : KeepsPlaced x := by
  cases x with
  | faults s => trivial
  | returns s | throws s => exact fun hne => absurd ((SameJournals.singleJournal hk).trans hn) hne

theorem keepsPlaced_stepJournal (hi : IndexPlaced r) (i : Nat) (v : Journal → FrameView) :
    KeepsPlaced (stepJournal i v (files, r)) := by
  cases he : stepJournal i v (files, r) with
  | faults s => trivial
  | throws s =>
    obtain rfl := stepJournal_throws he
    exact hi
  | returns s =>
    obtain ⟨j, d, c, -, rfl⟩ := stepJournal_returns he
    exact hi

theorem keepsPlaced_next (hb : Bookkeeping r) (hi : IndexPlaced r) :
    KeepsPlaced (next H (files, r)) := by
  cases hs : r.singleJournal with
  | none => exact keepsPlaced_of_none hs (keeps_next H files hb)
  | some address =>
    have hidx : r.currentJournalIdx = some 0 := hi (by rw [hs]; simp)
    rcases Nat.lt_or_ge 0 r.journals.length with hlt | hge
    · rw [next_single hidx hlt hs]
      exact keepsPlaced_stepJournal hi _ _
    · rw [next_of_ge hidx hge]
      exact hi

theorem keepsPlaced_advance (hb : Bookkeeping r) (hi : IndexPlaced r) (v : FrameView) :
    KeepsPlaced (advance H v (files, r)) := by
  cases hs : r.singleJournal with
  | none =>
    rw [advance_several hs]
    exact keepsPlaced_next hb hi
  | some address =>
    rw [advance_single hs]
    exact keepsPlaced_stepJournal hi _ _

/-- What a look leaves. -/
theorem placed_look (hb : Bookkeeping r) (hi : IndexPlaced r) {v : Option MergedView}
    (h : r.tryCurrentFrame H files = some (v, r')) : Bookkeeping r' ∧ IndexPlaced r' := by
  obtain ⟨v', r'', hlook, hsame⟩ := tryCurrentFrame_returns H files hb
  obtain ⟨-, rfl⟩ := Prod.mk.inj (Option.some.inj (hlook.symm.trans h))
  refine ⟨hsame.bookkeeping hb, ?_⟩
  cases hs : r.singleFrame with
  | some address =>
    obtain ⟨j, -, -, -, hlook'⟩ := look_single H files hb hs
    obtain ⟨-, rfl⟩ := Prod.mk.inj (Option.some.inj (hlook'.symm.trans hlook))
    exact hi
  | none => exact fun hne => absurd (by rw [hsame.singleJournal, hb.singleJournal_eq, hs]) hne

theorem placed_refreshSingleJournal (b : Bool) :
    IndexPlaced { r.refreshSingleJournal with needsRebuild := b } := by
  unfold refreshSingleJournal
  split
  · exact fun _ => rfl
  · exact fun hne => absurd rfl hne

variable (H files) in
/-- **Every call** keeps the index of a single journal in place. -/
theorem IndexPlaced.exec (hb : Bookkeeping r) (hi : IndexPlaced r) (c : ReaderCall) :
    KeepsPlaced (c.exec H (files, r)) := by
  cases c with
  | join fuel location destId fromTime =>
    simp only [ReaderCall.exec, join]
    split
    · exact hi
    · split
      · exact hi
      · exact placed_refreshSingleJournal true
  | disjoin locationUid =>
    simp only [ReaderCall.exec, disjoin]
    split
    · exact placed_refreshSingleJournal true
    · exact hi
  | setUseHeap useHeap => exact hi
  | isDataAvailable =>
    obtain ⟨b, r', he, hsame, -⟩ := isDataAvailable_returns H files hb
    simp only [ReaderCall.exec, he]
    cases hs : r.singleFrame with
    | some address =>
      obtain ⟨j, -, -, hdata, -⟩ := look_single H files hb hs
      obtain ⟨-, rfl⟩ := Prod.mk.inj (Option.some.inj (hdata.symm.trans he))
      exact hi
    | none => exact fun hne => absurd (by rw [hsame.singleJournal, hb.singleJournal_eq, hs]) hne
  | tryCurrentFrame =>
    obtain ⟨v, r', he, -⟩ := tryCurrentFrame_returns H files hb
    simp only [ReaderCall.exec, he]
    exact (placed_look hb hi he).2
  | next => exact keepsPlaced_next hb hi
  | advance v => exact keepsPlaced_advance hb hi v
  | nextStatic =>
    obtain ⟨v, r', he, -⟩ := tryCurrentFrame_returns H files hb
    obtain ⟨hb', hi'⟩ := placed_look hb hi he
    simp only [ReaderCall.exec, nextStatic, he]
    cases v with
    | none => exact hi'
    | some v => exact keepsPlaced_advance hb' hi' v.toFrameView

theorem ReaderReaches.indexPlaced {prefault : Bool} (h : ReaderReaches H prefault r) :
    IndexPlaced r := by
  induction h with
  | start => exact fun hne => absurd rfl hne
  | @returned r files c s hr he ih =>
    have := IndexPlaced.exec H files hr.bookkeeping ih c
    rwa [he] at this
  | @threw r files c s hr he ih =>
    have := IndexPlaced.exec H files hr.bookkeeping ih c
    rwa [he] at this

/-! ### Whole loops -/

/-- A reader as calls leave it. -/
structure Poised (r : JournalReader) : Prop where
  books : Bookkeeping r
  placed : IndexPlaced r

theorem ReaderReaches.poised {prefault : Bool} (h : ReaderReaches H prefault r) : Poised r :=
  ⟨h.bookkeeping, h.indexPlaced⟩

/-- The turns of the loop over `advance`. -/
theorem Poised.turn (hp : Poised r) (H : MergeHeap) (files : Files) :
    (∃ r', r.tryCurrentFrame H files = some (none, r') ∧
      advanceTurn H (files, r) = .ended (files, r')) ∨
    ∃ v r', r.tryCurrentFrame H files = some (some v, r') ∧ Poised r' ∧
      r'.tryCurrentFrame H files = some (some v, r') ∧
      advanceTurn H (files, r) = visit v (files, r') (advance H v.toFrameView (files, r')) ∧
      ∀ t, advance H v.toFrameView (files, r') = .returns t → Poised t.2 := by
  obtain ⟨v, r', hlook, -⟩ := tryCurrentFrame_returns H files hp.books
  obtain ⟨hb', hi'⟩ := placed_look hp.books hp.placed hlook
  cases v with
  | none => exact Or.inl ⟨r', hlook, by simp only [advanceTurn, hlook]⟩
  | some v =>
    refine Or.inr ⟨v, r', hlook, ⟨hb', hi'⟩, look_again hp.books
      hlook, by simp only [advanceTurn, hlook], fun t ht => ?_⟩
    have hk := keeps_advance H files hb' v.toFrameView
    have hi := @keepsPlaced_advance H files r' hb' hi' v.toFrameView
    rw [ht] at hk hi
    exact ⟨SameJournals.bookkeeping hk hb', hi⟩

theorem visit_eq {v : MergedView} {x : Shown} {moved moved' : Result (Files × JournalReader)}
    (h : visit v s moved = .visit x moved') : x.view = v ∧ s.2.frame v s.1 = some x.frame ∧
    moved = moved' := by
  unfold visit at h
  split at h
  · cases h
  · rename_i f hf
    cases h
    exact ⟨rfl, hf, rfl⟩

theorem Poised.after (hp : Poised s.2) {x : Shown} {t : Files × JournalReader}
    (h : advanceTurn H s = .visit x (.returns t)) : Poised t.2 := by
  obtain ⟨files, r⟩ := s
  rcases hp.turn H files with ⟨r', -, hturn⟩ | ⟨v, r', -, -, -, hturn, hafter⟩
  · cases hturn.symm.trans h
  · exact hafter t (visit_eq (hturn.symm.trans h)).2.2

/-- The journal of a frame that is shown is there. -/
theorem frame_of_look (hb : Bookkeeping r) {v : MergedView}
    (h : r.tryCurrentFrame H files = some (some v, r')) :
    (r'.frame v files).isSome := by
  have hmem : ∃ j ∈ r'.journals, j.address = v.frame := by
    cases hs : r.singleFrame with
    | some address =>
      obtain ⟨j, hj, haddr, -, hlook⟩ := look_single H files hb hs
      obtain ⟨hv, rfl⟩ := Prod.mk.inj (Option.some.inj (hlook.symm.trans h))
      unfold JournalReader.viewOf at hv
      split at hv
      · cases hv
        exact ⟨j, by rw [hj]; exact List.mem_singleton_self j, rfl⟩
      · cases hv
    | none =>
      rcases look_several H files hs with ⟨-, hlook⟩ | ⟨j, -, hraw, hj, hlook⟩
      · cases hlook.symm.trans h
      · rw [viewOf_of_hasData hj] at hlook
        obtain ⟨hv, rfl⟩ := Prod.mk.inj (Option.some.inj (hlook.symm.trans h))
        cases hv
        rw [currentFrameRaw_eq] at hraw
        obtain ⟨i, -, hi⟩ := Option.bind_eq_some_iff.mp hraw
        exact ⟨j, List.mem_of_getElem? hi, rfl⟩
  obtain ⟨j, hj, haddr⟩ := hmem
  rw [JournalReader.frame, Option.isSome_map, deref, List.find?_isSome]
  exact ⟨j, hj, by simpa using haddr⟩

end

/-! ## The dispatcher -/

/-- A typed handler as `on` registers it. -/
structure TypedHandler (α : Type) where
  /-- `sizeof(T)`. -/
  size : Nat
  /-- `std::is_empty_v<T>`. -/
  isEmpty : Bool
  /-- What the handler does to the user's state, and whether it throws. -/
  call : Shown → α → α × Bool

/-- `TypedJournalDispatcher`; the handlers share a state of the user's. -/
structure Dispatcher (α : Type) where
  typedHandlers : Int32 → Option (TypedHandler α)
  unknownHandler : Option (Shown → α → α × Bool)

/-- Who a frame is handed to. -/
inductive Callee where
  | typed (msgType : Int32)
  | unknown
deriving DecidableEq

/-- What became of one dispatch. -/
structure Dispatched (α : Type) where
  called : Option Callee
  user : α
  throws : Bool

/-- How a `run` ended. -/
inductive RunEnd where
  | returned (s : Files × JournalReader)
  /-- A handler threw, or a payload had the wrong size. -/
  | threw (s : Files × JournalReader)
  /-- The reader could not load its next page. -/
  | readerThrew (s : Files × JournalReader)
  | fault (s : Files × JournalReader)

/-- What a `run` has done: the frames it has consumed, its calls, and how it ended. -/
structure Ran (α : Type) where
  count : Nat
  calls : List (Callee × Shown)
  user : α
  ended : RunEnd

namespace Dispatcher
variable {α : Type}

/-- The size check of `typedPayload`. -/
def payloadFits (h : TypedHandler α) (x : Shown) : Bool :=
  (h.isEmpty && decide (getDataLength x.view.frameLength = 0)) ||
    decide (getDataLength x.view.frameLength = h.size)

/-- `dispatchFrame`. -/
def dispatchFrame (D : Dispatcher α) (x : Shown) (a : α) : Dispatched α :=
  match D.typedHandlers (Int32.ofNat x.view.msgType) with
  | some h =>
      if payloadFits h x then
        ⟨some (.typed (Int32.ofNat x.view.msgType)), (h.call x a).1, (h.call x a).2⟩
      else ⟨some (.typed (Int32.ofNat x.view.msgType)), a, true⟩
  | none =>
    match D.unknownHandler with
    | some f => ⟨some .unknown, (f x a).1, (f x a).2⟩
    | none => ⟨none, a, false⟩

/-- Who is to get a frame: the typed handler of its message type if there is one, else
the unknown handler if there is one. -/
def callee (D : Dispatcher α) (x : Shown) : Option Callee :=
  if (D.typedHandlers (Int32.ofNat x.view.msgType)).isSome then
    some (.typed (Int32.ofNat x.view.msgType))
  else if D.unknownHandler.isSome then some .unknown
  else none

/-- The calls a frame gives rise to. -/
def handOver (D : Dispatcher α) (x : Shown) : Option (Callee × Shown) :=
  (D.callee x).map fun c => (c, x)

/-- `run(max_frames)`; `max` counts down the frames it may still take. -/
def run (D : Dispatcher α) (H : MergeHeap) : Nat → Files × JournalReader → α → Ran α
  | 0, s, a => ⟨0, [], a, .returned s⟩
  | max + 1, (files, r), a =>
      match r.tryCurrentFrame H files with
      | none => ⟨0, [], a, .fault (files, r)⟩
      | some (none, r) => ⟨0, [], a, .returned (files, r)⟩
      | some (some v, r) =>
        match r.frame v files with
        | none => ⟨0, [], a, .fault (files, r)⟩
        | some f =>
          let o := D.dispatchFrame ⟨v, f⟩ a
          let calls := o.called.toList.map fun c => (c, ⟨v, f⟩)
          if o.throws then ⟨0, calls, o.user, .threw (files, r)⟩
          else
            match JournalReader.advance H v.toFrameView (files, r) with
            | .returns s =>
                let rest := D.run H max s o.user
                ⟨rest.count + 1, calls ++ rest.calls, rest.user, rest.ended⟩
            | .throws s => ⟨0, calls, o.user, .readerThrew s⟩
            | .faults s => ⟨0, calls, o.user, .fault s⟩

/-- What the handlers make of a list of frames: how many they take before one throws,
whether one does, and the user's state. -/
def feed (D : Dispatcher α) : List Shown → α → Nat × Bool × α
  | [], a => (0, false, a)
  | x :: xs, a =>
      let o := D.dispatchFrame x a
      if o.throws then (0, true, o.user)
      else ((D.feed xs o.user).1 + 1, (D.feed xs o.user).2)

/-- **What a `run` does**, by the frames `xs` that the loop over `tryCurrentFrame` and
`advance` visits in `max` turns. -/
structure RunsAlong (D : Dispatcher α) (H : MergeHeap) (max : Nat)
    (s : Files × JournalReader) (a : α) (xs : List Shown) : Prop where
  user : (D.run H max s a).user = (D.feed xs a).2.2
  count : (D.run H max s a).count = (D.feed xs a).1
  /-- If no handler throws, all frames are consumed, each handed to its callee. -/
  returned : (D.feed xs a).2.1 = false →
    (D.run H max s a).ended = .returned (loop (JournalReader.advanceTurn H) max s).2.state ∧
      (D.run H max s a).count = xs.length ∧ (D.run H max s a).calls = xs.filterMap D.handOver
  /-- If one throws, the frames before are consumed, and the reader is still shown the
  one it threw at. -/
  threw : (D.feed xs a).2.1 = true → ∃ t q x,
    loop (JournalReader.advanceTurn H) (D.run H max s a).count s =
        (xs.take (D.run H max s a).count, .running t) ∧
      xs[(D.run H max s a).count]? = some x ∧ (D.run H max s a).ended = .threw (t.1, q) ∧
      t.2.tryCurrentFrame H t.1 = some (some x.view, q) ∧
      q.tryCurrentFrame H t.1 = some (some x.view, q) ∧ q.frame x.view t.1 = some x.frame ∧
      (D.run H max s a).calls = (xs.take ((D.run H max s a).count + 1)).filterMap D.handOver

theorem dispatchFrame_called (D : Dispatcher α) (x : Shown) (a : α) :
    (D.dispatchFrame x a).called = D.callee x := by
  unfold dispatchFrame callee
  cases hh : D.typedHandlers (Int32.ofNat x.view.msgType) with
  | some h =>
    simp only [Option.isSome_some, if_true]
    split <;> rfl
  | none =>
    cases D.unknownHandler <;> rfl

/-- A frame gets at most one call. -/
theorem calls_eq (D : Dispatcher α) (x : Shown) (a : α) :
    ((D.dispatchFrame x a).called.toList.map fun c => (c, x)) = (D.handOver x).toList := by
  rw [dispatchFrame_called, handOver]
  cases D.callee x <;> rfl

theorem filterMap_handOver (D : Dispatcher α) (x : Shown) (xs : List Shown) :
    (x :: xs).filterMap D.handOver = (D.handOver x).toList ++ xs.filterMap D.handOver := by
  rw [List.filterMap_cons]
  cases D.handOver x <;> rfl

section
variable {D : Dispatcher α} {H : MergeHeap} {max : Nat} {files : Files}
  {r r' : JournalReader} {a : α}
variable {x : Shown} {xs : List Shown} {t : Files × JournalReader}

/-- The reader is shown a frame, and stands on it. -/
structure Shows (H : MergeHeap) (files : Files) (r : JournalReader) (x : Shown)
    (r' : JournalReader) : Prop where
  look : r.tryCurrentFrame H files = some (some x.view, r')
  again : r'.tryCurrentFrame H files = some (some x.view, r')
  frame : r'.frame x.view files = some x.frame

theorem Shows.turn (h : Shows H files r x r') : JournalReader.advanceTurn H (files, r) =
    .visit x (JournalReader.advance H x.view.toFrameView (files, r')) := by
  simp only [JournalReader.advanceTurn, h.look, JournalReader.visit, h.frame]

/-- There is no frame. -/
theorem RunsAlong.ended (h : r.tryCurrentFrame H files = some (none, r')) :
    D.RunsAlong H (max + 1) (files, r) a [] := by
  have hloop : loop (JournalReader.advanceTurn H) (max + 1)
      (files, r) = ([], .ended (files, r')) := by
    simp only [loop, JournalReader.advanceTurn, h]
  have hrun : D.run H (max + 1) (files, r) a = ⟨0, [], a, .returned (files, r')⟩ := by
    simp only [run, h]
  constructor
  · rw [hrun]
    rfl
  · rw [hrun]
    rfl
  · intro _
    rw [hrun, hloop]
    exact ⟨rfl, rfl, rfl⟩
  · intro hthrew
    cases hthrew

/-- The handler of the first frame throws. -/
theorem RunsAlong.stopped (h : Shows H files r x r') (ho : (D.dispatchFrame x a).throws = true) :
    D.RunsAlong H (max + 1) (files, r) a (x :: xs) := by
  have hfeed : D.feed (x :: xs) a = (0, true, (D.dispatchFrame x a).user) := by
    simp only [feed, ho, if_true]
  have hrun : D.run H (max + 1) (files, r) a =
      ⟨0, (D.handOver x).toList, (D.dispatchFrame x a).user, .threw (files, r')⟩ := by
    simp only [run, h.look, h.frame, ho, if_true, calls_eq]
  constructor
  · rw [hrun, hfeed]
  · rw [hrun, hfeed]
  · rw [hfeed]
    intro hnot
    cases hnot
  · intro _
    rw [hrun]
    refine ⟨(files, r), r', x, rfl, rfl, rfl, h.look, h.again, h.frame, ?_⟩
    rw [Nat.zero_add, List.take_succ_cons, filterMap_handOver, List.take_zero]
    exact (List.append_nil _).symm

end
end Dispatcher

end Revoq
