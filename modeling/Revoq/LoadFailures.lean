import Revoq.Consumption
import Revoq.WarmedRotation

/-! # Page loads that fail

A reader that is to move over a sentinel loads the next page, and the load may throw:
the file cannot be opened, grown or mapped, or its header is not what it should be.
What the reader's own warmer has mapped ahead may be rejected too.  The exception
leaves `Journal::loadPage` before the journal has changed, and `Journal::next` and
`JournalReader::next` before the reader has.

A failed load may have created or grown the file, though.  What counts is that this
takes nothing from the next try (`LoadEnds`, `Tried`): a load that returns leaves the
directory that one left alone would have.
-/
namespace Revoq
open ByteImage StmtMachine HeapContract

/-! ## A load that may fail -/

/-- What one call of `loadPage` meets. -/
structure Attempt where
  /-- `warmer_ready_id_`, and the bytes found at `warmer_addr_`. -/
  warmed : Option (Nat × Image) := none
  env : LoadEnv := .succeeds

/-- `Page::load` by a reader. -/
def Page.loadIn (env : LoadEnv) (P : PageSize) (prefault : Bool) (p : Nat) (d : Disk) :
    Outcome (Disk × LoadRegs) LoadStmt :=
  run (LoadStmt.exec P) 13 (Page.loadCode env) (d, ⟨p, false, prefault, false, 0, false⟩)

/-- The mapping the warmer has ready for the page.  A prefault reader has no warmer, and
`loadExistingReadOnlyMmapBuffer` maps files of the page's size only. -/
def Attempt.ready (a : Attempt) (P : PageSize) (prefault : Bool) (p : Nat)
    (d : Disk) : Option Image :=
  if prefault then none
  else a.warmed.bind fun w => if w.1 = p ∧ d.size p = some P.bytes then some w.2 else none

/-- `Journal::loadPage`. -/
def Reader.loadPageIn (a : Attempt) (P : PageSize) (r : Reader) (p : Nat) (d : Disk) :
    Result (Disk × Reader) :=
  if r.page = some p then .returns (d, r)
  else
    match (a.ready P r.prefault p d).filter loadFromAddress with
    | some m => .returns (d, { r with page := some p, offset := firstFrameAddress m })
    | none =>
      match Page.loadIn a.env P r.prefault p d with
      | .next (d, _) [] =>
          .returns (d, { r with page := some p, offset := firstFrameAddress (d.image p) })
      | .throw (d, _) => .throws (d, r)
      -- a load has at most 13 statements, so none are left over
      | .fault (d, _) | .next (d, _) (_ :: _) => .faults (d, r)

/-- `Journal::next(frame_length, msg_type)` of a cursor. -/
def Reader.nextIn (a : Attempt) (P : PageSize) (r : Reader) (v : FrameView) (d : Disk) :
    Result (Disk × Reader) :=
  if v.msgType = MsgType.pageEnd.toHeader.toNat then r.loadPageIn a P (r.page.getD 0 + 1) d
  else .returns (d, { r with offset := r.offset + framePhysicalLength v.frameLength })

/-- `Journal::next(frame_length, msg_type)`. -/
def Journal.nextIn (a : Attempt) (j : Journal) (v : FrameView) (files : Files) :
    Result (Files × Journal) :=
  (j.cursor.nextIn a j.pageSize v (j.disk files)).map fun (d, c) =>
    (j.put files d, { j with cursor := c })

namespace JournalReader

/-- `next` of the journal at an index.  An exception leaves the journal as it is then. -/
def stepJournalIn (a : Attempt) (i : Nat) (v : Journal → FrameView) :
    Files × JournalReader → Result (Files × JournalReader)
  | (files, r) =>
      match r.journals[i]? with
      | none => .faults (files, r)
      | some j =>
        (j.nextIn a (v j) files).map fun (files, j) =>
          (files, { r with journals := r.journals.set i j })

/-- `next` of the journal behind a pointer. -/
def stepSingleIn (a : Attempt) (address : Nat) (v : Journal → FrameView) :
    Files × JournalReader → Result (Files × JournalReader)
  | (files, r) => stepJournalIn a (r.journals.findIdx fun j => j.address = address) v (files, r)

/-- `JournalReader::next`. -/
def nextIn (a : Attempt) (H : MergeHeap) : Files × JournalReader → Result (Files × JournalReader)
  | (files, r) =>
      match r.currentJournalIdx with
      | none => .returns (files, r)
      | some i =>
        if i ≥ r.journals.length then .returns (files, r)
        else
          match r.singleJournal with
          | some address => stepSingleIn a address (fun j => j.current files) (files, r)
          | none => (stepJournalIn a i (fun j => j.current files) (files, r)).andThen (reselect H)

/-- `advance`. -/
def advanceIn (a : Attempt) (H : MergeHeap) (current : FrameView) :
    Files × JournalReader → Result (Files × JournalReader)
  | (files, r) =>
      match r.singleJournal with
      | some address => stepSingleIn a address (fun _ => current) (files, r)
      | none => nextIn a H (files, r)

/-- `while (auto v = tryCurrentFrame()) { …; advance(v); }`. -/
def advanceTurnIn (H : MergeHeap) (a : Attempt) : Files × JournalReader → Turn
  | (files, r) =>
      match r.tryCurrentFrame H files with
      | none => .fault (files, r)
      | some (none, r) => .ended (files, r)
      | some (some v, r) => visit v (files, r) (advanceIn a H v.toFrameView (files, r))

/-- `while (isDataAvailable()) { auto v = tryCurrentFrame(); …; next(); }`. -/
def nextTurnIn (H : MergeHeap) (a : Attempt) : Files × JournalReader → Turn
  | (files, r) =>
      match r.isDataAvailable H files with
      | none => .fault (files, r)
      | some (false, r) => .ended (files, r)
      | some (true, r) =>
        match r.tryCurrentFrame H files with
        | none | some (none, _) => .fault (files, r)
        | some (some v, r) => visit v (files, r) (nextIn a H (files, r))

end JournalReader

/-- A frame visited, and whether the move behind it threw. -/
structure Visit where
  shown : Shown
  threw : Bool

/-- At most `n` turns of a loop that catches what a move throws and tries again.  The
loads of turn `i` meet `a i`. -/
def retryLoop (turn : Attempt → Files × JournalReader → Turn) :
    (Nat → Attempt) → Nat → LoopState → List Visit × LoopState
  | _, 0, st => ([], st)
  | _, _ + 1, .ended s => ([], .ended s)
  | _, _ + 1, .fault s => ([], .fault s)
  | a, n + 1, .running s | a, n + 1, .threw s =>
      match turn (a 0) s with
      | .ended s => ([], .ended s)
      | .fault s => ([], .fault s)
      | .visit x (.returns s) =>
          let rest := retryLoop turn (fun i => a (i + 1)) n (.running s)
          (⟨x, false⟩ :: rest.1, rest.2)
      | .visit x (.throws s) =>
          let rest := retryLoop turn (fun i => a (i + 1)) n (.threw s)
          (⟨x, true⟩ :: rest.1, rest.2)
      | .visit x (.faults s) => ([⟨x, false⟩], .fault s)

/-! ## What a load leaves -/

namespace Page

/-- The directory once the file is open and of full size. -/
def laid (P : PageSize) (prefault : Bool) (p : Nat) (d : Disk) : Disk :=
  if prefault then (d.create p).allocate p P.bytes else d.create p

/-- The directory a load leaves when it returns. -/
def loaded (P : PageSize) (prefault : Bool) (p : Nat) (d : Disk) : Disk :=
  if prefault ∧ lastFramePosition ((laid P prefault p d).image p) = 0 then
    (laid P prefault p d).writeAll p (initPuts P)
  else laid P prefault p d

end Page

section
variable {P : PageSize} {prefault : Bool} {p : Nat} {d d' d'' : Disk}

theorem Disk.eq_of {d d' : Disk} (hs : d'.size = d.size) (hi : d'.image = d.image)
    (ht : d'.top = d.top) :
    d' = d := by
  obtain ⟨size, image, top, absent⟩ := d
  obtain ⟨size', image', top', absent'⟩ := d'
  cases hs
  cases hi
  cases ht
  rfl

theorem Disk.create_create : (d.create p).create p = d.create p :=
  Disk.create_of_isSome (d.create_isSome p)

theorem Disk.create_sized : ∃ size, (d.create p).size p = some size :=
  Option.isSome_iff_exists.mp (d.create_isSome p)

/-- Zeroing the file of a page that was missing does nothing either. -/
theorem Disk.zeroFill_new (hs : d.size p = none) (n m : Nat) :
    ((d.create p).allocate p n).write p 0 m 0 = (d.create p).allocate p n := by
  refine Disk.eq_of rfl ?_ rfl
  have hblank : store ((d.create p).image p) 0 m 0 = (d.create p).image p := by
    rw [Disk.create_image_self_of_none hs]
    exact store_zero_eq_self fun _ _ _ => rfl
  exact (congrArg _ hblank).trans (Function.update_eq_self p (d.create p).image)

theorem Page.laid_create : laid P prefault p (d.create p) = laid P prefault p d := by
  unfold laid
  rw [Disk.create_create]

theorem Page.laid_laid : laid P prefault p (laid P prefault p d) = laid P prefault p d := by
  cases prefault with
  | false => exact Disk.create_create
  | true =>
    obtain ⟨size, hs⟩ := @Disk.create_sized p d
    have hsize : ((d.create p).allocate p P.bytes).size p = some (max P.bytes size) := by
      rw [Disk.allocate_size_self, hs]
      rfl
    show (((d.create p).allocate p P.bytes).create p).allocate p P.bytes =
        (d.create p).allocate p P.bytes
    rw [Disk.create_of_isSome (by rw [hsize]; rfl), Disk.allocate_of_le hsize (Nat.le_max_left ..)]

theorem Page.laid_of_ne {q : Nat} (hq : q ≠ p) : d.SameFile (laid P prefault p d) q := by
  unfold laid
  split
  · exact ⟨((d.create p).allocate_size_of_ne P.bytes hq).trans (d.create_size_of_ne hq),
      d.create_image_of_ne hq⟩
  · exact ⟨d.create_size_of_ne hq, d.create_image_of_ne hq⟩

/-- **Loads of a page that threw** have led from one directory to another: other pages
are untouched, and a load that returns will not see the difference. -/
structure Tried (P : PageSize) (prefault : Bool) (p : Nat) (d d' : Disk) : Prop where
  laid : Page.laid P prefault p d' = Page.laid P prefault p d
  others : ∀ q, q ≠ p → d.SameFile d' q

theorem Tried.refl (d : Disk) : Tried P prefault p d d := ⟨rfl, fun q _ => .refl d q⟩

theorem Tried.trans (h : Tried P prefault p d d') (h' : Tried P prefault p d' d'') :
    Tried P prefault p d d'' :=
  ⟨h'.laid.trans h.laid, fun q hq => (h.others q hq).trans (h'.others q hq)⟩

theorem Tried.create : Tried P prefault p d (d.create p) :=
  ⟨Page.laid_create, fun _ hq => ⟨d.create_size_of_ne hq, d.create_image_of_ne hq⟩⟩

theorem Tried.full : Tried P prefault p d (Page.laid P prefault p d) :=
  ⟨Page.laid_laid, fun _ hq => Page.laid_of_ne hq⟩

theorem Tried.loaded (h : Tried P prefault p d d') :
    Page.loaded P prefault p d' = Page.loaded P prefault p d := by
  unfold Page.loaded
  rw [h.laid]

/-- **How a load can end.** -/
inductive LoadOutcome (P : PageSize) (prefault : Bool) (p : Nat) (d : Disk) :
    Outcome (Disk × LoadRegs) LoadStmt → Prop where
  | returned (r : LoadRegs)
      (first : firstFrameAddress ((Page.loaded P prefault p d).image p) = pageHeaderSize) :
      LoadOutcome P prefault p d (.next (Page.loaded P prefault p d, r) [])
  | threw {d' : Disk} (r : LoadRegs) (tried : Tried P prefault p d d') :
      LoadOutcome P prefault p d (.throw (d', r))
  | died (x : Disk × LoadRegs) : LoadOutcome P prefault p d (.fault x)

/-- The end of a load, once the file is mapped. -/
theorem loadOutcome_checkNew {r : LoadRegs} (hp : r.page = p) (hw : r.isWriting = false)
    (hf : r.prefault = prefault) :
    LoadOutcome P prefault p d
      (run (LoadStmt.exec P) 8 [.checkNew, .validate] (Page.laid P prefault p d, r)) := by
  subst hp
  have hmaster : r.master = prefault := by rw [LoadRegs.master, hw, hf, Bool.false_or]
  rw [run, LoadStmt.exec]
  by_cases hs : ((Page.laid P prefault r.page d).size r.page).getD 0 = 0
  · rw [if_pos hs]
    exact .died _
  rw [if_neg hs]
  by_cases h0 : lastFramePosition ((Page.laid P prefault r.page d).image r.page) = 0
  · rw [if_pos h0]
    cases prefault with
    | false =>
      -- the mapping is read-only
      have hput : ∀ o w v (x : Disk), LoadStmt.exec P (.put o w v) (x, r) = .fault (x, r) := by
        intro o w v x
        rw [LoadStmt.exec, hmaster, if_neg (by decide)]
      simp only [Page.initHeader, List.cons_append, run, hput]
      exact .died _
    | true =>
      have hloaded : Page.loaded P true r.page d = (Page.laid P true r.page d).writeAll
          r.page (initPuts P) :=
        if_pos ⟨rfl, h0⟩
      obtain ⟨hok, hlast⟩ := (pending_initPuts (P := P) h0).imageAfter
      rw [← writeAll_image, ← hloaded] at hok hlast
      have hrun :=
        (@load_puts_straight P (Page.laid P true r.page d) (initPuts P) r hmaster).run_append 1
        [.validate]
      rw [← hloaded] at hrun
      have hload : run (LoadStmt.exec P) 7 (Page.initHeader P ++ [.validate])
          (Page.laid P true r.page d, r) =
          .next (Page.loaded P true r.page d, r) [] := hrun.trans (run_validate hok hlast 0)
      show LoadOutcome P true r.page d
        (run (LoadStmt.exec P) 7 (Page.initHeader P ++ [.validate]) (Page.laid P true r.page d, r))
      rw [hload]
      exact .returned r hok.headerLength
  · rw [if_neg h0]
    simp only [List.nil_append, run, LoadStmt.exec]
    have hloaded : Page.loaded P prefault r.page d = Page.laid P prefault r.page d :=
      if_neg fun h => h0 h.2
    by_cases hv : Page.headerValid P ((Page.laid P prefault r.page d).image r.page) = true
    · have hret := @LoadOutcome.returned P prefault r.page d r
        (by rw [hloaded]; exact firstFrameAddress_of_valid hv)
      rw [hloaded] at hret
      rw [if_pos hv]
      exact hret
    · rw [if_neg hv]
      exact .threw r .full

/-- The file is opened and grown, as far as that succeeds. -/
theorem loadOutcome_allocate {r : LoadRegs} {env : LoadEnv} (hp : r.page = p)
    (hw : r.isWriting = false) (hf : r.prefault = prefault)
    (hexists : r.fileExists = (d.size p).isSome) (hst : r.stSize = (d.size p).getD 0) :
    LoadOutcome P prefault p d (run (LoadStmt.exec P) 11
      [.allocate env.allocateFails, .map env.mapFails, .populate, .checkNew, .validate]
      (d.create p, r)) := by
  subst hp
  have hmaster : r.master = prefault := by rw [LoadRegs.master, hw, hf, Bool.false_or]
  -- with the file at its full size, the rest of the load is left
  have hmap : LoadOutcome P prefault r.page d (run (LoadStmt.exec P) 10
      [.map env.mapFails, .populate, .checkNew, .validate] (Page.laid P prefault r.page d, r)) := by
    rw [run, LoadStmt.exec]
    cases hfails : env.mapFails with
    | true => exact .threw r .full
    | false =>
      have hzero : LoadStmt.exec P .populate (Page.laid P prefault r.page d, r) =
          .next (Page.laid P prefault r.page d, r) [] := by
        rw [LoadStmt.exec]
        by_cases hc : (r.prefault && !r.fileExists) = true
        · rw [Bool.and_eq_true, Bool.not_eq_true', hexists, hf] at hc
          obtain ⟨rfl, hnone⟩ := hc
          have hs : d.size r.page = none := by simpa using hnone
          rw [if_pos (by rw [hf, hexists, hs]; rfl)]
          exact congrArg (fun x => Outcome.next (x, r) []) (Disk.zeroFill_new hs P.bytes P.bytes)
        · rw [if_neg hc]
      simp only [Bool.false_eq_true, if_false, List.nil_append, run]
      rw [hzero]
      exact loadOutcome_checkNew rfl hw hf
  rw [run, LoadStmt.exec, hmaster, hexists, hst]
  cases prefault with
  | false => exact hmap
  | true =>
    by_cases hfull : d.size r.page = some P.bytes
    · have hlaid : Page.laid P true r.page d = d.create r.page := by
        rw [Page.laid, if_pos rfl, Disk.create_of_isSome (by rw [hfull]; rfl)]
        exact Disk.allocate_of_le hfull (Nat.le_refl _)
      rw [hlaid] at hmap
      rw [if_neg (by simp [hfull])]
      exact hmap
    · rw [if_pos (by
        cases hs : d.size r.page with
        | none => rfl
        | some size =>
          rw [hs] at hfull
          simpa using fun h : size = P.bytes => hfull (congrArg some h))]
      cases hfails : env.allocateFails with
      | true => exact .threw r .create
      | false => exact hmap

/-- **Every load ends so.** -/
theorem loadOutcome (env : LoadEnv) (P : PageSize) (prefault : Bool) (p : Nat) (d : Disk) :
    LoadOutcome P prefault p d (Page.loadIn env P prefault p d) := by
  simp only [Page.loadIn, Page.loadCode, run, LoadStmt.exec, List.nil_append]
  cases hopen : env.openFails with
  | true => exact .threw _ (.refl d)
  | false => exact loadOutcome_allocate rfl rfl rfl rfl rfl

end

/-! ## Loads that do not fail

Without a warmer and with system calls that succeed, the moves are those of the modules
before. -/

section
variable {H : MergeHeap}

/-- A load without a warmer whose system calls succeed. -/
def Attempt.plain : Attempt := {}

theorem Reader.loadPageIn_plain (P : PageSize) (r : Reader) (p : Nat) (d : Disk) :
    (r.loadPageIn .plain P p d).value = r.loadPage P p d := by
  have hready : Attempt.plain.ready P r.prefault p d = none := by
    unfold Attempt.ready
    split <;> rfl
  unfold loadPageIn loadPage
  split
  · rfl
  · rw [hready]
    have hload : LoadOutcome P r.prefault p d (Page.load P false r.prefault p d) :=
      loadOutcome .succeeds P r.prefault p d
    show (match Page.load P false r.prefault p d with
      | .next (d, _) [] =>
          Result.returns (d, { r with page := some p, offset := firstFrameAddress (d.image p) })
      | .throw (d, _) => .throws (d, r)
      | .fault (d, _) | .next (d, _) (_ :: _) => .faults (d, r)).value = _
    generalize Page.load P false r.prefault p d = x at hload ⊢
    cases hload <;> rfl

theorem Reader.nextIn_plain (P : PageSize) (r : Reader) (v : FrameView) (d : Disk) :
    (r.nextIn .plain P v d).value = r.next P v d := by
  unfold nextIn next
  split
  · exact loadPageIn_plain ..
  · rfl

namespace JournalReader

theorem stepJournalIn_plain (i : Nat) (v : Journal → FrameView) (s : Files × JournalReader) :
    (stepJournalIn .plain i v s).returned = (stepJournal i v s).returned := by
  obtain ⟨files, r⟩ := s
  cases hj : r.journals[i]? with
  | none => simp only [stepJournalIn, stepJournal, hj]
  | some j =>
    simp only [stepJournalIn, stepJournal, hj, Journal.nextIn, Journal.next, ← Reader.nextIn_plain]
    cases j.cursor.nextIn .plain j.pageSize (v j) (j.disk files) <;> rfl

theorem nextIn_plain (s : Files × JournalReader) :
    (nextIn .plain H s).returned = (next H s).returned := by
  obtain ⟨files, r⟩ := s
  cases hi : r.currentJournalIdx with
  | none => simp only [nextIn, next, hi]
  | some i =>
    by_cases hlen : i ≥ r.journals.length
    · simp only [nextIn, next, hi, hlen, if_true]
    · cases hs : r.singleJournal with
      | some address =>
        simp only [nextIn, next, hi, hlen, if_false, hs, stepSingleIn, stepSingle,
          stepJournalIn_plain]
      | none =>
        simp only [nextIn, next, hi, hlen, if_false, hs, Result.returned_andThen,
          stepJournalIn_plain]

theorem advanceIn_plain (v : FrameView) (s : Files × JournalReader) :
    (advanceIn .plain H v s).returned = (advance H v s).returned := by
  obtain ⟨files, r⟩ := s
  cases hs : r.singleJournal with
  | some address =>
    simp only [advanceIn, advance, hs, stepSingleIn, stepSingle, stepJournalIn_plain]
  | none => simp only [advanceIn, advance, hs, nextIn_plain]

end JournalReader
end

/-! ## One journal -/

/-- Where `Journal::next` takes a cursor, and the directory, when it returns. -/
def Reader.landed (P : PageSize) (r : Reader) (v : FrameView) (d : Disk) : Disk × Reader :=
  if v.msgType = MsgType.pageEnd.toHeader.toNat then
    (Page.loaded P r.prefault (r.page.getD 0 + 1) d,
      { r with page := some (r.page.getD 0 + 1), offset := pageHeaderSize })
  else (d, { r with offset := r.offset + framePhysicalLength v.frameLength })

section
variable {a : Attempt} {P : PageSize} {r c : Reader} {p : Nat} {d d' : Disk} {v : FrameView}

/-- A mapping the warmer has ready is one of the file a load would map. -/
theorem Attempt.ready_eq_some {m : Image} {prefault : Bool} (h : a.ready P prefault p d = some m) :
    prefault = false ∧ Page.loaded P prefault p d = d := by
  unfold ready at h
  split at h
  · cases h
  · rename_i hf
    obtain ⟨w, -, hw⟩ := Option.bind_eq_some_iff.mp h
    split at hw
    · rename_i hready
      have hfalse : prefault = false := by simpa using hf
      subst hfalse
      refine ⟨rfl, ?_⟩
      rw [Page.loaded, if_neg fun h => by cases h.1]
      exact Disk.create_of_isSome (by rw [hready.2]; rfl)
    · cases hw

/-- **A load of another page**: returning or not, it has only one way to do so. -/
theorem Reader.loadPageIn_ends (hr : r.page ≠ some p) :
    (∀ x, r.loadPageIn a P p d = .returns x →
      x = (Page.loaded P r.prefault p d, { r with page := some p, offset := pageHeaderSize })) ∧
    ∀ x, r.loadPageIn a P p d = .throws x → x.2 = r ∧ Tried P r.prefault p d x.1 := by
  have hload := loadOutcome a.env P r.prefault p d
  unfold loadPageIn
  rw [if_neg hr]
  cases hw : (a.ready P r.prefault p d).filter loadFromAddress with
  | some m =>
    obtain ⟨hready, hm⟩ := Option.filter_eq_some_iff.mp hw
    rw [loadFromAddress, Bool.and_eq_true, decide_eq_true_eq, decide_eq_true_eq] at hm
    refine ⟨fun x hx => ?_, fun x hx => by cases hx⟩
    cases hx
    rw [(Attempt.ready_eq_some hready).2, hm.2]
  | none =>
    simp only
    generalize Page.loadIn a.env P r.prefault p d = x at hload ⊢
    cases hload with
    | returned regs first =>
      refine ⟨fun x hx => ?_, fun x hx => by cases hx⟩
      cases hx
      rw [first]
    | threw regs tried =>
      refine ⟨fun x hx => (by cases hx), fun x hx => ?_⟩
      cases hx
      exact ⟨rfl, tried⟩
    | died y => exact ⟨fun x hx => (by cases hx), fun x hx => (by cases hx)⟩

theorem Reader.page_ne_next (r : Reader) : r.page ≠ some (r.page.getD 0 + 1) := by
  cases hp : r.page with
  | none => exact fun h => by cases h
  | some p => exact fun h => absurd (Option.some.inj h) (Nat.ne_of_lt (Nat.lt_succ_self p))

theorem Reader.nextIn_returns {x : Disk × Reader} (h : r.nextIn a P v d = .returns x) :
    x = r.landed P v d := by
  unfold nextIn at h
  unfold landed
  split at h
  · rename_i hv
    rw [if_pos hv]
    exact (loadPageIn_ends r.page_ne_next).1 x h
  · rename_i hv
    cases h
    rw [if_neg hv]

/-- Only a load throws, and the cursor has not moved then. -/
theorem Reader.nextIn_throws {x : Disk × Reader} (h : r.nextIn a P v d = .throws x) :
    v.msgType = MsgType.pageEnd.toHeader.toNat ∧ x.2 = r ∧
      Tried P r.prefault (r.page.getD 0 + 1) d x.1 := by
  unfold nextIn at h
  split at h
  · rename_i hv
    exact ⟨hv, (loadPageIn_ends r.page_ne_next).2 x h⟩
  · cases h

end

/-! ## The reader -/

/-- Moves of a journal behind a frame that threw have led from one set of files to
another. -/
def Journal.Tried (j : Journal) (v : FrameView) (files files' : Files) : Prop :=
  ∃ d, files' = j.put files d ∧ (v.msgType = MsgType.pageEnd.toHeader.toNat ∨ d = j.disk files) ∧
    Revoq.Tried j.pageSize j.cursor.prefault (j.cursor.page.getD 0 + 1) (j.disk files) d

section
variable {a b : Attempt} {H : MergeHeap} {files files' : Files} {r : JournalReader}
  {i : Nat} {j : Journal}
variable {v : FrameView} {s t t' : Files × JournalReader}
open JournalReader

theorem Journal.disk_put (j : Journal) (files : Files) (d : Disk) : j.disk (j.put files d) = d := by
  simp [Journal.disk, Journal.put]

theorem Journal.put_put (j : Journal) (files : Files) (d d' : Disk) :
    j.put (j.put files d) d' = j.put files d' := by
  funext uid destId
  unfold Journal.put
  split <;> rfl

theorem Journal.Tried.refl (j : Journal) (v : FrameView) (files : Files) : j.Tried v files files :=
  ⟨j.disk files, (j.put_disk files).symm, Or.inr rfl, .refl _⟩

/-- `Journal::next` when it throws. -/
theorem Journal.nextIn_throws (ht : j.Tried v files files') {x : Files × Journal}
    (h : j.nextIn a v files' = .throws x) :
    v.msgType = MsgType.pageEnd.toHeader.toNat ∧ x.2 = j ∧ j.Tried v files x.1 := by
  obtain ⟨d, rfl, -, htried⟩ := ht
  unfold Journal.nextIn at h
  rw [Journal.disk_put] at h
  obtain ⟨⟨d', c⟩, hnext, rfl⟩ := Result.map_eq_throws h
  obtain ⟨hv, hc, htried'⟩ := Reader.nextIn_throws hnext
  obtain rfl : c = j.cursor := hc
  exact ⟨hv, rfl, d', j.put_put files d d', Or.inl hv, htried.trans htried'⟩

/-- `Journal::next` when it returns: it leads to one place, whatever was tried before. -/
theorem Journal.nextIn_returns (ht : j.Tried v files files') {x x' : Files × Journal}
    (h : j.nextIn a v files' = .returns x) (h' : j.nextIn b v files = .returns x') : x = x' := by
  obtain ⟨d, rfl, hend, htried⟩ := ht
  have hland : j.cursor.landed j.pageSize v d = j.cursor.landed j.pageSize v (j.disk files) := by
    rcases hend with hv | rfl
    · rw [Reader.landed, Reader.landed, if_pos hv, if_pos hv, htried.loaded]
    · rfl
  unfold Journal.nextIn at h h'
  rw [Journal.disk_put] at h
  obtain ⟨y, hnext, rfl⟩ := Result.map_eq_returns h
  obtain ⟨y', hnext', rfl⟩ := Result.map_eq_returns h'
  rw [Reader.nextIn_returns hnext, Reader.nextIn_returns hnext', hland]
  exact Prod.ext (j.put_put ..) rfl

/-- **A move of one journal that throws** leaves the reader as it was. -/
theorem stepJournalIn_throws {w : Journal → FrameView} (hj : r.journals[i]? = some j)
    (ht : j.Tried (w j) files files') (h : stepJournalIn a i w (files', r) = .throws s) :
    (w j).msgType = MsgType.pageEnd.toHeader.toNat ∧ s.2 = r ∧ j.Tried (w j) files s.1 := by
  simp only [stepJournalIn, hj] at h
  obtain ⟨x, hnext, rfl⟩ := Result.map_eq_throws h
  obtain ⟨hv, hx, htried⟩ := Journal.nextIn_throws ht hnext
  refine ⟨hv, ?_, htried⟩
  obtain ⟨hlt, rfl⟩ := List.getElem?_eq_some_iff.mp hj
  rw [hx, List.set_getElem_self hlt]

/-- **A move of one journal that returns** leads to one place. -/
theorem stepJournalIn_returns (hj : r.journals[i]? = some j) (ht : j.Tried v files files')
    (h : stepJournalIn a i (fun _ => v) (files', r) = .returns t)
    (h' : stepJournalIn b i (fun _ => v) (files, r) = .returns t') : t = t' := by
  simp only [stepJournalIn, hj] at h h'
  obtain ⟨x, hnext, rfl⟩ := Result.map_eq_returns h
  obtain ⟨x', hnext', rfl⟩ := Result.map_eq_returns h'
  rw [Journal.nextIn_returns ht hnext hnext']

/-! ### The journal whose frame is shown -/

/-- The reader shows the frame of a journal, and a look changes nothing. -/
structure OnShow (H : MergeHeap) (files : Files) (r : JournalReader) (x : MergedView)
    (i : Nat) (j : Journal) :
    Prop where
  poised : Poised r
  journal : r.journals[i]? = some j
  view : JournalReader.viewOf files j = some x
  single : ∀ address, r.singleFrame = some address → r.journals = [j] ∧ j.address = address ∧ i = 0
  several : r.singleFrame = none → r.needsRebuild = false ∧ r.currentJournalIdx = some i

variable {x : MergedView}

theorem Poised.onShow (hp : Poised r) (h : r.tryCurrentFrame H files = some (some x, r)) :
    ∃ i j, OnShow H files r x i j := by
  cases hs : r.singleFrame with
  | some address =>
    obtain ⟨j, hj, haddr, -, hlook⟩ := look_single H files hp.books hs
    have hview := (Prod.mk.inj (Option.some.inj (hlook.symm.trans h))).1
    refine ⟨0, j, hp, by rw [hj]; rfl, hview, fun address' h' => ?_, fun hn => ?_⟩
    · exact ⟨hj, haddr.trans (Option.some.inj (hs.symm.trans h')), rfl⟩
    · rw [hs] at hn
      cases hn
  | none =>
    rcases look_several H files hs with ⟨-, hlook⟩ | ⟨j, -, hraw, -, hlook⟩
    · cases hlook.symm.trans h
    · obtain ⟨hview, hrefresh⟩ := Prod.mk.inj (Option.some.inj (hlook.symm.trans h))
      rw [hrefresh, currentFrameRaw_eq] at hraw
      obtain ⟨i, hi, hj⟩ := Option.bind_eq_some_iff.mp hraw
      refine ⟨i, j, hp, hj, hview, fun address' h' => ?_, fun _ => ⟨?_, hi⟩⟩
      · rw [hs] at h'
        cases h'
      · -- a rebuild would have been seen
        unfold refresh at hrefresh
        split at hrefresh
        · rw [← hrefresh]
          exact rebuildHeap_needsRebuild
        · rename_i hn
          simpa using hn

theorem viewOf_eq_some (h : JournalReader.viewOf files j = some x) :
    j.hasData files = true ∧ j.current files = x.toFrameView := by
  unfold JournalReader.viewOf at h
  split at h
  · rename_i hd
    cases h
    exact ⟨hd, rfl⟩
  · cases h

/-- The end of a move, when the journal has moved. -/
def afterMove (H : MergeHeap) (r : JournalReader) (s : Files × JournalReader) :
    Result (Files × JournalReader) :=
  match r.singleJournal with
  | some _ => .returns s
  | none => reselect H s

theorem afterMove_throws (s t : Files × JournalReader) : afterMove H r s ≠ .throws t := by
  unfold afterMove
  split
  · exact fun h => by cases h
  · unfold reselect
    simp only
    split
    · split <;> exact fun h => by cases h
    · exact fun h => by cases h

theorem stepJournalIn_congr (hj : r.journals[i]? = some j) {w w' : Journal → FrameView}
    (h : w j = w' j) :
    stepJournalIn a i w (files, r) = stepJournalIn a i w' (files, r) := by
  simp only [stepJournalIn, hj, h]

/-- **What `next` and `advance` do** at a frame that is shown. -/
theorem OnShow.moves (h : OnShow H files r x i j) (a : Attempt)
    (hcur : j.current files' = x.toFrameView) :
    nextIn a H (files', r) =
        (stepJournalIn a i (fun _ => x.toFrameView) (files', r)).andThen (afterMove H r) ∧
      advanceIn a H x.toFrameView (files', r) =
        (stepJournalIn a i (fun _ => x.toFrameView) (files', r)).andThen (afterMove H r) := by
  have hlt : i < r.journals.length := (List.getElem?_eq_some_iff.mp h.journal).1
  have hsj := h.poised.books.singleJournal_eq
  have hstep : stepJournalIn a i (fun j => j.current files') (files', r) =
      stepJournalIn a i (fun _ => x.toFrameView) (files', r) := stepJournalIn_congr h.journal hcur
  cases hs : r.singleFrame with
  | some address =>
    obtain ⟨hj, haddr, rfl⟩ := h.single address hs
    rw [hs] at hsj
    have hidx : r.currentJournalIdx = some 0 := h.poised.placed (by rw [hsj]; simp)
    have hfind : (r.journals.findIdx fun j => j.address = address) = 0 := by
      rw [hj]
      simp [haddr]
    have hafter : afterMove H r = .returns := by
      funext s
      simp only [afterMove, hsj]
    rw [hafter, Result.andThen_returns]
    constructor
    · simp only [nextIn, hidx, hsj, stepSingleIn, hfind, hstep]
      rw [if_neg (by omega)]
    · simp only [advanceIn, hsj, stepSingleIn, hfind]
  | none =>
    rw [hs] at hsj
    have hidx := (h.several hs).2
    have hafter : afterMove H r = reselect H := by
      funext s
      simp only [afterMove, hsj]
    have hnext : nextIn a H (files', r) =
        (stepJournalIn a i (fun _ => x.toFrameView) (files', r)).andThen (reselect H) := by
      simp only [nextIn, hidx, hsj, hstep]
      rw [if_neg (by omega)]
    rw [hafter]
    constructor
    · exact hnext
    · simp only [advanceIn, hsj, hnext]

theorem OnShow.look (h : OnShow H files r x i j) :
    r.isDataAvailable H files = some (true, r) ∧ r.tryCurrentFrame H files = some (some x, r) := by
  obtain ⟨hd, -⟩ := viewOf_eq_some h.view
  cases hs : r.singleFrame with
  | some address =>
    obtain ⟨k, hk, -, hdata, hlook⟩ := look_single H files h.poised.books hs
    obtain rfl : j = k := (List.cons.inj ((h.single address hs).1.symm.trans hk)).1
    exact ⟨hd ▸ hdata, h.view ▸ hlook⟩
  | none =>
    obtain ⟨hn, hi⟩ := h.several hs
    have hrefresh : r.refresh H files = r := by rw [refresh, if_neg (by rw [hn]; decide)]
    have hraw : r.currentFrameRaw = some j := by rw [currentFrameRaw_eq, hi]; exact h.journal
    rcases look_several H files hs with ⟨hdata, -⟩ | ⟨k, hdata, hk, -, hlook⟩
    · rw [isDataAvailable_several hs, hrefresh, hraw] at hdata
      exact absurd (hd.symm.trans (Prod.mk.inj (Option.some.inj hdata)).1) (by decide)
    · rw [hrefresh] at hdata hk hlook
      obtain rfl : j = k := Option.some.inj (hraw.symm.trans hk)
      exact ⟨hdata, h.view ▸ hlook⟩

/-- The journals of a reader are told apart by their keys. -/
theorem Bookkeeping.journal_inj (hb : Bookkeeping r) {j k : Journal} (hj : j ∈ r.journals)
    (hk : k ∈ r.journals) (h : j.location.uid = k.location.uid ∧ j.destId = k.destId) : j = k := by
  refine List.inj_on_of_nodup_map hb.nodup hj hk ?_
  simp only [Journal.key, h.1, h.2]

/-- **Moves that threw touch no page a journal stands on.** -/
theorem Bookkeeping.image_tried (hb : Bookkeeping r) (hj : j ∈ r.journals)
    (ht : j.Tried v files files') {k : Journal} (hk : k ∈ r.journals) :
    k.cursor.image (k.disk files') = k.cursor.image (k.disk files) := by
  obtain ⟨d, rfl, -, htried⟩ := ht
  by_cases hkey : k.location.uid = j.location.uid ∧ k.destId = j.destId
  · obtain rfl := hb.journal_inj hk hj hkey
    rw [Journal.disk_put]
    exact (htried.others _ (Nat.ne_of_lt (Nat.lt_succ_self _))).2
  · have hdisk : k.disk (j.put files d) = k.disk files := if_neg hkey
    rw [hdisk]

theorem OnShow.tried (h : OnShow H files r x i j) (ht : j.Tried v files files') :
    OnShow H files' r x i j := by
  have hmem := List.mem_of_getElem? h.journal
  have himage := h.poised.books.image_tried hmem ht hmem
  have hcur : j.current files' = j.current files := by
    rw [Journal.current, Journal.current, Reader.current, himage]
    rfl
  refine ⟨h.poised, h.journal, ?_, h.single, h.several⟩
  rw [← h.view, JournalReader.viewOf, JournalReader.viewOf, Journal.hasData, Journal.hasData, hcur]

/-- What a consumer reads of the frame is the same. -/
theorem OnShow.frame_eq (h : OnShow H files r x i j) (ht : j.Tried v files files') :
    r.frame x files' = r.frame x files := by
  unfold JournalReader.frame
  cases hd : r.deref x.frame with
  | none => rfl
  | some k =>
    have himage := h.poised.books.image_tried (List.mem_of_getElem? h.journal) ht
      (List.mem_of_find?_eq_some hd)
    simp only [Option.map_some, Reader.frame, himage]

/-! ### Moves at the frame that is shown -/

/-- **A move that throws** leaves the reader as it was. -/
theorem OnShow.throws (h : OnShow H files r x i j) (ht : j.Tried x.toFrameView files files')
    (hm : advanceIn a H x.toFrameView (files', r) = .throws s) :
    x.msgType = MsgType.pageEnd.toHeader.toNat ∧ s.2 = r ∧ j.Tried x.toFrameView files s.1 := by
  have hcur := (viewOf_eq_some (h.tried ht).view).2
  rw [(h.moves a hcur).2] at hm
  rcases Result.andThen_eq_throws hm with hstep | ⟨y, -, hy⟩
  · exact @stepJournalIn_throws a files files' r i j s (fun _ => x.toFrameView) h.journal ht hstep
  · exact absurd hy (afterMove_throws y s)

/-- **A move that returns** leads to one place. -/
theorem OnShow.returns (h : OnShow H files r x i j) (ht : j.Tried x.toFrameView files files')
    (hm : advanceIn a H x.toFrameView (files', r) = .returns t)
    (hm' : advanceIn b H x.toFrameView (files, r) = .returns t') : t = t' := by
  have hcur := (viewOf_eq_some (h.tried ht).view).2
  rw [(h.moves a hcur).2] at hm
  rw [(h.moves b (viewOf_eq_some h.view).2).2] at hm'
  obtain ⟨y, hstep, hy⟩ := Result.andThen_eq_returns hm
  obtain ⟨y', hstep', hy'⟩ := Result.andThen_eq_returns hm'
  rw [stepJournalIn_returns h.journal ht hstep hstep', hy'] at hy
  cases hy
  rfl

theorem sameJournals_reselect {y : Files × JournalReader} (h : reselect H y = .returns t) :
    SameJournals y.2 t.2 := by
  obtain ⟨files, q⟩ := y
  simp only [reselect] at h
  split at h
  · split at h
    · cases h
    · rename_i q' hu
      cases h
      unfold updateHeap at hu
      split at hu
      · cases hu
        exact ⟨rfl, rfl, rfl, rfl⟩
      · split at hu
        · cases hu
        · split at hu
          · cases hu
          · simp only at hu
            split at hu <;> cases hu <;> exact ⟨rfl, rfl, rfl, rfl⟩
  · cases h
    exact ⟨rfl, rfl, rfl, rfl⟩

theorem Poised.of_stepJournalIn (hp : Poised r) {w : Journal → FrameView}
    (h : stepJournalIn a i w (files, r) = .returns t) : Poised t.2 ∧ SameJournals r t.2 := by
  unfold stepJournalIn at h
  simp only at h
  split at h
  · cases h
  · rename_i j hj
    obtain ⟨z, hnext, rfl⟩ := Result.map_eq_returns h
    obtain ⟨y, -, rfl⟩ := Result.map_eq_returns hnext
    have hsame := sameJournals_set hj y.2
    exact ⟨⟨hsame.bookkeeping hp.books, hp.placed⟩, hsame⟩

theorem Poised.of_nextIn (hp : Poised r) (h : nextIn a H (files, r) = .returns t) : Poised t.2 := by
  unfold nextIn at h
  simp only at h
  split at h
  · cases h
    exact hp
  · split at h
    · cases h
      exact hp
    · split at h
      · exact (hp.of_stepJournalIn h).1
      · rename_i hs
        obtain ⟨y, hstep, hy⟩ := Result.andThen_eq_returns h
        have hsame := (hp.of_stepJournalIn hstep).2.trans (sameJournals_reselect hy)
        refine ⟨hsame.bookkeeping hp.books, fun hne => absurd ?_ hne⟩
        rw [hsame.singleJournal, hs]

theorem Poised.of_advanceIn (hp : Poised r) (h : advanceIn a H v (files, r) = .returns t) :
    Poised t.2 := by
  unfold advanceIn at h
  simp only at h
  split at h
  · exact (hp.of_stepJournalIn h).1
  · exact hp.of_nextIn h

/-! ### Calls that throw, at any time -/

/-- An exception has left the reader as it was, and the pages its journals stand on. -/
def Untouched (s s' : Files × JournalReader) : Prop :=
  s'.2 = s.2 ∧ ∀ j ∈ s.2.journals, j.cursor.image (j.disk s'.1) = j.cursor.image (j.disk s.1)

theorem untouched_stepJournalIn (hb : Bookkeeping r) {w : Journal → FrameView}
    (h : stepJournalIn a i w (files, r) = .throws s) : Untouched (files, r) s := by
  cases hj : r.journals[i]? with
  | none =>
    simp only [stepJournalIn, hj] at h
    cases h
  | some j =>
    obtain ⟨-, hs, htried⟩ := stepJournalIn_throws hj (.refl j _ files) h
    exact ⟨hs, fun k hk => hb.image_tried (List.mem_of_getElem? hj) htried hk⟩

/-- **`next`, whenever it throws.** -/
theorem untouched_nextIn (hb : Bookkeeping r) (h : nextIn a H (files, r) = .throws s) :
    Untouched (files, r) s := by
  unfold nextIn at h
  simp only at h
  split at h
  · cases h
  · split at h
    · cases h
    · split at h
      · exact untouched_stepJournalIn hb h
      · rename_i hs
        rcases Result.andThen_eq_throws h with hstep | ⟨y, -, hy⟩
        · exact untouched_stepJournalIn hb hstep
        · have hafter : afterMove H r y = .throws s := by rw [afterMove, hs]; exact hy
          exact absurd hafter (afterMove_throws y s)

/-- **`advance`, whenever it throws.** -/
theorem untouched_advanceIn (hb : Bookkeeping r) (h : advanceIn a H v (files, r) = .throws s) :
    Untouched (files, r) s := by
  unfold advanceIn at h
  simp only at h
  split at h
  · exact untouched_stepJournalIn hb h
  · exact untouched_nextIn hb h

/-! ## Turns -/

/-- **The turns from one state**, whatever the loads meet. -/
theorem Poised.turnIn (hp : Poised r) (H : MergeHeap) (files : Files) :
    (∃ r', ∀ a, advanceTurnIn H a (files, r) = .ended (files, r')) ∨
    ∃ x f r' i j, r.tryCurrentFrame H files = some (some x, r') ∧ OnShow H files r' x i j ∧
      r'.frame x files = some f ∧
      ∀ a, advanceTurnIn H a (files, r) = .visit ⟨x, f⟩
        (advanceIn a H x.toFrameView (files, r')) := by
  rcases look_twice H files hp.books with ⟨r', -, hlook⟩ | ⟨x, r', -, hlook, hagain⟩
  · exact Or.inl ⟨r', fun a => by simp only [advanceTurnIn, hlook]⟩
  · obtain ⟨hb, hi⟩ := placed_look hp.books hp.placed hlook
    obtain ⟨i, j, hshow⟩ := Poised.onShow ⟨hb, hi⟩ hagain
    obtain ⟨f, hf⟩ := Option.isSome_iff_exists.mp (frame_of_look hp.books hlook)
    exact Or.inr ⟨x, f, r', i, j, hlook, hshow, hf,
      fun a => by simp only [advanceTurnIn, hlook, visit, hf]⟩

/-- The turn of a reader that is held at a frame. -/
theorem OnShow.turnIn (h : OnShow H files r x i j) {f : Frame}
    (hf : r.frame x files = some f) (a : Attempt) :
    advanceTurnIn H a (files, r) = .visit ⟨x, f⟩ (advanceIn a H x.toFrameView (files, r)) := by
  simp only [advanceTurnIn, h.look.2, visit, hf]

/-- The two loops have the same turns. -/
theorem nextTurnIn_eq (hp : Poised r) (H : MergeHeap) (files : Files) (a : Attempt) :
    nextTurnIn H a (files, r) = advanceTurnIn H a (files, r) := by
  rcases look_twice H files hp.books with ⟨r', hdata, hlook⟩ | ⟨x, r', hdata, hlook, hagain⟩
  · simp only [nextTurnIn, advanceTurnIn, hdata, hlook]
  · obtain ⟨hb, hi⟩ := placed_look hp.books hp.placed hlook
    obtain ⟨i, j, hshow⟩ := Poised.onShow ⟨hb, hi⟩ hagain
    obtain ⟨hnext, hadvance⟩ := hshow.moves a (viewOf_eq_some hshow.view).2
    simp only [nextTurnIn, advanceTurnIn, hdata, hlook, hagain, hnext, hadvance]

/-- A turn leaves the reader in good order. -/
theorem Poised.afterTurnIn (hp : Poised s.2) {y : Shown}
    (h : advanceTurnIn H a s = .visit y (.returns t) ∨
    advanceTurnIn H a s = .visit y (.throws t)) : Poised t.2 := by
  obtain ⟨files, r⟩ := s
  rcases hp.turnIn H files with ⟨r', hturn⟩ | ⟨x, f, r', i, j, -, hshow, -, hturn⟩
  · rw [hturn a] at h
    rcases h with h | h <;> cases h
  · rw [hturn a] at h
    rcases h with h | h
    · exact hshow.poised.of_advanceIn (Turn.visit.inj h).2
    · rw [(hshow.throws (.refl j _ files) (Turn.visit.inj h).2).2.1]
      exact hshow.poised

end

/-! ## Runs -/

/-- The loop is still going, from a state. -/
def LoopState.Going (st : LoopState) (s : Files × JournalReader) : Prop :=
  st = .running s ∨ st = .threw s

/-- **The visits are to the frames, in order**: one that threw is to a sentinel, and the
next visit, if there is one, is to the same sentinel. -/
inductive Retries : List Visit → List Shown → Prop where
  | nil : Retries [] []
  | past {x : Shown} {ts : List Visit} {xs : List Shown} (rest : Retries ts xs) :
      Retries (⟨x, false⟩ :: ts) (x :: xs)
  | again {x : Shown} {ts : List Visit} {xs : List Shown}
      (sentinel : x.view.msgType = MsgType.pageEnd.toHeader.toNat)
      (same : ∀ y ∈ ts.head?, y.shown = x) (rest : Retries ts xs) : Retries (⟨x, true⟩ :: ts) xs

section
variable {turn : Attempt → Files × JournalReader → Turn} {a b : Nat → Attempt} {n k : Nat}
variable {H : MergeHeap} {st st' : LoopState} {s t : Files × JournalReader} {x : Shown}
open JournalReader

variable (turn) in
/-- No load fails. -/
def FailureFree (b : Nat → Attempt) (st : LoopState) : Prop := ∀ n, (retryLoop turn b n st).2.Fine

variable (turn) in
/-- No load kills the process. -/
def Survives (a : Nat → Attempt) (st : LoopState) : Prop :=
  ∀ n s, (retryLoop turn a n st).2 ≠ .fault s

variable (turn) in
/-- No load fails for ever. -/
def Recovers (a : Nat → Attempt) (st : LoopState) : Prop :=
  ∀ n, ∃ m, n ≤ m ∧ ∀ s, (retryLoop turn a m st).2 ≠ .threw s

theorem retryLoop_ended (h : st.Going s) (hturn : turn (a 0) s = .ended t) :
    retryLoop turn a (n + 1) st = ([], .ended t) := by
  rcases h with rfl | rfl <;> simp only [retryLoop, hturn]

theorem retryLoop_returns (h : st.Going s)
    (hturn : turn (a 0) s = .visit x (.returns t)) (n : Nat) :
    retryLoop turn a (n + 1) st =
      (⟨x, false⟩ :: (retryLoop turn (fun i => a (i + 1)) n (.running t)).1,
      (retryLoop turn (fun i => a (i + 1)) n (.running t)).2) := by
  rcases h with rfl | rfl <;> simp only [retryLoop, hturn]

theorem retryLoop_throws (h : st.Going s) (hturn : turn (a 0) s = .visit x (.throws t)) (n : Nat) :
    retryLoop turn a (n + 1) st =
      (⟨x, true⟩ :: (retryLoop turn (fun i => a (i + 1)) n (.threw t)).1,
      (retryLoop turn (fun i => a (i + 1)) n (.threw t)).2) := by
  rcases h with rfl | rfl <;> simp only [retryLoop, hturn]

theorem retryLoop_faults (h : st.Going s) (hturn : turn (a 0) s = .visit x (.faults t)) :
    retryLoop turn a (n + 1) st = ([⟨x, false⟩], .fault t) := by
  rcases h with rfl | rfl <;> simp only [retryLoop, hturn]

theorem retryLoop_stopped (h : st = .ended s ∨ st = .fault s) (a : Nat → Attempt) (n : Nat) :
    retryLoop turn a n st = ([], st) := by
  cases n with
  | zero => rcases h with rfl | rfl <;> rfl
  | succ n => rcases h with rfl | rfl <;> rfl

/-- A loop that is over stays over. -/
theorem retryLoop_stays {m : Nat} (h : (retryLoop turn a m st).2 = .ended t) (n : Nat) :
    (retryLoop turn a (m + n) st).2 = .ended t := by
  induction m generalizing a st with
  | zero =>
    have hst : st = .ended t := h
    rw [retryLoop_stopped (Or.inl hst)]
    exact hst
  | succ m ih =>
    have hgoing : ∀ s, st.Going s → (retryLoop turn a (m + 1 + n) st).2 = .ended t := by
      intro s hs
      rw [Nat.add_right_comm]
      cases hturn : turn (a 0) s with
      | ended q =>
        rw [retryLoop_ended hs hturn] at h ⊢
        exact h
      | fault q => rcases hs with rfl | rfl <;> simp only [retryLoop, hturn] at h <;> cases h
      | visit x moved =>
        cases moved with
        | returns q =>
          rw [retryLoop_returns hs hturn] at h ⊢
          exact ih h
        | throws q =>
          rw [retryLoop_throws hs hturn] at h ⊢
          exact ih h
        | faults q =>
          rw [retryLoop_faults hs hturn] at h
          cases h
    cases st with
    | running s => exact hgoing s (Or.inl rfl)
    | threw s => exact hgoing s (Or.inr rfl)
    | ended s =>
      rw [retryLoop_stopped (Or.inl rfl)] at h ⊢
      exact h
    | fault s =>
      rw [retryLoop_stopped (Or.inr rfl)] at h
      cases h

/-- Loops with the same turns are the same. -/
theorem retryLoop_congr (heq : ∀ a q, Poised q.2 → turn a q = advanceTurnIn H a q)
    (a : Nat → Attempt) (n : Nat) (hp : Poised st.state.2) :
    retryLoop turn a n st = retryLoop (advanceTurnIn H) a n st := by
  induction n generalizing a st with
  | zero => rfl
  | succ n ih =>
    have hgoing : ∀ s, st.Going s → Poised s.2 →
        retryLoop turn a (n + 1) st = retryLoop (advanceTurnIn H) a (n + 1) st := by
      intro s hs hps
      have hturn := heq (a 0) s hps
      cases h : advanceTurnIn H (a 0) s with
      | ended t => rw [retryLoop_ended hs (hturn.trans h), retryLoop_ended hs h]
      | fault t => rcases hs with rfl | rfl <;> simp only [retryLoop, hturn, h]
      | visit x moved =>
        rw [h] at hturn
        cases moved with
        | returns t =>
          have hpt : Poised t.2 := hps.afterTurnIn (Or.inl h)
          rw [retryLoop_returns hs hturn, retryLoop_returns hs h, @ih (.running t) _ hpt]
        | throws t =>
          have hpt : Poised t.2 := hps.afterTurnIn (Or.inr h)
          rw [retryLoop_throws hs hturn, retryLoop_throws hs h, @ih (.threw t) _ hpt]
        | faults t => rw [retryLoop_faults hs hturn, retryLoop_faults hs h]
    cases st with
    | running s => exact hgoing s (Or.inl rfl) hp
    | threw s => exact hgoing s (Or.inr rfl) hp
    | ended s | fault s => rfl

/-- **A loop with failures beside one without**: at the same place; or held at a frame
the other is about to visit. -/
inductive Abreast (H : MergeHeap) : LoopState → LoopState → Prop where
  | same {s : Files × JournalReader} (poised : Poised s.2) : Abreast H (.running s) (.running s)
  | held {files files' : Files} {r r' : JournalReader} {x : MergedView} {i : Nat} {j : Journal}
      (poised : Poised r) (look : r.tryCurrentFrame H files = some (some x, r'))
      (shown : OnShow H files r' x i j) (tried : j.Tried x.toFrameView files files') :
      Abreast H (.threw (files', r')) (.running (files, r))
  | ended (s : Files × JournalReader) : Abreast H (.ended s) (.ended s)

/-- The next turns of two loops: both see the end, or both visit the same frame.  If both
move they move to the same place, and one whose move throws is held there. -/
inductive Abreast.Turns (H : MergeHeap) (st' : LoopState)
    (s s' : Files × JournalReader) : Prop where
  | ended (t : Files × JournalReader) (left : ∀ a, advanceTurnIn H a s = .ended t)
      (right : ∀ b, advanceTurnIn H b s' = .ended t)
  | visit (x : Shown) (move move' : Attempt → Result (Files × JournalReader))
      (left : ∀ a, advanceTurnIn H a s = .visit x (move a))
      (right : ∀ b, advanceTurnIn H b s' = .visit x (move' b))
      (returns : ∀ a b t t', move a = .returns t → move' b = .returns t' → t = t' ∧ Poised t.2)
      (throws : ∀ a t, move a = .throws t →
        x.view.msgType = MsgType.pageEnd.toHeader.toNat ∧ Abreast H (.threw t) st')

theorem Abreast.turns (h : Abreast H st st') (hs : st.Going s) :
    ∃ s', st' = .running s' ∧ Turns H st' s s' := by
  cases h with
  | ended q => rcases hs with hs | hs <;> cases hs
  | @same q poised =>
    obtain rfl : q = s := by rcases hs with hs | hs <;> cases hs; rfl
    refine ⟨q, rfl, ?_⟩
    obtain ⟨files, r⟩ := q
    rcases poised.turnIn H files with ⟨r', hturn⟩ | ⟨x, f, r', i, j, hlook, hshow, -, hturn⟩
    · exact .ended (files, r') hturn hturn
    · refine .visit ⟨x, f⟩ _ _ hturn hturn (fun a b t t' ht ht' => ?_) fun a t ht => ?_
      · exact ⟨hshow.returns (.refl j _ files) ht ht', hshow.poised.of_advanceIn ht⟩
      · obtain ⟨hx, ht2, htried⟩ := hshow.throws (.refl j _ files) ht
        obtain ⟨files', q⟩ := t
        obtain rfl : q = r' := ht2
        exact ⟨hx, .held poised hlook hshow htried⟩
  | @held files files' r r' x i j poised look shown tried =>
    obtain rfl : (files', r') = s := by rcases hs with hs | hs <;> cases hs; rfl
    obtain ⟨f, hf⟩ := Option.isSome_iff_exists.mp (frame_of_look poised.books look)
    have hf' : r'.frame x files' = some f := (shown.frame_eq tried).trans hf
    refine ⟨(files, r), rfl, .visit ⟨x, f⟩ (fun a => advanceIn a H x.toFrameView (files', r'))
      (fun b => advanceIn b H x.toFrameView (files, r')) (fun a => ?_) (fun b => ?_)
      (fun a b t t' ht ht' => ?_)
      fun a t ht => ?_⟩
    · exact (shown.tried tried).turnIn hf' a
    · simp only [advanceTurnIn, look, visit, hf]
    · exact ⟨shown.returns tried ht ht', (shown.tried tried).poised.of_advanceIn ht⟩
    · obtain ⟨hx, ht2, htried⟩ := shown.throws tried ht
      obtain ⟨files'', q⟩ := t
      obtain rfl : q = r' := ht2
      exact ⟨hx, .held poised look shown htried⟩

/-- The first visit of a loop that is held is to the frame it is held at. -/
theorem Abreast.head (h : Abreast H (.threw t) (.running s)) {m : Result (Files × JournalReader)}
    (hturn : advanceTurnIn H (b 0) s = .visit x m) (a : Nat → Attempt) (n : Nat) :
    ∀ y ∈ (retryLoop (advanceTurnIn H) a n (.threw t)).1.head?, y.shown = x := by
  cases n with
  | zero => exact fun y hy => by cases hy
  | succ n =>
    obtain ⟨s', hs', hturns⟩ := h.turns (Or.inr rfl)
    cases hs'
    cases hturns with
    | ended q _ right => cases (right (b 0)).symm.trans hturn
    | visit z move move' left right =>
      obtain rfl : z = x := (Turn.visit.inj ((right (b 0)).symm.trans hturn)).1
      intro y hy
      cases hm : move (a 0) with
      | returns q =>
        rw [retryLoop_returns (Or.inr rfl) ((left (a 0)).trans (congrArg _ hm))] at hy
        cases hy
        rfl
      | throws q =>
        rw [retryLoop_throws (Or.inr rfl) ((left (a 0)).trans (congrArg _ hm))] at hy
        cases hy
        rfl
      | faults q =>
        rw [retryLoop_faults (Or.inr rfl) ((left (a 0)).trans (congrArg _ hm))] at hy
        cases hy
        rfl

/-- A loop whose loads do not fail moves. -/
theorem FailureFree.moves (hb : FailureFree turn b (.running s))
    {m : Result (Files × JournalReader)} (hturn : turn (b 0) s = .visit x m) :
    ∃ t, m = .returns t ∧ FailureFree turn (fun i => b (i + 1)) (.running t) := by
  cases m with
  | returns t =>
    refine ⟨t, rfl, fun n => ?_⟩
    have := hb (n + 1)
    rwa [retryLoop_returns (Or.inl rfl) hturn] at this
  | throws t =>
    have := hb 1
    rw [retryLoop_throws (Or.inl rfl) hturn] at this
    exact this.elim
  | faults t =>
    have := hb 1
    rw [retryLoop_faults (Or.inl rfl) hturn] at this
    exact this.elim

/-- **With loads that do not fail** it is the loop of a consumer that does not catch
anything. -/
theorem retryLoop_plain (hb : FailureFree (advanceTurnIn H) (fun _ => .plain) (.running s))
    (n : Nat) :
    retryLoop (advanceTurnIn H) (fun _ => .plain) n (.running s) =
      ((loop (advanceTurn H) n s).1.map fun x => ⟨x, false⟩, (loop (advanceTurn H) n s).2) := by
  induction n generalizing s with
  | zero => rfl
  | succ n ih =>
    obtain ⟨files, r⟩ := s
    cases hlook : r.tryCurrentFrame H files with
    | none => simp only [retryLoop, loop, advanceTurnIn, advanceTurn, hlook, List.map_nil]
    | some y =>
      obtain ⟨v, r'⟩ := y
      cases v with
      | none => simp only [retryLoop, loop, advanceTurnIn, advanceTurn, hlook, List.map_nil]
      | some v =>
        cases hf : r'.frame v files with
        | none =>
          simp only [retryLoop, loop, advanceTurnIn, advanceTurn, hlook, visit, hf, List.map_nil]
        | some f =>
          have hturn : advanceTurnIn H .plain (files, r) =
              .visit ⟨v, f⟩ (advanceIn .plain H v.toFrameView (files, r')) := by
            simp only [advanceTurnIn, hlook, visit, hf]
          obtain ⟨t, ht, hb'⟩ := hb.moves hturn
          have hadvance : advance H v.toFrameView (files, r') = .returns t := by
            refine Result.eq_returns ?_
            rw [← advanceIn_plain, ht]
            rfl
          have hturn' : advanceTurn H (files, r) = .visit ⟨v, f⟩ (.returns t) := by
            simp only [advanceTurn, hlook, visit, hf, hadvance]
          rw [retryLoop_returns (Or.inl rfl) (hturn.trans (congrArg _ ht)), ih hb', loop, hturn']
          rfl

/-- **Whatever a loop with failures visits**, one without visits as well. -/
theorem Abreast.follows (n : Nat) (h : Abreast H st st') (hb : FailureFree (advanceTurnIn H) b st')
    (ha : Survives (advanceTurnIn H) a st) :
    ∃ k, Retries (retryLoop (advanceTurnIn H) a n st).1
        ((retryLoop (advanceTurnIn H) b k st').1.map Visit.shown) ∧
      Abreast H (retryLoop (advanceTurnIn H) a n st).2 (retryLoop (advanceTurnIn H) b k st').2 := by
  induction n generalizing a b st st' with
  | zero => exact ⟨0, .nil, h⟩
  | succ n ih =>
    have hgoing : ∀ s, st.Going s → ∃ k, Retries (retryLoop (advanceTurnIn H) a (n + 1) st).1
        ((retryLoop (advanceTurnIn H) b k st').1.map Visit.shown) ∧
      Abreast H (retryLoop (advanceTurnIn H) a (n + 1) st).2
        (retryLoop (advanceTurnIn H) b k st').2 := by
      intro s hs
      obtain ⟨s', rfl, hturns⟩ := h.turns hs
      cases hturns with
      | ended t left right =>
        refine ⟨1, ?_⟩
        rw [retryLoop_ended hs (left (a 0)), retryLoop_ended (Or.inl rfl) (right (b 0))]
        exact ⟨.nil, .ended t⟩
      | visit x move move' left right returns throws =>
        obtain ⟨t', ht', hb'⟩ := hb.moves (right (b 0))
        cases hm : move (a 0) with
        | returns t =>
          obtain ⟨rfl, hp⟩ := returns (a 0) (b 0) t t' hm ht'
          have hleft := retryLoop_returns hs ((left (a 0)).trans (congrArg _ hm))
          have hright := retryLoop_returns (Or.inl rfl) ((right (b 0)).trans (congrArg _ ht'))
          obtain ⟨k, hretries, habreast⟩ :=
            ih (.same hp) hb' fun m q hq => ha (m + 1) q (by rw [hleft]; exact hq)
          refine ⟨k + 1, ?_⟩
          rw [hleft, hright]
          exact ⟨.past hretries, habreast⟩
        | throws t =>
          obtain ⟨hx, hheld⟩ := throws (a 0) t hm
          have hleft := retryLoop_throws hs ((left (a 0)).trans (congrArg _ hm))
          obtain ⟨k, hretries, habreast⟩ :=
            ih hheld hb fun m q hq => ha (m + 1) q (by rw [hleft]; exact hq)
          refine ⟨k, ?_⟩
          rw [hleft]
          exact ⟨.again hx (hheld.head (right (b 0)) _ n) hretries, habreast⟩
        | faults t =>
          refine absurd ?_ (ha 1 t)
          rw [retryLoop_faults hs ((left (a 0)).trans (congrArg _ hm))]
    cases h with
    | same poised => exact hgoing _ (Or.inl rfl)
    | held poised look shown tried => exact hgoing _ (Or.inr rfl)
    | ended q =>
      refine ⟨0, ?_⟩
      exact ⟨.nil, .ended q⟩

theorem Recovers.tail (hr : Recovers turn a st) {a' : Nat → Attempt}
    (hnext : ∀ n, (retryLoop turn a (n + 1) st).2 = (retryLoop turn a' n st').2) :
    Recovers turn a' st' := by
  intro n
  obtain ⟨m, hle, hm⟩ := hr (n + 1)
  obtain ⟨m, rfl⟩ : ∃ m', m = m' + 1 := ⟨m - 1, by omega⟩
  exact ⟨m, by omega, fun q => hnext m ▸ hm q⟩

theorem Survives.tail (ha : Survives turn a st) {a' : Nat → Attempt}
    (hnext : ∀ n, (retryLoop turn a (n + 1) st).2 = (retryLoop turn a' n st').2) :
    Survives turn a' st' :=
  fun n q => hnext n ▸ ha (n + 1) q

/-- A loop with failures gets past what one without does in `k` turns. -/
def GetsPast (H : MergeHeap) (a b : Nat → Attempt) (k : Nat) (st st' : LoopState) : Prop :=
  ∃ n, (retryLoop (advanceTurnIn H) a n st).2 = (retryLoop (advanceTurnIn H) b k st').2 ∧
    Retries (retryLoop (advanceTurnIn H) a n st).1
      ((retryLoop (advanceTurnIn H) b k st').1.map Visit.shown)

/-- One turn, when what is left to do after it can be done. -/
theorem Abreast.getsPast_turn (h : Abreast H st st') (hs : st.Going s)
    (hb : FailureFree (advanceTurnIn H) b st') (ha : Survives (advanceTurnIn H) a st)
    (past : ∀ x t, advanceTurnIn H (a 0) s = .visit x (.returns t) → Poised t.2 →
      FailureFree (advanceTurnIn H) (fun i => b (i + 1)) (.running t) →
      GetsPast H (fun i => a (i + 1)) (fun i => b (i + 1)) k (.running t) (.running t))
    (again : ∀ x t, advanceTurnIn H (a 0) s = .visit x (.throws t) → Abreast H (.threw t) st' →
      GetsPast H (fun i => a (i + 1)) b (k + 1) (.threw t) st') :
    GetsPast H a b (k + 1) st st' := by
  obtain ⟨s', rfl, hturns⟩ := h.turns hs
  cases hturns with
  | ended t left right =>
    refine ⟨1, ?_⟩
    rw [retryLoop_ended hs (left (a 0)), retryLoop_ended (Or.inl rfl) (right (b 0))]
    exact ⟨rfl, .nil⟩
  | visit x move move' left right returns throws =>
    obtain ⟨t', ht', hb'⟩ := hb.moves (right (b 0))
    cases hmove : move (a 0) with
    | returns t =>
      obtain ⟨rfl, hp⟩ := returns (a 0) (b 0) t t' hmove ht'
      have hturn := (left (a 0)).trans (congrArg _ hmove)
      obtain ⟨n, hend, hretries⟩ := past x t hturn hp hb'
      refine ⟨n + 1, ?_⟩
      rw [retryLoop_returns hs hturn, retryLoop_returns (Or.inl rfl)
        ((right (b 0)).trans (congrArg _ ht'))]
      exact ⟨hend, .past hretries⟩
    | throws t =>
      obtain ⟨hx, hheld⟩ := throws (a 0) t hmove
      have hturn := (left (a 0)).trans (congrArg _ hmove)
      obtain ⟨n, hend, hretries⟩ := again x t hturn hheld
      refine ⟨n + 1, ?_⟩
      rw [retryLoop_throws hs hturn]
      exact ⟨hend, .again hx (hheld.head (right (b 0)) _ n) hretries⟩
    | faults t =>
      refine absurd ?_ (ha 1 t)
      rw [retryLoop_faults hs ((left (a 0)).trans (congrArg _ hmove))]

/-- One turn of the loop without failures, by tries until one does not throw; that is so
after `m + 1` of them. -/
theorem Abreast.getsPast_succ (m : Nat) (h : Abreast H st st') (hs : st.Going s)
    (hb : FailureFree (advanceTurnIn H) b st') (ha : Survives (advanceTurnIn H) a st)
    (hr : Recovers (advanceTurnIn H) a st)
    (hm : ∀ q, (retryLoop (advanceTurnIn H) a (m + 1) st).2 ≠ .threw q)
    (rest : ∀ a b t, Poised t.2 → FailureFree (advanceTurnIn H) b (.running t) →
      Survives (advanceTurnIn H) a (.running t) → Recovers (advanceTurnIn H) a (.running t) →
      GetsPast H a b k (.running t) (.running t)) :
    GetsPast H a b (k + 1) st st' := by
  have past : ∀ {a : Nat → Attempt} {st : LoopState} {s : Files × JournalReader}, st.Going s →
      Survives (advanceTurnIn H) a st → Recovers (advanceTurnIn H) a st → ∀ x t,
      advanceTurnIn H (a 0) s = .visit x (.returns t) → Poised t.2 →
      FailureFree (advanceTurnIn H) (fun i => b (i + 1)) (.running t) →
      GetsPast H (fun i => a (i + 1)) (fun i => b (i + 1)) k (.running t) (.running t) := by
    intro a st s hs ha hr x t hturn hp hb'
    have hnext := fun n => congrArg Prod.snd (retryLoop_returns hs hturn n)
    exact rest _ _ t hp hb' (ha.tail hnext) (hr.tail hnext)
  induction m generalizing a st s with
  | zero =>
    refine h.getsPast_turn hs hb ha (past hs ha hr) fun x t hturn _ => ?_
    rw [retryLoop_throws hs hturn] at hm
    exact absurd rfl (hm t)
  | succ m ih =>
    refine h.getsPast_turn hs hb ha (past hs ha hr) fun x t hturn hheld => ?_
    have hnext := fun n => congrArg Prod.snd (retryLoop_throws hs hturn n)
    rw [retryLoop_throws hs hturn] at hm
    exact ih hheld (Or.inr rfl) (ha.tail hnext) (hr.tail hnext) hm

/-- **Whatever a loop without failures visits**, one whose loads recover gets past. -/
theorem getsPast (k : Nat) (a b : Nat → Attempt) (t : Files × JournalReader) (hp : Poised t.2)
    (hb : FailureFree (advanceTurnIn H) b (.running t))
    (ha : Survives (advanceTurnIn H) a (.running t))
    (hr : Recovers (advanceTurnIn H) a (.running t)) :
    GetsPast H a b k (.running t) (.running t) := by
  induction k generalizing a b t with
  | zero => exact ⟨0, rfl, .nil⟩
  | succ k ih =>
    obtain ⟨m, hle, hm⟩ := hr 1
    obtain ⟨m, rfl⟩ : ∃ m', m = m' + 1 := ⟨m - 1, by omega⟩
    exact Abreast.getsPast_succ m (.same hp) (Or.inl rfl) hb ha hr hm ih

theorem Abreast.journals (h : Abreast H st st') : st.state.2.journals = st'.state.2.journals := by
  cases h with
  | same poised => rfl
  | held poised look shown tried => exact (look_journals poised.books look).1
  | ended s => rfl

end

/-! ## Any reader -/

/-- The states a reader can be in, whatever its loads have met. -/
inductive ReaderReachesIn (H : MergeHeap) (prefault : Bool) : JournalReader → Prop where
  | start : ReaderReachesIn H prefault { prefault := prefault }
  | called {r : JournalReader} {files : Files} {c : ReaderCall} {s : Files × JournalReader}
      (h : ReaderReachesIn H prefault r)
      (he : c.exec H (files, r) = .returns s ∨ c.exec H (files, r) = .throws s) :
      ReaderReachesIn H prefault s.2
  | moved {r : JournalReader} {files : Files} {a : Attempt} {v : FrameView}
      {s : Files × JournalReader} (h : ReaderReachesIn H prefault r)
      (he : JournalReader.nextIn a H (files, r) = .returns s ∨
        JournalReader.advanceIn a H v (files, r) = .returns s) :
      ReaderReachesIn H prefault s.2

theorem ReaderReachesIn.poised {H : MergeHeap} {prefault : Bool} {r : JournalReader}
    (h : ReaderReachesIn H prefault r) : Poised r := by
  induction h with
  | start => exact (@ReaderReaches.start H prefault).poised
  | @called r files c s _ he ih =>
    have hb := ih.books.exec H files c
    have hi := ih.placed.exec H files ih.books c
    rcases he with he | he
    · rw [he] at hb hi
      exact ⟨hb, hi⟩
    · rw [he] at hb hi
      exact ⟨hb, hi⟩
  | moved _ he ih =>
    rcases he with he | he
    · exact ih.of_nextIn he
    · exact ih.of_advanceIn he

theorem ReaderReaches.reachesIn {H : MergeHeap} {prefault : Bool} {r : JournalReader}
    (h : ReaderReaches H prefault r) : ReaderReachesIn H prefault r := by
  induction h with
  | start => exact .start
  | returned _ he ih => exact .called ih (Or.inl he)
  | threw _ he ih => exact .called ih (Or.inr he)

/-- **Failed loads lose nothing.**  A `next` or `advance` that throws leaves the reader as
it was.  A consumer that tries again visits the frames it would have visited without
failures, in order, and only a sentinel whose move threw again.  If no load fails for
ever it gets past all of them, to the same state. -/
theorem load_failures_lose_nothing (H : MergeHeap) (prefault : Bool) (files : Files)
    (r : JournalReader) (hr : ReaderReachesIn H prefault r) :
    (∀ a s, JournalReader.nextIn a H (files, r) = .throws s → Untouched (files, r) s) ∧
    (∀ a v s, JournalReader.advanceIn a H v (files, r) = .throws s → Untouched (files, r) s) ∧
    ∀ turn, turn = JournalReader.nextTurnIn H ∨ turn = JournalReader.advanceTurnIn H →
      ∀ a b : Nat → Attempt, FailureFree turn b (.running (files, r)) →
        Survives turn a (.running (files, r)) →
      (∀ n, ∃ k,
        Retries (retryLoop turn a n (.running (files, r))).1
          ((retryLoop turn b k (.running (files, r))).1.map Visit.shown) ∧
        (retryLoop turn a n (.running (files, r))).2.state.2.journals =
          (retryLoop turn b k (.running (files, r))).2.state.2.journals) ∧
      (Recovers turn a (.running (files, r)) → ∀ k, ∃ n,
        (retryLoop turn a n (.running (files, r))).2 =
        (retryLoop turn b k (.running (files, r))).2 ∧
        Retries (retryLoop turn a n (.running (files, r))).1
          ((retryLoop turn b k (.running (files, r))).1.map Visit.shown)) := by
  have hp := hr.poised
  refine ⟨fun a s h => untouched_nextIn hp.books h, fun a v s h =>
    untouched_advanceIn hp.books h, ?_⟩
  intro turn hturn a b
  have hsame : ∀ c n, retryLoop turn c n (.running (files, r)) =
      retryLoop (JournalReader.advanceTurnIn H) c n (.running (files, r)) := by
    intro c n
    refine retryLoop_congr (fun a q hq => ?_) c n hp
    rcases hturn with rfl | rfl
    · exact nextTurnIn_eq hq H q.1 a
    · rfl
  simp only [FailureFree, Survives, Recovers, hsame]
  intro hb ha
  constructor
  · intro n
    obtain ⟨k, hretries, habreast⟩ := Abreast.follows n (.same hp) hb ha
    exact ⟨k, hretries, habreast.journals⟩
  · intro hrec k
    exact getsPast k a b (files, r) hp hb ha hrec

/-- A page with a sentinel and nothing else. -/
def sentinelPage : Disk :=
  ((Disk.empty.create 1).allocate 1 pageSizeDefault.bytes).writeAll 1
    (initPuts pageSizeDefault ++ [(64, 4, 32), (68, 2, 10000)])

/-- A reader that stands on it. -/
def atSentinel : Option (Files × JournalReader) :=
  ReaderCall.execAll mergeBySorting [.join 1 ⟨1, .log⟩ 0 0]
    (fun _ _ => sentinelPage, { prefault := true })

/-- The first load creates the file of the next page but cannot map it. -/
def mapFailsFirst : Nat → Attempt
  | 0 => { env := { mapFails := true } }
  | _ => .plain

/-- How a loop stands: running, over, thrown out of a move, or dead. -/
def LoopState.kind : LoopState → Fin 4
  | .running _ => 0
  | .ended _ => 1
  | .threw _ => 2
  | .fault _ => 3

theorem LoopState.eq_ended {st : LoopState} (h : st.kind = 1) : ∃ s, st = .ended s := by
  cases st with
  | ended s => exact ⟨s, rfl⟩
  | running s | threw s | fault s => cases h

/-- A loop that is over after `m` turns has not stood otherwise than in these. -/
theorem kind_of_ended {turn : Attempt → Files × JournalReader → Turn} {a : Nat → Attempt}
    {st : LoopState} {m : Nat} {l : List (Fin 4)}
    (h : ((List.range (m + 1)).map fun n => (retryLoop turn a n st).2.kind) = l)
    (hover : l[m]? = some 1) :
    (∀ n, (retryLoop turn a n st).2.kind ∈ l) ∧ ∀ n, (retryLoop turn a (m + n) st).2.kind = 1 := by
  have hm : (retryLoop turn a m st).2.kind = 1 := by
    rw [← h] at hover
    simpa using hover
  obtain ⟨t, ht⟩ := LoopState.eq_ended hm
  have hstays : ∀ n, (retryLoop turn a (m + n) st).2.kind = 1 := by
    intro n
    rw [retryLoop_stays ht n]
    rfl
  refine ⟨fun n => ?_, hstays⟩
  rcases Nat.lt_or_ge n (m + 1) with hlt | hge
  · rw [← h]
    exact List.mem_map.mpr ⟨n, List.mem_range.mpr hlt, rfl⟩
  · obtain ⟨d, rfl⟩ := Nat.exists_eq_add_of_le (Nat.le_of_succ_le hge)
    rw [hstays d]
    exact List.mem_of_getElem? hover

/-- It is thrown out of its first move, and then gets past the sentinel. -/
theorem load_failures_lose_nothing_sentinel :
    ∃ files r, atSentinel = some (files, r) ∧
      (∃ s, JournalReader.nextIn (mapFailsFirst 0) mergeBySorting (files, r) = .throws s ∧
        Untouched (files, r) s) ∧
      ∃ n, (retryLoop (JournalReader.nextTurnIn mergeBySorting) mapFailsFirst n
        (.running (files, r))).2 =
        (retryLoop (JournalReader.nextTurnIn mergeBySorting) (fun _ => .plain) 2
          (.running (files, r))).2 := by
  have hkinds : (atSentinel.map fun s =>
      ((List.range 4).map fun n =>
          (retryLoop (JournalReader.nextTurnIn mergeBySorting) mapFailsFirst n (.running s)).2.kind,
        (List.range 3).map fun n =>
          (retryLoop (JournalReader.nextTurnIn mergeBySorting) (fun _ => .plain) n
            (.running s)).2.kind,
        match JournalReader.nextIn (mapFailsFirst 0) mergeBySorting s with
        | .throws _ => true
        | _ => false)) = some ([0, 2, 0, 1], [0, 0, 1], true) := by
    decide +kernel
  obtain ⟨⟨files, r⟩, hs, hkinds⟩ := Option.map_eq_some_iff.mp hkinds
  simp only [Prod.mk.injEq] at hkinds
  obtain ⟨ha, hb, hthrows⟩ := hkinds
  have hr : ReaderReachesIn mergeBySorting true r := (ReaderReaches.execAll .start hs).reachesIn
  obtain ⟨hnext, -, hloops⟩ := load_failures_lose_nothing mergeBySorting true files r hr
  refine ⟨files, r, hs, ?_, ?_⟩
  · split at hthrows
    · rename_i s hs'
      exact ⟨s, hs', hnext _ s hs'⟩
    · cases hthrows
  · have hkind := kind_of_ended ha rfl
    have hkind' := kind_of_ended hb rfl
    refine (((hloops _ (Or.inl rfl) mapFailsFirst (fun _ => .plain) (fun n => ?_) fun n s hdead =>
      ?_).2 fun n => ?_)
      2).imp fun n h => h.1
    · have hmem := hkind'.1 n
      cases hst :
        (retryLoop (JournalReader.nextTurnIn mergeBySorting) (fun _ => .plain) n
        (.running (files, r))).2 with
      | running s | ended s => trivial
      | threw s =>
        rw [hst] at hmem
        exact absurd (show (2 : Fin 4) ∈ _ from hmem) (by decide)
      | fault s =>
        rw [hst] at hmem
        exact absurd (show (3 : Fin 4) ∈ _ from hmem) (by decide)
    · have hmem := hkind.1 n
      rw [hdead] at hmem
      exact absurd (show (3 : Fin 4) ∈ _ from hmem) (by decide)
    · refine ⟨3 + n, by omega, fun s hthrew => ?_⟩
      have hover := hkind.2 n
      rw [hthrew] at hover
      cases hover

end Revoq
