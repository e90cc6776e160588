import Mathlib.Data.Nat.Find
import Revoq.WriterRun

/-! # The constructor

`findLastWrittenPage` walks down from the highest page file to the first page with
more than one frame position used, `findLastSequenceNumber` scans that page, and
`loadInitialPage` opens the page after it.  On the way, pages above the one found
may get their headers initialised, but no frame area changes (`Between`).

`CtorAt` follows the constructor statement by statement; it ends `Idle` on the page
after the last written one, whatever that page held.
-/
namespace Revoq
open ByteImage StmtMachine

/-! ## Pages in use -/

/-- The page's header is initialised and points into the page. -/
structure InUse (P : PageSize) (d : Disk) (p : Nat) : Prop where
  ready : PageReady P d p
  low : pageHeaderSize ≤ lastFramePosition (d.image p)
  high : lastFramePosition (d.image p) < P.bytes

/-- Every page file is still without a header, or in use. -/
def Mapped (P : PageSize) (d : Disk) : Prop :=
  ∀ p, (d.size p).isSome → lastFramePosition (d.image p) = 0 ∨ InUse P d p

/-- The test of `findLastWrittenPage`. -/
def Written (d : Disk) (p : Nat) : Prop :=
  (d.size p).isSome ∧ pageHeaderSize < lastFramePosition (d.image p)

instance (d : Disk) : DecidablePred (Written d) := fun _ => inferInstanceAs (Decidable (_ ∧ _))

/-- The page `findLastWrittenPage` looks for, or 0. -/
def lastWritten (d : Disk) : Nat := Nat.findGreatest (Written d) d.top

theorem lastWritten_spec {d : Disk} (h : 0 < lastWritten d) : Written d (lastWritten d) :=
  Nat.findGreatest_of_ne_zero rfl (Nat.ne_of_gt h)

theorem not_written_of_lt {d : Disk} {p : Nat} (h : lastWritten d < p) : ¬ Written d p := by
  intro hw
  by_cases hp : p ≤ d.top
  · exact Nat.findGreatest_is_greatest h hp hw
  · have h1 := hw.1
    rw [d.absent p (by omega)] at h1
    cases h1

/-- What a page's frame area holds; an absent file counts as a zero one. -/
def areaOf (d : Disk) (p : Nat) : Image := if (d.size p).isSome then d.image p else blank

/-- The sequence number the constructor starts with. -/
def nextSequence (P : PageSize) (d : Disk) : UInt64 :=
  if lastWritten d = 0 then 0 else lastSequence P (d.image (lastWritten d)) + 1

/-- What a session constructed on `d` starts from. -/
def ctxOf (P : PageSize) (d : Disk) : Ctx := ⟨lastWritten d + 1, nextSequence P d, areaOf d, d⟩

theorem Mapped.inUse {P : PageSize} {d : Disk} (h : Mapped P d) {p : Nat} (hw : Written d p) :
    InUse P d p := by
  have h2 : 64 < lastFramePosition (d.image p) := hw.2
  rcases h p hw.1 with h0 | hu
  · omega
  · exact hu

theorem Mapped.ahead {P : PageSize} {d : Disk} (h : Mapped P d) {p : Nat} (hp : lastWritten d < p) :
    Ahead P (areaOf d p) d p := by
  have hnot := not_written_of_lt hp
  refine ⟨fun e => ?_, fun e => ?_, fun size e => ?_⟩
  · rw [areaOf, if_neg (by rw [e]; simp)]
    exact fun _ _ => rfl
  · rw [areaOf, if_pos e]
    exact fun _ _ => rfl
  · have hsome : (d.size p).isSome := by rw [e]; rfl
    rcases h p hsome with h0 | hu
    · exact Or.inl h0
    · obtain ⟨size', hs, hle⟩ := hu.ready.size
      rw [e] at hs
      cases hs
      refine Or.inr ⟨hu.ready.header, ?_, hle⟩
      have h1 : ¬ pageHeaderSize < lastFramePosition (d.image p) := fun hl => hnot ⟨hsome, hl⟩
      have h2 := hu.low
      omega

/-- Allocating a file that is large enough changes nothing. -/
theorem Disk.allocate_of_le {d : Disk} {p n size : Nat} (hs : d.size p = some size)
    (hn : n ≤ size) :
    d.allocate p n = d := by
  have : Function.update d.size p ((d.size p).map (max n)) = d.size := by
    rw [hs, Option.map_some, Nat.max_eq_right hn, ← hs, Function.update_eq_self]
  cases d
  simp only [allocate]
  congr

/-- **Loading a page in use changes nothing**, whoever loads it: `k` statements of
the load are done. -/
theorem InUse.load_step {P : PageSize} {d : Disk} {r : LoadRegs} (hu : InUse P d r.page) {k : Nat}
    (hk : k < 7) (hf : 1 ≤ k → r.fileExists = true) :
    ∃ i r', (Page.loadCode .succeeds).drop k = i :: (Page.loadCode .succeeds).drop (k + 1) ∧
      i.exec P (d, r) = .next (d, r') [] ∧ r'.page = r.page ∧ r'.isWriting = r.isWriting ∧
      r'.prefault = r.prefault ∧ r'.fileExists = true := by
  obtain ⟨size, hs, hle⟩ := hu.ready.size
  have hsome : (d.size r.page).isSome = true := by rw [hs]; rfl
  have hpos := P.pos
  have hlow : 64 ≤ lastFramePosition (d.image r.page) := hu.low
  match k with
  | 0 => exact ⟨_, _, rfl, rfl, rfl, rfl, rfl, hsome⟩
  | 1 =>
    refine ⟨_, { r with opened := true }, rfl, ?_, rfl, rfl, rfl, hf (by decide)⟩
    simp only [LoadStmt.exec, LoadEnv.succeeds, Disk.create_of_isSome hsome]
    rfl
  | 2 =>
    refine ⟨_, r, rfl, ?_, rfl, rfl, rfl, hf (by decide)⟩
    simp only [LoadStmt.exec, LoadEnv.succeeds, Disk.allocate_of_le hs hle]
    split <;> rfl
  | 3 => exact ⟨_, r, rfl, rfl, rfl, rfl, rfl, hf (by decide)⟩
  | 4 =>
    refine ⟨_, r, rfl, ?_, rfl, rfl, rfl, hf (by decide)⟩
    simp [LoadStmt.exec, hf (by decide)]
  | 5 =>
    refine ⟨_, r, rfl, ?_, rfl, rfl, rfl, hf (by decide)⟩
    simp only [LoadStmt.exec, hs, Option.getD_some]
    rw [if_neg (by omega), if_neg (by omega)]
  | 6 =>
    refine ⟨_, r, rfl, ?_, rfl, rfl, rfl, hf (by decide)⟩
    simp only [LoadStmt.exec]
    rw [if_pos (headerValid_of hu.ready.header hu.high)]

/-! ## Looking at a page without frames -/

/-- The search loads a page without frames: with prefault it may initialise the
header, else its mapping is read-only. -/
inductive Peek (P : PageSize) (b : Image) (code : List LoadStmt) (d : Disk)
    (r : LoadRegs) : Prop where
  | master (load : LoadAt P b code d r) (hm : r.master = true)
  | readOnly (k : Nat) (hk : k ≤ 7) (hcode : code = (Page.loadCode .succeeds).drop k)
      (ahead : Ahead P b d r.page) (hm : r.master = false)
      (checked : 6 ≤ k → (d.size r.page).isSome ∧ lastFramePosition (d.image r.page) ≠ 0)
  /-- About to store to a read-only mapping. -/
  | doomed (a k v : Nat) (rest : List LoadStmt) (hcode : code = .put a k v :: rest)
      (ahead : Ahead P b d r.page) (hm : r.master = false)

theorem Peek.ahead {P : PageSize} {b : Image} {code : List LoadStmt} {d : Disk} {r : LoadRegs}
    (h : Peek P b code d r) : Ahead P b d r.page := by
  cases h with
  | master load _ => exact load.ahead
  | readOnly _ _ _ ahead _ _ => exact ahead
  | doomed _ _ _ _ _ ahead _ => exact ahead

/-- After a load that returned, the header points at the first frame. -/
theorem Peek.done {P : PageSize} {b : Image} {d : Disk} {r : LoadRegs} (h : Peek P b [] d r) :
    lastFramePosition (d.image r.page) = pageHeaderSize := by
  cases h with
  | master load _ =>
    generalize hcode : ([] : List LoadStmt) = code at load
    cases load with
    | done _ _ _ last => exact last
    | init qs => simp at hcode
    | _ => cases hcode
  | readOnly k hk hcode ahead hm checked =>
    have h7 : 7 ≤ k := by
      have := congrArg List.length hcode
      simp [Page.loadCode] at this
      omega
    obtain ⟨hs, hl⟩ := checked (by omega)
    obtain ⟨size, hs⟩ := Option.isSome_iff_exists.mp hs
    rcases ahead.header size hs with h0 | ⟨-, h1, -⟩
    · exact absurd h0 hl
    · exact h1
  | doomed _ _ _ _ hcode => cases hcode

/-- A file that was just created is still without frames. -/
theorem Ahead.create {P : PageSize} {b : Image} {d : Disk} {p : Nat} (h : Ahead P b d p) :
    Ahead P b (d.create p) p := by
  cases hs : d.size p with
  | none =>
    refine ⟨fun e => ?_, fun _ => ?_, fun _ _ => ?_⟩
    · rw [Disk.create_size_self_of_none hs] at e
      cases e
    · rw [Disk.create_image_self_of_none hs]
      exact h.absent hs
    · rw [Disk.create_image_self_of_none hs]
      exact headerFresh_blank _
  | some size =>
    rw [Disk.create_of_isSome (by rw [hs]; rfl)]
    exact h

/-- **One statement of the search's load**: it keeps the page without frames and
touches no other, or the process dies at a read-only mapping. -/
theorem Peek.step {P : PageSize} {b : Image} {i : LoadStmt} {code : List LoadStmt} {d : Disk}
    {r : LoadRegs} (h : Peek P b (i :: code) d r) :
    (∃ d' r' push, i.exec P (d, r) = .next (d', r') push ∧ Peek P b (push ++ code) d' r' ∧
      r'.page = r.page ∧ (∀ q, q ≠ r.page → d.SameFile d' q)) ∨
    r.master = false ∧ i.exec P (d, r) = .fault (d, r) := by
  cases h with
  | master load hm =>
    obtain ⟨d', r', push, h1, h2, h3, h4, h5, -⟩ := load.step hm
    exact Or.inl ⟨d', r', push, h1, .master h2 h4, h3, h5⟩
  -- a mapping that cannot be written: the statements of the load in turn
  | readOnly k hk hcode ahead hm checked =>
    have keep : ∀ {r' : LoadRegs}, r'.page = r.page → r'.master = false →
        (Page.loadCode .succeeds).drop k = i :: (Page.loadCode .succeeds).drop (k + 1) →
        k + 1 < 6 → Peek P b ([] ++ code) d r' := by
      intro r' hp hm' hd hlt
      refine .readOnly (k + 1) (by omega) (List.cons.inj (hcode.trans hd)).2
        (hp ▸ ahead) hm' fun h => ?_
      omega
    match k, hk with
    | 0, _ =>
      cases hcode
      exact Or.inl ⟨d, _, [], rfl, keep rfl hm rfl (by decide), rfl, fun q _ => .refl d q⟩
    | 1, _ =>
      cases hcode
      refine Or.inl ⟨d.create r.page, { r with opened := true }, [], rfl, ?_, rfl,
        fun q hq => ⟨d.create_size_of_ne hq, d.create_image_of_ne hq⟩⟩
      exact .readOnly 2 (by decide) rfl ahead.create hm fun h => absurd h (by decide)
    | 2, _ =>
      cases hcode
      refine Or.inl ⟨d, r, [], ?_, keep rfl hm rfl (by decide), rfl, fun q _ => .refl d q⟩
      simp [LoadStmt.exec, hm]
    | 3, _ =>
      cases hcode
      exact Or.inl ⟨d, r, [], rfl, keep rfl hm rfl (by decide), rfl, fun q _ => .refl d q⟩
    | 4, _ =>
      cases hcode
      have hpre : r.prefault = false := by
        simp only [LoadRegs.master, Bool.or_eq_false_iff] at hm
        exact hm.2
      refine Or.inl ⟨d, r, [], ?_, keep rfl hm rfl (by decide), rfl, fun q _ => .refl d q⟩
      simp [LoadStmt.exec, hpre]
    | 5, _ =>
      cases hcode
      -- an empty file: the first look at the header is a `SIGBUS`
      by_cases hs : (d.size r.page).getD 0 = 0
      · refine Or.inr ⟨hm, ?_⟩
        simp only [LoadStmt.exec, if_pos hs]
      -- without a header the first store of `initHeader` is the fault
      by_cases h0 : lastFramePosition (d.image r.page) = 0
      · refine Or.inl ⟨d, r, Page.initHeader P, ?_, ?_, rfl, fun q _ => .refl d q⟩
        · simp only [LoadStmt.exec, if_neg hs, if_pos h0]
        · exact .doomed _ _ _ _ rfl ahead hm
      · refine Or.inl ⟨d, r, [], ?_, ?_, rfl, fun q _ => .refl d q⟩
        · simp only [LoadStmt.exec, if_neg hs, if_neg h0]
        · refine .readOnly 6 (by decide) rfl ahead hm fun _ => ⟨?_, h0⟩
          cases hsz : d.size r.page with
          | none => rw [hsz] at hs; exact absurd rfl hs
          | some _ => rfl
    | 6, _ =>
      cases hcode
      obtain ⟨hsome, hl⟩ := checked (by decide)
      obtain ⟨size, hs⟩ := Option.isSome_iff_exists.mp hsome
      rcases ahead.header size hs with h0 | ⟨hok, h64, hle⟩
      · exact absurd h0 hl
      refine Or.inl ⟨d, r, [], ?_, .readOnly 7 (by decide) rfl ahead hm fun _ => ⟨hsome, hl⟩, rfl,
        fun q _ => .refl d q⟩
      simp only [LoadStmt.exec]
      rw [if_pos (headerValid_of hok (by rw [h64]; exact pageHeaderSize_lt P))]
    | 7, _ => cases hcode
  | doomed a k v rest hcode ahead hm =>
    cases hcode
    exact Or.inr ⟨hm, by simp [LoadStmt.exec, hm]⟩

/-! ## The constructor, statement by statement -/

/-- Pages up to the last written one are as they were, and those above it are still
without frames of this session. -/
structure Between (P : PageSize) (d₀ d : Disk) : Prop where
  below : ∀ p, p ≤ lastWritten d₀ → d₀.SameFile d p
  above : ∀ p, lastWritten d₀ < p → Ahead P (areaOf d₀ p) d p

theorem Between.refl {P : PageSize} {d : Disk} (h : Mapped P d) : Between P d d :=
  ⟨fun p _ => .refl d p, fun _ hp => h.ahead hp⟩

theorem Between.touch {P : PageSize} {d₀ d d' : Disk} {p : Nat} (h : Between P d₀ d)
    (hp : lastWritten d₀ < p) (same : ∀ q, q ≠ p → d.SameFile d' q)
    (ahead : Ahead P (areaOf d₀ p) d' p) : Between P d₀ d' := by
  refine ⟨fun q hq => (h.below q hq).trans (same q (by omega)), fun q hq => ?_⟩
  by_cases hqp : q = p
  · exact hqp ▸ ahead
  · exact (h.above q hq).of_same (same q hqp)

theorem InUse.of_same {P : PageSize} {d d' : Disk} {p : Nat} (h : InUse P d p)
    (hs : d.SameFile d' p) :
    InUse P d' p := ⟨h.ready.of_same hs, by rw [hs.2]; exact h.low, by rw [hs.2]; exact h.high⟩

/-- The writer object while the constructor runs: the page id and the sequence number
are the only fields set. -/
def ctorWriter (prefault : Bool) (pageId : Nat) (seq : UInt64) : JournalWriter :=
  ⟨prefault, pageId, 0, 0, seq, none, false⟩

/-- The part of a state the constructor leaves alone. -/
structure Fresh (P : PageSize) (d₀ : Disk) (w : World) : Prop where
  between : Between P d₀ w.disk
  log : w.log = []
  warmer : w.warmer = none

/-- The registers of a load by the search. -/
structure SearchRegs (prefault : Bool) (page : Nat) (r : LoadRegs) : Prop where
  page : r.page = page
  isWriting : r.isWriting = false
  prefault : r.prefault = prefault

/-- **Where the constructor stands**, by the statements left. -/
inductive CtorAt (P : PageSize) (d₀ : Disk) (pre : Bool) : List Stmt → World × Local → Prop where
  | enter {w : World} {l : Local} (fresh : Fresh P d₀ w) (disk : w.disk = d₀)
      (writer : w.writer = ctorWriter pre 0 0) :
      CtorAt P d₀ pre (.findLastWrittenPage .succeeds :: loadInitialPage .succeeds) (w, l)
  | scan {w : World} {l : Local} {p : Nat} (fresh : Fresh P d₀ w)
      (writer : w.writer = ctorWriter pre 0 0) (hp : lastWritten d₀ ≤ p) (bound : p ≤ d₀.top)
      (untouched : ∀ q, q ≤ p → d₀.SameFile w.disk q) :
      CtorAt P d₀ pre (.scan .succeeds p :: loadInitialPage .succeeds) (w, l)
  | scanAhead {w : World} {l : Local} {p : Nat} {code : List LoadStmt} (fresh : Fresh P d₀ w)
      (writer : w.writer = ctorWriter pre 0 0) (hp : lastWritten d₀ < p) (bound : p ≤ d₀.top)
      (untouched : ∀ q, q < p → d₀.SameFile w.disk q) (unused : ¬ InUse P d₀ p)
      (regs : SearchRegs pre p l.load) (peek : Peek P (areaOf d₀ p) code w.disk l.load) :
      CtorAt P d₀ pre (.scanLoad .succeeds p code :: loadInitialPage .succeeds) (w, l)
  | scanUsed {w : World} {l : Local} {p k : Nat} (fresh : Fresh P d₀ w)
      (writer : w.writer = ctorWriter pre 0 0) (hp : lastWritten d₀ ≤ p) (hp0 : 0 < p)
      (bound : p ≤ d₀.top) (untouched : ∀ q, q ≤ p → d₀.SameFile w.disk q) (used : InUse P d₀ p)
      (regs : SearchRegs pre p l.load) (hk : k ≤ 7) (found : 1 ≤ k → l.load.fileExists = true) :
      CtorAt P d₀ pre (.scanLoad .succeeds p ((Page.loadCode .succeeds).drop k) ::
        loadInitialPage .succeeds) (w, l)
  | findSequence {w : World} {l : Local} (fresh : Fresh P d₀ w)
      (writer : w.writer = ctorWriter pre 0 0) (hp : 0 < lastWritten d₀) :
      CtorAt P d₀ pre (.findLastSequenceNumber .succeeds (lastWritten d₀) ::
        loadInitialPage .succeeds) (w, l)
  | seqLoad {w : World} {l : Local} {k : Nat} (fresh : Fresh P d₀ w)
      (writer : w.writer = ctorWriter pre (lastWritten d₀) 0) (hp : 0 < lastWritten d₀)
      (regs : SearchRegs pre (lastWritten d₀) l.load) (hk : k ≤ 7)
      (found : 1 ≤ k → l.load.fileExists = true) :
      CtorAt P d₀ pre (.seqLoad (lastWritten d₀) ((Page.loadCode .succeeds).drop k) ::
        loadInitialPage .succeeds) (w, l)
  | bump {w : World} {l : Local} (fresh : Fresh P d₀ w)
      (writer : w.writer = ctorWriter pre (lastWritten d₀) (nextSequence P d₀)) :
      CtorAt P d₀ pre (loadInitialPage .succeeds) (w, l)
  | load {w : World} {l : Local} {code : List LoadStmt} (fresh : Fresh P d₀ w)
      (writer : w.writer = ctorWriter pre (lastWritten d₀ + 1) (nextSequence P d₀))
      (page : l.load.page = lastWritten d₀ + 1) (master : l.load.master = true)
      (load : LoadAt P (areaOf d₀ (lastWritten d₀ + 1)) code w.disk l.load) :
      CtorAt P d₀ pre (code.map Stmt.load ++ [.swapPage]) (w, l)
  | done {w : World} {l : Local}
      (idle : Idle P (ctxOf P d₀) ⟨lastWritten d₀ + 1, pageHeaderSize⟩ [] (w, l)) :
      CtorAt P d₀ pre [] (w, l)

/-- At any point of the constructor, pages are as `Between` says. -/
theorem CtorAt.between {P : PageSize} {d₀ : Disk} {pre : Bool} {code : List Stmt}
    {s : World × Local} (h : CtorAt P d₀ pre code s) : Between P d₀ s.1.disk := by
  cases h with
  | done idle =>
    have hlive := idle.state.live
    refine ⟨fun p hp => hlive.below p (Nat.lt_succ_of_le hp), fun p hp => ?_⟩
    by_cases hp1 : p = lastWritten d₀ + 1
    · subst hp1
      have hready : PageReady P _ (lastWritten d₀ + 1) :=
        hlive.ready _ (Nat.le_refl _) (Nat.le_refl _)
      obtain ⟨size, hs, hle⟩ := hready.size
      refine ⟨fun e => ?_, fun _ => idle.state.extra.area, fun size' e => ?_⟩
      · rw [hs] at e
        cases e
      · rw [hs] at e
        cases e
        exact Or.inr ⟨hready.header, idle.state.extra.lasts _ (Nat.le_refl _) (Nat.le_refl _), hle⟩
    · exact hlive.ahead p (by show lastWritten d₀ + 1 < p; omega)
  | enter fresh | scan fresh | scanAhead fresh | scanUsed fresh | findSequence fresh | seqLoad fresh
  | bump fresh | load fresh => exact fresh.between

theorem Disk.listPageId_getLast {d : Disk} {h : Nat} (hl : d.listPageId.getLast? = some h) (p : Nat)
    (hp : (d.size p).isSome) : p ≤ h := by
  obtain ⟨init, hinit⟩ := List.getLast?_eq_some_iff.mp hl
  have hsorted : d.listPageId.Pairwise (· < ·) := List.Pairwise.filter _ List.pairwise_lt_range
  have hmem := (d.mem_listPageId p).mpr hp
  rw [hinit] at hsorted hmem
  rcases List.mem_append.mp hmem with hm | hm
  · exact Nat.le_of_lt ((List.pairwise_append.mp hsorted).2.2 p hm h (by simp))
  · exact Nat.le_of_eq (List.mem_singleton.mp hm)

theorem lastWritten_eq_zero {d : Disk} (hl : d.listPageId.getLast? = none) : lastWritten d = 0 := by
  by_contra h
  have hw := lastWritten_spec (Nat.pos_of_ne_zero h)
  have hmem := (d.mem_listPageId _).mpr hw.1
  rw [List.getLast?_eq_none_iff.mp hl] at hmem
  cases hmem

/-- The page after the last written one is about to be loaded. -/
theorem CtorAt.bumped {P : PageSize} {d₀ : Disk} {pre : Bool} {w : World} {l : Local}
    (fresh : Fresh P d₀ w)
    (writer : w.writer = ctorWriter pre (lastWritten d₀) (nextSequence P d₀)) :
    ∃ s', Stmt.bumpPage.exec P (w, l) = .next s' [] ∧
      CtorAt P d₀ pre ((Page.loadCode .succeeds).map Stmt.load ++ [.swapPage]) s' := by
  refine ⟨_, rfl, .load ⟨fresh.between, fresh.log, fresh.warmer⟩ ?_ ?_ ?_ (.stat ?_ rfl)⟩
  · show { w.writer with currentPageId := w.writer.currentPageId + 1 } = _
    rw [writer]
    rfl
  · show w.writer.currentPageId + 1 = _
    rw [writer]
    rfl
  · rfl
  · show Ahead P _ w.disk (w.writer.currentPageId + 1)
    rw [writer]
    exact fresh.between.above _ (Nat.lt_succ_self _)

/-- `swapPage` ends the constructor. -/
theorem CtorAt.swapped {P : PageSize} {d₀ : Disk} {pre : Bool} {w : World} {l : Local}
    (fresh : Fresh P d₀ w)
    (writer : w.writer = ctorWriter pre (lastWritten d₀ + 1) (nextSequence P d₀))
    (page : l.load.page = lastWritten d₀ + 1)
    (loaded : Loaded P (areaOf d₀ (lastWritten d₀ + 1)) w.disk (lastWritten d₀ + 1)) :
    ∃ s', Stmt.swapPage.exec P (w, l) = .next s' [] ∧ CtorAt P d₀ pre [] s' := by
  refine ⟨_, rfl, .done ⟨⟨⟨rfl, ?_, ?_, ?_, ?_, ?_, ?_, ?_, ?_, ?_⟩, fresh.log, rfl, rfl,
    ⟨loaded.area, ?_⟩, ?_⟩, ⟨?_, ?_, ?_, ?_⟩, rfl⟩⟩
  · exact fun e he => by cases he
  · exact fun e he => by cases he
  · exact Nat.le_trans (show 64 + 64 ≤ 256 by decide) P.roomy
  · exact fun i e he => by cases he
  · intro p h1 h2
    obtain rfl : p = lastWritten d₀ + 1 := Nat.le_antisymm h2 h1
    exact loaded.ready
  · intro p h1 h2
    obtain rfl : p = lastWritten d₀ + 1 := Nat.le_antisymm h2 h1
    exact Or.inl loaded.last
  · refine Or.inr (load_congr (loaded.area.mono (Set.Ico_subset_Ico (Nat.le_refl _) ?_)))
    exact Nat.le_trans (show 64 + 0 + 4 ≤ 256 by decide) P.roomy
  · intro p hp
    exact fresh.between.above p (Nat.lt_trans (Nat.lt_succ_self _) hp)
  · intro p hp
    exact fresh.between.below p (Nat.le_of_lt_succ hp)
  · intro p h1 h2
    obtain rfl : p = lastWritten d₀ + 1 := Nat.le_antisymm h2 h1
    exact loaded.last
  · intro g hg
    rw [show w.warmer = none from fresh.warmer] at hg
    cases hg
  · exact page
  · show w.writer.currentPageId = _
    rw [writer]
    rfl
  · show firstFrameAddress (w.disk.image l.load.page) = _
    rw [page]
    exact loaded.ready.header.headerLength
  · show w.writer.currentSequence = nextSequence P d₀ + UInt64.ofNat 0
    rw [writer]
    simp [ctorWriter]

/-- Bounds the statements the constructor has left, when `top` is the highest page. -/
def Stmt.ctorWeight (top : Nat) : Stmt → Nat
  | .findLastWrittenPage _ => 64 * top + 41
  | .scan _ p => 64 * p + 40
  | .scanLoad _ p rest => 64 * p + 22 + (rest.map LoadStmt.weight).sum
  | .findLastSequenceNumber _ _ => 20
  | .seqLoad _ rest => 2 + (rest.map LoadStmt.weight).sum
  | .load s => s.weight
  | _ => 1

/-- The statement goes on, with less to do, and the constructor keeps its place. -/
def CtorNext (P : PageSize) (d₀ : Disk) (pre : Bool) (i : Stmt) (is : List Stmt)
    (s : World × Local) : Prop :=
  ∃ s' push, i.exec P s = .next s' push ∧ CtorAt P d₀ pre (push ++ is) s' ∧
    (push.map (Stmt.ctorWeight d₀.top)).sum < i.ctorWeight d₀.top

section
variable {P : PageSize} {d₀ : Disk} {pre : Bool} {w : World} {l : Local} {p k : Nat}

theorem loadCode_weight (k : Nat) :
    (((Page.loadCode .succeeds).drop k).map LoadStmt.weight).sum ≤ 14 := by
  have h14 : ((Page.loadCode .succeeds).map LoadStmt.weight).sum = 14 := by decide
  have hsplit := congrArg List.sum (congrArg (List.map LoadStmt.weight)
    (List.take_append_drop k (Page.loadCode .succeeds)))
  rw [List.map_append, List.sum_append, h14] at hsplit
  omega

theorem loadCode_weight_succ {i : LoadStmt}
    (h : (Page.loadCode .succeeds).drop k = i :: (Page.loadCode .succeeds).drop (k + 1)) :
    (((Page.loadCode .succeeds).drop (k + 1)).map LoadStmt.weight).sum <
      (((Page.loadCode .succeeds).drop k).map LoadStmt.weight).sum := by
  rw [h, List.map_cons, List.sum_cons]
  exact Nat.lt_add_of_pos_left i.weight_pos

/-- A turn of the search's loop. -/
theorem CtorAt.scan_step (hmap : Mapped P d₀) (fresh : Fresh P d₀ w)
    (writer : w.writer = ctorWriter pre 0 0) (hp : lastWritten d₀ ≤ p) (bound : p ≤ d₀.top)
    (untouched : ∀ q, q ≤ p → d₀.SameFile w.disk q) :
    CtorNext P d₀ pre (.scan .succeeds p) (loadInitialPage .succeeds) (w, l) := by
  have hpre : w.writer.prefault = pre := by rw [writer]; rfl
  cases p with
  | zero =>
    have h0 : lastWritten d₀ = 0 := Nat.le_zero.mp hp
    refine ⟨(w, l), [], rfl, .bump fresh ?_, by simp [Stmt.ctorWeight]⟩
    rw [writer, nextSequence, h0, if_pos rfl]
  | succ p =>
    refine ⟨(w, { l with load := ⟨p + 1, false, w.writer.prefault, false, 0, false⟩ }), _, rfl, ?_,
      ?_⟩
    · rw [hpre]
      by_cases hu : InUse P d₀ (p + 1)
      · exact .scanUsed (k := 0) fresh writer hp (Nat.succ_pos p) bound untouched hu ⟨rfl, rfl, rfl⟩
          (by decide) fun h => absurd h (by decide)
      · have hlt : lastWritten d₀ < p + 1 := by
          refine Nat.lt_of_le_of_ne hp fun e => hu ?_
          rw [← e]
          exact hmap.inUse (lastWritten_spec (by omega))
        have hahead : Ahead P (areaOf d₀ (p + 1)) w.disk (p + 1) := fresh.between.above _ hlt
        refine .scanAhead fresh writer hlt bound (fun q hq => untouched q (Nat.le_of_lt hq)) hu
          ⟨rfl, rfl, rfl⟩ ?_
        cases pre with
        | true => exact .master (.stat hahead rfl) rfl
        | false => exact .readOnly 0 (by decide) rfl hahead rfl fun h => absurd h (by decide)
    · have := loadCode_weight 0
      simp only [List.map_cons, List.map_nil, List.sum_cons, List.sum_nil, Stmt.ctorWeight,
        List.drop_zero] at this ⊢
      omega

/-- The search's load of a page that is not in use. -/
theorem CtorAt.scanAhead_step {code : List LoadStmt} (fresh : Fresh P d₀ w)
    (writer : w.writer = ctorWriter pre 0 0) (hp : lastWritten d₀ < p) (bound : p ≤ d₀.top)
    (untouched : ∀ q, q < p → d₀.SameFile w.disk q) (unused : ¬ InUse P d₀ p)
    (regs : SearchRegs pre p l.load) (peek : Peek P (areaOf d₀ p) code w.disk l.load) :
    CtorNext P d₀ pre (.scanLoad .succeeds p code) (loadInitialPage .succeeds) (w, l) ∨
      pre = false ∧ (Stmt.scanLoad .succeeds p code).exec P (w, l) = .fault (w, l) := by
  obtain ⟨hpage, hwr, hpre⟩ := regs
  cases code with
  | nil =>
    have h64 := peek.done
    rw [hpage] at h64
    refine Or.inl ⟨(w, l), [.scan .succeeds (p - 1)], ?_, ?_, ?_⟩
    · simp only [Stmt.exec]
      rw [if_neg (by rw [h64]; exact Nat.lt_irrefl _)]
    · exact .scan fresh writer (by omega) (by omega) fun q hq => untouched q (by omega)
    · simp only [List.map_cons, List.map_nil, List.sum_cons, List.sum_nil, Stmt.ctorWeight]
      omega
  | cons i code =>
    rcases peek.step with ⟨d', r', push, hexec, hpeek, hpage', hsame⟩ | ⟨hm, hfault⟩
    · refine Or.inl ⟨({ w with disk := d' }, { l with load := r' }),
        [.scanLoad .succeeds p (push ++ code)], by simp only [Stmt.exec, hexec], ?_, ?_⟩
      · have hregs : r'.isWriting = false ∧ r'.prefault = pre := by
          have := LoadStmt.exec_mode hexec
          exact ⟨this.1.trans hwr, this.2.trans hpre⟩
        rw [hpage] at hsame
        refine .scanAhead ⟨fresh.between.touch hp hsame ?_, fresh.log, fresh.warmer⟩ writer hp bound
          (fun q hq => (untouched q hq).trans (hsame q (by omega))) unused
          ⟨hpage'.trans hpage, hregs.1, hregs.2⟩ hpeek
        have := hpeek.ahead
        rwa [hpage', hpage] at this
      · have := i.exec_weight hexec
        simp only [List.map_cons, List.map_nil, List.sum_cons, List.sum_nil, Stmt.ctorWeight,
          List.map_append, List.sum_append]
        omega
    · refine Or.inr ⟨?_, by simp only [Stmt.exec, hfault]⟩
      rw [← hpre]
      simp only [LoadRegs.master, Bool.or_eq_false_iff] at hm
      exact hm.2

/-- The search's load of a page in use. -/
theorem CtorAt.scanUsed_step (fresh : Fresh P d₀ w) (writer : w.writer = ctorWriter pre 0 0)
    (hp : lastWritten d₀ ≤ p) (hp0 : 0 < p) (bound : p ≤ d₀.top)
    (untouched : ∀ q, q ≤ p → d₀.SameFile w.disk q) (used : InUse P d₀ p)
    (regs : SearchRegs pre p l.load) (hk : k ≤ 7) (found : 1 ≤ k → l.load.fileExists = true) :
    CtorNext P d₀ pre (.scanLoad .succeeds p ((Page.loadCode .succeeds).drop k))
      (loadInitialPage .succeeds) (w, l) := by
  have hsame := untouched p (Nat.le_refl p)
  obtain ⟨hpage, hwr, hpre⟩ := regs
  rcases Nat.lt_or_eq_of_le hk with hk7 | rfl
  · have hu : InUse P w.disk l.load.page := by rw [hpage]; exact used.of_same hsame
    obtain ⟨i, r', hcode, hexec, h1, h2, h3, h4⟩ := hu.load_step hk7 found
    refine ⟨(w, { l with load := r' }),
      [.scanLoad .succeeds p ((Page.loadCode .succeeds).drop (k + 1))], ?_, ?_, ?_⟩
    · rw [hcode]
      simp only [Stmt.exec, hexec, List.nil_append]
    · exact .scanUsed fresh writer hp hp0 bound untouched used
        ⟨h1.trans hpage, h2.trans hwr, h3.trans hpre⟩ hk7 fun _ => h4
    · have := loadCode_weight_succ hcode
      simp only [List.map_cons, List.map_nil, List.sum_cons, List.sum_nil, Stmt.ctorWeight]
      omega
  · show CtorNext P d₀ pre (.scanLoad .succeeds p []) _ _
    by_cases hl : lastFramePosition (w.disk.image p) > pageHeaderSize
    · have hpl : lastWritten d₀ = p := by
        refine Nat.le_antisymm hp (Nat.le_of_not_lt fun hlt => not_written_of_lt hlt ⟨?_, ?_⟩)
        · obtain ⟨size, hs, -⟩ := used.ready.size
          rw [hs]
          rfl
        · rw [← hsame.2]
          exact hl
      refine ⟨(w, l), [.findLastSequenceNumber .succeeds p], ?_, ?_, ?_⟩
      · simp only [Stmt.exec]
        rw [if_pos hl]
      · rw [← hpl] at hp0 ⊢
        exact .findSequence fresh writer hp0
      · simp only [List.map_cons, List.map_nil, List.sum_cons, List.sum_nil, Stmt.ctorWeight]
        omega
    · refine ⟨(w, l), [.scan .succeeds (p - 1)], ?_, ?_, ?_⟩
      · simp only [Stmt.exec]
        rw [if_neg hl]
      · refine .scan fresh writer ?_ (by omega) fun q hq => untouched q (by omega)
        have : lastWritten d₀ ≠ p := by
          intro e
          have hw := (lastWritten_spec (d := d₀) (by omega)).2
          rw [e, ← hsame.2] at hw
          exact hl hw
        omega
      · simp only [List.map_cons, List.map_nil, List.sum_cons, List.sum_nil, Stmt.ctorWeight]
        omega

/-- The load of `findLastSequenceNumber`, and its scan. -/
theorem CtorAt.seqLoad_step (hmap : Mapped P d₀) (fresh : Fresh P d₀ w)
    (writer : w.writer = ctorWriter pre (lastWritten d₀) 0) (hp : 0 < lastWritten d₀)
    (regs : SearchRegs pre (lastWritten d₀) l.load) (hk : k ≤ 7)
    (found : 1 ≤ k → l.load.fileExists = true) :
    CtorNext P d₀ pre (.seqLoad (lastWritten d₀) ((Page.loadCode .succeeds).drop k))
      (loadInitialPage .succeeds) (w, l) := by
  have hsame := fresh.between.below (lastWritten d₀) (Nat.le_refl _)
  obtain ⟨hpage, hwr, hpre⟩ := regs
  rcases Nat.lt_or_eq_of_le hk with hk7 | rfl
  · have hu : InUse P w.disk l.load.page := by
      rw [hpage]
      exact (hmap.inUse (lastWritten_spec hp)).of_same hsame
    obtain ⟨i, r', hcode, hexec, h1, h2, h3, h4⟩ := hu.load_step hk7 found
    refine ⟨(w, { l with load := r' }),
      [.seqLoad (lastWritten d₀) ((Page.loadCode .succeeds).drop (k + 1))], ?_, ?_, ?_⟩
    · rw [hcode]
      simp only [Stmt.exec, hexec, List.nil_append]
    · exact .seqLoad fresh writer hp ⟨h1.trans hpage, h2.trans hwr, h3.trans hpre⟩ hk7 fun _ => h4
    · have := loadCode_weight_succ hcode
      simp only [List.map_cons, List.map_nil, List.sum_cons, List.sum_nil, Stmt.ctorWeight]
      omega
  · refine ⟨_, [], rfl, .bump ⟨fresh.between, fresh.log, fresh.warmer⟩ ?_, ?_⟩
    · show { w.writer with
        currentSequence := lastSequence P (w.disk.image (lastWritten d₀)) + 1 } = _
      rw [writer, nextSequence, if_neg (Nat.ne_of_gt hp), ← hsame.2]
      rfl
    · simp only [List.map_nil, List.sum_nil, Stmt.ctorWeight]
      omega

/-- The final load and the swap. -/
theorem CtorAt.load_step {i : Stmt} {is : List Stmt} {code : List LoadStmt} (fresh : Fresh P d₀ w)
    (writer : w.writer = ctorWriter pre (lastWritten d₀ + 1) (nextSequence P d₀))
    (page : l.load.page = lastWritten d₀ + 1) (master : l.load.master = true)
    (load : LoadAt P (areaOf d₀ (lastWritten d₀ + 1)) code w.disk l.load)
    (hcode : code.map Stmt.load ++ [.swapPage] = i :: is) : CtorNext P d₀ pre i is (w, l) := by
  cases code with
  | nil =>
    obtain ⟨rfl, rfl⟩ := List.cons.inj hcode
    have loaded : Loaded P (areaOf d₀ (lastWritten d₀ + 1)) w.disk (lastWritten d₀ + 1) := by
      generalize hnil : ([] : List LoadStmt) = code at load
      cases load with
      | done file full ok last =>
        rw [page] at ok last
        exact ⟨⟨⟨_, page ▸ file.sized, full⟩, ok⟩, last, page ▸ file.area⟩
      | init qs => simp at hnil
      | _ => cases hnil
    obtain ⟨s', hexec, hat⟩ := CtorAt.swapped fresh writer page loaded
    exact ⟨s', [], hexec, hat, by simp [Stmt.ctorWeight]⟩
  | cons s code =>
    obtain ⟨rfl, rfl⟩ := List.cons.inj hcode
    obtain ⟨d', r', push, hexec, hload, hpage', hmaster', hsame, -⟩ := load.step master
    rw [page] at hsame
    refine ⟨({ w with disk := d' }, { l with load := r' }), push.map Stmt.load,
      by simp only [Stmt.exec, hexec], ?_, ?_⟩
    · have hahead := hload.ahead
      rw [hpage', page] at hahead
      have := @CtorAt.load P d₀ pre { w with disk := d' } { l with load := r' } _
        ⟨fresh.between.touch (Nat.lt_succ_self _) hsame hahead, fresh.log, fresh.warmer⟩ writer
        (hpage'.trans page) hmaster' hload
      rwa [List.map_append, List.append_assoc] at this
    · rw [List.map_map]
      exact s.exec_weight hexec

/-- **One statement of the constructor**: it goes on, or the process dies because a
page file below the highest is not in use and the mapping is read-only. -/
theorem CtorAt.step (hmap : Mapped P d₀) {i : Stmt} {is : List Stmt} {s : World × Local}
    (h : CtorAt P d₀ pre (i :: is) s) :
    CtorNext P d₀ pre i is s ∨
    pre = false ∧ i.exec P s = .fault s ∧ ∃ p, 0 < p ∧ p ≤ d₀.top ∧ ¬ InUse P d₀ p := by
  generalize hcode : i :: is = code at h
  cases h with
  | @enter w l fresh disk writer =>
    obtain ⟨rfl, rfl⟩ := List.cons.inj hcode
    refine Or.inl ?_
    cases hl : w.disk.listPageId.getLast? with
    | none =>
      refine ⟨(w, l), [], by simp only [Stmt.exec, hl], .bump fresh ?_, by simp [Stmt.ctorWeight]⟩
      rw [disk] at hl
      rw [writer, nextSequence, lastWritten_eq_zero hl, if_pos rfl]
    | some h =>
      rw [disk] at hl
      have hmem : (d₀.size h).isSome := (d₀.mem_listPageId h).mp (List.mem_of_getLast? hl)
      have hbound : h ≤ d₀.top := by
        by_contra hlt
        rw [d₀.absent h (by omega)] at hmem
        cases hmem
      refine ⟨(w, l), [.scan .succeeds h], by simp only [Stmt.exec, disk, hl], ?_, ?_⟩
      · refine .scan fresh writer ?_ hbound fun q _ => disk ▸ .refl d₀ q
        by_contra hlt
        have hw := lastWritten_spec (d := d₀) (by omega)
        exact hlt (Disk.listPageId_getLast hl _ hw.1)
      · simp only [List.map_cons, List.map_nil, List.sum_cons, List.sum_nil, Stmt.ctorWeight]
        omega
  | scan fresh writer hp bound untouched =>
    obtain ⟨rfl, rfl⟩ := List.cons.inj hcode
    exact Or.inl (CtorAt.scan_step hmap fresh writer hp bound untouched)
  | scanAhead fresh writer hp bound untouched unused regs peek =>
    obtain ⟨rfl, rfl⟩ := List.cons.inj hcode
    rcases CtorAt.scanAhead_step fresh writer hp bound untouched unused regs peek with h | ⟨h1, h2⟩
    · exact Or.inl h
    · exact Or.inr ⟨h1, h2, _, Nat.lt_of_le_of_lt (Nat.zero_le _) hp, bound, unused⟩
  | scanUsed fresh writer hp hp0 bound untouched used regs hk found =>
    obtain ⟨rfl, rfl⟩ := List.cons.inj hcode
    exact Or.inl (CtorAt.scanUsed_step fresh writer hp hp0 bound untouched used regs hk found)
  | @findSequence w l fresh writer hp =>
    obtain ⟨rfl, rfl⟩ := List.cons.inj hcode
    refine Or.inl ⟨_, [.seqLoad (lastWritten d₀) ((Page.loadCode .succeeds).drop 0)], rfl, ?_, ?_⟩
    · refine .seqLoad (k := 0) ⟨fresh.between, fresh.log, fresh.warmer⟩ ?_ hp
        ⟨rfl, rfl, ?_⟩ (by decide)
        fun h => absurd h (by decide)
      · show { w.writer with currentPageId := lastWritten d₀ } = _
        rw [writer]
        rfl
      · show w.writer.prefault = pre
        rw [writer]
        rfl
    · have := loadCode_weight 0
      simp only [List.map_cons, List.map_nil, List.sum_cons, List.sum_nil, Stmt.ctorWeight]
      omega
  | seqLoad fresh writer hp regs hk found =>
    obtain ⟨rfl, rfl⟩ := List.cons.inj hcode
    exact Or.inl (CtorAt.seqLoad_step hmap fresh writer hp regs hk found)
  | bump fresh writer =>
    obtain ⟨rfl, rfl⟩ := List.cons.inj hcode
    obtain ⟨s', hexec, hat⟩ := CtorAt.bumped fresh writer
    exact Or.inl ⟨s', [], hexec, hat, by simp [Stmt.ctorWeight]⟩
  | load fresh writer page master load =>
    exact Or.inl (CtorAt.load_step fresh writer page master load hcode.symm)
  | done => cases hcode

/-- **The constructor returns**, if it prefaults or every page file is in use. -/
theorem CtorAt.returns (hmap : Mapped P d₀)
    (hok : pre = true ∨ ∀ p, 0 < p → p ≤ d₀.top → InUse P d₀ p) {code : List Stmt}
    {s : World × Local} (h : CtorAt P d₀ pre code s) :
    ∃ s', Runs (Stmt.exec P) (code, s) ([], s') ∧ CtorAt P d₀ pre [] s' := by
  generalize hn : (code.map (Stmt.ctorWeight d₀.top)).sum = n
  induction n using Nat.strongRecOn generalizing code s with
  | ind n ih =>
    cases code with
    | nil => exact ⟨s, .refl, h⟩
    | cons i is =>
      rcases h.step hmap with ⟨s₁, push, hexec, hat, hlt⟩ | ⟨hpre, -, p, hp0, hp, hu⟩
      · obtain ⟨s', hrun, hend⟩ := ih _ (by
          simp only [← hn, List.map_append, List.sum_append, List.map_cons, List.sum_cons]
          omega) hat rfl
        exact ⟨s', .head (.next hexec) hrun, hend⟩
      · rcases hok with htrue | hall
        · rw [htrue] at hpre
          cases hpre
        · exact absurd (hall p hp0 hp) hu

end
end Revoq
