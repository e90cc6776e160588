import Revoq.CallSafety

/-! # Rotating to the next page

`rotatePage` first gets the next page ready and only then closes the current one:
it is loaded by `Page.loadCode`, or taken from the warmer's ring, and in both cases
it is `Loaded` before the sentinel is published.
-/
namespace Revoq
open ByteImage StmtMachine

section
variable {P : PageSize} {C : Ctx} {full log : List Entry} {tail : Slot}
  {j : JournalWriter} {l : Local}
variable {E : Disk → Prop} {s s' : World × Local} {Q : World × Local → Prop} {rest : List Stmt}

theorem Framed.mono {n n' : Nat} (h : Framed n E) (hn : n ≤ n') : Framed n' E :=
  fun _ _ same => h fun p hp => same p (Nat.le_trans hp hn)

theorem frontier_le (hcur : j.currentPage = tail.page) : tail.page ≤ frontier j l :=
  hcur ▸ Nat.le_max_left ..

theorem frontier_of_closed (h : l.load.opened = false) : frontier j l = j.currentPage := by
  simp [frontier, h]

theorem frontier_of_opened (hcur : j.currentPage = tail.page) (hp : l.load.page = tail.page + 1)
    (h : l.load.opened = true) : frontier j l = tail.page + 1 := by
  simp only [frontier, h, if_true, hp, hcur]
  omega

/-! ## Loading it -/

/-- The next page is being loaded: `code` is left of the load. -/
structure Loading (P : PageSize) (C : Ctx) (tail : Slot) (j : JournalWriter) (l : Local)
    (log : List Entry) (E : Disk → Prop) (code : List LoadStmt) (s : World × Local) : Prop where
  state : At P C tail j { l with load := s.2.load } log E s
  load : LoadAt P (C.base (tail.page + 1)) code s.1.disk s.2.load
  page : s.2.load.page = tail.page + 1
  master : s.2.load.master = true

theorem Loading.stable {code : List LoadStmt} (hcur : j.currentPage = tail.page)
    (hE : Framed tail.page E) (h : Loading P C tail j l log E code s) (hs : Stable P C s s') :
    Loading P C tail j l log E code s' := by
  have hregs := hs.regs
  have hf : frontier s.1.writer s.2 = frontier j { l with load := s.2.load } := by
    rw [h.state.writer]
    rfl
  refine ⟨hregs ▸ h.state.stable (frontier_le hcur) (hE.mono (frontier_le hcur)) hs, ?_,
    hregs ▸ h.page, hregs ▸ h.master⟩
  rw [hregs]
  refine h.load.stable (fun ho => ?_) (fun hc ha => ?_) (fun size => hs.grow _ size)
  · refine (hs.same _ ?_).image
    rw [hf, frontier_of_opened (l := { l with load := s.2.load }) hcur h.page ho, h.page]
  · rw [← h.page] at ha ⊢
    refine hs.ahead _ ?_ ha
    rw [hf, frontier_of_closed (l := { l with load := s.2.load }) hc, hcur, h.page]
    exact Nat.lt_succ_self _

/-- One statement of the load. -/
theorem Loading.step {i : LoadStmt} {code : List LoadStmt} (hcur : j.currentPage = tail.page)
    (hE : Framed tail.page E) (h : Loading P C tail j l log E (i :: code) s) :
    ∃ s' push, (Stmt.load i).exec P s = .next s' (push.map Stmt.load) ∧
      (push.map LoadStmt.weight).sum < i.weight ∧ Loading P C tail j l log E (push ++ code) s' := by
  obtain ⟨w, l'⟩ := s
  obtain ⟨d', r', push, hexec, hload, hpage, hmaster, hsame, hclosed⟩ := h.load.step h.master
  have hpage' : r'.page = tail.page + 1 := hpage.trans h.page
  have hexec' : (Stmt.load i).exec P (w, l') =
      .next ({ w with disk := d' }, { l' with load := r' }) (push.map Stmt.load) := by
    simp only [Stmt.exec, hexec]
  have hreg : l' = { l with load := l'.load } := h.state.regs
  have hcurrent : ∀ p, p ≤ tail.page → w.disk.SameFile d' p := fun p hp =>
    hsame p (by rw [h.page]; omega)
  refine ⟨_, push, hexec', i.exec_weight hexec, ⟨?_, h.state.log, h.state.writer, ?_, ?_, ?_⟩, ?_,
    hpage', hmaster⟩
  · refine h.state.live.of_same hcurrent fun p hp => ?_
    by_cases hp1 : p = tail.page + 1
    · subst hp1
      have := hload.ahead
      rwa [hpage'] at this
    · exact (h.state.live.ahead p hp).of_same (hsame p (by rw [h.page]; omega))
  · show { l' with load := r' } = { l with load := r' }
    rw [hreg]
  · exact hE (fun p hp => (hcurrent p hp).grows) h.state.extra
  · intro g hg k p hk hp
    cases ho : r'.opened with
    | false =>
      obtain ⟨rfl, hc⟩ := hclosed ho
      refine h.state.ring g hg k p hk ?_
      rw [frontier_of_closed (l := { l with load := r' }) ho] at hp
      rwa [frontier_of_closed (l := { l with load := l'.load }) hc]
    | true =>
      rw [frontier_of_opened (l := { l with load := r' }) hcur hpage' ho] at hp
      obtain ⟨h1, h2⟩ := h.state.ring g hg k p hk (by
        have : frontier j { l with load := l'.load } ≤ tail.page + 1 := by
          have hpl : l'.load.page = tail.page + 1 := h.page
          simp only [frontier, hcur, hpl]
          split <;> omega
        exact Nat.lt_of_le_of_lt this hp)
      exact ⟨h1, h2.of_same (hsame p (by rw [h.page]; omega))⟩
  · exact hload

/-- **Loading the next page** ends with it `Loaded`. -/
theorem Loading.safe {code : List LoadStmt} (hcur : j.currentPage = tail.page)
    (hE : Framed tail.page E) (hfull : log <+: full) (h : Loading P C tail j l log E code s)
    (next : ∀ s' r, r.page = tail.page + 1 → r.opened = true →
      At P C tail j { l with load := r } log
        (fun d => E d ∧ Loaded P (C.base (tail.page + 1)) d (tail.page + 1)) s' →
      Safe P C full Q rest s') :
    Safe P C full Q (code.map Stmt.load ++ rest) s := by
  -- on the weight of the code left: a statement may put others in front
  generalize hn : (code.map LoadStmt.weight).sum = n
  induction n using Nat.strongRecOn generalizing code s with
  | ind n ih =>
    cases code with
    | nil =>
      obtain ⟨state, load, page, -⟩ := h
      generalize hcode : ([] : List LoadStmt) = code at load
      cases load with
      | done file full ok last =>
        refine next s s.2.load page file.opened ⟨state.live, state.log, state.writer, state.regs,
          ⟨state.extra, ?_⟩, state.ring⟩
        rw [← page]
        exact ⟨⟨⟨_, file.sized, full⟩, ok⟩, last, by rw [page]; exact page ▸ file.area⟩
      | init qs => simp at hcode
      | _ => cases hcode
    | cons i code =>
      refine Safely.single (A := Loading P C tail j l log E (i :: code))
        (fun _ _ h hs => h.stable hcur hE hs) (fun _ h => h.state.cut hfull) ?_ h
      intro s hs
      obtain ⟨s', push, hexec, hweight, hload⟩ := hs.step hcur hE
      refine ⟨s', _, hexec, ?_⟩
      show Safe P C full Q (push.map Stmt.load ++ (code.map Stmt.load ++ rest)) s'
      rw [← List.append_assoc, ← List.map_append]
      refine ih _ ?_ hload rfl
      simp only [← hn, List.map_append, List.sum_append, List.map_cons, List.sum_cons]
      omega

/-! ## Getting it, from the warmer or by loading -/

/-- `rotatePage` has taken the next page's id and not opened its file. -/
structure Bumped (tail : Slot) (j : JournalWriter) (l : Local) : Prop where
  current : j.currentPage = tail.page
  newPage : l.newPageId = tail.page + 1
  load : l.load = ⟨tail.page + 1, true, j.prefault, false, 0, false⟩

theorem Bumped.frontier (h : Bumped tail j l) : frontier j l = tail.page := by
  rw [frontier_of_closed (by rw [h.load]), h.current]

theorem Bumped.loading (hb : Bumped tail j l) (h : At P C tail j l log E s) :
    Loading P C tail j l log E (Page.loadCode .succeeds) s := by
  obtain ⟨w, l'⟩ := s
  obtain rfl : l' = l := h.regs
  have hpage : l'.load.page = tail.page + 1 := by rw [hb.load]
  refine ⟨h, .stat ?_ (by rw [hb.load]), hpage, by rw [hb.load]; rfl⟩
  rw [hpage]
  exact h.live.ahead _ (Nat.lt_succ_self _)

/-- The next page is ready, and the rest continues from there. -/
abbrev NextReady (P : PageSize) (C : Ctx) (tail : Slot) (j : JournalWriter) (l : Local)
    (log : List Entry) (E : Disk → Prop) (s : World × Local) : Prop :=
  ∃ r, r.page = tail.page + 1 ∧ r.opened = true ∧ At P C tail j { l with load := r } log
    (fun d => E d ∧ Loaded P (C.base (tail.page + 1)) d (tail.page + 1)) s

theorem Bumped.load_safe (hb : Bumped tail j l) (hE : Framed tail.page E) (hfull : log <+: full)
    (h : At P C tail j l log E s)
    (next : ∀ s', NextReady P C tail j l log E s' → Safe P C full Q rest s') :
    Safe P C full Q ((Page.loadCode .succeeds).map Stmt.load ++ rest) s :=
  (hb.loading h).safe hb.current hE hfull fun s' r h1 h2 h3 => next s' ⟨r, h1, h2, h3⟩

theorem framed_loaded {p n : Nat} {b : Image} (hp : p ≤ n) : Framed n fun d => Loaded P b d p :=
  fun _ _ same h => h.grows (same p hp)

/-- A page taken from the ring passes the checks of `Page::loadFromAddress`. -/
theorem At.loadFromAddress (hcur : j.currentPage = tail.page) (hpage : l.load.page = tail.page + 1)
    (hopen : l.load.opened = true) (hE : Framed tail.page E) (hfull : log <+: full)
    (h : At P C tail j l log
      (fun d => E d ∧ Loaded P (C.base (tail.page + 1)) d (tail.page + 1)) s)
    (next : ∀ s', At P C tail j l log
      (fun d => E d ∧ Loaded P (C.base (tail.page + 1)) d (tail.page + 1)) s' →
        Safe P C full Q rest s') :
    Safe P C full Q (.loadFromAddress :: rest) s := by
  have hf := frontier_of_opened (j := j) hcur hpage hopen
  refine h.step (frontier_le hcur) ?_ hfull fun w hw => ⟨(w, l), [], ?_, next _ hw⟩
  · rw [hf]
    exact (hE.mono (Nat.le_succ _)).and (framed_loaded (Nat.le_refl _))
  · have hok := hw.extra.2.ready.header
    simp only [Stmt.exec, hpage]
    exact if_pos ⟨hok.version, hok.headerLength⟩

/-- The state between two statements of `getWarmedPage`. -/
abbrev Searching (P : PageSize) (C : Ctx) (tail : Slot) (j : JournalWriter) (l : Local)
    (log : List Entry) (E : Disk → Prop) (s : World × Local) : Prop :=
  At P C tail j l log E s ∧ s.1.warmer.isSome = true

theorem Searching.step {i : Stmt} (hb : Bumped tail j l) (hE : Framed tail.page E)
    (hfull : log <+: full) (h : Searching P C tail j l log E s)
    (advance : ∀ w g, w.warmer = some g → Searching P C tail j l log E (w, l) →
      ∃ s' push, i.exec P (w, l) = .next s' push ∧ Safe P C full Q (push ++ rest) s') :
    Safe P C full Q (i :: rest) s := by
  have hf := frontier_le (l := l) hb.current
  refine Safely.single (A := Searching P C tail j l log E)
    (fun s s' h hs => ⟨h.1.stable hf (hE.mono hf) hs, hs.warmer.trans h.2⟩)
    (fun _ h => h.1.cut hfull) ?_ h
  rintro ⟨w, l'⟩ hw
  obtain rfl : l' = l := hw.1.regs
  obtain ⟨g, hg⟩ := Option.isSome_iff_exists.mp hw.2
  exact advance w g hg hw

theorem PageWarmer.claim_pageId_self (g : PageWarmer) (k : Fin ringSize) :
    ((g.claim k).ring k).pageId = -1 := by simp [claim]

theorem PageWarmer.claim_ring_of_ne (g : PageWarmer) {i k : Fin ringSize} (h : i ≠ k) :
    (g.claim k).ring i = g.ring i := Function.update_of_ne h ..

/-- Taking a slot that holds the next page. -/
theorem Searching.take {w : World} {g : PageWarmer} {k : Fin ringSize}
    (hb : Bumped tail j l) (hg : w.warmer = some g) (hk : (g.ring k).pageId = l.newPageId)
    (h : Searching P C tail j l log E (w, l)) :
    (g.ring k).address = some (tail.page + 1) ∧
    At P C tail j { l with load := { l.load with page := tail.page + 1, opened := true } } log
      (fun d => E d ∧ Loaded P (C.base (tail.page + 1)) d (tail.page + 1))
      ({ w with warmer := some (g.claim k) },
        { l with load := { l.load with page := tail.page + 1, opened := true } }) := by
  have hring := h.1.ring
  rw [hb.frontier] at hring
  rw [hb.newPage] at hk
  obtain ⟨haddr, hloaded⟩ := hring g hg k (tail.page + 1) hk (Nat.lt_succ_self _)
  refine ⟨haddr, h.1.live, h.1.log, h.1.writer, rfl, ⟨h.1.extra, hloaded⟩, ?_⟩
  rw [frontier_of_opened
    (l := { l with load := { l.load with page := tail.page + 1, opened := true } })
    hb.current rfl rfl]
  rintro g' hg' i p hp hlt
  cases hg'
  by_cases hik : i = k
  · subst hik
    rw [g.claim_pageId_self] at hp
    omega
  · rw [g.claim_ring_of_ne hik] at hp ⊢
    exact hring g hg i p hp (by omega)

/-- **`getWarmedPage`, and the fallback when it finds nothing.** -/
theorem Searching.probe {start i : Nat} (hb : Bumped tail j l) (hE : Framed tail.page E)
    (hfull : log <+: full) (h : Searching P C tail j l log E s)
    (next : ∀ s', NextReady P C tail j l log E s' → Safe P C full Q rest s') :
    Safe P C full Q (.probe .succeeds start i :: rest) s := by
  generalize hn : ringSize - i = n
  induction n generalizing i s with
  | zero =>
    have hge : i ≥ ringSize := by omega
    refine h.step hb hE hfull fun w g hg hw => ⟨(w, l), _, ?_, hb.load_safe hE hfull hw.1 next⟩
    simp only [Stmt.exec, hg, if_pos hge]
  | succ n ih =>
    have hlt : ¬ i ≥ ringSize := by omega
    have again : ∀ {w}, Searching P C tail j l log E (w, l) →
        Safe P C full Q (.probe .succeeds start (i + 1) :: rest) (w, l) :=
      fun hw => ih hw (by omega)
    refine h.step hb hE hfull fun w g hg hw => ?_
    by_cases hk : (g.ring (PageWarmer.slotIndex (start + i))).pageId = l.newPageId
    · refine ⟨(w, l), [.claimSlot .succeeds start i], ?_, ?_⟩
      · simp only [Stmt.exec, hg, if_neg hlt, if_pos hk]
      refine Searching.step hb hE hfull hw fun w g hg hw => ?_
      by_cases hk : (g.ring (PageWarmer.slotIndex (start + i))).pageId = l.newPageId
      · obtain ⟨haddr, hat⟩ := hw.take hb hg hk
        refine ⟨_, [.loadFromAddress], ?_, hat.loadFromAddress
          (l := { l with load := _ }) hb.current rfl
          rfl hE hfull fun s' hs' => next s' ⟨_, rfl, rfl, hs'⟩⟩
        simp only [Stmt.exec, hg, if_pos hk, haddr]
      · refine ⟨(w, l), [.probe .succeeds start (i + 1)], ?_, again hw⟩
        simp only [Stmt.exec, hg, if_neg hk]
    · refine ⟨(w, l), [.probe .succeeds start (i + 1)], ?_, again hw⟩
      simp only [Stmt.exec, hg, if_neg hlt, if_neg hk]

/-- **Getting the next page**, with or without a warmer. -/
theorem At.nextPage (hb : Bumped tail j l) (hE : Framed tail.page E) (hfull : log <+: full)
    (h : At P C tail j l log E s)
    (next : ∀ s', NextReady P C tail j l log E s' → Safe P C full Q rest s') :
    Safe P C full Q (.nextPage .succeeds :: rest) s := by
  have hf := frontier_le (l := l) hb.current
  refine h.step hf (hE.mono hf) hfull fun w hw => ?_
  cases hg : w.warmer with
  | none => exact ⟨(w, l), _, by simp only [Stmt.exec, hg], hb.load_safe hE hfull hw next⟩
  | some g =>
    refine ⟨(w, l),
      [.probe .succeeds g.readIndex 0, .updateCurrentPage], by simp only [Stmt.exec, hg],
      Searching.probe hb hE hfull ⟨hw, by rw [hg]; rfl⟩ ?_⟩
    rintro s' ⟨r, hpage, hopen, hs'⟩
    have hfr := frontier_of_opened (l := { l with load := r }) hb.current hpage hopen
    refine hs'.step (frontier_le hb.current) ?_ hfull fun w hw => ⟨_, [], rfl, next _
      ⟨r, hpage, hopen, hw.live, hw.log, hw.writer, rfl, hw.extra, ?_⟩⟩
    · rw [hfr]
      exact (hE.mono (Nat.le_succ _)).and (framed_loaded (Nat.le_refl _))
    · intro g' hg' i p hp hlt
      obtain ⟨g'', hg'', rfl⟩ := Option.map_eq_some_iff.mp hg'
      exact hw.ring g'' hg'' i p hp hlt

/-! ## The rotation -/

/-- The writer's fields point at the tail, and `n` sequence numbers are used. -/
structure Cursor (C : Ctx) (tail : Slot) (n : Nat) (j : JournalWriter) : Prop where
  page : j.currentPage = tail.page
  pageId : j.currentPageId = tail.page
  address : j.currentFrameAddress = tail.offset
  sequence : j.currentSequence = C.seq + UInt64.ofNat n

/-- What opening a frame does not touch. -/
structure Aside (j : JournalWriter) (l : Local) (j' : JournalWriter) (l' : Local) : Prop where
  prefault : j'.prefault = j.prefault
  openFrameHeader : j'.openFrameHeader = j.openFrameHeader
  writing : j'.writing = j.writing
  thread : l'.thread = l.thread
  reference : l'.reference = l.reference
  opened : l'.opened = l.opened

theorem Aside.refl (j : JournalWriter) (l : Local) : Aside j l j l := ⟨rfl, rfl, rfl, rfl, rfl, rfl⟩

theorem Aside.trans {j' j'' : JournalWriter} {l' l'' : Local} (h : Aside j l j' l')
    (h' : Aside j' l' j'' l'') : Aside j l j'' l'' :=
  ⟨h'.prefault.trans h.prefault, h'.openFrameHeader.trans h.openFrameHeader,
    h'.writing.trans h.writing, h'.thread.trans h.thread, h'.reference.trans h.reference,
    h'.opened.trans h.opened⟩

theorem uint64_succ (a : UInt64) (n : Nat) : a + UInt64.ofNat n + 1 = a + UInt64.ofNat (n + 1) := by
  rw [UInt64.ofNat_add, UInt64.add_assoc]
  rfl

/-- `takeCursor` and the header stores from a clean tail. -/
theorem At.takeHeader {h : FrameHeader} {N : Disk → Prop} (hcur : j.currentPage = tail.page)
    (haddr : j.currentFrameAddress = tail.offset) (he : h.eventTime = 0)
    (hN : Beside tail.page (frontier j l) N) (hfull : log <+: full)
    (hs : At P C tail j l log (fun d => Clean P C tail log d ∧ N d) s)
    (next : ∀ s', At P C tail { j with currentSequence := j.currentSequence + 1 }
      { l with
        frameHeader := tail
        meant := ⟨{ h with sequence := j.currentSequence }, []⟩ } log
      (fun d => Body P C tail log ⟨{ h with sequence := j.currentSequence }, []⟩ d ∧ N d) s' →
        Safe P C full Q rest s') :
    Safe P C full Q (.takeCursor h :: fillHeader h ++ rest) s := by
  have hf := frontier_le (l := l) hcur
  have hgrid := hs.live.grid
  refine hs.step hf ((Clean.framed hf).and hN.framed) hfull fun w hw => ?_
  have hexec : (Stmt.takeCursor h).exec P (w, l) =
      .next (w, { l with frameHeader := tail, meant := ⟨h, []⟩ }) [] := by
    have hw' : w.writer = j := hw.writer
    simp only [Stmt.exec, hw', hcur, haddr]
  refine ⟨_, [], hexec, ?_⟩
  refine At.header (j := j) (l := { l with frameHeader := tail, meant := ⟨h, []⟩ })
    (E := fun d => Body P C tail log ⟨{ h with sequence := j.currentSequence }, []⟩ d ∧ N d) rfl hf
    ((Body.framed hf).and hN.framed) hfull ⟨hw.live, hw.log, hw.writer, rfl, ⟨?_, ?_⟩, hw.ring⟩ next
  · exact hw.extra.1.header he (by omega) _
  · refine hN (d := w.disk) (fun q _ hq => (headerDisk_same hq h _ _).grows) hw.extra.2

/-- Closing the page, once the next one is ready. -/
theorem At.closePage {now : Int64} {n : Nat} (hcur : j.currentPage = tail.page)
    (haddr : j.currentFrameAddress = tail.offset) (hpage : l.load.page = tail.page + 1)
    (hopen : l.load.opened = true) (hn : log.length = n)
    (hseq : j.currentSequence = C.seq + UInt64.ofNat n)
    (hfull : log ++ [⟨tail, pageEndFrame now j.currentSequence, l.thread⟩] <+: full)
    (hs : At P C tail j l log
      (fun d => Clean P C tail log d ∧ Loaded P (C.base (tail.page + 1)) d (tail.page + 1)) s)
    (next : ∀ s', At P C ⟨tail.page + 1, pageHeaderSize⟩
      { j with
        currentSequence := j.currentSequence + 1
        currentPage := tail.page + 1
        currentFrameAddress := pageHeaderSize }
      { l with
        frameHeader := tail
        meant := pageEndFrame now j.currentSequence
        load := { l.load with opened := false } }
      (log ++ [⟨tail, pageEndFrame now j.currentSequence, l.thread⟩])
      (Clean P C ⟨tail.page + 1, pageHeaderSize⟩
        (log ++ [⟨tail, pageEndFrame now j.currentSequence, l.thread⟩])) s' →
      Safe P C full Q rest s') :
    Safe P C full Q (sealPage now ++ rest) s := by
  have hpre : log <+: full := (List.prefix_append ..).trans hfull
  have hfr : frontier j l = tail.page + 1 := frontier_of_opened hcur hpage hopen
  have hbeside : Beside tail.page (frontier j l)
      fun d => Loaded P (C.base (tail.page + 1)) d (tail.page + 1) := by
    rw [hfr]
    exact fun d d' same h => h.grows (same _ (Nat.le_refl _) (by omega))
  rw [show sealPage now ++ rest = .takeCursor (pageEndHeader now) :: fillHeader
    (pageEndHeader now) ++
    (.publish 0 :: .setLastFramePosition :: .swapPage :: rest) from rfl]
  refine hs.takeHeader (h := pageEndHeader now) hcur haddr rfl hbeside hpre fun s hs => ?_
  refine At.publish_pageEnd
    (j := { j with currentSequence := j.currentSequence + 1 })
    (l := { l with frameHeader := tail, meant := pageEndFrame now j.currentSequence }) rfl rfl hcur
    hpage hopen (hn ▸ hseq) hfull hs fun s hs => ?_
  have hle : tail.page + 1 ≤ frontier j l := Nat.le_of_eq hfr.symm
  refine hs.step hle (Clean.framed hle) hfull fun w hw => ?_
  have hready := hw.live.ready (tail.page + 1) hw.live.first_le (Nat.le_refl _)
  have hfirst : firstFrameAddress (w.disk.image l.load.page) = pageHeaderSize := by
    rw [hpage]
    exact hready.header.headerLength
  refine ⟨({ w with writer := { w.writer with
      currentPage := l.load.page
      currentFrameAddress := firstFrameAddress (w.disk.image l.load.page) } }, _), [], rfl,
    next _ ⟨hw.live, hw.log, ?_, rfl, hw.extra, ?_⟩⟩
  · rw [hfirst, hpage, show w.writer = _ from hw.writer]
  · intro g hg i p hp hlt
    refine hw.ring g hg i p hp ?_
    rw [frontier_of_closed rfl] at hlt
    exact hfr.symm ▸ hlt

/-- **Rotation.** -/
theorem At.rotate {now : Int64} (hc : Cursor C tail log.length j) (hclosed : l.load.opened = false)
    (hfull : log ++ [⟨tail, pageEndFrame now j.currentSequence, l.thread⟩] <+: full)
    (hs : At P C tail j l log (Clean P C tail log) s)
    (next : ∀ s' j' l', At P C ⟨tail.page + 1, pageHeaderSize⟩ j' l'
        (log ++ [⟨tail, pageEndFrame now j.currentSequence, l.thread⟩])
        (Clean P C ⟨tail.page + 1, pageHeaderSize⟩
          (log ++ [⟨tail, pageEndFrame now j.currentSequence, l.thread⟩])) s' →
      Cursor C ⟨tail.page + 1, pageHeaderSize⟩ (log.length + 1) j' → l'.load.opened = false →
      Aside j l j' l' → Safe P C full Q rest s') :
    Safe P C full Q (rotatePage now .succeeds ++ rest) s := by
  have hpre : log <+: full := (List.prefix_append ..).trans hfull
  have hf := frontier_le (l := l) hc.page
  refine hs.step hf (Clean.framed hf) hpre fun w hw => ?_
  let j₁ : JournalWriter := { j with currentPageId := tail.page + 1 }
  let l₁ : Local := { l with
    newPageId := tail.page + 1
    load := ⟨tail.page + 1, true, j.prefault, false, 0, false⟩ }
  have hexec : Stmt.bumpPage.exec P (w, l) = .next ({ w with writer := j₁ }, l₁) [] := by
    have hw' : w.writer = j := hw.writer
    simp only [Stmt.exec, hw', hc.pageId, j₁, l₁]
  have hb : Bumped tail j₁ l₁ := ⟨hc.page, rfl, rfl⟩
  refine ⟨_, [], hexec, At.nextPage (j := j₁) (l := l₁) hb (Clean.framed (Nat.le_refl _)) hpre
    ⟨hw.live, hw.log, rfl, rfl, hw.extra, ?_⟩ ?_⟩
  · rw [hb.frontier]
    have hring := hw.ring
    rwa [frontier_of_closed hclosed, hc.page] at hring
  · rintro s' ⟨r, hpage, hopen, hs'⟩
    refine At.closePage (j := j₁) (l := { l₁ with load := r }) hc.page hc.address hpage hopen
      rfl hc.sequence hfull hs' fun s' hs' => next s' _ _ hs' ⟨rfl, rfl, rfl, ?_⟩ rfl
        ⟨rfl, rfl, rfl, rfl, rfl, rfl⟩
    rw [← uint64_succ, ← hc.sequence]

end
end Revoq
