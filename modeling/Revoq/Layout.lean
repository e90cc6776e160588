import Revoq.Reader

/-! # The layout of a journal

What the pages of a journal look like after any number of writes by one session
that started in an empty directory.
-/
namespace Revoq
open ByteImage StmtMachine

/-- A process that is about to construct a writer in an empty directory. -/
def fresh (prefault : Bool) : World × Local := (⟨.empty, .new prefault, [], none⟩, {})

/-- Constructs a writer and makes the writes. -/
def session (ws : List Write) : List Stmt := construct .succeeds 0 ++ ws.flatMap (Write.code false)

theorem mapped_empty (P : PageSize) : Mapped P .empty := fun _ h => by cases h

theorem ctorAt_fresh (P : PageSize) (prefault : Bool) :
    CtorAt P .empty prefault (construct .succeeds 0) (fresh prefault) :=
  .enter ⟨.refl (mapped_empty P), rfl, rfl⟩ rfl rfl

/-- The constructor returns in an empty directory. -/
theorem construct_returns (P : PageSize) (prefault : Bool) :
    ∃ s, Runs (Stmt.exec P) (construct .succeeds 0, fresh prefault) ([], s) ∧
      Idle P (ctxOf P .empty) ⟨1, pageHeaderSize⟩ [] s := by
  obtain ⟨s, hrun, hat⟩ := (ctorAt_fresh P prefault).returns (mapped_empty P)
    (Or.inr fun p h0 hp => absurd hp (Nat.not_le_of_lt h0))
  generalize hcode : ([] : List Stmt) = code at hat
  cases hat with
  | done idle => exact ⟨_, hrun, idle⟩
  | load => simp at hcode
  | _ => cases hcode

/-- A session that started in an empty directory ends `Idle`. -/
theorem session_returns (P : PageSize) (prefault : Bool) {ws : List Write}
    (hws : ∀ w ∈ ws, w.Ok P) :
    ∃ s tail, Runs (Stmt.exec P) (session ws, fresh prefault) ([], s) ∧
      Idle P (ctxOf P .empty) tail s.1.log s := by
  obtain ⟨s₀, hrun, hi⟩ := construct_returns P prefault
  obtain ⟨s, hrun', hi'⟩ := (hi.safe hws rfl).terminates Stable.refl
  have hlog := hi'.state.log
  exact ⟨s, _, Relation.ReflTransGen.trans (hrun.append _) hrun', by rw [hlog]; exact hi'⟩

/-- What such a session has written. -/
theorem session_log (P : PageSize) (prefault : Bool) {ws : List Write} (hws : ∀ w ∈ ws, w.Ok P)
    {s : World × Local} (hrun : Runs (Stmt.exec P) (session ws, fresh prefault) ([], s)) :
    (∃ thread, s.1.log = journal P thread ⟨1, pageHeaderSize⟩ 0 ws) ∧
      ∃ tail, Idle P (ctxOf P .empty) tail s.1.log s := by
  obtain ⟨s₀, hctor, hi⟩ := construct_returns P prefault
  obtain ⟨s', hrun', hi'⟩ := (hi.safe hws rfl).terminates Stable.refl
  obtain rfl := hrun.final_unique (Relation.ReflTransGen.trans (hctor.append _) hrun')
  have hlog := hi'.state.log
  exact ⟨⟨s₀.2.thread, hlog⟩, _, by rw [hlog]; exact hi'⟩

/-- **The layout of a journal's pages.** -/
structure Layout (P : PageSize) (w : World) : Prop where
  /-- Every committed frame stands on disk, on a page up to the current one. -/
  committed : ∀ e ∈ w.log, FrameAt (w.disk.image e.slot.page) e.slot.offset e.frame ∧
    1 ≤ e.slot.page ∧ e.slot.page ≤ w.writer.currentPageId
  first : ∀ p e, (onPage w.log p).head? = some e → e.slot.offset = 64
  aligned : ∀ e ∈ w.log, 64 ∣ e.slot.offset
  abut : ∀ p i e e', (onPage w.log p)[i]? = some e → (onPage w.log p)[i + 1]? = some e' →
    e'.slot.offset = e.slot.offset + framePhysicalLength e.frame.length
  inside : ∀ e ∈ w.log, ¬ e.frame.IsPageEnd →
    e.slot.offset + framePhysicalLength e.frame.length ≤ P.bytes - 64
  /-- A page before the current one ends with its only sentinel. -/
  closed : ∀ p, 1 ≤ p → p < w.writer.currentPageId →
    ∃ init e, onPage w.log p = init ++ [e] ∧ e.frame.IsPageEnd ∧ (∀ x ∈ init, ¬ x.frame.IsPageEnd) ∧
      e.slot.offset ≤ P.bytes - 64 ∧ e.frame.length = 32
  zero : ∀ x, w.writer.currentFrameAddress ≤ x → x < P.bytes →
    w.disk.image w.writer.currentPageId x = 0
  last : ∀ p, 1 ≤ p → p ≤ w.writer.currentPageId →
    lastFramePosition (w.disk.image p) =
      ((onPage w.log p).getLast?.map fun e => e.slot.offset).getD 64
  sequence : ∀ i e, w.log[i]? = some e → e.frame.sequence = UInt64.ofNat i
  nextSequence : w.writer.currentSequence = UInt64.ofNat w.log.length

theorem ctxOf_empty (P : PageSize) : ctxOf P .empty = ⟨1, 0, fun _ => blank, .empty⟩ := rfl

/-- What an `Idle` writer leaves on disk. -/
theorem Idle.layout {P : PageSize} {tail : Slot} {s : World × Local}
    (h : Idle P (ctxOf P .empty) tail s.1.log s) : Layout P s.1 := by
  have hlive := h.state.live
  have hc := h.cursor
  have hmem : ∀ {p e}, e ∈ onPage s.1.log p → e ∈ s.1.log := fun h => (List.mem_filter.mp h).1
  have habut : ∀ p, ∃ o, Abut 64 (onPage s.1.log p) o := by
    intro p
    have hstart : Chained.startOn ⟨1, 64⟩ p = 64 := by rw [Chained.startOn]; split <;> rfl
    rcases Nat.lt_trichotomy p tail.page with hlt | rfl | hgt
    · rcases Nat.eq_zero_or_pos p with rfl | hp
      · exact ⟨64, by rw [hlive.chain.onPage_eq_nil (show 0 < 1 by decide)]; rfl⟩
      · obtain ⟨init, e, o, he, -, -, hab⟩ := hlive.chain.onPage_closed (show 1 ≤ p from hp) hlt
        exact ⟨o, by rw [he]; exact hstart ▸ hab⟩
    · have := hlive.chain.onPage_tail.1
      rw [ctxOf_empty, show pageHeaderSize = 64 from rfl, hstart] at this
      exact ⟨_, this⟩
    · refine ⟨64, ?_⟩
      rw [show onPage s.1.log p = [] from ?_]
      · rfl
      · rw [onPage, List.filter_eq_nil_iff]
        intro e he
        have := hlive.entry_page_le he
        simp only [decide_eq_true_eq]
        omega
  refine ⟨?_, ?_, ?_, ?_, ?_, ?_, ?_, ?_, ?_, ?_⟩
  · intro e he
    exact ⟨hlive.frames e he, hlive.entry_first_le he, hc.pageId ▸ hlive.entry_page_le he⟩
  · intro p e he
    obtain ⟨o, hab⟩ := habut p
    exact hab.head he
  · exact fun e he => (hlive.entry_grid he).1
  · intro p i e e' he he'
    obtain ⟨o, hab⟩ := habut p
    rw [(hlive.placed e (hmem (List.mem_of_getElem? he))).stride_eq]
    exact hab.getElem he he'
  · intro e he hd
    have hw := hlive.placed e he
    have := hw.data hd
    rw [hw.stride_eq]
    omega
  · intro p h1 h2
    rw [hc.pageId] at h2
    obtain ⟨init, e, o, he, hend, hinit, -⟩ := hlive.chain.onPage_closed (show 1 ≤ p from h1) h2
    have hw := hlive.placed e (hmem (p := p) (by rw [he]; simp))
    refine ⟨init, e, he, hend, hinit, ?_, ?_⟩
    · have := (hw.sentinel hend).2
      omega
    · simp [Frame.length, (hw.sentinel hend).1, frameHeaderSize]
  · intro x h1 h2
    rw [hc.address] at h1
    rw [hc.pageId]
    exact h.state.extra.area ⟨h1, h2⟩
  · intro p h1 h2
    exact h.state.extra.lasts p h1 (hc.pageId ▸ h2)
  · intro i e he
    have := hlive.sequence i e he
    rwa [ctxOf_empty, UInt64.zero_add] at this
  · have := hc.sequence
    rwa [ctxOf_empty, UInt64.zero_add] at this

/-- **Page layout.**  After any number of writes by a session that started in an
empty directory, the frames written are the committed ones, sentinels aside, and the
pages are laid out as `Layout` says. -/
theorem page_layout (P : PageSize) (prefault : Bool) (ws : List Write) (hws : ∀ w ∈ ws, w.Ok P) :
    (∃ s, Runs (Stmt.exec P) (session ws, fresh prefault) ([], s)) ∧
      ∀ s, Runs (Stmt.exec P) (session ws, fresh prefault) ([], s) →
        (dataOf s.1.log = ws.map fun w => w.request.frame 0) ∧ Layout P s.1 := by
  obtain ⟨s, -, hrun, -⟩ := session_returns P prefault hws
  refine ⟨⟨s, hrun⟩, fun s hrun => ?_⟩
  obtain ⟨⟨thread, hlog⟩, tail, hi⟩ := session_log P prefault hws hrun
  refine ⟨?_, hi.layout⟩
  rw [hlog]
  exact dataOf_journal hws

/-- A session with a `mark`, an `openData` and a `writeBytes`. -/
theorem page_layout_three :
    ∃ s, Runs (Stmt.exec pageSizeDefault)
      (session [.mark 5 1 7, .data 5 2 8 1 [1, 2, 3] none, .bytes 5 3 9 [4]], fresh true) ([], s) ∧
      ((dataOf s.1.log).map fun f => (f.msgType, f.payload)) = [(7, []), (8, [1, 2, 3]), (9, [4])] ∧
      Layout pageSizeDefault s.1 := by
  obtain ⟨⟨s, hs⟩, h⟩ := page_layout pageSizeDefault true
    [.mark 5 1 7, .data 5 2 8 1 [1, 2, 3] none, .bytes 5 3 9 [4]] (by decide)
  obtain ⟨hdata, hlayout⟩ := h s hs
  exact ⟨s, hs, by rw [hdata]; rfl, hlayout⟩

end Revoq
