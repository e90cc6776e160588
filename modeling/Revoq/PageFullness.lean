import Revoq.LiveReader
import Revoq.Restart

/-! # When a page counts as full

The writer closes a page with a sentinel as soon as the next frame does not fit.
`Page::isFull` asks whether the last frame of the page reaches beyond `addressBorder`,
so it holds for a closed page only if its sentinel stands in the very last slot:
the frames before it have filled the page up to there (`Snug`).
-/
namespace Revoq
open ByteImage StmtMachine

/-- Where the tail is after a frame of this stride. -/
def tailAfter (P : PageSize) (t : Slot) (stride : Nat) : Slot :=
  if Overflows P t stride then ⟨t.page + 1, pageHeaderSize + stride⟩
  else ⟨t.page, t.offset + stride⟩

/-- Whenever a frame does not fit, the frames before it have filled the page up to its
last slot. -/
def Snug (P : PageSize) : Slot → List Nat → Prop
  | _, [] => True
  | t, stride :: strides =>
      (Overflows P t stride → t.offset + frameAlignment = P.bytes) ∧
        Snug P (tailAfter P t stride) strides

instance Snug.decidable (P : PageSize) (t : Slot) (strides : List Nat) :
    Decidable (Snug P t strides) :=
  match strides with
  | [] => isTrue trivial
  | stride :: strides =>
    have := Snug.decidable P (tailAfter P t stride) strides
    inferInstanceAs (Decidable ((_ → _) ∧ _))

/-- `isFull` holds for the pages before the current one, and not for the current one. -/
structure FullWhenClosed (w : World) : Prop where
  closed : ∀ p, 1 ≤ p → p < w.writer.currentPageId → Page.isFull (w.disk.image p)
  current : ¬ Page.isFull (w.disk.image w.writer.currentPageId)

section
variable {P : PageSize} {t : Slot} {seq : UInt64} {rs : List (Nat × Request)}

theorem endOf_place {thread : Nat} {r : Request} (h : r.IsData) :
    endOf t (place P thread t seq r) = tailAfter P t r.stride := by
  rw [place, makeRoom, endOf_append, tailAfter]
  split
  · exact Slot.after_data (h.not_pageEnd _)
  · exact Slot.after_data (h.not_pageEnd _)

/-- **Sentinels in the last slot**: all of them stand there exactly if the frames are
`Snug`. -/
theorem snug_iff (hrs : ∀ r ∈ rs, r.2.IsData) :
    (∀ e ∈ layOut P t seq rs, e.frame.IsPageEnd → e.slot.offset + frameAlignment = P.bytes) ↔
      Snug P t (rs.map fun r => r.2.stride) := by
  induction rs generalizing t seq with
  | nil => exact ⟨fun _ => trivial, fun _ _ he => by cases he⟩
  | cons r rs ih =>
    have hdata := hrs r List.mem_cons_self
    specialize @ih (endOf t (place P r.1 t seq r.2))
      (seq + UInt64.ofNat (place P r.1 t seq r.2).length)
      fun x hx => hrs x (List.mem_cons_of_mem _ hx)
    rw [endOf_place hdata] at ih
    rw [List.map_cons, Snug, ← ih]
    constructor
    · intro h
      refine ⟨fun hover => ?_, fun e he => h e ?_⟩
      · refine h ⟨t, pageEndFrame r.2.now seq, r.1⟩ (List.mem_append_left _ ?_)
          (pageEndFrame_isPageEnd _ _)
        rw [place, makeRoom, if_pos hover]
        simp
      · rw [layOut, endOf_place hdata]
        exact List.mem_append_right _ he
    · rintro ⟨hover, hrest⟩ e he hp
      rw [layOut, endOf_place hdata] at he
      rcases List.mem_append.mp he with he | he
      · rcases List.mem_append.mp he with he | he
        · unfold makeRoom at he
          split at he
          · rename_i hov
            rw [List.mem_singleton.mp he]
            exact hover hov
          · cases he
        · rw [List.mem_singleton.mp he] at hp
          exact absurd hp (hdata.not_pageEnd _)
      · exact hrest e he hp

end

section
variable {P : PageSize} {C : Ctx} {d : Disk} {log : List Entry} {tail : Slot}

/-- `isFull` of a page, by the last frame on it. -/
theorem Live.isFull_iff (h : Live P C d log tail) {e : Entry} (he : e ∈ log)
    (hl : lastFramePosition (d.image e.slot.page) = e.slot.offset) :
    Page.isFull (d.image e.slot.page) ↔ P.bytes < e.slot.offset + e.frame.stride +
      frameAlignment := by
  have hw := h.placed e he
  have hsize : PageField.pageSize.get (d.image e.slot.page) 0 = P.bytes :=
    (h.ready _ (h.entry_first_le he) (h.entry_page_le he)).header.pageSize
  rw [Page.isFull, hl, (h.frames e he).length, hw.stride_eq, Page.addressBorder, hsize,
    decide_eq_true_eq]
  have hroomy := P.roomy
  show e.slot.offset + e.frame.stride > P.bytes - 64 ↔ P.bytes < e.slot.offset + e.frame.stride + 64
  omega

/-- A page that has only data frames is not full. -/
theorem Live.current_not_full (h : Live P C d log tail) (hl : Lasts C log tail.page d)
    (hzero : getFrameLength (d.image tail.page) tail.offset = 0) :
    ¬ Page.isFull (d.image tail.page) := by
  have hlast := hl tail.page h.first_le (Nat.le_refl _)
  obtain ⟨habut, hdata⟩ := h.chain.onPage_tail
  cases hon : (onPage log tail.page).getLast? with
  | none =>
    rw [List.getLast?_eq_none_iff.mp hon] at habut
    have htail : tail.offset = pageHeaderSize := by
      have hstart : Chained.startOn ⟨C.first, pageHeaderSize⟩ tail.page = tail.offset := habut
      rw [← hstart, Chained.startOn]
      split <;> rfl
    rw [lastOn, hon] at hlast
    have hlast' : lastFramePosition (d.image tail.page) = pageHeaderSize := hlast
    have hsize : PageField.pageSize.get (d.image tail.page) 0 = P.bytes :=
      (h.ready _ h.first_le (Nat.le_refl _)).header.pageSize
    rw [htail] at hzero
    rw [Page.isFull, hlast', hzero, Page.addressBorder, hsize, decide_eq_true_eq]
    have hroomy := P.roomy
    have h0 : framePhysicalLength 0 = 0 := by decide
    rw [h0]
    show ¬ 64 + 0 > P.bytes - 64
    omega
  | some e =>
    have hmem := List.mem_of_getLast? hon
    obtain ⟨he, hpage⟩ := List.mem_filter.mp hmem
    have hpage' : e.slot.page = tail.page := by simpa using hpage
    rw [lastOn, hon] at hlast
    have hfull := h.isFull_iff he (by rw [hpage']; exact hlast)
    rw [hpage'] at hfull
    rw [hfull]
    have := (h.placed e he).data (hdata e hmem)
    show ¬ P.bytes < e.slot.offset + e.frame.stride + 64
    omega

/-- **A closed page is full** exactly if its sentinel stands in the last slot. -/
theorem Live.closed_full_iff (h : Live P C d log tail) (hl : Lasts C log tail.page d) :
    (∀ p, C.first ≤ p → p < tail.page → Page.isFull (d.image p)) ↔
      ∀ e ∈ log, e.frame.IsPageEnd → e.slot.offset + frameAlignment = P.bytes := by
  have hsentinel : ∀ e ∈ log, e.frame.IsPageEnd → e.slot.offset + 64 ≤ P.bytes ∧
      e.frame.stride = 64 := by
    intro e he hp
    obtain ⟨hpay, hroom⟩ := (h.placed e he).sentinel hp
    refine ⟨hroom, ?_⟩
    rw [Frame.stride, Frame.length, hpay]
    decide
  have hdvd := P.aligned
  constructor
  · intro hfull e he hp
    -- the sentinel is the last frame of its page
    have hlt : e.slot.page < tail.page := by
      rcases h.chain.before he with hlt | ⟨heq, -⟩
      · exact hlt
      · exact absurd hp (h.chain.onPage_tail.2 e (List.mem_filter.mpr ⟨he, by simpa using heq⟩))
    obtain ⟨init, x, o, hon, hx, hinit, -⟩ := h.chain.onPage_closed (h.entry_first_le he) hlt
    have hmem : e ∈ init ++ [x] := hon ▸ List.mem_filter.mpr ⟨he, by simp⟩
    have hex : e = x := by
      rcases List.mem_append.mp hmem with hm | hm
      · exact absurd hp (hinit e hm)
      · exact List.mem_singleton.mp hm
    have hlast : lastFramePosition (d.image e.slot.page) = e.slot.offset := by
      rw [hl _ (h.entry_first_le he) (Nat.le_of_lt hlt), lastOn, hon, List.getLast?_concat, hex]
      rfl
    have := (h.isFull_iff he hlast).mp (hfull _ (h.entry_first_le he) hlt)
    obtain ⟨hle, hstride⟩ := hsentinel e he hp
    have hgrid := (h.entry_grid he).1
    rw [hstride] at this
    have : P.bytes < e.slot.offset + 64 + 64 := this
    show e.slot.offset + 64 = P.bytes
    omega
  · intro hend p h1 h2
    obtain ⟨init, x, o, hon, hx, -, -⟩ :=
      h.chain.onPage_closed (show (⟨C.first, pageHeaderSize⟩ : Slot).page ≤ p from h1) h2
    have hmem : x ∈ onPage log p := by rw [hon]; simp
    obtain ⟨he, hpage⟩ := List.mem_filter.mp hmem
    have hpage' : x.slot.page = p := by simpa using hpage
    have hlast : lastFramePosition (d.image x.slot.page) = x.slot.offset := by
      rw [hpage', hl p h1 (Nat.le_of_lt h2), lastOn, hon, List.getLast?_concat]
      rfl
    rw [← hpage', h.isFull_iff he hlast, (hsentinel x he hx).2, ← hend x he hx]
    show x.slot.offset + 64 < x.slot.offset + 64 + 64
    omega

end

section
variable {P : PageSize} {d : Disk} {j : Job} {s : World × Local}

/-- What `isFull` says of the pages when a session has made its writes.  Destruction
stores nothing, so this is also what it says between two writes. -/
theorem Job.Reaches.full_iff (hmap : Mapped P d)
    (hzero : ∀ p, lastWritten d < p → WordsZero P (areaOf d p)) (hj : j.Ok P)
    (h : j.Reaches P d ([], s)) :
    FullWhenClosed s.1 ↔ (∀ p, 1 ≤ p → p ≤ lastWritten d → Page.isFull (d.image p)) ∧
      Snug P ⟨lastWritten d + 1, pageHeaderSize⟩ (j.writes.map fun w => w.request.stride) := by
  have hat : Job.At P d j [] s := h.at hmap hj
  obtain ⟨thread, tail, hlog, hi⟩ := hat.ended
  have hlive := hi.state.live
  have hlasts := hi.state.extra.lasts
  have hpage : s.1.writer.currentPageId = tail.page := hi.cursor.pageId
  have hle : lastWritten d + 1 ≤ tail.page := hlive.first_le
  have hsnug : (∀ e ∈ s.1.log, e.frame.IsPageEnd → e.slot.offset + frameAlignment = P.bytes) ↔
      Snug P ⟨lastWritten d + 1, pageHeaderSize⟩ (j.writes.map fun w => w.request.stride) := by
    rw [hlog, Job.plan, journal, snug_iff fun r hr => by
      obtain ⟨w, hw, rfl⟩ := List.mem_map.mp hr
      exact (hj.writes w hw).isData, List.map_map]
    rfl
  rw [← hsnug, ← hlive.closed_full_iff hlasts]
  constructor
  · intro hfull
    constructor
    · intro p h1 h2
      rw [← (hat.kept h2).2]
      exact hfull.closed p h1 (by omega)
    · intro p h1 h2
      have hpos : lastWritten d + 1 ≤ p := h1
      exact hfull.closed p (by omega) (by omega)
  · rintro ⟨hbefore, hclosed⟩
    constructor
    · intro p h1 h2
      -- pages of earlier sessions are as this one found them
      rcases Nat.lt_or_ge (lastWritten d) p with hlt | hge
      · exact hclosed p hlt (by omega)
      · rw [(hat.kept hge).2]
        exact hbefore p h1 hge
    · rw [hpage]
      exact hlive.current_not_full hlasts (hlive.tail_zero hzero)

end

/-- **Fullness of rotated pages.**  After any writes of a session, in whatever directory
it was constructed, `isFull` holds for the pages below the current one and not for the
current one, exactly if it held for the pages the session found, and whenever a frame
did not fit, the frames before it had filled the page up to its last slot. -/
theorem rotated_pages_full (P : PageSize) (d : Disk) (j : Job) (s : World × Local)
    (hmap : Mapped P d) (hzero : ∀ p, lastWritten d < p → WordsZero P (areaOf d p)) (hj : j.Ok P)
    (h : j.Reaches P d ([], s)) :
    FullWhenClosed s.1 ↔ (∀ p, 1 ≤ p → p ≤ lastWritten d → Page.isFull (d.image p)) ∧
      Snug P ⟨lastWritten d + 1, pageHeaderSize⟩ (j.writes.map fun w => w.request.stride) :=
  h.full_iff hmap hzero hj

/-- A frame as large as fits a page. -/
def largeWrite : Write := .bytes 5 1 7 (List.replicate 2096960 0)

theorem largeWrite_stride : largeWrite.request.stride = 2097024 := by
  simp only [Request.stride, Write.request, Write.payload, largeWrite, List.length_replicate]
  decide

theorem largeWrite_ok : largeWrite.Ok pageSizeDefault := by
  refine ⟨by decide, by decide, by decide, ?_⟩
  simp only [Write.payload, largeWrite, List.length_replicate]
  decide

/-- Writes with a rotation, from an empty directory. -/
theorem largeWrite_session {ws : List Write} (hws : ∀ w ∈ ws, w = largeWrite ∨ w = .mark 5 1 7) :
    (⟨true, 0, ws⟩ : Job).Ok pageSizeDefault ∧
      ∃ s, (⟨true, 0, ws⟩ : Job).Reaches pageSizeDefault .empty ([], s) := by
  have hok : (⟨true, 0, ws⟩ : Job).Ok pageSizeDefault := by
    refine ⟨Nat.zero_le _, fun w hw => ?_⟩
    rcases hws w hw with rfl | rfl
    · exact largeWrite_ok
    · decide
  exact ⟨hok, Job.returns (mapped_empty _) hok (Or.inl rfl)⟩

/-- A page that was filled up to its last slot is full after the rotation. -/
theorem rotated_pages_full_two :
    ∃ s, (⟨true, 0, [largeWrite, largeWrite]⟩ : Job).Reaches pageSizeDefault .empty ([], s) ∧
      FullWhenClosed s.1 := by
  obtain ⟨hok, s, h⟩ := @largeWrite_session [largeWrite, largeWrite] (by simp)
  refine ⟨s, h, (rotated_pages_full _ _ _ s (mapped_empty _)
    (fun _ _ => wordsZero_blank _) hok h).mpr ⟨fun p h1 h2 => ?_, ?_⟩⟩
  · exact absurd (Nat.le_trans h1 h2) (by decide)
  · rw [List.map_cons, List.map_cons, largeWrite_stride]
    decide

/-- A page that was left because a large frame did not fit is not. -/
theorem rotated_page_not_full :
    ∃ s, (⟨true, 0, [.mark 5 1 7, largeWrite]⟩ : Job).Reaches pageSizeDefault .empty ([], s) ∧
      ¬ FullWhenClosed s.1 := by
  obtain ⟨hok, s, h⟩ := @largeWrite_session [.mark 5 1 7, largeWrite] (by simp)
  refine ⟨s, h, fun hfull => ?_⟩
  have hsnug := ((h.full_iff (mapped_empty _) (fun _ _ => wordsZero_blank _) hok).mp hfull).2
  rw [List.map_cons, List.map_cons, largeWrite_stride] at hsnug
  exact absurd hsnug (by decide)

end Revoq

