import Mathlib.Data.List.TakeWhile
import Revoq.PageFullness
import Revoq.PageSearch
import Revoq.RestartReading
import Revoq.TimeOrder

/-! # Seeking by time

`Journal::seekToTime` finds a page by its begin time, leaves it again while it is full
and ends before the time, and then walks over the frames from before the time.

The page it finds is the last one that *begins* at or before the time.  A frame with
exactly that time at the end of the page before is behind the reader already, and so
seeking passes frames over if a page boundary runs between frames of the time that is
sought (`Straddles`), and only then.
-/
namespace Revoq
open ByteImage StmtMachine

/-! ## The pages of one session -/

/-- **The contents of a journal**: what one session has left, constructed in an empty
directory.  Its destructor waits for the warmer, so that the page files ahead of the
last page are initialised. -/
structure OneSession (P : PageSize) (d : Disk) (log : List Entry) : Prop where
  session : ∃ (j : Job) (s : World × Local), j.Ok P ∧ j.Reaches P .empty ([], s) ∧
    s.1.disk = d ∧ s.1.log = log
  initialised : ∀ p, (d.size p).isSome → InUse P d p

/-- The same page by page: frames up to `tail`, on each page a data frame first, and
empty pages ahead. -/
structure Paged (P : PageSize) (d : Disk) (log : List Entry) (tail : Slot) : Prop where
  live : Live P (ctxOf P .empty) d log tail
  clean : Clean P (ctxOf P .empty) tail log d
  initialised : ∀ p, (d.size p).isSome → InUse P d p
  sentinels : ∀ e ∈ log, e.frame.IsPageEnd → pageHeaderSize < e.slot.offset
  ends : log ≠ [] → ∃ e ∈ log, e.slot.page = tail.page

/-- The frame loop of `seekToTime` passes the frame over. -/
def Before (time : Int64) (e : Entry) : Bool := decide (e.frame.genTime < time)

/-- The page loop of `seekToTime` leaves the page. -/
def Passed (d : Disk) (time : Int64) (p : Nat) : Prop :=
  Page.isFull (d.image p) ∧ Page.endTime (d.image p) < time

theorem OneSession.paged {P : PageSize} {d : Disk} {log : List Entry} (h : OneSession P d log) :
    ∃ tail, Paged P d log tail := by
  obtain ⟨j, s, hj, hreach, rfl, rfl⟩ := h.session
  obtain ⟨thread, tail, hlog, hi⟩ := (hreach.at (mapped_empty P) hj).ended
  have hlive := hi.state.live
  refine ⟨tail, hlive, hi.state.extra, h.initialised, fun e he hp => ?_, fun hne => ?_⟩
  · rw [hlog] at he
    exact (pageEnd_mem (hj.requests thread) he hp).1
  · have hwrites : j.writes ≠ [] := by
      intro hnil
      rw [hlog, Job.plan, hnil] at hne
      exact hne rfl
    obtain ⟨init, b, hend⟩ := Job.endsWith hj hwrites (hlog ▸ hlive.chain)
    refine ⟨b, by rw [hlog, hend.log]; simp, ?_⟩
    rw [hend.tail, Slot.after_data hend.data]

/-- Where a chain gets to a page. -/
theorem Chained.at_page {s t : Slot} {es : List Entry} (h : Chained s es t) {p : Nat}
    (h1 : s.page ≤ p) (h2 : p ≤ t.page) (hs : p = s.page → s.offset = pageHeaderSize) :
    ∃ pre suf, es = pre ++ suf ∧ Chained s pre ⟨p, pageHeaderSize⟩ ∧
      Chained ⟨p, pageHeaderSize⟩ suf t := by
  rcases Nat.eq_or_lt_of_le h1 with heq | hlt
  · have hslot : s = ⟨p, pageHeaderSize⟩ := by rw [← hs heq.symm, ← heq]
    exact ⟨[], es, rfl, hslot, hslot ▸ h⟩
  · induction es generalizing s with
    | nil =>
      obtain rfl : s = t := h
      omega
    | cons e es ih =>
      obtain ⟨he, htail⟩ := h
      have hnext : (s.after e.frame).page ≤ p ∧
          (p = (s.after e.frame).page → (s.after e.frame).offset = pageHeaderSize) := by
        by_cases hp : e.frame.IsPageEnd
        · rw [Slot.after_pageEnd hp]
          exact ⟨hlt, fun _ => rfl⟩
        · rw [Slot.after_data hp]
          exact ⟨h1, fun heq => absurd heq (Nat.ne_of_gt hlt)⟩
      rcases Nat.eq_or_lt_of_le hnext.1 with heq | hlt'
      · have hslot : s.after e.frame = ⟨p, pageHeaderSize⟩ := by rw [← hnext.2 heq.symm, ← heq]
        exact ⟨[e], es, rfl, ⟨he, hslot⟩, hslot ▸ htail⟩
      · obtain ⟨pre, suf, rfl, hpre, hsuf⟩ := ih htail hnext.1 hnext.2 hlt'
        exact ⟨e :: pre, suf, rfl, ⟨he, hpre⟩, hsuf⟩

section
variable {P : PageSize} {d : Disk} {log : List Entry} {tail : Slot} {time : Int64} {p : Nat}

namespace Paged

theorem readable (h : Paged P d log tail) : Readable P d ⟨1, pageHeaderSize⟩ log tail :=
  h.live.readable fun _ _ => wordsZero_blank P

/-- The frames before a page and those from it on. -/
theorem split (h : Paged P d log tail) (h1 : 1 ≤ p) (h2 : p ≤ tail.page) :
    ∃ pre suf, log = pre ++ suf ∧ Chained ⟨1, pageHeaderSize⟩ pre ⟨p, pageHeaderSize⟩ ∧
      Readable P d ⟨p, pageHeaderSize⟩ suf tail := by
  obtain ⟨pre, suf, rfl, hpre, hsuf⟩ :=
    h.live.chain.at_page (show (⟨1, pageHeaderSize⟩ : Slot).page ≤ p from h1) h2 fun _ => rfl
  exact ⟨pre, suf, rfl, hpre, h.readable.drop hpre⟩

/-- Frames before a page are on earlier pages. -/
theorem page_lt (h : Paged P d log tail) {pre suf : List Entry} (hlog : log = pre ++ suf)
    (hpre : Chained ⟨1, pageHeaderSize⟩ pre ⟨p, pageHeaderSize⟩) {e : Entry} (he : e ∈ pre) :
    e.slot.page < p := by
  have hgrid := (h.live.entry_grid (e := e) (by rw [hlog]; simp [he])).2
  have hpos := e.frame.stride_pos
  rcases hpre.before he with hlt | ⟨-, hle⟩
  · exact hlt
  · have : e.slot.offset + e.frame.stride ≤ 64 := hle
    omega

theorem le_page {s t : Slot} {es : List Entry} (h : Chained s es t) {e : Entry} (he : e ∈ es) :
    s.page ≤ e.slot.page := by
  rcases h.after_start he with hlt | ⟨heq, -⟩
  · exact Nat.le_of_lt hlt
  · exact Nat.le_of_eq heq

/-- The frames from a page on start with a data frame, if there is any frame at all. -/
theorem head (h : Paged P d log tail) (hne : log ≠ []) {pre suf : List Entry}
    (hlog : log = pre ++ suf) (hpre : Chained ⟨1, pageHeaderSize⟩ pre ⟨p, pageHeaderSize⟩)
    (hsuf : Readable P d ⟨p, pageHeaderSize⟩ suf tail) :
    ∃ e suf', suf = e :: suf' ∧ e.slot = ⟨p, pageHeaderSize⟩ ∧ ¬ e.frame.IsPageEnd := by
  cases suf with
  | nil =>
    have htail : (⟨p, pageHeaderSize⟩ : Slot) = tail := hsuf.chain
    obtain ⟨e, he, hpage⟩ := h.ends hne
    have hlt := h.page_lt hlog hpre (e := e) (by simpa [hlog] using he)
    rw [hpage, ← htail] at hlt
    exact absurd hlt (Nat.lt_irrefl p)
  | cons e suf =>
    have hslot : e.slot = ⟨p, pageHeaderSize⟩ := hsuf.chain.1
    refine ⟨e, suf, rfl, hslot, fun hp => ?_⟩
    have := h.sentinels e (by rw [hlog]; simp) hp
    rw [hslot] at this
    exact Nat.lt_irrefl _ this

/-- The first frame of a page up to the tail. -/
theorem first (h : Paged P d log tail) (hne : log ≠ []) (h1 : 1 ≤ p) (h2 : p ≤ tail.page) :
    ∃ pre e suf, log = pre ++ e :: suf ∧ Chained ⟨1, pageHeaderSize⟩ pre ⟨p, pageHeaderSize⟩ ∧
      e.slot = ⟨p, pageHeaderSize⟩ ∧ ¬ e.frame.IsPageEnd := by
  obtain ⟨pre, suf, hlog, hpre, hsuf⟩ := h.split h1 h2
  obtain ⟨e, suf, rfl, hslot, hdata⟩ := h.head hne hlog hpre hsuf
  exact ⟨pre, e, suf, hlog, hpre, hslot, hdata⟩

/-- **How a page before the last one ends**: with a data frame and its sentinel. -/
theorem closing (h : Paged P d log tail) (h1 : 1 ≤ p) (h2 : p < tail.page) :
    ∃ pre a s suf, log = pre ++ a :: s :: suf ∧
      Chained ⟨1, pageHeaderSize⟩ (pre ++ [a, s]) ⟨p + 1, pageHeaderSize⟩ ∧
      Readable P d ⟨p + 1, pageHeaderSize⟩ suf tail ∧
      a.slot.page = p ∧ ¬ a.frame.IsPageEnd ∧ s.slot.page = p ∧ s.frame.IsPageEnd := by
  obtain ⟨init, suf, hlog, hinit, hsuf⟩ := @Paged.split P d log tail (p + 1) h (by omega) h2
  have hmem : ∀ e ∈ init, e ∈ log := fun e he => by rw [hlog]; simp [he]
  obtain ⟨init, s, rfl⟩ := (List.eq_nil_or_concat init).resolve_left fun hnil => by
    subst hnil
    have : (⟨1, pageHeaderSize⟩ : Slot) = ⟨p + 1, pageHeaderSize⟩ := hinit
    have := congrArg Slot.page this
    simp only at this
    omega
  rw [List.concat_eq_append] at *
  obtain ⟨u, hinit', hsu, hafter⟩ := hinit.split
  have hafter : s.slot.after s.frame = ⟨p + 1, pageHeaderSize⟩ := by rw [hsu]; exact hafter
  have hgrid : ∀ e ∈ init ++ [s], 64 ≤ e.slot.offset :=
    fun e he => (h.live.entry_grid (hmem e he)).2
  have hs : s.frame.IsPageEnd := by
    by_contra hdata
    rw [Slot.after_data hdata] at hafter
    have hoff : s.slot.offset + s.frame.stride = 64 := congrArg Slot.offset hafter
    have := s.frame.stride_pos
    have := hgrid s (by simp)
    omega
  have hpage : s.slot.page = p := by
    rw [Slot.after_pageEnd hs] at hafter
    have : s.slot.page + 1 = p + 1 := congrArg Slot.page hafter
    omega
  have hoff := h.sentinels s (hmem s (by simp)) hs
  obtain ⟨init, a, rfl⟩ := (List.eq_nil_or_concat init).resolve_left fun hnil => by
    subst hnil
    have hu : (⟨1, pageHeaderSize⟩ : Slot) = u := hinit'
    rw [hsu, ← hu] at hoff
    exact Nat.lt_irrefl _ hoff
  rw [List.concat_eq_append] at *
  obtain ⟨v, -, hav, hafter'⟩ := hinit'.split
  have hafter' : a.slot.after a.frame = s.slot := by rw [hav, hsu]; exact hafter'
  have ha : ¬ a.frame.IsPageEnd := by
    intro hp
    rw [← hafter', Slot.after_pageEnd hp] at hoff
    exact Nat.lt_irrefl _ hoff
  rw [Slot.after_data ha] at hafter'
  refine ⟨init, a, s, suf, by rw [hlog]; simp, ?_, hsuf, ?_, ha, hpage, hs⟩
  · rw [List.append_assoc] at hinit
    exact hinit
  · rw [← hpage, ← hafter']

end Paged

/-! ## The two loops -/

theorem Reader.current_eq_of_look {r : Reader} {v : FrameView} (h : r.tryCurrentFrame d = some v) :
    r.current d = v := by
  unfold Reader.tryCurrentFrame at h
  split at h
  · exact Option.some.inj h
  · cases h

/-- **The frame loop** stops behind the frames from before the time. -/
theorem Readable.skipFrames {s t : Slot} {es : List Entry} {r : Reader}
    (h : Readable P d s es t) (hr : r.At s) {fuel : Nat} (hfuel : es.length < fuel) :
    ∃ r' slot, r.skipFrames P time fuel d = .ok (d, r') ∧ r'.At slot ∧
      Chained s (es.takeWhile (Before time)) slot := by
  induction es generalizing s r fuel with
  | nil =>
    obtain ⟨fuel, rfl⟩ := Nat.exists_eq_succ_of_ne_zero (Nat.ne_of_gt hfuel)
    have hst : s = t := h.chain
    refine ⟨r, s, ?_, hr, rfl⟩
    rw [Reader.skipFrames, hr.look_none (hst ▸ h.stop), if_neg fun hc => by cases hc.1]
  | cons e es ih =>
    obtain ⟨fuel, rfl⟩ :=
      Nat.exists_eq_succ_of_ne_zero (Nat.ne_of_gt (Nat.lt_of_le_of_lt (Nat.zero_le _) hfuel))
    obtain ⟨hlook, -, r', hadv, hr'⟩ := h.advance hr
    have hslot : e.slot = s := h.chain.1
    have htime : (readHeader (r.image d) r.offset).genTime = e.frame.genTime := by
      have hf := h.frames e List.mem_cons_self
      rw [hr.image, hr.offset, ← hslot, hf.header]
    rw [Reader.skipFrames, hlook, htime]
    by_cases hlt : e.frame.genTime < time
    · rw [if_pos ⟨rfl, hlt⟩, Reader.current_eq_of_look hlook]
      obtain ⟨r'', slot, hskip, hat, hchain⟩ := ih h.tail hr' (Nat.lt_of_succ_lt_succ hfuel)
      refine ⟨r'', slot, ?_, hat, ?_⟩
      · have hnext : r.next P (viewOf e.frame) d = .ok (d, r') := hadv
        rw [hnext]
        exact hskip
      · rw [List.takeWhile_cons_of_pos (show Before time e = true from decide_eq_true hlt)]
        exact ⟨hslot, hchain⟩
    · rw [if_neg fun hc => hlt hc.2, List.takeWhile_cons_of_neg (by simpa [Before] using hlt)]
      exact ⟨r, s, rfl, hr, rfl⟩

/-- The reader on another page, in front of its first frame. -/
def Reader.toPage (r : Reader) (p : Nat) : Reader :=
  { r with page := some p, offset := pageHeaderSize }

theorem Reader.at_toPage (r : Reader) (p : Nat) : (r.toPage p).At ⟨p, pageHeaderSize⟩ := ⟨rfl, rfl⟩

theorem Paged.inUse (h : Paged P d log tail) (h1 : 1 ≤ p) (h2 : p ≤ tail.page) : InUse P d p :=
  h.live.inUse h1 h2

theorem Paged.tail_not_passed (h : Paged P d log tail) : ¬ Passed d time tail.page := fun hp =>
  h.live.current_not_full h.clean.lasts (h.live.tail_zero fun _ _ => wordsZero_blank P) hp.1

/-- **The page loop** goes to the first page it does not leave, the same from anywhere
on a page. -/
theorem Paged.skipPages (h : Paged P d log tail) (h1 : 1 ≤ p) (h2 : p ≤ tail.page) {fuel : Nat}
    (hfuel : tail.page < p + fuel) :
    ∃ q, p ≤ q ∧ q ≤ tail.page ∧ (∀ x, p ≤ x → x < q → Passed d time x) ∧ ¬ Passed d time q ∧
      ∀ r : Reader, r.page = some p →
        r.skipPages P time fuel d = .ok (d, if q = p then r else r.toPage q) := by
  induction fuel generalizing p with
  | zero => omega
  | succ fuel ih =>
    have himage : ∀ r : Reader, r.page = some p → r.image d = d.image p := by
      intro r hr
      rw [Reader.image, hr]
      rfl
    by_cases hpass : Passed d time p
    · -- only the last page is never left
      have hlt : p < tail.page := by
        refine Nat.lt_of_le_of_ne h2 fun heq => ?_
        rw [heq] at hpass
        exact h.tail_not_passed hpass
      obtain ⟨q, hq1, hq2, hall, hq, hskip⟩ := @ih (p + 1) (by omega) hlt (by omega)
      refine ⟨q, by omega, hq2, fun x hx hxq => ?_, hq, fun r hr => ?_⟩
      · rcases Nat.eq_or_lt_of_le hx with rfl | hx
        · exact hpass
        · exact hall x hx hxq
      · have hne : r.page ≠ some (p + 1) := by
          rw [hr]
          exact fun he => absurd (Option.some.inj he) (by omega)
        have hload : r.loadPage P (p + 1) d = .ok (d, r.toPage (p + 1)) :=
          Reader.loadPage_inUse (h.inUse (by omega) hlt) hne
        rw [Reader.skipPages, himage r hr, if_pos (show _ ∧ _ from hpass), hr]
        simp only [Option.getD_some, hload, Except.ok_bind]
        rw [hskip _ rfl, if_neg (show ¬ q = p by omega)]
        split
        · rename_i heq
          rw [heq]
        · rfl
    · refine ⟨p, Nat.le_refl _, h2, fun x hx hxp => absurd hxp (Nat.not_lt.mpr hx),
        hpass, fun r hr => ?_⟩
      rw [Reader.skipPages, himage r hr, if_neg (show ¬ (_ ∧ _) from hpass), if_pos rfl]

theorem Paged.loadPage (h : Paged P d log tail) (h1 : 1 ≤ p) (h2 : p ≤ tail.page) (r : Reader) :
    r.loadPage P p d = .ok (d, if r.page = some p then r else r.toPage p) := by
  split
  · rename_i hp
    rw [Reader.loadPage, if_pos hp]
  · rename_i hp
    exact Reader.loadPage_inUse (h.inUse h1 h2) hp

/-- **`seekToTime` once the page is found**: the frame loop starts in front of a page,
unless the reader is on the page that is found, and that page is not left. -/
theorem Paged.seekToTime_eq (h : Paged P d log tail)
    (hfind : Page.findPageId P time d = .ok (d, p)) (h1 : 1 ≤ p)
    (h2 : p ≤ tail.page) {fuel : Nat} (hfuel : tail.page < p + fuel) :
    ∃ q, p ≤ q ∧ q ≤ tail.page ∧ (∀ x, p ≤ x → x < q → Passed d time x) ∧
      ∀ r : Reader, r.seekToTime P fuel time d =
        (if q = p ∧ r.page = some p then r else r.toPage q).skipFrames P time fuel d := by
  obtain ⟨q, hq1, hq2, hall, -, hskip⟩ := h.skipPages h1 h2 hfuel
  refine ⟨q, hq1, hq2, hall, fun r => ?_⟩
  have hpage : (if r.page = some p then r else r.toPage p).page = some p := by
    split
    · assumption
    · rfl
  rw [Reader.seekToTime, hfind, Except.ok_bind]
  simp only [h.loadPage h1 h2, Except.ok_bind]
  rw [hskip _ hpage, Except.ok_bind]
  by_cases hq : q = p
  · by_cases hp : r.page = some p
    · rw [if_pos hq, if_pos hp, if_pos ⟨hq, hp⟩]
    · rw [if_pos hq, if_neg hp, if_neg fun hc => hp hc.2, hq]
  · have hto : (if r.page = some p then r else r.toPage p).toPage q = r.toPage q := by split <;> rfl
    rw [if_neg hq, hto, if_neg fun hc : q = p ∧ _ => hq hc.1]

/-! ## The page that is found -/

/-- **Times that a seek can rely on**: the user's are positive and do not decrease, and
a sentinel is not stamped before the frame in front of it. -/
structure Dated (log : List Entry) : Prop where
  positive : ∀ e ∈ log, ¬ e.frame.IsPageEnd → 0 < e.frame.genTime
  nondecreasing : (log.filter fun e => e.frame.IsUserData).Pairwise fun a b =>
      a.frame.genTime ≤ b.frame.genTime
  sentinels : ∀ a s, [a, s] <:+: log → s.frame.IsPageEnd → a.frame.genTime ≤ s.frame.genTime

theorem Dated.le {pre suf : List Entry} (hd : Dated (pre ++ suf)) {a b : Entry}
    (ha : a ∈ pre) (hb : b ∈ suf) (ha' : ¬ a.frame.IsPageEnd) (hb' : ¬ b.frame.IsPageEnd) :
    a.frame.genTime ≤ b.frame.genTime := by
  have hp := hd.nondecreasing
  rw [List.filter_append] at hp
  exact (List.pairwise_append.mp hp).2.2 a (List.mem_filter.mpr ⟨ha, decide_eq_true ha'⟩) b
    (List.mem_filter.mpr ⟨hb, decide_eq_true hb'⟩)

/-- The first of some frames is the earliest data frame, if it is one. -/
theorem Dated.head_le {pre suf : List Entry} {a : Entry} (hd : Dated (pre ++ a :: suf)) {b : Entry}
    (hb : b ∈ a :: suf) (ha' : ¬ a.frame.IsPageEnd) (hb' : ¬ b.frame.IsPageEnd) :
    a.frame.genTime ≤ b.frame.genTime := by
  rcases List.mem_cons.mp hb with rfl | hb
  · exact Int64.le_refl _
  · rw [List.append_cons] at hd
    exact hd.le (by simp) hb ha' hb'

theorem beginOf_zero (hu : InUse P d p) (hz : getFrameLength (d.image p) pageHeaderSize = 0) :
    beginOf d p = 0 := by
  have hfirst : firstFrameAddress (d.image p) = pageHeaderSize := hu.ready.header.headerLength
  rw [beginOf, Page.beginTime, hfirst, if_pos hz]

theorem Paged.begin_eq (h : Paged P d log tail) {e : Entry} (he : e ∈ log)
    (hslot : e.slot = ⟨p, pageHeaderSize⟩) :
    beginOf d p = e.frame.genTime := by
  have hu : InUse P d e.slot.page := h.inUse (h.live.entry_first_le he) (h.live.entry_page_le he)
  have hf := h.live.frames e he
  rw [hslot] at hu hf
  have hfirst : firstFrameAddress (d.image p) = pageHeaderSize := hu.ready.header.headerLength
  rw [beginOf, Page.beginTime, hfirst, hf.length,
    if_neg (Nat.ne_of_gt e.frame.length_pos), hf.header]

theorem Paged.begin_ahead (h : Paged P d log tail) (hp : tail.page < p) (hs : (d.size p).isSome) :
    beginOf d p = 0 := by
  have hahead : Ahead P blank d p := h.live.ahead p hp
  have hroomy := P.roomy
  have hword : getFrameLength (d.image p) pageHeaderSize = getFrameLength blank pageHeaderSize :=
    load_congr ((hahead.area hs).mono (Set.Ico_subset_Ico_right (by
      show 64 + 0 + 4 ≤ P.bytes
      omega)))
  exact beginOf_zero (h.initialised p hs) (hword.trans (load_blank ..))

/-- The page files: those of the session, and empty ones ahead. -/
theorem Paged.listPageId (h : Paged P d log tail) :
    ∃ rest, d.listPageId = List.range' 1 tail.page ++ rest ∧ ∀ p ∈ rest, tail.page < p ∧
      (d.size p).isSome := by
  have hsize : ∀ p, 1 ≤ p → p ≤ tail.page → (d.size p).isSome := by
    intro p h1 h2
    obtain ⟨size, hs, -⟩ := (h.inUse h1 h2).ready.size
    rw [hs]
    rfl
  have htop : tail.page ≤ d.top := by
    by_contra hlt
    have := hsize tail.page h.live.first_le (Nat.le_refl _)
    rw [d.absent _ (by omega)] at this
    cases this
  have h0 : d.size 0 = none := (h.live.below 0 (show 0 < 1 by decide)).1
  have hrange : List.range (d.top + 1) =
      0 :: (List.range' 1 tail.page ++ List.range' (1 + tail.page) (d.top - tail.page)) := by
    rw [List.range'_append_1, List.range_eq_range', List.range'_succ]
    congr 2
    omega
  refine ⟨(List.range' (1 + tail.page) (d.top - tail.page)).filter fun p => (d.size p).isSome,
    ?_, fun p hp => ?_⟩
  · rw [Disk.listPageId, hrange, List.filter_cons_of_neg (by simp [h0]), List.filter_append,
      List.filter_eq_self.mpr fun p hp => ?_]
    obtain ⟨h1, h2⟩ := List.mem_range'_1.mp hp
    exact hsize p h1 (by omega)
  · obtain ⟨hp, hs⟩ := List.mem_filter.mp hp
    have := (List.mem_range'_1.mp hp).1
    exact ⟨by omega, hs⟩

theorem Paged.listPageId_cons (h : Paged P d log tail) : ∃ ids, d.listPageId = 1 :: ids := by
  obtain ⟨rest, hids, -⟩ := h.listPageId
  obtain ⟨n, hn⟩ :=
    Nat.exists_eq_succ_of_ne_zero (Nat.ne_of_gt (show 0 < tail.page from h.live.first_le))
  rw [hids, hn, List.range'_succ]
  exact ⟨_, rfl⟩

/-- The pages of a session are in the order of their begin times. -/
theorem Paged.timeOrdered (h : Paged P d log tail) (hd : Dated log) :
    ∃ full empty, TimeOrdered d full empty ∧ full.length ≤ tail.page := by
  obtain ⟨rest, hids, hrest⟩ := h.listPageId
  by_cases hne : log = []
  · refine ⟨[], d.listPageId, ⟨rfl, fun _ hp => (by cases hp), .nil, fun p hp => ?_⟩, Nat.zero_le _⟩
    have htail : (⟨1, pageHeaderSize⟩ : Slot) = tail := by
      have := h.live.chain
      rwa [hne] at this
    rw [hids] at hp
    rcases List.mem_append.mp hp with hp | hp
    · rw [← htail] at hp
      obtain rfl := List.mem_singleton.mp hp
      have hzero := h.live.tail_zero fun _ _ => wordsZero_blank P
      rw [← htail] at hzero
      exact beginOf_zero (h.inUse (Nat.le_refl 1) h.live.first_le) hzero
    · exact h.begin_ahead (hrest p hp).1 (hrest p hp).2
  · have hfirst : ∀ {q}, q ∈ List.range' 1 tail.page → ∃ pre e suf, log = pre ++ e :: suf ∧
        Chained ⟨1, pageHeaderSize⟩ pre ⟨q, pageHeaderSize⟩ ∧ e.slot = ⟨q, pageHeaderSize⟩ ∧
        ¬ e.frame.IsPageEnd ∧ beginOf d q = e.frame.genTime := by
      intro q hq
      obtain ⟨h1, h2⟩ := List.mem_range'_1.mp hq
      obtain ⟨pre, e, suf, hlog, hpre, hslot, hdata⟩ :=
        @Paged.first P d log tail q h hne h1 (by omega)
      exact ⟨pre, e, suf, hlog, hpre, hslot, hdata, h.begin_eq (by rw [hlog]; simp) hslot⟩
    refine ⟨List.range' 1 tail.page, rest, ⟨hids, fun q hq => ?_, ?_, fun q hq => ?_⟩, by simp⟩
    · obtain ⟨pre, e, suf, hlog, -, -, hdata, hbegin⟩ := hfirst hq
      rw [hbegin]
      exact hd.positive e (by rw [hlog]; simp) hdata
    · refine List.Pairwise.imp_of_mem (fun {p q} hp hq hlt => ?_) List.pairwise_lt_range'
      obtain ⟨pre, a, suf, hlog, -, ha, hadata, hbegin⟩ := hfirst hp
      obtain ⟨pre', b, suf', hlog', hpre', hb, hbdata, hbegin'⟩ := hfirst hq
      rw [hbegin, hbegin']
      -- the first frame of the earlier page stands in front of the later page
      have hmem : a ∈ pre' := by
        have : a ∈ pre' ++ b :: suf' := by rw [← hlog', hlog]; simp
        refine (List.mem_append.mp this).resolve_right fun hmem => ?_
        have hchain := h.live.chain
        rw [hlog'] at hchain
        obtain ⟨u, -, hsuf⟩ := hchain.split
        have hle := Paged.le_page hsuf hmem
        rw [← hsuf.1, hb, ha] at hle
        exact absurd hle (Nat.not_le.mpr hlt)
      rw [hlog'] at hd
      exact hd.le hmem (by simp) hadata hbdata
    · exact h.begin_ahead (hrest q hq).1 (hrest q hq).2

/-- **The page that is found**: the last one that begins at or before the time, or the
first one. -/
theorem Paged.found (h : Paged P d log tail) (hd : Dated log) (time : Int64) :
    ∃ k, k ≤ tail.page ∧ Page.findPageId P time d = .ok (d, max 1 k) ∧
      ∀ q, 1 ≤ q → q ≤ tail.page → (Early d time q ↔ q ≤ k) := by
  obtain ⟨full, empty, hord, hlen⟩ := h.timeOrdered hd
  obtain ⟨k, hc, hk⟩ := hord.cutoff time
  obtain ⟨ids, hcons⟩ := h.listPageId_cons
  obtain ⟨rest, hids, hrest⟩ := h.listPageId
  have hat : ∀ i, i < tail.page → d.listPageId[i]? = some (1 + i) := by
    intro i hi
    rw [hids, List.getElem?_append_left (by simpa using hi), List.getElem?_range' hi]
    simp
  have hearly : ∀ q, 1 ≤ q → q ≤ tail.page → (Early d time q ↔ q ≤ k) := by
    intro q h1 h2
    rw [hc.early (q - 1) q (by rw [hat _ (by omega)]; congr 1; omega)]
    omega
  refine ⟨k, by omega, ?_, hearly⟩
  by_cases htime : time = 0
  · -- at time 0 no page is early, and the first one is taken without a search
    obtain rfl : k = 0 := by
      by_contra hne
      have hlt : 0 < full.length := by omega
      have hfirst : d.listPageId[0]? = some full[0] := by
        rw [hord.ids, List.getElem?_append_left hlt, List.getElem?_eq_getElem hlt]
      have hle := ((hc.early 0 _ hfirst).mpr (by omega)).2
      rw [htime] at hle
      exact Int64.not_lt.mpr hle (hord.begun _ (List.getElem_mem hlt))
    rw [Page.findPageId, hcons]
    simp only [if_pos htime]
    rfl
  · have hload : ∀ p ∈ d.listPageId, Loads P d p :=
      fun p hp => (h.initialised p (List.mem_filter.mp hp).2).loads
    rw [findPageId_eq hcons htime hc hload]
    split
    · rename_i h0
      rw [h0]
      rfl
    · rename_i h0
      rw [List.getD_eq_getElem?_getD, hat (k - 1) (by omega), Option.getD_some]
      congr 2
      omega

/-! ## What is behind the reader, and what is in front of it -/

/-- A page that is left ends with its sentinel's time. -/
theorem Paged.endTime_eq (h : Paged P d log tail) {pre suf : List Entry} {s : Entry}
    (hlog : log = pre ++ s :: suf) (hsuf : Chained ⟨s.slot.page + 1, pageHeaderSize⟩ suf tail) :
    Page.endTime (d.image s.slot.page) = s.frame.genTime := by
  have hs : s ∈ log := by rw [hlog]; simp
  have hlast : lastFramePosition (d.image s.slot.page) = s.slot.offset := by
    have hnone : onPage suf s.slot.page = [] := hsuf.onPage_eq_nil (Nat.lt_succ_self _)
    have hon : onPage log s.slot.page = onPage pre s.slot.page ++ [s] := by
      rw [hlog, onPage, List.filter_append, List.filter_cons_of_pos (by simp)]
      exact congrArg (fun l => onPage pre s.slot.page ++ s :: l) hnone
    rw [h.clean.lasts _ (h.live.entry_first_le hs) (h.live.entry_page_le hs), lastOn, hon,
      List.getLast?_concat]
    rfl
  have hf := h.live.frames s hs
  rw [Page.endTime, hlast, hf.length, if_neg (Nat.ne_of_gt s.frame.length_pos), hf.header]

/-- What is on a page that is left was before the time. -/
theorem Paged.passed_before (h : Paged P d log tail) (hd : Dated log) {e : Entry} (he : e ∈ log)
    (hdata : ¬ e.frame.IsPageEnd) (hlt : e.slot.page < tail.page)
    (hpass : Passed d time e.slot.page) :
    e.frame.genTime < time := by
  obtain ⟨pre, a, s, suf, hlog, -, hsuf, -, hadata, hspage, hs⟩ :=
    h.closing (h.live.entry_first_le he) hlt
  have hend : Page.endTime (d.image e.slot.page) = s.frame.genTime := by
    have := @Paged.endTime_eq P d log tail h (pre ++ [a]) suf s (by rw [hlog]; simp)
      (hspage.symm ▸ hsuf.chain)
    rwa [hspage] at this
  have hea : e.frame.genTime ≤ a.frame.genTime := by
    have hmem := he
    rw [hlog] at hmem hd
    rcases List.mem_append.mp hmem with hmem | hmem
    · exact hd.le hmem List.mem_cons_self hdata hadata
    · rcases List.mem_cons.mp hmem with rfl | hmem
      · exact Int64.le_refl _
      · rcases List.mem_cons.mp hmem with rfl | hmem
        · exact absurd hs hdata
        · have := Paged.le_page hsuf.chain hmem
          simp only at this
          omega
  have has : a.frame.genTime ≤ s.frame.genTime := hd.sentinels a s ⟨pre, suf, by rw [hlog]; simp⟩ hs
  have hpass := hpass.2
  rw [hend] at hpass
  exact Int64.lt_of_le_of_lt (Int64.le_trans hea has) hpass

/-- **What a seek finds**: the pages that begin at or before the time are the first `k`
ones; the frames behind the reader with the time or a later one are on earlier pages
than the `k`th, and no data frame in front of it is from before the time. -/
structure Sought (time : Int64) (d : Disk) (tail : Slot) (k : Nat)
    (pre rest : List Entry) : Prop where
  le : k ≤ tail.page
  early : ∀ q, 1 ≤ q → q ≤ tail.page → (Early d time q ↔ q ≤ k)
  behind : ∀ e ∈ pre, ¬ e.frame.IsPageEnd → time ≤ e.frame.genTime → e.slot.page < k
  page : ∀ e ∈ rest, k ≤ e.slot.page
  due : ∀ e ∈ rest, ¬ e.frame.IsPageEnd → time ≤ e.frame.genTime

/-- A data frame on a page that begins too late is late itself. -/
theorem Paged.late (h : Paged P d log tail) (hd : Dated log) {e : Entry} (he : e ∈ log)
    (hdata : ¬ e.frame.IsPageEnd) (hlate : ¬ Early d time e.slot.page) :
    time ≤ e.frame.genTime := by
  obtain ⟨pre, b, suf, hlog, hpre, hslot, hbdata⟩ :=
    h.first (List.ne_nil_of_mem he) (h.live.entry_first_le he) (h.live.entry_page_le he)
  have hb : b ∈ log := by rw [hlog]; simp
  have hbegin := h.begin_eq hb hslot
  have hlt : time < b.frame.genTime := by
    refine Int64.not_le.mp fun hle => hlate ⟨fun h0 => ?_, by rw [hbegin]; exact hle⟩
    have hpos := hd.positive b hb hbdata
    rw [← hbegin, h0] at hpos
    exact absurd hpos (by decide)
  have hmem : e ∈ b :: suf := by
    have hmem := he
    rw [hlog] at hmem
    refine (List.mem_append.mp hmem).resolve_left fun hmem => ?_
    exact Nat.lt_irrefl _ (h.page_lt hlog hpre hmem)
  rw [hlog] at hd
  exact Int64.le_trans (Int64.le_of_lt hlt) (hd.head_le hmem hbdata hdata)

theorem takeWhile_before {es : List Entry} {e : Entry} (he : e ∈ es.takeWhile (Before time)) :
    e.frame.genTime < time := by
  have hbefore : Before time e = true := List.mem_takeWhile_imp he
  exact of_decide_eq_true hbefore

/-- **`join` at a time**, with enough turns for its loops. -/
theorem Paged.seek (h : Paged P d log tail) (hd : Dated log) (time : Int64)
    (prefault : Bool) {fuel : Nat} (hfuel : tail.page + log.length < fuel) :
    ∃ k pre rest slot r, log = pre ++ rest ∧ Reader.join P fuel prefault time d =
      .ok (d, r) ∧ r.At slot ∧
      Readable P d slot rest tail ∧ Sought time d tail k pre rest := by
  obtain ⟨k, hk, hfind, hearly⟩ := h.found hd time
  have hpos : 1 ≤ tail.page := h.live.first_le
  obtain ⟨q, hq1, hq2, hall, hseek⟩ :=
    @Paged.seekToTime_eq P d log tail time (max 1 k) h hfind (by omega) (by omega) fuel (by omega)
  have hnew := hseek { prefault }
  rw [if_neg fun hc => by cases hc.2] at hnew
  obtain ⟨pre, suf, hlog, hpre, hsuf⟩ := @Paged.split P d log tail q h (by omega) hq2
  have hlen : suf.length < fuel := by
    rw [hlog, List.length_append] at hfuel
    omega
  obtain ⟨r, slot, hframes, hr, htake⟩ := hsuf.skipFrames (Reader.at_toPage { prefault } q) hlen
  have happ : suf.takeWhile (Before time) ++ suf.dropWhile (Before time) = suf :=
    List.takeWhile_append_dropWhile
  have hmem : ∀ e ∈ suf, e ∈ log := fun e he => by rw [hlog]; simp [he]
  have hpage : ∀ e ∈ suf, q ≤ e.slot.page := fun e he => Paged.le_page hsuf.chain he
  have hdrop : ∀ e ∈ suf.dropWhile (Before time), e ∈ suf :=
    fun e he => (List.dropWhile_sublist _).subset he
  refine ⟨k, pre ++ suf.takeWhile (Before time), suf.dropWhile (Before time), slot,
    r, ?_, ?_, hr, ?_, hk, hearly, ?_, ?_, ?_⟩
  · rw [List.append_assoc, happ, hlog]
  · exact hnew.trans hframes
  · exact Readable.drop (happ.symm ▸ hsuf) htake
  · intro e he hdata hge
    rcases List.mem_append.mp he with he | he
    · have hlt := h.page_lt hlog hpre he
      have hmem : e ∈ log := by rw [hlog]; simp [he]
      have hone : 1 ≤ e.slot.page := h.live.entry_first_le hmem
      by_contra hle
      have hpass := hall e.slot.page (by omega) hlt
      exact Int64.not_lt.mpr hge (h.passed_before hd hmem hdata (by omega) hpass)
    · exact absurd (takeWhile_before he) (Int64.not_lt.mpr hge)
  · intro e he
    have := hpage e (hdrop e he)
    omega
  · intro e he hdata
    have hin := hdrop e he
    have hle := hpage e hin
    by_cases hlate : Early d time e.slot.page
    · -- then it is on page `k`, behind the frame where the loop has stopped
      have hek : e.slot.page ≤ k :=
        (hearly _ (h.live.entry_first_le (hmem e hin)) (h.live.entry_page_le (hmem e hin))).mp hlate
      cases hrest : suf.dropWhile (Before time) with
      | nil => rw [hrest] at he; cases he
      | cons f rest =>
        have hf : ¬ f.frame.genTime < time := by
          have := List.head_dropWhile_not (Before time) (l := suf) (w := by rw [hrest]; simp)
          simpa [hrest, Before] using this
        rw [hrest] at he
        by_cases hfdata : f.frame.IsPageEnd
        · exfalso
          rcases List.mem_cons.mp he with rfl | he
          · exact hdata hfdata
          · have hchain := (Readable.drop (happ.symm ▸ hsuf) htake).chain
            rw [hrest] at hchain
            have hnext := Paged.le_page hchain.2 he
            have hfpage := hpage f (hdrop f (by rw [hrest]; simp))
            rw [← hchain.1, Slot.after_pageEnd hfdata] at hnext
            have : f.slot.page + 1 ≤ e.slot.page := hnext
            omega
        · have hlog' : log = (pre ++ suf.takeWhile (Before time)) ++ f :: rest := by
            rw [← hrest, List.append_assoc, happ, hlog]
          rw [hlog'] at hd
          exact Int64.le_trans (Int64.not_lt.mp hf) (hd.head_le he hfdata hdata)
    · exact h.late hd (hmem e hin) hdata hlate

/-! ## Frames on both sides of a page boundary -/

/-- A page boundary runs between frames of this time. -/
def Straddles (log : List Entry) (time : Int64) : Prop :=
  ∃ a s b, [a, s, b] <:+: log ∧ s.frame.IsPageEnd ∧ a.frame.genTime = time ∧ b.frame.genTime = time

/-- **Frames of the time are passed over** exactly if a page boundary runs between such
frames. -/
theorem Sought.passed_iff {k : Nat} {pre rest : List Entry} (hs : Sought time d tail k pre rest)
    (h : Paged P d log tail) (hd : Dated log) (hlog : log = pre ++ rest) :
    (∃ e ∈ pre, ¬ e.frame.IsPageEnd ∧ time ≤ e.frame.genTime) ↔ Straddles log time := by
  constructor
  · rintro ⟨e, he, hdata, hge⟩
    have hmem : e ∈ log := by rw [hlog]; simp [he]
    have hlt := hs.behind e he hdata hge
    have hone : 1 ≤ e.slot.page := h.live.entry_first_le hmem
    -- page `k` is early, and the page before it ends with a frame at least as late as `e`
    obtain ⟨front, a, s, suf, hlog', hfront, hsuf, -, hadata, -, hsend⟩ :=
      @Paged.closing P d log tail (k - 1) h (by omega) (by have := hs.le; omega)
    rw [show k - 1 + 1 = k by omega] at hfront hsuf
    have hsplit : log = (front ++ [a, s]) ++ suf := by rw [hlog']; simp
    obtain ⟨b, suf, rfl, hslot, hbdata⟩ := h.head (List.ne_nil_of_mem hmem) hsplit hfront hsuf
    have hb : b.frame.genTime ≤ time := by
      have hearly := (hs.early k (by omega) hs.le).mpr (Nat.le_refl k)
      rw [← h.begin_eq (e := b) (by rw [hsplit]; simp) hslot]
      exact hearly.2
    have hab : a.frame.genTime ≤ b.frame.genTime := by
      rw [hsplit] at hd
      exact hd.le (by simp) List.mem_cons_self hadata hbdata
    have hea : e.frame.genTime ≤ a.frame.genTime := by
      have hin : e ∈ front ++ [a, s] := by
        rw [hsplit] at hmem
        refine (List.mem_append.mp hmem).resolve_right fun hin => ?_
        exact Nat.not_le.mpr hlt (Paged.le_page hsuf.chain hin)
      rcases List.mem_append.mp hin with hin | hin
      · rw [hlog'] at hd
        exact hd.le hin List.mem_cons_self hdata hadata
      · rcases List.mem_cons.mp hin with rfl | hin
        · exact Int64.le_refl _
        · rw [List.mem_singleton.mp hin] at hdata
          exact absurd hsend hdata
    refine ⟨a, s, b, ⟨front, suf, by rw [hsplit]; simp⟩, hsend, ?_, ?_⟩
    · exact Int64.le_antisymm (Int64.le_trans hab hb) (Int64.le_trans hge hea)
    · exact Int64.le_antisymm hb (Int64.le_trans hge (Int64.le_trans hea hab))
  · rintro ⟨a, s, b, ⟨front, suf, hinfix⟩, hsend, ha, hb⟩
    have hmem : ∀ x ∈ [a, s, b], x ∈ log := fun x hx => by
      rw [← hinfix]
      exact List.mem_append_left _ (List.mem_append_right _ hx)
    have hchain := h.live.chain
    rw [← hinfix, List.append_assoc] at hchain
    obtain ⟨u, -, hau, hsu, hbu, -⟩ := hchain.split
    have hadata : ¬ a.frame.IsPageEnd := by
      intro hp
      have := h.sentinels s (hmem s (by simp)) hsend
      rw [hsu, Slot.after_pageEnd hp] at this
      exact Nat.lt_irrefl _ this
    have hslot : b.slot = ⟨a.slot.page + 1, pageHeaderSize⟩ := by
      rw [hbu, Slot.after_pageEnd hsend, Slot.after_data hadata, hau]
    have hbdata : ¬ b.frame.IsPageEnd := by
      intro hp
      have := h.sentinels b (hmem b (by simp)) hp
      rw [hslot] at this
      exact Nat.lt_irrefl _ this
    have hearly : Early d time (a.slot.page + 1) := by
      have hpos := hd.positive b (hmem b (by simp)) hbdata
      rw [Early, h.begin_eq (hmem b (by simp)) hslot, ← hb]
      refine ⟨fun h0 => ?_, Int64.le_refl _⟩
      rw [h0] at hpos
      exact absurd hpos (by decide)
    have hle := h.live.entry_page_le (hmem b (by simp))
    rw [hslot] at hle
    have hlt : a.slot.page + 1 ≤ k :=
      (hs.early (a.slot.page + 1) (Nat.le_add_left ..) hle).mp hearly
    have hin := hmem a (by simp)
    rw [hlog] at hin
    refine ⟨a, (List.mem_append.mp hin).resolve_right fun hrest => ?_,
      hadata, by rw [ha]; exact Int64.le_refl _⟩
    have := hs.page a hrest
    omega

end

/-! ## What a seek delivers -/

/-- The frames the user asked for. -/
def userData (fs : List Frame) : List Frame := fs.filter fun f => f.IsUserData

/-- **A seek skips nothing**: with enough turns, `join` at the time returns, and draining
delivers, sentinels aside, first the first frame that is not from before the time, and
all such frames and no other ones. -/
def SeeksExactly (P : PageSize) (prefault : Bool) (time : Int64) (d : Disk)
    (log : List Entry) : Prop :=
  ∃ n, ∀ fuel, n ≤ fuel → ∃ d' r fs, Reader.join P fuel prefault time d = .ok (d', r) ∧
    r.drain P fuel d' = .ok fs ∧
    (userData fs).head? = (userData (log.map Entry.frame)).find? (fun f => time ≤ f.genTime) ∧
    userData fs = (userData (log.map Entry.frame)).filter fun f => time ≤ f.genTime

section
variable {P : PageSize} {d : Disk} {log : List Entry} {tail : Slot} {time : Int64}

/-- All that is due is delivered exactly if nothing that is due is behind the reader. -/
theorem Sought.delivers_iff {k : Nat} {pre rest : List Entry} (hs : Sought time d tail k pre rest)
    (hlog : log = pre ++ rest) :
    userData (rest.map Entry.frame) =
      ((userData (log.map Entry.frame)).filter fun f => time ≤ f.genTime) ↔
      ¬ ∃ e ∈ pre, ¬ e.frame.IsPageEnd ∧ time ≤ e.frame.genTime := by
  have hrest : (userData (rest.map Entry.frame)).filter (fun f => time ≤ f.genTime) =
      userData (rest.map Entry.frame) := by
    refine List.filter_eq_self.mpr fun f hf => ?_
    obtain ⟨hf, hdata⟩ := List.mem_filter.mp hf
    obtain ⟨e, he, rfl⟩ := List.mem_map.mp hf
    exact decide_eq_true (hs.due e he (of_decide_eq_true hdata))
  have hsplit : (userData (log.map Entry.frame)).filter (fun f => time ≤ f.genTime) =
      (userData (pre.map Entry.frame)).filter (fun f => time ≤ f.genTime) ++
      userData (rest.map Entry.frame) := by
    rw [hlog, List.map_append, userData, List.filter_append, List.filter_append]
    exact congrArg _ hrest
  rw [hsplit, eq_comm, List.append_left_eq_self, List.filter_eq_nil_iff]
  constructor
  · rintro hnone ⟨e, he, hdata, hge⟩
    exact hnone e.frame (List.mem_filter.mpr ⟨List.mem_map_of_mem he, decide_eq_true hdata⟩)
      (decide_eq_true hge)
  · intro hnone f hf hge
    obtain ⟨hf, hdata⟩ := List.mem_filter.mp hf
    obtain ⟨e, he, rfl⟩ := List.mem_map.mp hf
    exact hnone ⟨e, he, of_decide_eq_true hdata, of_decide_eq_true hge⟩

theorem Paged.seeksExactly_iff (h : Paged P d log tail) (hd : Dated log) (prefault : Bool) :
    SeeksExactly P prefault time d log ↔ ¬ Straddles log time := by
  constructor
  · rintro ⟨n, hn⟩
    obtain ⟨k, pre, rest, slot, r, hlog, hjoin, hr, hread, hs⟩ := @Paged.seek P d log tail h hd time
      prefault (max n (tail.page + log.length + 1)) (by omega)
    have hlen : rest.length < max n (tail.page + log.length + 1) := by
      have := congrArg List.length hlog
      rw [List.length_append] at this
      omega
    obtain ⟨d', r', fs, hjoin', hdrain, -, hall⟩ := hn _ (Nat.le_max_left ..)
    cases hjoin.symm.trans hjoin'
    cases (hread.drain hr hlen).symm.trans hdrain
    rw [← hs.passed_iff h hd hlog]
    exact (hs.delivers_iff hlog).mp hall
  · intro hnot
    refine ⟨tail.page + log.length + 1, fun fuel hfuel => ?_⟩
    obtain ⟨k, pre, rest, slot, r, hlog, hjoin, hr, hread, hs⟩ := @Paged.seek P d log tail h hd time
      prefault fuel (by omega)
    have hlen : rest.length < fuel := by
      have := congrArg List.length hlog
      rw [List.length_append] at this
      omega
    rw [← hs.passed_iff h hd hlog] at hnot
    have hall := (hs.delivers_iff hlog).mpr hnot
    refine ⟨d, r, _, hjoin, hread.drain hr hlen, ?_, hall⟩
    rw [hall, List.head?_filter]

end

/-- **Seeking skips nothing but what straddles a page boundary.**  For a journal that one
session has written, with times that are positive and do not decrease, and sentinels
that are not stamped before the frame in front of them: a reader that joins at a time
delivers exactly the data frames that are not from before it, if and only if no page
boundary runs between two data frames of that very time. -/
theorem seek_skips_nothing (P : PageSize) (prefault : Bool) (d : Disk)
    (log : List Entry) (time : Int64) (h : OneSession P d log) (hd : Dated log) :
    SeeksExactly P prefault time d log ↔ ¬ Straddles log time := by
  obtain ⟨tail, hp⟩ := h.paged
  exact hp.seeksExactly_iff hd prefault

/-! ## Sessions to try it on -/

/-- What a session without a warmer leaves. -/
theorem oneSession_of_unwarmed {P : PageSize} {j : Job} {s : World × Local} (hj : j.Ok P)
    (h0 : j.warmupPages = 0) (h : j.Reaches P .empty ([], s)) : OneSession P s.1.disk s.1.log := by
  refine ⟨⟨j, s, hj, h, rfl, rfl⟩, fun p hp => ?_⟩
  obtain ⟨thread, tail, -, hi⟩ := (h.at (mapped_empty P) hj).ended
  have hlive := hi.state.live
  have htop : s.1.disk.top ≤ tail.page := by
    rw [← hi.cursor.pageId]
    rcases h.noneAhead h0 with heq | ⟨hn, -⟩
    · have hcode : [] = j.code := congrArg Prod.fst heq
      cases hcode
    · exact hn.top
  have hle : p ≤ tail.page := by
    by_contra hgt
    rw [s.1.disk.absent p (by omega)] at hp
    cases hp
  have hone : 1 ≤ p := by
    by_contra hlt
    obtain rfl : p = 0 := by omega
    rw [(hlive.below 0 (show 0 < 1 by decide)).1] at hp
    cases hp
  exact hlive.inUse hone hle

/-- A session with a frame of time 1 and one of time 3. -/
theorem twoWrites_oneSession :
    ∃ (s : World × Local) (thread : Nat), twoWrites.Reaches pageSizeDefault .empty ([], s) ∧
      OneSession pageSizeDefault s.1.disk s.1.log ∧
      s.1.log = [⟨⟨1, 64⟩, (Write.mark 5 1 7).request.frame 0, thread⟩,
        ⟨⟨1, 128⟩, (Write.bytes 5 3 9 [4]).request.frame 1, thread⟩] := by
  have hok : twoWrites.Ok pageSizeDefault := by decide
  obtain ⟨s, h⟩ := Job.returns (mapped_empty _) hok (Or.inl rfl)
  obtain ⟨thread, tail, hlog, -⟩ := (h.at (mapped_empty _) hok).ended
  refine ⟨s, thread, h, oneSession_of_unwarmed hok rfl h, ?_⟩
  rw [hlog]
  exact twoWrites_plan thread

/-- At time 2 such a journal is read from its second frame on. -/
theorem seek_skips_nothing_two :
    ∃ s : World × Local, twoWrites.Reaches pageSizeDefault .empty ([], s) ∧
      SeeksExactly pageSizeDefault false 2 s.1.disk s.1.log := by
  obtain ⟨s, thread, h, hone, hlog⟩ := twoWrites_oneSession
  have hdata : ∀ e ∈ s.1.log, ¬ e.frame.IsPageEnd ∧ 0 < e.frame.genTime := by
    intro e he
    have hall : ∀ f ∈ [(Write.mark 5 1 7).request.frame 0, (Write.bytes 5 3 9 [4]).request.frame 1],
        ¬ f.IsPageEnd ∧ 0 < f.genTime := by decide
    refine hall e.frame ?_
    have := List.mem_map_of_mem (f := Entry.frame) he
    rwa [hlog] at this
  have hmem : ∀ {es : List Entry} {e : Entry}, es <:+: s.1.log → e ∈ es → e ∈ s.1.log :=
    fun hin he => hin.subset he
  refine ⟨s, h, (seek_skips_nothing pageSizeDefault false _ _ 2 hone
    ⟨fun e he _ => (hdata e he).2, ?_, ?_⟩).mpr ?_⟩
  · have hall : (s.1.log.filter fun e => e.frame.IsUserData) = s.1.log :=
      List.filter_eq_self.mpr fun e he => decide_eq_true (hdata e he).1
    have hle : ((Write.mark 5 1 7).request.frame 0).genTime ≤
        ((Write.bytes 5 3 9 [4]).request.frame 1).genTime := by
      decide
    rw [hall, hlog]
    exact List.pairwise_pair.mpr hle
  · intro a x hin hx
    exact absurd hx (hdata x (hmem hin (by simp))).1
  · rintro ⟨a, x, b, hin, hx, -⟩
    exact (hdata x (hmem hin (by simp))).1 hx

/-- A frame of time 2 that fills its page. -/
def tiedWrite : Write := .bytes 5 2 7 (List.replicate 2096960 0)

/-- With a frame of time 2 at the end of a page and another one on the next page, a
reader that joins at time 2 does not deliver the first one. -/
theorem seek_skips_tied :
    ∃ s : World × Local, (⟨true, 0, [tiedWrite, .mark 100 2 7]⟩ : Job).Reaches pageSizeDefault
      .empty ([], s) ∧
      OneSession pageSizeDefault s.1.disk s.1.log ∧ Dated s.1.log ∧
      ¬ SeeksExactly pageSizeDefault false 2 s.1.disk s.1.log := by
  have hstride : tiedWrite.request.stride = 2097024 := by
    simp only [Request.stride, Write.request, Write.payload, tiedWrite, List.length_replicate]
    decide
  have htied : tiedWrite.Ok pageSizeDefault := by
    refine ⟨by decide, by decide, by decide, ?_⟩
    simp only [Write.payload, tiedWrite, List.length_replicate]
    decide
  have hok : (⟨true, 0, [tiedWrite, .mark 100 2 7]⟩ : Job).Ok pageSizeDefault := by
    refine ⟨Nat.zero_le _, fun w hw => ?_⟩
    rcases List.mem_cons.mp hw with rfl | hw
    · exact htied
    · rw [List.mem_singleton.mp hw]
      decide
  obtain ⟨s, h⟩ := Job.returns (mapped_empty _) hok (Or.inl rfl)
  obtain ⟨thread, tail, hlog, -⟩ := (h.at (mapped_empty _) hok).ended
  have hframes : s.1.log.map Entry.frame =
      [tiedWrite.request.frame 0, pageEndFrame 100 1, (Write.mark 100 2 7).request.frame 2] := by
    rw [hlog]
    exact journal_rotates hstride htied.isData thread
  obtain ⟨a, l, hl, ha, hrest⟩ := List.map_eq_cons_iff.mp hframes
  obtain ⟨x, l, rfl, hx, hrest⟩ := List.map_eq_cons_iff.mp hrest
  obtain ⟨b, l, rfl, hb, hrest⟩ := List.map_eq_cons_iff.mp hrest
  obtain rfl := List.map_eq_nil_iff.mp hrest
  have hadata : ¬ a.frame.IsPageEnd := by rw [ha]; exact htied.isData.not_pageEnd 0
  have hbdata : ¬ b.frame.IsPageEnd := by rw [hb]; decide
  have hxend : x.frame.IsPageEnd := by rw [hx]; exact pageEndFrame_isPageEnd _ _
  have hatime : a.frame.genTime = 2 := by rw [ha]; rfl
  have hbtime : b.frame.genTime = 2 := by rw [hb]; rfl
  have hxtime : x.frame.genTime = 100 := by rw [hx]; rfl
  have hdated : Dated s.1.log := by
    rw [hl]
    refine ⟨fun e he hdata => ?_, ?_, ?_⟩
    · rcases List.mem_cons.mp he with rfl | he
      · rw [hatime]
        decide
      · rcases List.mem_cons.mp he with rfl | he
        · exact absurd hxend hdata
        · rw [List.mem_singleton.mp he, hbtime]
          decide
    · have hfilter : ([a, x, b].filter fun e => e.frame.IsUserData) = [a, b] := by
        simp [Frame.IsUserData, hadata, hxend, hbdata]
      rw [hfilter]
      exact List.pairwise_pair.mpr (by rw [hatime, hbtime]; decide)
    · rintro a' x' ⟨front, suf, hin⟩ hx'
      cases front with
      | nil =>
        simp only [List.nil_append, List.cons_append, List.cons.injEq] at hin
        obtain ⟨rfl, rfl, -⟩ := hin
        rw [hatime, hxtime]
        decide
      | cons y front =>
        -- the only sentinel stands right behind the first frame
        have hlast : x' ∈ [b] := by
          cases front with
          | nil =>
            simp only [List.nil_append, List.cons_append, List.cons.injEq] at hin
            simp [hin.2.2.1]
          | cons z front =>
            simp only [List.cons_append, List.append_assoc, List.cons.injEq] at hin
            rw [← hin.2.2]
            simp
        rw [List.mem_singleton.mp hlast] at hx'
        exact absurd hx' hbdata
  have hone := oneSession_of_unwarmed hok rfl h
  obtain ⟨tail, hp⟩ := hone.paged
  refine ⟨s, h, hone, hdated, fun hseek => ?_⟩
  exact (hp.seeksExactly_iff hdated false).mp hseek
    ⟨a, x, b, by rw [hl], hxend, hatime, hbtime⟩

end Revoq
