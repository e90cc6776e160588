import Revoq.LiveReader
import Revoq.Restart

/-! # The scan of a page that a crash has cut off

`findLastSequenceNumber` walks the frames of a page from the first one on, and stops
at a sentinel or where no frame has been published.  At every store of a session the
committed frames of a page stand without gaps, and the word behind the last one is 0
or that one is a sentinel (`Live`), so the scan finds the last committed frame
wherever the session was cut off.
-/
namespace Revoq
open ByteImage StmtMachine

/-- The loop of `findLastSequenceNumber` with its assertion that sequence numbers
increase: `none` if the assertion fails. -/
def scanFrom (P : PageSize) (m : Image) : Nat → Nat → Option UInt64 → Option (Option UInt64)
  | 0, _, last => some last
  | fuel + 1, addr, last =>
      let len := getFrameLength m addr
      let stride := framePhysicalLength len
      let seq := UInt64.ofNat (FrameField.sequence.get m addr)
      if addr + frameHeaderSize > P.bytes then some last
      else if len = 0 ∨ len < frameHeaderSize ∨ len > P.bytes then some last
      else if addr + stride > P.bytes then some last
      -- `assert(!found || seq > last_seq)`
      else if last.all (· < seq) then
        if getMsgType m addr = MsgType.pageEnd.toHeader.toNat then some (some seq)
        else scanFrom P m fuel (addr + stride) (some seq)
      else none

/-- `findLastSequenceNumber` once the page is mapped, with its assertion. -/
def findLastSequenceNumber (P : PageSize) (m : Image) : Option UInt64 :=
  (scanFrom P m (P.bytes / frameAlignment + 1) (firstFrameAddress m) none).map
  fun last => last.getD 0

/-- The sequence number of the last of the frames `es`, or `last` if there is none. -/
def lastOf (last : Option UInt64) (es : List Entry) : Option UInt64 :=
  (es.getLast?.map fun e => e.frame.sequence).or last

/-- Sequence numbers increase along the entries, from above `last` on. -/
def Increases (last : Option UInt64) (es : List Entry) : Prop :=
  (∀ l ∈ last, ∀ e ∈ es, l < e.frame.sequence) ∧ es.Pairwise fun a b => a.frame.sequence <
  b.frame.sequence

/-- No frame length is at this address, so the scan does not get past it. -/
def ScanStops (P : PageSize) (m : Image) (addr : Nat) : Prop :=
  addr + frameHeaderSize > P.bytes ∨ getFrameLength m addr < frameHeaderSize ∨
    getFrameLength m addr > P.bytes ∨ addr + framePhysicalLength (getFrameLength m addr) > P.bytes

theorem scanStops_of_zero {P : PageSize} {m : Image} {addr : Nat} (h : getFrameLength m addr = 0) :
    ScanStops P m addr := by
  refine Or.inr (Or.inl ?_)
  rw [h]
  decide

theorem lastOf_cons {last : Option UInt64} {e : Entry} {es : List Entry} :
    lastOf last (e :: es) = lastOf (some e.frame.sequence) es := by
  cases es with
  | nil => rfl
  | cons x es =>
    rw [lastOf, lastOf, List.getLast?_cons_cons]
    rfl

/-- A well-placed entry ends inside its page. -/
theorem Entry.WellPlaced.within {P : PageSize} {e : Entry} (h : e.WellPlaced P) :
    e.slot.offset + e.frame.stride ≤ P.bytes := by
  by_cases hp : e.frame.IsPageEnd
  · obtain ⟨hpay, hroom⟩ := h.sentinel hp
    have hstride : e.frame.stride = 64 := by
      rw [Frame.stride, Frame.length, hpay]
      decide
    omega
  · have := h.data hp
    omega

section
variable {P : PageSize} {m : Image} {fuel o o' : Nat} {last r : Option UInt64} {e : Entry}
  {es : List Entry}

/-- While the assertion holds, the scan is the one the constructor makes. -/
theorem scanFrom_eq (h : scanFrom P m fuel o last = some r) :
    lastSequenceFrom P m fuel o last = r := by
  induction fuel generalizing o last with
  | zero =>
    cases h
    rfl
  | succ fuel ih =>
    rw [scanFrom] at h
    rw [lastSequenceFrom]
    split at h
    · rename_i hout
      rw [if_pos hout]
      exact Option.some.inj h
    · rename_i hin
      rw [if_neg hin]
      split at h
      · rename_i hlen
        rw [if_pos hlen]
        exact Option.some.inj h
      · rename_i hlen
        rw [if_neg hlen]
        split at h
        · rename_i hover
          rw [if_pos hover]
          exact Option.some.inj h
        · rename_i hover
          rw [if_neg hover]
          split at h
          · split at h
            · rename_i hend
              rw [if_pos hend]
              exact Option.some.inj h
            · rename_i hend
              rw [if_neg hend]
              exact ih h
          · cases h

theorem findLastSequenceNumber_eq {seq : UInt64} (h : findLastSequenceNumber P m = some seq) :
    lastSequence P m = seq := by
  obtain ⟨r, hr, rfl⟩ := Option.map_eq_some_iff.mp h
  rw [lastSequence, scanFrom_eq hr]

/-- One turn of the scan, at a frame. -/
theorem scanFrom_frame (hf : FrameAt m e.slot.offset e.frame) (hw : e.WellPlaced P)
    (hlast : ∀ l ∈ last, l < e.frame.sequence) :
    scanFrom P m (fuel + 1) e.slot.offset last =
      if e.frame.IsPageEnd then some (some e.frame.sequence)
      else scanFrom P m fuel (e.slot.offset + e.frame.stride) (some e.frame.sequence) := by
  have hroom : e.slot.offset + e.frame.stride ≤ P.bytes := hw.within
  have hlen : e.frame.length ≤ e.frame.stride := e.frame.length_le_stride
  have hheader : frameHeaderSize ≤ e.frame.length := Nat.le_add_right ..
  have hpos : 0 < frameHeaderSize := by decide
  have hseq : UInt64.ofNat (FrameField.sequence.get m e.slot.offset) = e.frame.sequence :=
    congrArg FrameHeader.sequence hf.header
  have hall : last.all (· < e.frame.sequence) = true := by
    rw [Option.all_eq_true]
    intro l hl
    exact decide_eq_true (hlast l hl)
  have hend : getMsgType m e.slot.offset = MsgType.pageEnd.toHeader.toNat ↔ e.frame.IsPageEnd := by
    rw [hf.getMsgType]
    exact UInt16.toNat_inj
  rw [scanFrom, hf.length, hw.stride_eq, hseq, if_neg (by omega), if_neg (by omega),
    if_neg (by omega), if_pos hall]
  simp only [hend]

/-- The scan goes on behind the data frames it has passed. -/
theorem scanFrom_data (habut : Abut o es o') (hf : ∀ e ∈ es, FrameAt m e.slot.offset e.frame)
    (hw : ∀ e ∈ es, e.WellPlaced P) (hdata : ∀ e ∈ es, ¬ e.frame.IsPageEnd)
    (hinc : Increases last es) :
    scanFrom P m (es.length + fuel) o last = scanFrom P m fuel o' (lastOf last es) := by
  induction es generalizing o last with
  | nil =>
    obtain rfl : o = o' := habut
    rw [List.length_nil, Nat.zero_add]
    rfl
  | cons e es ih =>
    obtain ⟨ho, hrest⟩ := habut
    obtain ⟨hlast, hpair⟩ := hinc
    obtain ⟨hfirst, hpair⟩ := List.pairwise_cons.mp hpair
    have hstep : scanFrom P m (es.length + fuel + 1) e.slot.offset last = _ :=
      scanFrom_frame (hf e List.mem_cons_self) (hw e List.mem_cons_self)
        fun l hl => hlast l hl e List.mem_cons_self
    rw [if_neg (hdata e List.mem_cons_self), ho] at hstep
    rw [List.length_cons, Nat.add_right_comm, hstep]
    rw [ih hrest (fun x hx => hf x (List.mem_cons_of_mem _ hx))
      (fun x hx => hw x (List.mem_cons_of_mem _ hx))
      (fun x hx => hdata x (List.mem_cons_of_mem _ hx)) ⟨fun l hl x hx => ?_, hpair⟩, lastOf_cons]
    cases hl
    exact hfirst x hx

theorem Increases.concat (h : Increases last (es ++ [e])) :
    Increases last es ∧ ∀ l ∈ lastOf last es, l < e.frame.sequence := by
  obtain ⟨hlast, hpair⟩ := h
  obtain ⟨hpair, -, hlt⟩ := List.pairwise_append.mp hpair
  refine ⟨⟨fun l hl x hx => hlast l hl x (List.mem_append_left _ hx), hpair⟩, fun l hl => ?_⟩
  cases hes : es.getLast? with
  | none =>
    rw [lastOf, hes] at hl
    exact hlast l hl e (by simp)
  | some x =>
    rw [lastOf, hes] at hl
    cases hl
    exact hlt x (List.mem_of_getLast? hes) e List.mem_cons_self

theorem scanFrom_stop (hstop : ScanStops P m o) : scanFrom P m fuel o last = some last := by
  cases fuel with
  | zero => rfl
  | succ fuel =>
    rw [scanFrom]
    split
    · rfl
    · rename_i hin
      split
      · rfl
      · rename_i hlen
        rcases hstop with hout | hshort | hlong | hover
        · exact absurd hout hin
        · exact absurd (Or.inr (Or.inl hshort)) hlen
        · exact absurd (Or.inr (Or.inr hlong)) hlen
        · rw [if_pos hover]

theorem Abut.length_le (h : Abut o es o') : o + 64 * es.length ≤ o' := by
  induction es generalizing o with
  | nil =>
    obtain rfl : o = o' := h
    simp
  | cons e es ih =>
    have hrest := ih h.2
    have := e.frame.stride_pos
    rw [List.length_cons]
    omega

theorem Abut.split {es' : List Entry} (h : Abut o (es ++ es') o') :
    ∃ u, Abut o es u ∧ Abut u es' o' := by
  induction es generalizing o with
  | nil => exact ⟨o, rfl, h⟩
  | cons e es ih =>
    obtain ⟨u, h1, h2⟩ := ih h.2
    exact ⟨u, ⟨h.1, h1⟩, h2⟩

/-- **The scan of a page** finds the last of its frames, if none but that one is a
sentinel and there is nothing like a frame behind it. -/
theorem findLastSequenceNumber_page (hfirst : firstFrameAddress m = pageHeaderSize)
    (habut : Abut pageHeaderSize es o) (hf : ∀ e ∈ es, FrameAt m e.slot.offset e.frame)
    (hw : ∀ e ∈ es, e.WellPlaced P) (hinc : Increases none es)
    (hdata : ∀ e ∈ es.dropLast, ¬ e.frame.IsPageEnd)
    (hstop : (∀ e, es.getLast? = some e → ¬ e.frame.IsPageEnd) → ScanStops P m o) :
    findLastSequenceNumber P m = some ((lastOf none es).getD 0) := by
  suffices hscan : scanFrom P m (P.bytes / frameAlignment + 1) pageHeaderSize none =
      some (lastOf none es) by
    rw [findLastSequenceNumber, hfirst, hscan]
    rfl
  rcases List.eq_nil_or_concat es with rfl | ⟨init, x, rfl⟩
  · obtain rfl : pageHeaderSize = o := habut
    exact scanFrom_stop (hstop fun e he => (by cases he))
  · rw [List.concat_eq_append] at *
    rw [List.dropLast_concat] at hdata
    obtain ⟨u, hinit, hxu, rfl⟩ := habut.split
    obtain ⟨hincInit, hlast⟩ := hinc.concat
    have hx : x.WellPlaced P := hw x (by simp)
    have hfuel : ∃ k, P.bytes / frameAlignment + 1 = init.length + (k + 1) := by
      have hlen : 64 + 64 * init.length ≤ u := hinit.length_le
      have hroom := hx.within
      have hstride := x.frame.stride_pos
      refine ⟨P.bytes / frameAlignment - init.length, ?_⟩
      show P.bytes / 64 + 1 = init.length + (P.bytes / 64 - init.length + 1)
      omega
    obtain ⟨k, hk⟩ := hfuel
    rw [hk, scanFrom_data hinit (fun e he => hf e (by simp [he]))
      (fun e he => hw e (by simp [he])) hdata
      hincInit, ← hxu, scanFrom_frame (hf x (by simp)) hx hlast]
    have hends : lastOf none (init ++ [x]) = some x.frame.sequence := by simp [lastOf]
    rw [hends]
    split
    · rfl
    · rename_i hp
      rw [hxu]
      refine scanFrom_stop (hstop fun e he => ?_)
      rw [List.getLast?_concat] at he
      cases he
      exact hp

/-- Frames that are numbered without a gap have increasing numbers, also on each page. -/
theorem increases_onPage {log : List Entry} {seq : UInt64}
    (hnum : ∀ i e, log[i]? = some e → e.frame.sequence = seq + UInt64.ofNat i)
    (hseq : seq.toNat + log.length ≤ 2 ^ 64) (p : Nat) : Increases none (onPage log p) := by
  refine ⟨fun l hl => (by cases hl), List.Pairwise.filter _ (List.pairwise_iff_getElem.mpr ?_)⟩
  intro i k hi hk hlt
  have hval : ∀ n (hn : n < log.length), (log[n].frame.sequence).toNat = seq.toNat + n := by
    intro n hn
    rw [hnum n _ (List.getElem?_eq_getElem hn), UInt64.toNat_add, UInt64.toNat_ofNat']
    omega
  rw [UInt64.lt_iff_toNat_lt, hval i hi, hval k hk]
  omega

end

/-! ## At every store of a session -/

section
variable {P : PageSize} {C : Ctx} {d : Disk} {log : List Entry} {tail : Slot} {p : Nat}

theorem startOn_first (first p : Nat) :
    Chained.startOn ⟨first, pageHeaderSize⟩ p = pageHeaderSize := by
  rw [Chained.startOn]
  split <;> rfl

theorem mem_onPage {es : List Entry} {e : Entry} : e ∈ onPage es p ↔ e ∈ es ∧ e.slot.page = p := by
  rw [onPage, List.mem_filter, decide_eq_true_eq]

theorem Live.onPage_frames (h : Live P C d log tail) {e : Entry} (he : e ∈ onPage log p) :
    FrameAt (d.image p) e.slot.offset e.frame := by
  obtain ⟨hmem, rfl⟩ := mem_onPage.mp he
  exact h.frames e hmem

/-- **The pages of a session**: on each of them the frames abut from the first address
on, and only the last one may be a sentinel. -/
theorem Live.onPage_layout (h : Live P C d log tail) (h1 : C.first ≤ p) (h2 : p ≤ tail.page) :
    ∃ o, Abut pageHeaderSize (onPage log p) o ∧
      (∀ e ∈ (onPage log p).dropLast, ¬ e.frame.IsPageEnd) ∧
      ((∀ e, (onPage log p).getLast? = some e → ¬ e.frame.IsPageEnd) → (⟨p, o⟩ : Slot) = tail) := by
  rcases Nat.lt_or_ge p tail.page with hlt | hge
  · -- the page was closed with a sentinel
    obtain ⟨init, x, o, hon, hx, hinit, habut⟩ :=
      h.chain.onPage_closed (show (⟨C.first, pageHeaderSize⟩ : Slot).page ≤ p from h1) hlt
    rw [startOn_first] at habut
    rw [hon, List.dropLast_concat, List.getLast?_concat]
    exact ⟨o, habut, hinit, fun hnot => absurd hx (hnot x rfl)⟩
  · obtain rfl : p = tail.page := Nat.le_antisymm h2 hge
    obtain ⟨habut, hdata⟩ := h.chain.onPage_tail
    rw [startOn_first] at habut
    exact ⟨tail.offset, habut, fun e he => hdata e (List.dropLast_subset _ he), fun _ => rfl⟩

/-- **The scan of a page of the session.** -/
theorem Live.scan (h : Live P C d log tail) (hz : ∀ q, C.first ≤ q → WordsZero P (C.base q))
    (hseq : C.seq.toNat + log.length ≤ 2 ^ 64) (h1 : C.first ≤ p) (h2 : p ≤ tail.page) :
    findLastSequenceNumber P (d.image p) = some ((lastOf none (onPage log p)).getD 0) := by
  obtain ⟨o, habut, hdata, htail⟩ := h.onPage_layout h1 h2
  refine findLastSequenceNumber_page (h.ready p h1 h2).header.headerLength habut
    (fun _ => h.onPage_frames)
    (fun e he => h.placed e (mem_onPage.mp he).1)
    (increases_onPage h.sequence hseq p) hdata fun hopen => ?_
  have hslot := htail hopen
  refine scanStops_of_zero ?_
  have := h.tail_zero hz
  rwa [← hslot] at this

/-- The scan of a page the session has not got to. -/
theorem Ahead.scan {b : Image} (h : Ahead P b d p) (hz : WordsZero P b) (hready : PageReady P d p) :
    findLastSequenceNumber P (d.image p) = some 0 := by
  obtain ⟨size, hs, -⟩ := hready.size
  have hroomy := P.roomy
  have harea : AreaIs P b (d.image p) := h.area (by rw [hs]; rfl)
  have hword : getFrameLength (d.image p) pageHeaderSize = getFrameLength b pageHeaderSize :=
    load_congr (harea.mono (Set.Ico_subset_Ico_right (by
      show 64 + 0 + 4 ≤ P.bytes
      omega)))
  rw [findLastSequenceNumber, hready.header.headerLength,
    scanFrom_stop (scanStops_of_zero (hword.trans (hz _ ?_ ?_ ?_)))]
  · rfl
  · decide
  · decide
  · show 64 + 4 ≤ P.bytes
    omega

end

/-- **Crash-cut scan.**  Wherever a session is cut off, on each page it has initialised,
or has not got to, `findLastSequenceNumber` finds the last frame committed there, and
its assertion does not fail. -/
theorem crash_cut_scan (P : PageSize) (d : Disk) (j : Job) (c : List Stmt × (World × Local))
    (hmap : Mapped P d) (hzero : ∀ p, lastWritten d < p → WordsZero P (areaOf d p)) (hj : j.Ok P)
    (h : j.Reaches P d c) (hseq : (nextSequence P d).toNat + c.2.1.log.length ≤ 2 ^ 64)
    (p : Nat) (hp : lastWritten d < p) (hready : PageReady P c.2.1.disk p) :
    findLastSequenceNumber P (c.2.1.disk.image p) =
      some (((onPage c.2.1.log p).getLast?.map fun e => e.frame.sequence).getD 0) := by
  have hlast : (onPage c.2.1.log p).getLast?.map (fun e => e.frame.sequence) =
      lastOf none (onPage c.2.1.log p) := by rw [lastOf, Option.or_none]
  rw [hlast]
  rcases (h.at hmap hj).state with ⟨hlog, hb⟩ | ⟨thread, tail, -, hlive⟩
  · rw [(hb.above p hp).scan (hzero p hp) hready, hlog]
    rfl
  · rcases Nat.lt_or_ge tail.page p with hlt | hle
    · have hnone : onPage c.2.1.log p = [] := by
        rw [onPage, List.filter_eq_nil_iff]
        intro e he
        have := hlive.entry_page_le he
        simp only [decide_eq_true_eq]
        omega
      rw [(hlive.ahead p hlt).scan (hzero p hp) hready, hnone]
      rfl
    · exact hlive.scan hzero hseq hp hle

/-- A session is cut off one store before its third frame is published, with the sequence
number of that frame stored: the scan finds the second one. -/
theorem crash_cut_scan_third :
    ∃ c, (⟨true, 0, [.mark 5 1 7, .bytes 5 3 9 [4], .mark 5 4 7]⟩ : Job).Reaches pageSizeDefault
        .empty c ∧
      c.1 ≠ [] ∧ FrameField.sequence.get (c.2.1.disk.image 1) 192 = 2 ∧
      findLastSequenceNumber pageSizeDefault (c.2.1.disk.image 1) = some 1 := by
  let j : Job := ⟨true, 0, [.mark 5 1 7, .bytes 5 3 9 [4], .mark 5 4 7]⟩
  have hok : j.Ok pageSizeDefault := by decide
  have h : (run (Stmt.exec pageSizeDefault) 71 j.code (j.start .empty)).reached.map (fun c =>
      ((c.2.1.log.length, c.1.isEmpty), FrameField.sequence.get (c.2.1.disk.image 1) 192,
        ((onPage c.2.1.log 1).getLast?.map fun e => e.frame.sequence).getD 0)) =
      some ((2, false), 2, 1) := by
    decide +kernel
  obtain ⟨c, hrun, hc⟩ := Option.map_eq_some_iff.mp h
  simp only [Prod.mk.injEq] at hc
  obtain ⟨⟨hlen, hcode⟩, hstored, hlast⟩ := hc
  have hreach : j.Reaches pageSizeDefault .empty c :=
    Relation.ReflTransGen.mono (fun _ _ hs => Job.Step.own hs) _ _ (runs_of_reached hrun)
  rcases (hreach.at (mapped_empty _) hok).state with ⟨hlog, -⟩ | ⟨thread, tail, -, hlive⟩
  · rw [show c.2.1.log = [] from hlog] at hlen
    cases hlen
  · refine ⟨c, hreach, fun hnil => ?_, hstored, ?_⟩
    · rw [hnil] at hcode
      cases hcode
    · rw [crash_cut_scan _ _ _ c (mapped_empty _) (fun _ _ => wordsZero_blank _) hok hreach
        (by rw [hlen]; decide) 1 (by decide) (hlive.ready 1 (Nat.le_refl 1) hlive.first_le), hlast]

end Revoq
