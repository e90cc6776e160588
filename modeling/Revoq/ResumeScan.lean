import Revoq.PageLoad
import Revoq.Writer

/-! # The resume scan on any bytes

The loop of `findLastSequenceNumber` as the machine runs it: addresses are 64-bit words,
lengths and strides 32-bit ones, and `assert` is compiled out.  The frame area may hold
anything; only the header has passed `Page::load`.

`lastSequence` of the writer's model is the same scan over offsets; the two are compared
turn by turn (`TurnEnds`).
-/
namespace Revoq
open ByteImage

/-- A page as `mmap` has placed it: user mappings lie in the lower half of the address
space. -/
structure MmapRegion (P : PageSize) where
  base : UInt64
  userHalf : base.toNat + P.bytes ≤ 2 ^ 63

/-- `framePhysicalLength` in machine words: `alignUp` computes a `size_t`, which is cast
back to a `uint32_t`. -/
def framePhysicalLength32 (logicalLength : UInt32) : UInt32 :=
  ((logicalLength.toUInt64 + 64 - 1) / 64 * 64).toUInt32

/-- The locals of the loop, and what it has done so far. -/
structure ScanRegs where
  addr : UInt64
  lastSeq : UInt64 := 0
  found : Bool := false
  /-- The addresses at which a `FrameHeader` was read. -/
  reads : List UInt64 := []
  /-- The addresses of the frames that were accepted. -/
  accepted : List UInt64 := []
  /-- Every address or stride that was computed: its mathematical value and its word. -/
  computed : List (Nat × UInt64) := []
deriving DecidableEq

/-- How a turn of the loop ends: by `break` or its condition, or with another turn. -/
inductive ScanTurn where
  | leave (s : ScanRegs)
  | again (s : ScanRegs)

section
variable (P : PageSize) (m : Image) (M : MmapRegion P)

/-- `end_addr`. -/
def MmapRegion.endAddr : UInt64 := M.base + UInt64.ofNat P.bytes

/-- One turn of the loop. -/
def scanTurn (s : ScanRegs) : ScanTurn :=
  let behind := s.addr + UInt64.ofNat frameHeaderSize
  let s := { s with computed := s.computed ++ [(s.addr.toNat + frameHeaderSize, behind)] }
  if behind ≤ M.endAddr then
    let s := { s with reads := s.reads ++ [s.addr] }
    let offset := (s.addr - M.base).toNat
    let len := UInt32.ofNat (getFrameLength m offset)
    if len = 0 ∨ len.toNat < frameHeaderSize ∨ P.bytes < len.toNat then .leave s
    else
      let stride := framePhysicalLength32 len
      let next := s.addr + stride.toUInt64
      let s := { s with
        computed := s.computed ++ [(alignUp len.toNat frameAlignment, stride.toUInt64),
          (s.addr.toNat + stride.toNat, next)] }
      if M.endAddr < next then .leave s
      else
        let s := { s with
          lastSeq := UInt64.ofNat (FrameField.sequence.get m offset)
          found := true
          accepted := s.accepted ++ [s.addr] }
        if getMsgType m offset = MsgType.pageEnd.toHeader.toNat then .leave s
        else .again { s with addr := next }
  else .leave s

/-- The loop; there is no result while it has not ended. -/
def scanLoop : Nat → ScanRegs → Option ScanRegs
  | 0, _ => none
  | fuel + 1, s =>
      match scanTurn P m M s with
      | .leave s => some s
      | .again s => scanLoop fuel s

/-- The locals before the loop. -/
def scanStart : ScanRegs where
  addr := M.base + UInt64.ofNat (firstFrameAddress m)
  computed := [(M.base.toNat + firstFrameAddress m, M.base + UInt64.ofNat (firstFrameAddress m)),
    (M.base.toNat + P.bytes, M.endAddr)]

/-- What `findLastSequenceNumber` returns. -/
def ScanRegs.result (s : ScanRegs) : UInt64 := if s.found then s.lastSeq else 0

/-- What the scan has done is safe: every header it read is inside the page, no
computation wrapped, and `last_seq` is that of the last frame it accepted. -/
structure ScanSafe (s : ScanRegs) : Prop where
  inside : ∀ a ∈ s.reads, M.base.toNat + pageHeaderSize ≤ a.toNat ∧
    a.toNat + frameHeaderSize ≤ M.base.toNat + P.bytes
  exact : ∀ c ∈ s.computed, c.2.toNat = c.1
  none : s.found = false → s.accepted = []
  last : s.found = true → ∃ a, s.accepted.getLast? = some a ∧ a ∈ s.reads ∧
    s.lastSeq = UInt64.ofNat (FrameField.sequence.get m (a - M.base).toNat)

/-- The loop stands in the frame area, or at its end. -/
def InArea (s : ScanRegs) : Prop :=
  M.base.toNat + pageHeaderSize ≤ s.addr.toNat ∧ s.addr.toNat ≤ M.base.toNat + P.bytes

/-- The last sequence number found, if there is one. -/
def ScanRegs.last? (s : ScanRegs) : Option UInt64 := if s.found then some s.lastSeq else none

end

/-! ## Machine words -/

section
variable {P : PageSize} {m : Image} {M : MmapRegion P} {s : ScanRegs}

theorem toNat_add_of_lt {a b : UInt64} (h : a.toNat + b.toNat < 2 ^ 64) :
    (a + b).toNat = a.toNat + b.toNat := by
  rw [UInt64.toNat_add, Nat.mod_eq_of_lt h]

theorem toNat_ofNat_of_le {n : Nat} (h : n ≤ 2 ^ 31) : (UInt64.ofNat n).toNat = n :=
  UInt64.toNat_ofNat_of_lt' (Nat.lt_of_le_of_lt h (by decide))

theorem MmapRegion.endAddr_toNat (M : MmapRegion P) : M.endAddr.toNat = M.base.toNat + P.bytes := by
  have hP := P.narrow
  have hM := M.userHalf
  have hbytes := toNat_ofNat_of_le hP
  rw [MmapRegion.endAddr, toNat_add_of_lt (by omega), hbytes]

theorem toNat_getFrameLength (m : Image) (o : Nat) :
    (UInt32.ofNat (getFrameLength m o)).toNat = getFrameLength m o :=
  UInt32.toNat_ofNat_of_lt' (load_lt m _ 4)

/-- The stride of a length that fits a page is the rounded length, without a wrap. -/
theorem framePhysicalLength32_toNat {len : UInt32} (h : len.toNat ≤ 2 ^ 31) :
    (framePhysicalLength32 len).toNat = alignUp len.toNat frameAlignment := by
  have hsum : (len.toUInt64 + 64 - 1).toNat = len.toNat + 63 := by
    rw [UInt64.toNat_sub, UInt64.toNat_add, UInt32.toNat_toUInt64]
    simp only [UInt64.reduceToNat]
    omega
  have hfull : ((len.toUInt64 + 64 - 1) / 64 * 64).toNat = (len.toNat + 63) / 64 * 64 := by
    rw [UInt64.toNat_mul, UInt64.toNat_div, hsum]
    simp only [UInt64.reduceToNat]
    omega
  rw [framePhysicalLength32, UInt64.toNat_toUInt32, hfull, alignUp, frameAlignment]
  omega

theorem framePhysicalLength_of_le {n : Nat} (h : n ≤ 2 ^ 31) :
    framePhysicalLength n = alignUp n frameAlignment := by
  have := alignUp_lt n
  exact Nat.mod_eq_of_lt (by omega)

/-! ## One turn -/

theorem ScanSafe.compute (h : ScanSafe P m M s) {cs : List (Nat × UInt64)}
    (hcs : ∀ c ∈ cs, c.2.toNat = c.1) :
    ScanSafe P m M { s with computed := s.computed ++ cs } where
  inside := h.inside
  exact := by
    intro x hx
    rcases List.mem_append.mp hx with hx | hx
    · exact h.exact x hx
    · exact hcs x hx
  none := h.none
  last := h.last

theorem ScanSafe.read (h : ScanSafe P m M s) (hlo : M.base.toNat + pageHeaderSize ≤ s.addr.toNat)
    (hhi : s.addr.toNat + frameHeaderSize ≤ M.base.toNat + P.bytes) :
    ScanSafe P m M { s with reads := s.reads ++ [s.addr] } where
  inside := by
    intro x hx
    rcases List.mem_append.mp hx with hx | hx
    · exact h.inside x hx
    · rw [List.mem_singleton.mp hx]
      exact ⟨hlo, hhi⟩
  exact := h.exact
  none := h.none
  last := fun hf => by
    obtain ⟨a, hlast, hmem, hseq⟩ := h.last hf
    exact ⟨a, hlast, List.mem_append_left _ hmem, hseq⟩

theorem ScanSafe.accept (h : ScanSafe P m M s) (hread : s.addr ∈ s.reads) :
    ScanSafe P m M { s with
      lastSeq := UInt64.ofNat (FrameField.sequence.get m (s.addr - M.base).toNat)
      found := true
      accepted := s.accepted ++ [s.addr] } where
  inside := h.inside
  exact := h.exact
  none := fun hf => by cases hf
  last := fun _ => ⟨s.addr, by simp, hread, rfl⟩

theorem ScanSafe.moveTo (h : ScanSafe P m M s) (a : UInt64) : ScanSafe P m M { s with addr := a } :=
  ⟨h.inside, h.exact, h.none, h.last⟩

/-- The offset the loop stands at. -/
theorem InArea.offset (h : InArea P M s) : (s.addr - M.base).toNat = s.addr.toNat - M.base.toNat :=
  UInt64.toNat_sub_of_le _ _ (UInt64.le_iff_toNat_le.mpr (by have := h.1; omega))

/-- How a turn of the loop may end, and what the scan over offsets makes of it. -/
inductive TurnEnds (P : PageSize) (m : Image) (M : MmapRegion P) (s : ScanRegs) :
    ScanTurn → Prop where
  | leave {s' : ScanRegs} (scanned : ScanSafe P m M s')
      (same : ∀ fuel, lastSequenceFrom P m (fuel + 1) (s.addr - M.base).toNat s.last? = s'.last?) :
      TurnEnds P m M s (.leave s')
  | again {s' : ScanRegs} (scanned : ScanSafe P m M s') (area : InArea P M s')
      (progress : s.addr.toNat + frameAlignment ≤ s'.addr.toNat)
      (same : ∀ fuel, lastSequenceFrom P m (fuel + 1) (s.addr - M.base).toNat s.last? =
        lastSequenceFrom P m fuel (s'.addr - M.base).toNat s'.last?) :
      TurnEnds P m M s (.again s')

/-- **One turn of the scan.** -/
theorem scanTurn_ends (h : ScanSafe P m M s) (ha : InArea P M s) :
    TurnEnds P m M s (scanTurn P m M s) := by
  have hP := P.narrow
  have hM := M.userHalf
  have hend := M.endAddr_toNat
  obtain ⟨hlo, hhi⟩ := ha
  have hoffset : (s.addr - M.base).toNat = s.addr.toNat - M.base.toNat := InArea.offset ⟨hlo, hhi⟩
  have hheader : (UInt64.ofNat frameHeaderSize).toNat = frameHeaderSize := rfl
  have hsmall : frameHeaderSize = 32 := rfl
  have hbehind : (s.addr + UInt64.ofNat frameHeaderSize).toNat = s.addr.toNat +
      frameHeaderSize := by
    rw [toNat_add_of_lt (by omega), hheader]
  have h₁ := h.compute (List.forall_mem_singleton.mpr
    (show (s.addr.toNat + frameHeaderSize, s.addr + UInt64.ofNat frameHeaderSize).2.toNat =
      _ from hbehind))
  unfold scanTurn
  simp only [UInt64.le_iff_toNat_le, UInt64.lt_iff_toNat_lt, hbehind, hend]
  by_cases hroom : s.addr.toNat + frameHeaderSize ≤ M.base.toNat + P.bytes
  · rw [if_pos hroom]
    have h₂ := h₁.read hlo hroom
    generalize hlen : UInt32.ofNat (getFrameLength m (s.addr - M.base).toNat) = len
    have hlenNat : len.toNat = getFrameLength m (s.addr - M.base).toNat := by
      rw [← hlen, toNat_getFrameLength]
    have hzero : len = 0 ↔ len.toNat = 0 := UInt32.toNat_inj.symm
    by_cases hbad : len = 0 ∨ len.toNat < frameHeaderSize ∨ P.bytes < len.toNat
    · rw [if_pos hbad]
      rw [hzero] at hbad
      refine .leave h₂ fun fuel => ?_
      rw [lastSequenceFrom, if_neg (by omega), if_pos (by rw [← hlenNat]; exact hbad)]
      rfl
    · rw [if_neg hbad]
      obtain ⟨-, hbad⟩ := not_or.mp hbad
      obtain ⟨hshort, hlong⟩ := not_or.mp hbad
      have hstride : (framePhysicalLength32 len).toNat = alignUp len.toNat frameAlignment :=
        framePhysicalLength32_toNat (by omega)
      have hphysical : framePhysicalLength (getFrameLength m (s.addr - M.base).toNat) =
          alignUp len.toNat frameAlignment := by
        rw [← hlenNat]
        exact framePhysicalLength_of_le (by omega)
      have hround : alignUp len.toNat frameAlignment < len.toNat + 64 := alignUp_lt len.toNat
      have hword : (framePhysicalLength32 len).toUInt64.toNat =
          alignUp len.toNat frameAlignment := by
        rw [UInt32.toNat_toUInt64, hstride]
      have hnext : (s.addr + (framePhysicalLength32 len).toUInt64).toNat =
          s.addr.toNat + alignUp len.toNat frameAlignment := by
        rw [toNat_add_of_lt (by omega), hword]
      have hwords : ∀ c ∈ [(alignUp len.toNat frameAlignment, (framePhysicalLength32 len).toUInt64),
          (s.addr.toNat + (framePhysicalLength32 len).toNat,
            s.addr + (framePhysicalLength32 len).toUInt64)],
          c.2.toNat = c.1 := by
        rw [List.forall_mem_cons, List.forall_mem_singleton, hstride]
        exact ⟨hword, hnext⟩
      have h₃ := h₂.compute hwords
      rw [hnext]
      -- the scan over offsets makes the same two tests
      have hseq : ∀ fuel, lastSequenceFrom P m (fuel + 1) (s.addr - M.base).toNat s.last? =
          if s.addr.toNat + alignUp len.toNat frameAlignment > M.base.toNat + P.bytes then s.last?
          else if getMsgType m (s.addr - M.base).toNat = MsgType.pageEnd.toHeader.toNat then
            some (UInt64.ofNat (FrameField.sequence.get m (s.addr - M.base).toNat))
          else lastSequenceFrom P m fuel
            ((s.addr - M.base).toNat + alignUp len.toNat frameAlignment)
            (some (UInt64.ofNat (FrameField.sequence.get m (s.addr - M.base).toNat))) := by
        intro fuel
        have hsame : (s.addr - M.base).toNat + alignUp len.toNat frameAlignment > P.bytes ↔
            s.addr.toNat + alignUp len.toNat frameAlignment > M.base.toNat + P.bytes := by omega
        rw [lastSequenceFrom, if_neg (by omega), if_neg (by omega), hphysical]
        simp only [hsame]
      by_cases hover : M.base.toNat + P.bytes < s.addr.toNat + alignUp len.toNat frameAlignment
      · rw [if_pos hover]
        refine .leave h₃ fun fuel => ?_
        rw [hseq, if_pos hover]
        rfl
      · rw [if_neg hover]
        have h₄ := h₃.accept (List.mem_append_right _ (List.mem_singleton.mpr rfl))
        by_cases hpageEnd : getMsgType m (s.addr - M.base).toNat = MsgType.pageEnd.toHeader.toNat
        · rw [if_pos hpageEnd]
          refine .leave h₄ fun fuel => ?_
          rw [hseq, if_neg hover, if_pos hpageEnd]
          rfl
        · rw [if_neg hpageEnd]
          have hstep : frameAlignment ≤ alignUp len.toNat frameAlignment := by
            have := alignUp_dvd len.toNat
            have := le_alignUp len.toNat
            have : frameAlignment = 64 := rfl
            omega
          have harea : M.base.toNat + pageHeaderSize ≤
              (s.addr + (framePhysicalLength32 len).toUInt64).toNat ∧
              (s.addr + (framePhysicalLength32 len).toUInt64).toNat ≤ M.base.toNat + P.bytes := by
            omega
          refine .again (h₄.moveTo _) harea (by rw [hnext]; omega) fun fuel => ?_
          have hmoved : (s.addr + (framePhysicalLength32 len).toUInt64 - M.base).toNat =
              (s.addr - M.base).toNat + alignUp len.toNat frameAlignment := by
            rw [UInt64.toNat_sub_of_le _ _ (UInt64.le_iff_toNat_le.mpr (by omega)), hnext]
            omega
          rw [hseq, if_neg hover, if_neg hpageEnd, hmoved]
          rfl
  · rw [if_neg hroom]
    refine .leave h₁ fun fuel => ?_
    rw [lastSequenceFrom, if_pos (by omega)]
    rfl

/-! ## The whole scan -/

/-- A turn moves on by at least `frameAlignment`, so the rest of the area bounds the
turns. -/
theorem scanLoop_ends (fuel : Nat) (h : ScanSafe P m M s) (ha : InArea P M s)
    (hfuel : M.base.toNat + P.bytes < s.addr.toNat + frameAlignment * fuel) :
    ∃ s', scanLoop P m M fuel s = some s' ∧ ScanSafe P m M s' ∧
      lastSequenceFrom P m fuel (s.addr - M.base).toNat s.last? = s'.last? := by
  induction fuel generalizing s with
  | zero =>
    have := ha.2
    omega
  | succ fuel ih =>
    rw [scanLoop]
    have hturn := scanTurn_ends h ha
    generalize scanTurn P m M s = turn at hturn
    cases hturn with
    | leave scanned same => exact ⟨_, rfl, scanned, same fuel⟩
    | again scanned area progress same =>
      rw [same fuel]
      exact ih scanned area (by rw [Nat.mul_succ] at hfuel; omega)

/-- More fuel does not change a scan that has ended. -/
theorem scanLoop_mono {fuel : Nat} {s' : ScanRegs}
    (h : scanLoop P m M fuel s = some s') (more : Nat) :
    scanLoop P m M (fuel + more) s = some s' := by
  induction fuel generalizing s with
  | zero => cases h
  | succ fuel ih =>
    rw [Nat.succ_add, scanLoop]
    rw [scanLoop] at h
    split
    · rename_i hturn
      rw [hturn] at h
      exact h
    · rename_i hturn
      rw [hturn] at h
      exact ih h

theorem scanSafe_start (hfirst : firstFrameAddress m = pageHeaderSize) :
    ScanSafe P m M (scanStart P m M) ∧ InArea P M (scanStart P m M) ∧
      (scanStart P m M).addr.toNat = M.base.toNat + pageHeaderSize := by
  have hM := M.userHalf
  have hP := pageHeaderSize_lt P
  have haddr : (M.base + UInt64.ofNat (firstFrameAddress m)).toNat = M.base.toNat +
      pageHeaderSize := by
    have hword : (UInt64.ofNat pageHeaderSize).toNat = pageHeaderSize := rfl
    rw [hfirst, toNat_add_of_lt (by omega), hword]
  refine ⟨⟨fun a ha => absurd ha List.not_mem_nil, ?_, fun _ => rfl, fun h => (by cases h)⟩, ?_,
    haddr⟩
  · intro c hc
    simp only [scanStart, List.mem_cons, List.not_mem_nil, or_false] at hc
    rcases hc with rfl | rfl
    · rw [haddr, hfirst]
    · exact M.endAddr_toNat
  · exact ⟨haddr.ge, by rw [scanStart, haddr]; omega⟩

end

/-- **The resume scan is safe on any bytes.**  On a page whose header `Page::load` accepts,
whatever the frame area holds, the loop ends within a bounded number of turns, every frame
header it reads lies inside the frame area of the page, no address or stride wraps, and it
returns the sequence number of the last frame it accepted, or 0 if there is none. -/
theorem resume_scan_safe (P : PageSize) (M : MmapRegion P) (m : Image)
    (h : Page.headerValid P m = true) :
    ∃ s, (∀ fuel, P.bytes / frameAlignment + 1 ≤ fuel →
      scanLoop P m M fuel (scanStart P m M) = some s) ∧
      (∀ a ∈ s.reads, M.base.toNat + pageHeaderSize ≤ a.toNat ∧
        a.toNat + frameHeaderSize ≤ M.base.toNat + P.bytes) ∧
      (∀ c ∈ s.computed, c.2.toNat = c.1) ∧
      (s.accepted = [] ∧ s.result = 0 ∨ ∃ a, s.accepted.getLast? = some a ∧ a ∈ s.reads ∧
        s.result = UInt64.ofNat (FrameField.sequence.get m (a - M.base).toNat)) ∧
      s.result = lastSequence P m := by
  obtain ⟨hstart, harea, haddr⟩ := scanSafe_start (M := M) (firstFrameAddress_of_valid h)
  have hturns : P.bytes < frameAlignment * (P.bytes / frameAlignment + 1) :=
    Nat.lt_mul_div_succ P.bytes (by decide)
  obtain ⟨s, hloop, hs, hsame⟩ := scanLoop_ends (P.bytes / frameAlignment + 1) hstart harea
    (by rw [haddr]; omega)
  refine ⟨s, ?_, hs.inside, hs.exact, ?_, ?_⟩
  · intro fuel hfuel
    obtain ⟨more, rfl⟩ := Nat.exists_eq_add_of_le hfuel
    exact scanLoop_mono hloop more
  · cases hfound : s.found with
    | false => exact .inl ⟨hs.none hfound, by rw [ScanRegs.result, hfound]; rfl⟩
    | true =>
      obtain ⟨a, hlast, hread, hseq⟩ := hs.last hfound
      exact .inr ⟨a, hlast, hread, by rw [ScanRegs.result, hfound, if_pos rfl, hseq]⟩
  · have hoffset : ((scanStart P m M).addr - M.base).toNat = firstFrameAddress m := by
      rw [harea.offset, haddr, firstFrameAddress_of_valid h]
      omega
    rw [hoffset] at hsame
    rw [lastSequence]
    rw [show (none : Option UInt64) = (scanStart P m M).last? from rfl, hsame,
      ScanRegs.result, ScanRegs.last?]
    cases s.found <;> rfl

/-- A page of the default size with an initialised header, and a frame area that starts
with the largest length there is. -/
def garbled : Image :=
  store ((initPuts pageSizeDefault).foldl (fun m q => q.apply m) blank) 64 4 (2 ^ 32 - 1)

/-- The scan of such a page ends at once and returns 0. -/
theorem resume_scan_safe_garbled :
    ∃ s, scanLoop pageSizeDefault garbled ⟨4096, by decide⟩ 32769
      (scanStart pageSizeDefault garbled ⟨4096, by decide⟩) =
        some s ∧ s.result = 0 := by
  obtain ⟨s, hends, -, -, -, hresult⟩ :=
    resume_scan_safe pageSizeDefault ⟨4096, by decide⟩ garbled (by decide)
  exact ⟨s, hends 32769 (by decide), hresult.trans (by decide)⟩

end Revoq
