import Revoq.WarmedRotation

/-! # What the checks of a page header protect

`Page::load` and `Page::loadFromAddress` check some fields of the header, and the accessors
of the page then read frame headers at addresses they compute from it: `beginTime` and the
first frame that `Journal::loadPage` sets from `page_header_length`, `endTime` and `isFull`
from `last_frame_position`.

`Page::load` only wants `last_frame_position` to be below the page size, and
`loadFromAddress` does not look at it.
-/
namespace Revoq
open ByteImage StmtMachine

/-- The accessors of a loaded page that read a frame header. -/
inductive PageAccessor where
  | beginTime
  | endTime
  | isFull
  /-- The frame that `Journal::loadPage` sets. -/
  | loadPage
deriving DecidableEq

namespace PageAccessor

/-- What an accessor returns. -/
inductive Value where
  | time (t : Int64)
  | full (b : Bool)
  | frame (v : FrameView)

/-- The accessor on a page. -/
def value (m : Image) : PageAccessor → Value
  | .beginTime => .time (Page.beginTime m)
  | .endTime => .time (Page.endTime m)
  | .isFull => .full (Page.isFull m)
  | .loadPage => .frame ⟨getFrameLength m (firstFrameAddress m), getMsgType m (firstFrameAddress m)⟩

/-- Where the accessor reads its frame header, relative to the page. -/
def frameOffset (m : Image) : PageAccessor → Nat
  | .beginTime | .loadPage => firstFrameAddress m
  | .endTime | .isFull => lastFramePosition m

/-- The frame header it reads is inside the page and outside the page header. -/
def Inside (P : PageSize) (m : Image) (a : PageAccessor) : Prop :=
  pageHeaderSize ≤ a.frameOffset m ∧ a.frameOffset m + frameHeaderSize ≤ P.bytes

instance (P : PageSize) (m : Image) (a : PageAccessor) : Decidable (a.Inside P m) :=
  inferInstanceAs (Decidable (_ ∧ _))

/-- **An accessor reads the page header and the frame header at `frameOffset`, and nothing
else.** -/
theorem value_congr {m m' : Image} (a : PageAccessor)
    (hheader : Set.EqOn m m' (Set.Ico 0 pageHeaderSize))
    (hframe : Set.EqOn m m' (Set.Ico (a.frameOffset m) (a.frameOffset m + frameHeaderSize))) :
    a.value m = a.value m' := by
  have hfield : ∀ f : Field, f.offset + f.width ≤ pageHeaderSize → f.get m 0 = f.get m' 0 := by
    intro f hf
    refine load_congr (hheader.mono ?_)
    exact Set.Ico_subset_Ico (Nat.zero_le _) (by omega)
  have hfirst : firstFrameAddress m = firstFrameAddress m' := hfield _ (by decide)
  have hlast : lastFramePosition m = lastFramePosition m' := hfield _ (by decide)
  have hsize : PageField.pageSize.get m 0 = PageField.pageSize.get m' 0 := hfield _ (by decide)
  have hread : ∀ f : Field, f.offset + f.width ≤ frameHeaderSize →
      f.get m (a.frameOffset m) = f.get m' (a.frameOffset m) := by
    intro f hf
    refine load_congr (hframe.mono ?_)
    exact Set.Ico_subset_Ico (Nat.le_add_right ..) (by omega)
  have hlength : getFrameLength m (a.frameOffset m) = getFrameLength m' (a.frameOffset m) :=
    hread FrameField.length (by decide)
  have htype : getMsgType m (a.frameOffset m) = getMsgType m' (a.frameOffset m) :=
    hread FrameField.msgType (by decide)
  have htime : (readHeader m (a.frameOffset m)).genTime =
      (readHeader m' (a.frameOffset m)).genTime := by
    simp only [readHeader, hread FrameField.genTime (by decide)]
  cases a with
  | beginTime =>
    simp only [frameOffset] at hlength htime
    simp only [value, Page.beginTime, ← hfirst, hlength, htime]
  | endTime =>
    simp only [frameOffset] at hlength htime
    simp only [value, Page.endTime, ← hlast, hlength, htime]
  | isFull =>
    simp only [frameOffset] at hlength
    simp only [value, Page.isFull, Page.addressBorder, ← hlast, hlength, hsize]
  | loadPage =>
    simp only [frameOffset] at hlength htype
    simp only [value, ← hfirst, hlength, htype]

end PageAccessor

/-! ## What a load accepts -/

section
variable {P : PageSize} {d : Disk} {p : Nat} {isWriting prefault : Bool}

/-- `loadMmapBuffer` leaves the contents of the file, in every mode. -/
theorem mmap_image (P : PageSize) (isWriting prefault : Bool) (p : Nat) (d : Disk) :
    ∃ d' r, d'.image p = areaOf d p ∧ r.page = p ∧
      Straight (LoadStmt.exec P) mmapCode (d, ⟨p, isWriting, prefault, false, 0, false⟩)
        (d', r) := by
  generalize hexists : (d.size p).isSome = exists'
  generalize hsize : (d.size p).getD 0 = size
  have hcreated : (d.create p).image p = areaOf d p := by
    cases hs : d.size p with
    | none =>
      rw [Disk.create_image_self_of_none hs, areaOf, hs]
      rfl
    | some n =>
      rw [Disk.create_of_isSome (by rw [hs]; rfl), areaOf, hs]
      rfl
  have hstat : LoadStmt.exec P .stat (d, ⟨p, isWriting, prefault, false, 0, false⟩) =
      .next (d, ⟨p, isWriting, prefault, exists', size, false⟩) [] := by
    rw [LoadStmt.exec, hexists, hsize]
  obtain ⟨d₁, himage₁, halloc⟩ : ∃ d₁, d₁.image p = areaOf d p ∧
      LoadStmt.exec P (.allocate false)
        (d.create p, ⟨p, isWriting, prefault, exists', size, true⟩) =
        .next (d₁, ⟨p, isWriting, prefault, exists', size, true⟩) [] := by
    rw [LoadStmt.exec]
    split
    · exact ⟨(d.create p).allocate p P.bytes, hcreated, rfl⟩
    · exact ⟨d.create p, hcreated, rfl⟩
  obtain ⟨d₂, himage₂, hpopulate⟩ : ∃ d₂, d₂.image p = areaOf d p ∧
      LoadStmt.exec P .populate (d₁, ⟨p, isWriting, prefault, exists', size, true⟩) =
        .next (d₂, ⟨p, isWriting, prefault, exists', size, true⟩) [] := by
    rw [LoadStmt.exec]
    split
    · -- the file was missing, and is zeroed
      rename_i hnew
      have habsent : (d.size p).isSome = false := by
        rw [hexists]
        simpa using (Bool.and_eq_true_iff.mp hnew).2
      have hblank : areaOf d p = blank := by rw [areaOf, habsent]; rfl
      refine ⟨_, ?_, rfl⟩
      rw [Disk.write_image_self, himage₁, hblank]
      exact store_zero_eq_self fun _ _ _ => rfl
    · exact ⟨_, himage₁, rfl⟩
  exact ⟨d₂, _, himage₂, rfl, .cons hstat
    (.cons rfl (.cons halloc (.cons rfl (.cons hpopulate .nil))))⟩

/-- **What a page that was loaded looks like**: the header has passed the checks, and
`last_frame_position` is what the file had, or that of the first frame in a new one. -/
theorem load_accepts {s : Disk × LoadRegs}
    (h : (Page.load P isWriting prefault p d).ended = some s) :
    Page.headerValid P (s.1.image p) = true ∧
      lastFramePosition (s.1.image p) =
        if lastFramePosition (areaOf d p) = 0 then pageHeaderSize
        else lastFramePosition (areaOf d p) := by
  obtain ⟨d₁, r, himage, rfl, hst⟩ := mmap_image P isWriting prefault p d
  have hrun : Page.load P isWriting prefault r.page d = run (LoadStmt.exec P) 8
      [.checkNew, .validate] (d₁, r) :=
    hst.run_append 8 [.checkNew, .validate]
  rw [hrun, run, LoadStmt.exec] at h
  by_cases hempty : (d₁.size r.page).getD 0 = 0
  · rw [if_pos hempty] at h
    cases h
  rw [if_neg hempty, himage] at h
  by_cases hnew : lastFramePosition (areaOf d r.page) = 0
  · rw [if_pos hnew] at h ⊢
    cases hmaster : r.master with
    | false =>
      -- the first store to the header faults
      have hput : LoadStmt.exec P (.put 0 pageHeaderSize 0) (d₁, r) = .fault (d₁, r) := by
        rw [LoadStmt.exec, hmaster, if_neg (by decide)]
      simp only [Page.initHeader, List.cons_append, run, hput] at h
      cases h
    | true =>
      have hinit := (@load_puts_straight P d₁ (initPuts P) r hmaster).run_append 1 [.validate]
      obtain ⟨hok, hlast⟩ := (pending_initPuts (P := P) hnew).imageAfter
      rw [← himage, ← writeAll_image] at hok hlast
      have hreturns : run (LoadStmt.exec P) 7 (Page.initHeader P ++ [.validate]) (d₁, r) =
          .next (d₁.writeAll r.page (initPuts P), r) [] := hinit.trans (run_validate hok hlast 0)
      replace h : (run (LoadStmt.exec P) 7 (Page.initHeader P ++ [.validate]) (d₁, r)).ended =
          some s := h
      rw [hreturns] at h
      cases h
      exact ⟨headerValid_of hok (by rw [hlast]; exact pageHeaderSize_lt P), hlast⟩
  · rw [if_neg hnew] at h ⊢
    by_cases hvalid : Page.headerValid P (d₁.image r.page) = true
    · simp only [List.nil_append, run, LoadStmt.exec, if_pos hvalid] at h
      cases h
      exact ⟨hvalid, by rw [himage]⟩
    · simp only [List.nil_append, run, LoadStmt.exec, if_neg hvalid] at h
      cases h

/-- Where the accessors of a page with the right header length read. -/
theorem accessors_inside_iff {m : Image} (hfirst : firstFrameAddress m = pageHeaderSize) :
    (∀ a : PageAccessor, a.Inside P m) ↔
      pageHeaderSize ≤ lastFramePosition m ∧ lastFramePosition m + frameHeaderSize ≤ P.bytes := by
  have hroom : pageHeaderSize + frameHeaderSize ≤ P.bytes := Nat.le_trans (by decide) P.roomy
  constructor
  · exact fun h => h .endTime
  · intro h a
    cases a with
    | beginTime | loadPage =>
      show pageHeaderSize ≤ firstFrameAddress m ∧ firstFrameAddress m + frameHeaderSize ≤ P.bytes
      rw [hfirst]
      exact ⟨Nat.le_refl _, hroom⟩
    | endTime | isFull => exact h

end

/-- **The accessors of an accepted page read inside it exactly if `last_frame_position`
leaves room for a frame header behind the page header.**  For `Page::load` a page without a
header is initialised and always safe. -/
theorem page_accessors_safe_iff (P : PageSize) :
    (∀ (isWriting prefault : Bool) (p : Nat) (d : Disk) (s : Disk × LoadRegs),
      (Page.load P isWriting prefault p d).ended = some s →
      ((∀ a : PageAccessor, a.Inside P (s.1.image p)) ↔ lastFramePosition (areaOf d p) = 0 ∨
        pageHeaderSize ≤ lastFramePosition (areaOf d p) ∧
          lastFramePosition (areaOf d p) + frameHeaderSize ≤ P.bytes)) ∧
    ∀ m : Image, loadFromAddress m = true →
      ((∀ a : PageAccessor, a.Inside P m) ↔
        pageHeaderSize ≤ lastFramePosition m ∧ lastFramePosition m +
          frameHeaderSize ≤ P.bytes) := by
  constructor
  · intro isWriting prefault p d s hload
    obtain ⟨hvalid, hlast⟩ := load_accepts hload
    rw [accessors_inside_iff (firstFrameAddress_of_valid hvalid), hlast]
    by_cases hnew : lastFramePosition (areaOf d p) = 0
    · have hroom : pageHeaderSize + frameHeaderSize ≤ P.bytes := Nat.le_trans (by decide) P.roomy
      rw [if_pos hnew]
      exact ⟨fun _ => .inl hnew, fun _ => ⟨Nat.le_refl _, hroom⟩⟩
    · rw [if_neg hnew]
      exact ⟨.inr, fun h => h.resolve_left hnew⟩
  · intro m hm
    simp only [loadFromAddress, Bool.and_eq_true, decide_eq_true_eq] at hm
    exact accessors_inside_iff hm.2

/-- A new page of the default size is safe. -/
theorem page_accessors_safe_new :
    ∃ s, (Page.load pageSizeDefault true false 1 .empty).ended = some s ∧
      ∀ a : PageAccessor, a.Inside pageSizeDefault (s.1.image 1) :=
  ⟨_, rfl, ((page_accessors_safe_iff pageSizeDefault).1 true false 1 .empty _ rfl).mpr (.inl rfl)⟩

/-- A page file of the default size with a header that was initialised, but whose
`last_frame_position` is two bytes before the end of the page. -/
def nearEnd : Disk where
  size p := if p = 1 then some pageSizeDefault.bytes else none
  image _ := store ((initPuts pageSizeDefault).foldl (fun m q => q.apply m) blank) 16 8
    (pageSizeDefault.bytes - 2)
  top := 1
  absent p h := if_neg (by omega)

/-- Both loaders accept the page, and `isFull` reads over its end. -/
theorem near_end_accepted :
    (∃ s, (Page.load pageSizeDefault false false 1 nearEnd).ended = some s ∧
      ¬PageAccessor.isFull.Inside pageSizeDefault (s.1.image 1)) ∧
    loadFromAddress (nearEnd.image 1) = true ∧
      ¬PageAccessor.isFull.Inside pageSizeDefault (nearEnd.image 1) := by
  have hload : (Page.load pageSizeDefault false false 1 nearEnd).ended =
      some (nearEnd, ⟨1, false, false, true, pageSizeDefault.bytes, true⟩) := rfl
  exact ⟨⟨_, hload, by decide⟩, by decide, by decide⟩

end Revoq
