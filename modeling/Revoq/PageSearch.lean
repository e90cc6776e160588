import Revoq.Reader

/-! # Finding a page by time

`Page::findPageId` is a binary search over the begin times of a journal's pages,
for the last page that begins at or before a time.  Pages without a frame have begin
time 0 and are taken to come last: the search goes to the left of them, as it does
for a page that begins too late.  So there are two kinds of pages for it, and all
that matters is that the pages it goes right from come first (`Cutoff`).
-/
namespace Revoq
open ByteImage StmtMachine

/-- A reader can map the page, which changes nothing. -/
def Loads (P : PageSize) (d : Disk) (p : Nat) : Prop :=
  ∃ r, Page.load P false false p d = .next (d, r) []

theorem InUse.loads {P : PageSize} {d : Disk} {p : Nat} (h : InUse P d p) : Loads P d p :=
  h.load false false

/-- When the first frame of a page was made, or 0. -/
def beginOf (d : Disk) (p : Nat) : Int64 := Page.beginTime (d.image p)

/-- The search goes to the right of the page. -/
def Early (d : Disk) (time : Int64) (p : Nat) : Prop := beginOf d p ≠ 0 ∧ beginOf d p ≤ time

instance (d : Disk) (time : Int64) (p : Nat) : Decidable (Early d time p) :=
  inferInstanceAs (Decidable (_ ∧ _))

/-- The pages the search goes right from are the first `k`. -/
structure Cutoff (d : Disk) (time : Int64) (ids : List Nat) (k : Nat) : Prop where
  le : k ≤ ids.length
  early : ∀ i p, ids[i]? = some p → (Early d time p ↔ i < k)

section
variable {P : PageSize} {d : Disk} {time : Int64} {ids : List Nat} {k first : Nat}

/-- One turn of the loop, at an index inside the vector. -/
theorem searchPageId_succ {fuel l r best mid p : Nat} (hlr : l < r)
    (hmid : mid = l + (r - 1 - l) / 2) (hp : ids[mid]? = some p) (hload : Loads P d p) :
    Page.searchPageId P ids time (fuel + 1) l ((r : Int) - 1) best d =
      if Early d time p then Page.searchPageId P ids time fuel ((mid + 1 : Nat) : Int)
        ((r : Int) - 1) p d
      else Page.searchPageId P ids time fuel l ((mid : Int) - 1) best d := by
  have hcast : (l : Int) + ((r : Int) - 1 - l) / 2 = mid := by omega
  obtain ⟨regs, hregs⟩ := hload
  rw [Page.searchPageId, if_pos (by omega)]
  simp only [hcast]
  rw [if_neg (by omega), Int.toNat_natCast, hp]
  simp only [hregs, Outcome.value, Except.ok_bind]
  by_cases h0 : Page.beginTime (d.image p) = 0
  · rw [if_pos h0, if_neg (show ¬ Early d time p from fun h => h.1 h0)]
  · by_cases hle : Page.beginTime (d.image p) ≤ time
    · rw [if_neg h0, if_pos hle, if_pos (show Early d time p from ⟨h0, hle⟩),
        Nat.cast_add, Nat.cast_one]
    · rw [if_neg h0, if_neg hle, if_neg (show ¬ Early d time p from fun h => hle h.2)]

/-- **The loop ends with the last early page**: everything left of `l` is early,
nothing from `r` on is, and `best` is the page before `l`. -/
theorem searchPageId_eq (hc : Cutoff d time ids k) (hload : ∀ p ∈ ids, Loads P d p)
    {fuel l r best : Nat} (hl : l ≤ k) (hr : k ≤ r) (hlen : r ≤ ids.length) (hfuel : r < fuel + l)
    (hbest : best = if l = 0 then first else ids.getD (l - 1) 0) :
    Page.searchPageId P ids time fuel l ((r : Int) - 1) best d =
      .ok (d, if k = 0 then first else ids.getD (k - 1) 0) := by
  induction fuel generalizing l r best with
  | zero => omega
  | succ fuel ih =>
    rcases Nat.lt_or_ge l r with hlr | hge
    · obtain ⟨mid, hmid⟩ : ∃ mid, mid = l + (r - 1 - l) / 2 := ⟨_, rfl⟩
      have hlt : mid < ids.length := by omega
      have hp := List.getElem?_eq_getElem hlt
      have hearly := hc.early mid _ hp
      rw [searchPageId_succ hlr hmid hp (hload _ (List.getElem_mem hlt))]
      by_cases hk : mid < k
      · rw [if_pos (hearly.mpr hk)]
        refine ih (by omega) hr hlen (by omega) ?_
        rw [if_neg (Nat.succ_ne_zero mid), Nat.add_sub_cancel, List.getD_eq_getElem?_getD, hp]
        rfl
      · rw [if_neg (fun h => hk (hearly.mp h))]
        exact ih hl (by omega) (by omega) (by omega) hbest
    · obtain ⟨rfl, rfl⟩ : l = k ∧ r = k := by omega
      rw [Page.searchPageId, if_neg (by omega), hbest]

/-- Whatever the order of the pages, the loop ends at an early page or where it began. -/
theorem searchPageId_returns {Q : Nat → Prop} (hload : ∀ p ∈ ids, Loads P d p)
    (hQ : ∀ p ∈ ids, Early d time p → Q p) {fuel l r best : Nat} (hle : l ≤ r)
    (hlen : r ≤ ids.length) (hfuel : r < fuel + l) (hbest : Q best) :
    ∃ p, Page.searchPageId P ids time fuel l ((r : Int) - 1) best d = .ok (d, p) ∧ Q p := by
  induction fuel generalizing l r best with
  | zero => omega
  | succ fuel ih =>
    rcases Nat.lt_or_ge l r with hlr | hge
    · obtain ⟨mid, hmid⟩ : ∃ mid, mid = l + (r - 1 - l) / 2 := ⟨_, rfl⟩
      have hlt : mid < ids.length := by omega
      have hmem := List.getElem_mem hlt
      rw [searchPageId_succ hlr hmid (List.getElem?_eq_getElem hlt) (hload _ hmem)]
      split
      · rename_i hearly
        exact ih (by omega) hlen (by omega) (hQ _ hmem hearly)
      · exact ih (by omega) (by omega) (by omega) hbest
    · rw [Page.searchPageId, if_neg (by omega)]
      exact ⟨best, rfl, hbest⟩

/-- The pages of a journal in the order of their begin times, and behind them the
pages without a frame. -/
structure TimeOrdered (d : Disk) (full empty : List Nat) : Prop where
  ids : d.listPageId = full ++ empty
  begun : ∀ p ∈ full, 0 < beginOf d p
  sorted : full.Pairwise fun p q => beginOf d p ≤ beginOf d q
  vacant : ∀ p ∈ empty, beginOf d p = 0

namespace TimeOrdered
variable {full empty : List Nat}

theorem early_iff (h : TimeOrdered d full empty) {p : Nat} (hp : p ∈ full) :
    Early d time p ↔ beginOf d p ≤ time := by
  refine ⟨fun he => he.2, fun hle => ⟨fun h0 => ?_, hle⟩⟩
  have hpos := h.begun p hp
  rw [h0] at hpos
  exact absurd hpos (by decide)

/-- The pages that begin at or before a time come first. -/
theorem cutoff (h : TimeOrdered d full empty) (time : Int64) :
    ∃ k, Cutoff d time d.listPageId k ∧ k ≤ full.length := by
  -- `k` is the first page of `full` that begins too late
  refine ⟨full.findIdx fun p => !decide (Early d time p), ⟨?_, ?_⟩, List.findIdx_le_length⟩
  · rw [h.ids, List.length_append]
    exact Nat.le_trans List.findIdx_le_length (Nat.le_add_right ..)
  · intro i p hp
    rw [h.ids] at hp
    rcases Nat.lt_or_ge i full.length with hi | hi
    · rw [List.getElem?_append_left hi, List.getElem?_eq_getElem hi] at hp
      cases hp
      constructor
      · intro hearly
        by_contra hge
        have hk := Nat.lt_of_le_of_lt (Nat.le_of_not_lt hge) hi
        have hlate := List.findIdx_getElem (w := hk)
        simp only [Bool.not_eq_true', decide_eq_false_iff_not] at hlate
        refine hlate ((h.early_iff (List.getElem_mem hk)).mpr (Int64.le_trans ?_ hearly.2))
        rcases Nat.lt_or_eq_of_le (Nat.le_of_not_lt hge) with hlt | heq
        · exact List.pairwise_iff_getElem.mp h.sorted _ _ hk hi hlt
        · simp only [heq]
          exact Int64.le_refl _
      · intro hlt
        have := List.not_of_lt_findIdx hlt
        simpa using this
    · rw [List.getElem?_append_right hi] at hp
      refine ⟨fun hearly => absurd (h.vacant p (List.mem_of_getElem? hp)) hearly.1, fun hlt => ?_⟩
      have : full.findIdx (fun p => !decide (Early d time p)) ≤ full.length :=
        List.findIdx_le_length
      omega

end TimeOrdered

/-- **The search and its result**, for a journal with at least one page file. -/
theorem findPageId_eq {rest : List Nat} (hids : d.listPageId = first :: rest) (htime : time ≠ 0)
    (hc : Cutoff d time d.listPageId k) (hload : ∀ p ∈ d.listPageId, Loads P d p) :
    Page.findPageId P time d = .ok (d, if k = 0 then first else d.listPageId.getD (k - 1) 0) := by
  rw [hids] at hc hload ⊢
  have hlen : (first :: rest).length = rest.length + 1 := List.length_cons
  have hright : ((rest.length : Int)) = ((rest.length + 1 : Nat) : Int) - 1 := by omega
  rw [Page.findPageId, hids]
  simp only [if_neg htime]
  rw [hright]
  have hk := hc.le
  exact searchPageId_eq hc hload (Nat.zero_le k) (hlen ▸ hk) (Nat.le_of_eq hlen.symm) (by omega) rfl

/-- Where the cutoff is, if a page and those behind it say so. -/
theorem TimeOrdered.cutoff_eq {full empty before after : List Nat} {q : Nat}
    (h : TimeOrdered d full empty) (hc : Cutoff d time d.listPageId k) (hk : k ≤ full.length)
    (hfull : full = before ++ q :: after) (hq : beginOf d q ≤ time)
    (hafter : ∀ x ∈ after, ¬ beginOf d x ≤ time) : k = before.length + 1 := by
  have hq_mem : q ∈ full := by rw [hfull]; simp
  have hq_at : d.listPageId[before.length]? = some q := by simp [h.ids, hfull]
  have hlt : before.length < k := (hc.early _ q hq_at).mp ((h.early_iff hq_mem).mpr hq)
  refine Nat.le_antisymm (Nat.le_of_not_lt fun hgt => ?_) hlt
  cases after with
  | nil =>
    rw [hfull] at hk
    simp only [List.length_append, List.length_singleton] at hk
    omega
  | cons x after =>
    have hx_at : d.listPageId[before.length + 1]? = some x := by simp [h.ids, hfull]
    exact hafter x List.mem_cons_self ((hc.early _ x hx_at).mpr hgt).2

end

/-- **Page search by time.**  Over pages in the order of their begin times, with empty
ones behind them, the search ends without a subscript out of range, at the page it
is meant to find. -/
theorem find_page_by_time (P : PageSize) (d : Disk) (time : Int64) (full empty : List Nat)
    (h : TimeOrdered d full empty) (hload : ∀ p ∈ d.listPageId, Loads P d p) :
    ∃ p, Page.findPageId P time d = .ok (d, p) ∧
      (d.listPageId = [] → p = 1) ∧
      (∀ first rest, d.listPageId = first :: rest →
        time = 0 ∨ (∀ q ∈ full, ¬ beginOf d q ≤ time) → p = first) ∧
      (∀ before q after, full = before ++ q :: after → time ≠ 0 → beginOf d q ≤ time →
        (∀ x ∈ after, ¬ beginOf d x ≤ time) → p = q) := by
  cases hids : d.listPageId with
  | nil =>
    refine ⟨1, by rw [Page.findPageId, hids], fun _ => rfl, fun _ _ hcons => by (cases hcons), ?_⟩
    rintro before q after rfl
    have := h.ids.symm.trans hids
    simp at this
  | cons first rest =>
    by_cases htime : time = 0
    · refine ⟨first, ?_, fun hnil => by (cases hnil), fun _ _ hcons _ => by (cases hcons; rfl), ?_⟩
      · rw [Page.findPageId, hids]
        simp only [if_pos htime]
      · exact fun _ _ _ _ hne => absurd htime hne
    · obtain ⟨k, hc, hk⟩ := h.cutoff time
      refine ⟨_, findPageId_eq hids htime hc hload, fun hnil => by (cases hnil), ?_, ?_⟩
      · intro first' rest' hcons hnone
        obtain ⟨rfl, rfl⟩ := List.cons.inj hcons
        refine if_pos (Nat.eq_zero_of_not_pos fun hpos => ?_)
        have hlt : k - 1 < full.length := by omega
        have hat : d.listPageId[k - 1]? = some full[k - 1] := by
          rw [h.ids, List.getElem?_append_left hlt, List.getElem?_eq_getElem hlt]
        have hearly := (hc.early _ _ hat).mpr (by omega)
        exact (hnone.resolve_left htime) _ (List.getElem_mem hlt) hearly.2
      · intro before q after hfull _ hq hafter
        have hkeq := h.cutoff_eq hc hk hfull hq hafter
        have hat : d.listPageId[before.length]? = some q := by simp [h.ids, hfull]
        rw [hkeq, if_neg (Nat.succ_ne_zero _), Nat.add_sub_cancel, List.getD_eq_getElem?_getD, hat]
        rfl

/-- A page with an initialised header and perhaps a frame of 32 bytes. -/
def pageWith (genTime : Option Nat) : Image :=
  let header := (initPuts pageSizeDefault).foldl (fun m q => q.apply m) blank
  match genTime with
  | none => header
  | some t => store (store header 64 4 32) (64 + 16) 8 t

/-- Two pages with a frame each, and an empty one. -/
def threePages : Disk where
  size p := if 1 ≤ p ∧ p ≤ 3 then some pageSizeDefault.bytes else none
  image p := if p = 1 then pageWith (some 5) else if p = 2 then pageWith (some 7) else pageWith none
  top := 3
  absent p hp := if_neg (by omega)

theorem threePages_inUse {p : Nat} (hp : p ∈ threePages.listPageId) :
    InUse pageSizeDefault threePages p := by
  have hlist : threePages.listPageId = [1, 2, 3] := by decide
  rw [hlist] at hp
  have hall : ∀ q ∈ [1, 2, 3], (PageField.version.get (threePages.image q) 0 = journalPageVersion ∧
      firstFrameAddress (threePages.image q) = pageHeaderSize ∧
      PageField.pageSize.get (threePages.image q) 0 = pageSizeDefault.bytes ∧
      PageField.frameHeaderLength.get (threePages.image q) 0 = frameHeaderSize) ∧
      lastFramePosition (threePages.image q) = pageHeaderSize ∧
      threePages.size q = some pageSizeDefault.bytes := by decide
  obtain ⟨⟨h1, h2, h3, h4⟩, hlast, hsize⟩ := hall p hp
  exact ⟨⟨⟨_, hsize, Nat.le_refl _⟩, h1, h2, h3, h4⟩, Nat.le_of_eq hlast.symm,
    by rw [hlast]; exact pageHeaderSize_lt _⟩

/-- At time 6 the first of two pages is found. -/
theorem find_page_by_time_three :
    TimeOrdered threePages [1, 2] [3] ∧
      ∃ p, Page.findPageId pageSizeDefault 6 threePages = .ok (threePages, p) ∧ p = 1 := by
  have hord : TimeOrdered threePages [1, 2] [3] :=
    ⟨by decide, by decide, by decide, by decide⟩
  obtain ⟨p, hp, -, -, hlast⟩ := find_page_by_time pageSizeDefault threePages 6 [1, 2] [3] hord
    fun q hq => (threePages_inUse hq).loads
  exact ⟨hord, p, hp, hlast [] 1 [2] rfl (by decide) (by decide) (by decide)⟩

end Revoq
