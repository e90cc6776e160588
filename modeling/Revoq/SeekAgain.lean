import Revoq.Consumption
import Revoq.SeekTime

/-! # Seeking from anywhere

A reader can be told to seek at any time, wherever it stands.  `loadPage` does nothing
for the page the reader is on already, and the frame loop only goes forward.  So a
seek ends where a new reader would, unless it would have to go back on the page the
reader is on (`PastTarget`).
-/
namespace Revoq
open ByteImage StmtMachine

/-! ## The cursor of one journal -/

/-- The cursor stands at a frame, or behind the last one. -/
def OnChain (log : List Entry) (c : Reader) : Prop :=
  ∃ done rest slot, log = done ++ rest ∧ Chained ⟨1, pageHeaderSize⟩ done slot ∧ c.At slot

/-- The reader would have to go back on its page: that is the page where the time is
looked for, and a frame the reader has behind it there is not from before the time. -/
def PastTarget (P : PageSize) (d : Disk) (log : List Entry) (time : Int64) (c : Reader) : Prop :=
  Page.findPageId P time d = .ok (d, c.page.getD 0) ∧
    ∃ e ∈ log, e.slot.page = c.page.getD 0 ∧ e.slot.offset < c.offset ∧ time ≤ e.frame.genTime

section
variable {P : PageSize} {d d' : Disk} {log : List Entry} {tail : Slot} {time : Int64}
  {p : Nat} {c c' : Reader}

/-- A slot further along. -/
theorem Chained.le {s t : Slot} {es : List Entry} (h : Chained s es t) :
    s.page < t.page ∨ s.page = t.page ∧ s.offset ≤ t.offset := by
  cases es with
  | nil =>
    obtain rfl : s = t := h
    exact Or.inr ⟨rfl, Nat.le_refl _⟩
  | cons e es =>
    have h1 := h.before (e := e) List.mem_cons_self
    rw [h.1] at h1
    omega

namespace Paged

/-- At the tail there is nothing, and no type either. -/
theorem current_tail (h : Paged P d log tail) (hc : c.At tail) : c.current d = ⟨0, 0⟩ := by
  have hroom := h.live.room
  have hzero : ∀ k n, k + n ≤ 64 → load (d.image tail.page) (tail.offset + k) n = 0 := by
    intro k n hk
    have harea : Set.EqOn (d.image tail.page) blank (Set.Ico tail.offset P.bytes) := h.clean.area
    rw [load_congr (harea.mono (Set.Ico_subset_Ico (by omega) (by omega)))]
    exact load_blank ..
  rw [hc.current]
  exact congrArg₂ FrameView.mk (hzero 0 4 (by decide)) (hzero 4 2 (by decide))

/-- **`next` along the chain**; at its end it stays where it is. -/
theorem next_current (h : Paged P d log tail) (hc : OnChain log c) :
    ∃ c', c.next P (c.current d) d = .ok (d, c') ∧ OnChain log c' := by
  obtain ⟨done, rest, slot, hlog, hchain, hat⟩ := hc
  have hread : Readable P d slot rest tail := Readable.drop (hlog ▸ h.readable) hchain
  cases rest with
  | nil =>
    obtain rfl : slot = tail := hread.chain
    refine ⟨c, ?_, done, [], slot, hlog, hchain, hat⟩
    rw [h.current_tail hat, Reader.next,
      if_neg (show ¬ (0 = MsgType.pageEnd.toHeader.toNat) by decide),
        show framePhysicalLength 0 = 0 by decide]
    rfl
  | cons e rest =>
    obtain ⟨hlook, -, c', hadv, hat'⟩ := hread.advance hat
    rw [Reader.current_eq_of_look hlook]
    refine ⟨c', hadv, done ++ [e], rest, _, by rw [hlog]; simp, ?_, hat'⟩
    exact hchain.append ⟨hread.chain.1, rfl⟩

theorem onChain_toPage (h : Paged P d log tail) (h1 : 1 ≤ p) (h2 : p ≤ tail.page) (c : Reader) :
    OnChain log (c.toPage p) := by
  obtain ⟨pre, suf, hlog, hpre, -⟩ := h.split h1 h2
  exact ⟨pre, suf, _, hlog, hpre, Reader.at_toPage c p⟩

theorem onChain_page (h : Paged P d log tail) (hc : OnChain log c) :
    ∃ p, c.page = some p ∧ 1 ≤ p ∧ p ≤ tail.page := by
  obtain ⟨done, rest, slot, hlog, hchain, hat⟩ := hc
  have hread : Readable P d slot rest tail := Readable.drop (hlog ▸ h.readable) hchain
  exact ⟨slot.page, hat.page, hchain.page_le, hread.chain.page_le⟩

/-! ### Where a seek can get to -/

theorem skipPages_onChain (h : Paged P d log tail) (hc : OnChain log c) {fuel : Nat}
    (he : c.skipPages P time fuel d = .ok (d', c')) : d' = d ∧ OnChain log c' := by
  induction fuel generalizing c with
  | zero => cases he
  | succ fuel ih =>
    obtain ⟨p, hp, h1, h2⟩ := h.onChain_page hc
    rw [Reader.skipPages] at he
    split at he
    · rename_i hpass
      have hlt : p < tail.page := by
        refine Nat.lt_of_le_of_ne h2 fun heq => ?_
        rw [Reader.image, hp] at hpass
        exact h.tail_not_passed (heq ▸ hpass)
      rw [hp, Option.getD_some, h.loadPage (by omega) hlt, Except.ok_bind] at he
      refine ih ?_ he
      rw [if_neg (by rw [hp]; exact fun heq => absurd (Option.some.inj heq) (by omega))]
      exact h.onChain_toPage (by omega) hlt c
    · cases he
      exact ⟨rfl, hc⟩

theorem skipFrames_onChain (h : Paged P d log tail) (hc : OnChain log c) {fuel : Nat}
    (he : c.skipFrames P time fuel d = .ok (d', c')) : d' = d ∧ OnChain log c' := by
  induction fuel generalizing c with
  | zero => cases he
  | succ fuel ih =>
    rw [Reader.skipFrames] at he
    split at he
    · obtain ⟨c₁, hnext, hc₁⟩ := h.next_current hc
      rw [hnext] at he
      exact ih hc₁ he
    · cases he
      exact ⟨rfl, hc⟩

/-- The search ends at a page with frames, or at the first one. -/
theorem findPageId (h : Paged P d log tail) (time : Int64) :
    ∃ p, Page.findPageId P time d = .ok (d, p) ∧ 1 ≤ p ∧ p ≤ tail.page := by
  obtain ⟨rest, hids, hrest⟩ := h.listPageId
  have hpos : 1 ≤ tail.page := h.live.first_le
  obtain ⟨ids, hcons⟩ := h.listPageId_cons
  rw [Page.findPageId, hcons]
  by_cases htime : time = 0
  · exact ⟨1, by simp only [if_pos htime], Nat.le_refl 1, hpos⟩
  · simp only [if_neg htime]
    have hright : ((ids.length : Int)) = ((ids.length + 1 : Nat) : Int) - 1 := by omega
    rw [hright]
    refine searchPageId_returns (fun p hp => ?_) (fun p hp hearly => ?_) (Nat.zero_le _)
      (Nat.le_of_eq List.length_cons.symm) (by omega) ⟨Nat.le_refl 1, hpos⟩
    · rw [← hcons] at hp
      exact (h.initialised p (List.mem_filter.mp hp).2).loads
    · rw [← hcons, hids] at hp
      rcases List.mem_append.mp hp with hp | hp
      · have := List.mem_range'_1.mp hp
        omega
      · exact absurd (h.begin_ahead (hrest p hp).1 (hrest p hp).2) hearly.1

theorem seekToTime_onChain (h : Paged P d log tail)
    (hc : c.page = none ∨ OnChain log c) {fuel : Nat}
    (he : c.seekToTime P fuel time d = .ok (d', c')) : d' = d ∧ OnChain log c' := by
  obtain ⟨p, hfind, h1, h2⟩ := h.findPageId time
  rw [Reader.seekToTime, hfind, Except.ok_bind] at he
  simp only [h.loadPage h1 h2, Except.ok_bind] at he
  have hload : OnChain log (if c.page = some p then c else c.toPage p) := by
    split
    · rename_i hp
      exact hc.resolve_left (by rw [hp]; simp)
    · exact h.onChain_toPage h1 h2 c
  obtain ⟨⟨d₁, c₁⟩, hpages, hframes⟩ := Except.bind_eq_ok.mp he
  obtain ⟨rfl, hc₁⟩ := h.skipPages_onChain hload hpages
  exact h.skipFrames_onChain hc₁ hframes

/-! ### Where a seek ends -/

/-- Nothing on a page that is left is from the time on. -/
theorem passed_increasing (h : Paged P d log tail)
    (hinc : log.Pairwise fun a b => a.frame.genTime < b.frame.genTime)
    {e : Entry} (he : e ∈ log) (hlt : e.slot.page < tail.page) (hpass : Passed d time e.slot.page) :
    e.frame.genTime < time := by
  obtain ⟨pre, a, s, suf, hlog, -, hsuf, -, -, hspage, -⟩ :=
    h.closing (h.live.entry_first_le he) hlt
  have hsplit : log = (pre ++ [a]) ++ s :: suf := by rw [hlog]; simp
  have hend : Page.endTime (d.image e.slot.page) = s.frame.genTime := by
    have := h.endTime_eq hsplit (hspage.symm ▸ hsuf.chain)
    rwa [hspage] at this
  have hpass := hpass.2
  rw [hend] at hpass
  have hle : e.frame.genTime ≤ s.frame.genTime := by
    have hmem := he
    rw [hsplit] at hmem hinc
    rcases List.mem_append.mp hmem with hmem | hmem
    · exact Int64.le_of_lt ((List.pairwise_append.mp hinc).2.2 e hmem s List.mem_cons_self)
    · rcases List.mem_cons.mp hmem with rfl | hmem
      · exact Int64.le_refl _
      · have := Paged.le_page hsuf.chain hmem
        simp only at this
        omega
  exact Int64.lt_of_le_of_lt hle hpass

/-- The frames on the cursor's page that it has behind it. -/
theorem behind (h : Paged P d log tail) (hc : OnChain log c) (hp : c.page = some p) :
    ∃ pre mid rest slot, log = pre ++ (mid ++ rest) ∧
      Chained ⟨1, pageHeaderSize⟩ pre ⟨p, pageHeaderSize⟩ ∧
      Chained ⟨p, pageHeaderSize⟩ mid slot ∧ Readable P d slot rest tail ∧
        c.At slot ∧ slot.page = p ∧
      ∀ e, e ∈ mid ↔ e ∈ log ∧ e.slot.page = p ∧ e.slot.offset < c.offset := by
  obtain ⟨done, rest, slot, hlog, hchain, hat⟩ := hc
  have hread : Readable P d slot rest tail := Readable.drop (hlog ▸ h.readable) hchain
  have hslot : slot.page = p := Option.some.inj (hat.page.symm.trans hp)
  have hone : 1 ≤ p := by
    rw [← hslot]
    exact hchain.page_le
  obtain ⟨pre, mid, rfl, hpre, hmid⟩ := hchain.at_page
    (show (⟨1, pageHeaderSize⟩ : Slot).page ≤ p from hone) (Nat.le_of_eq hslot.symm) fun _ => rfl
  rw [List.append_assoc] at hlog
  refine ⟨pre, mid, rest, slot, hlog, hpre, hmid, hread, hat, hslot, fun e => ⟨fun he => ?_, ?_⟩⟩
  · have h1 := hmid.before he
    have h2 := Paged.le_page hmid he
    have hpos := e.frame.stride_pos
    have h2' : p ≤ e.slot.page := h2
    rw [hat.offset]
    refine ⟨by rw [hlog]; simp [he], by omega, by omega⟩
  · rintro ⟨he, hpage, hoff⟩
    rw [hlog] at he
    rcases List.mem_append.mp he with he' | he'
    · have := h.page_lt hlog hpre he'
      omega
    · refine (List.mem_append.mp he').resolve_right fun hrest => ?_
      have := hread.chain.after_start hrest
      rw [hat.offset] at hoff
      omega

end Paged

/-- **Two walks**, from the first frame of a page and from behind the frames `mid`, end at
the same slot exactly if all of `mid` is passed over. -/
theorem walk_compare {s slot slot₁ slot₂ : Slot} {mid rest : List Entry} (hmid : Chained s mid slot)
    (h₁ : Chained slot (rest.takeWhile (Before time)) slot₁)
    (h₂ : Chained s ((mid ++ rest).takeWhile (Before time)) slot₂) :
    slot₁ = slot₂ ↔ ∀ e ∈ mid, e.frame.genTime < time := by
  constructor
  · intro heq e he
    by_contra hge
    -- the walk from the first frame stops at a frame of `mid`
    have hsplit : mid.takeWhile (Before time) ++ mid.dropWhile (Before time) = mid :=
      List.takeWhile_append_dropWhile
    cases hdrop : mid.dropWhile (Before time) with
    | nil =>
      rw [hdrop, List.append_nil] at hsplit
      exact hge (takeWhile_before (hsplit.symm ▸ he))
    | cons x mid' =>
      have hlen : (mid.takeWhile (Before time)).length ≠ mid.length := by
        have := congrArg List.length hsplit
        rw [hdrop, List.length_append, List.length_cons] at this
        omega
      rw [List.takeWhile_append, if_neg hlen] at h₂
      rw [← hsplit, hdrop] at hmid
      obtain ⟨v, hv, hx⟩ := hmid.split
      have hv₂ : v = slot₂ := hv.endOf_eq.symm.trans h₂.endOf_eq
      have hbefore := hx.before (e := x) List.mem_cons_self
      have hle := h₁.le
      have hpos := x.frame.stride_pos
      rw [hx.1, hv₂, ← heq] at hbefore
      omega
  · intro hall
    have hbefore : ∀ e ∈ mid, Before time e = true := fun e he => decide_eq_true (hall e he)
    rw [List.takeWhile_append_of_pos hbefore] at h₂
    exact (hmid.append h₁).endOf_eq.symm.trans h₂.endOf_eq

/-- With enough turns a seek returns. -/
theorem Paged.seek_returns (h : Paged P d log tail) (hc : OnChain log c) (time : Int64) {fuel : Nat}
    (hfuel : tail.page + log.length < fuel) : ∃ c', c.seekToTime P fuel time d = .ok (d, c') := by
  obtain ⟨p, hfind, h1, h2⟩ := h.findPageId time
  obtain ⟨q, hq1, hq2, -, hseek⟩ :=
    @Paged.seekToTime_eq P d log tail time p h hfind h1 h2 fuel (by omega)
  have hon : OnChain log (if q = p ∧ c.page = some p then c else c.toPage q) := by
    split
    · exact hc
    · exact h.onChain_toPage (by omega) hq2 c
  obtain ⟨done, rest, slot, hlog, hchain, hat⟩ := hon
  have hlen : rest.length < fuel := by
    rw [hlog, List.length_append] at hfuel
    omega
  obtain ⟨c', slot', hskip, -⟩ :=
    Readable.skipFrames (Readable.drop (hlog ▸ h.readable) hchain) hat hlen
  exact ⟨c', (hseek c).trans hskip⟩

theorem Reader.At.same_iff {s t : Slot} (h : c.At s) (h' : c'.At t) :
    (c.page = c'.page ∧ c.offset = c'.offset) ↔ s = t := by
  rw [h.page, h'.page, h.offset, h'.offset]
  constructor
  · rintro ⟨hp, ho⟩
    cases s
    cases t
    cases hp
    cases ho
    rfl
  · rintro rfl
    exact ⟨rfl, rfl⟩

/-- **Seeking and joining anew**, with enough turns. -/
theorem Paged.seek_compare (h : Paged P d log tail)
    (hinc : log.Pairwise fun a b => a.frame.genTime < b.frame.genTime) (hc : OnChain log c)
    (prefault : Bool) {fuel : Nat} (hfuel : tail.page + log.length < fuel) :
    ∃ c₁ c₂, c.seekToTime P fuel time d = .ok (d, c₁) ∧
      Reader.join P fuel prefault time d = .ok (d, c₂) ∧
      ((c₁.page = c₂.page ∧ c₁.offset = c₂.offset) ↔ ¬ PastTarget P d log time c) := by
  obtain ⟨p, hfind, h1, h2⟩ := h.findPageId time
  obtain ⟨x, hx, -, -⟩ := h.onChain_page hc
  obtain ⟨q, hq1, hq2, hall, hseek⟩ :=
    @Paged.seekToTime_eq P d log tail time p h hfind h1 h2 fuel (by omega)
  have hlen : ∀ {es es' : List Entry}, log = es' ++ es → es.length < fuel := by
    intro es es' heq
    have := congrArg List.length heq
    rw [List.length_append] at this
    omega
  have hnew : ∀ {es es' : List Entry}, log = es' ++ es → Readable P d ⟨q, pageHeaderSize⟩ es tail →
      ∃ c₂ slot₂, Reader.join P fuel prefault time d = .ok (d, c₂) ∧ c₂.At slot₂ ∧
        Chained ⟨q, pageHeaderSize⟩ (es.takeWhile (Before time)) slot₂ := by
    intro es es' heq hread
    have hfresh := hseek { prefault }
    rw [if_neg fun hq => by cases hq.2] at hfresh
    obtain ⟨c₂, slot₂, hskip, hat₂, hchain₂⟩ :=
      hread.skipFrames (Reader.at_toPage { prefault } q) (hlen heq)
    exact ⟨c₂, slot₂, hfresh.trans hskip, hat₂, hchain₂⟩
  by_cases hown : q = p ∧ c.page = some p
  · obtain ⟨rfl, hp⟩ := hown
    obtain ⟨pre, mid, rest, slot, hlog, hpre, hmid, hread, hat, -, hmem⟩ := h.behind hc hp
    have hgo := hseek c
    rw [if_pos ⟨rfl, hp⟩] at hgo
    obtain ⟨c₁, slot₁, hskip, hat₁, hchain₁⟩ :=
      hread.skipFrames hat (hlen (show log = (pre ++ mid) ++ rest by rw [hlog, List.append_assoc]))
    obtain ⟨c₂, slot₂, hjoin, hat₂, hchain₂⟩ := hnew hlog (Readable.drop (hlog ▸ h.readable) hpre)
    refine ⟨c₁, c₂, hgo.trans hskip, hjoin, ?_⟩
    rw [hat₁.same_iff hat₂, walk_compare hmid hchain₁ hchain₂, PastTarget, hp, Option.getD_some]
    constructor
    · rintro hbefore ⟨-, e, he, hpage, hoff, hge⟩
      exact Int64.not_lt.mpr hge (hbefore e ((hmem e).mpr ⟨he, hpage, hoff⟩))
    · intro hnot e he
      obtain ⟨hlog, hpage, hoff⟩ := (hmem e).mp he
      exact Int64.not_le.mp fun hge => hnot ⟨hfind, e, hlog, hpage, hoff, hge⟩
  · -- the cursor is put in front of a page, as that of a new reader is
    obtain ⟨pre, suf, hlog, -, hsuf⟩ := @Paged.split P d log tail q h (by omega) hq2
    have hgo := hseek c
    rw [if_neg hown] at hgo
    obtain ⟨c₁, slot₁, hskip, hat₁, hchain₁⟩ := hsuf.skipFrames (Reader.at_toPage c q) (hlen hlog)
    obtain ⟨c₂, slot₂, hjoin, hat₂, hchain₂⟩ := hnew hlog hsuf
    refine ⟨c₁, c₂, hgo.trans hskip, hjoin, ?_⟩
    have hslot : slot₁ = slot₂ := hchain₁.endOf_eq.symm.trans hchain₂.endOf_eq
    refine ⟨fun _ hpast => ?_, fun _ => (hat₁.same_iff hat₂).mpr hslot⟩
    obtain ⟨hfind', e, he, hpage, -, hge⟩ := hpast
    -- it was on the page that is found, and that page is left
    have hpx : p = x := by
      rw [hfind, hx] at hfind'
      exact (Prod.mk.inj (Except.ok.inj hfind')).2
    rw [hx, Option.getD_some] at hpage
    have hlt : p < q := Nat.lt_of_le_of_ne hq1 fun heq => hown ⟨heq.symm, by rw [hx, hpx]⟩
    have hpass := hall p (Nat.le_refl p) hlt
    rw [hpx, ← hpage] at hpass
    exact Int64.not_lt.mpr hge (h.passed_increasing hinc he (by omega) hpass)

end

/-! ## Where the time is looked for -/

section
variable {P : PageSize} {d : Disk} {log : List Entry} {tail : Slot} {time : Int64}
  {p : Nat} {c : Reader}

theorem dated_of_increasing (hinc : log.Pairwise fun a b => a.frame.genTime < b.frame.genTime)
    (hpos : ∀ e ∈ log, 0 < e.frame.genTime) : Dated log := by
  refine ⟨fun e he _ => hpos e he, ?_, fun a s hin _ => ?_⟩
  · exact (hinc.sublist List.filter_sublist).imp Int64.le_of_lt
  · have := List.pairwise_pair.mp (hinc.sublist hin.sublist)
    exact Int64.le_of_lt this

/-- A frame is from before all later pages. -/
theorem Paged.lt_begin (h : Paged P d log tail)
    (hinc : log.Pairwise fun a b => a.frame.genTime < b.frame.genTime)
    {e : Entry} (he : e ∈ log) (hlt : e.slot.page < p) (hle : p ≤ tail.page) :
    e.frame.genTime < beginOf d p := by
  obtain ⟨pre, suf, hlog, hpre, hsuf⟩ := @Paged.split P d log tail p h (by omega) hle
  obtain ⟨b, suf, rfl, hslot, -⟩ := h.head (List.ne_nil_of_mem he) hlog hpre hsuf
  rw [h.begin_eq (e := b) (by rw [hlog]; simp) hslot]
  have hmem : e ∈ pre := by
    rw [hlog] at he
    refine (List.mem_append.mp he).resolve_right fun hin => ?_
    exact Nat.not_le.mpr hlt (Paged.le_page hsuf.chain hin)
  rw [hlog] at hinc
  exact (List.pairwise_append.mp hinc).2.2 e hmem b List.mem_cons_self

/-- **Being past the target**, for positive times. -/
theorem Paged.pastTarget_iff (h : Paged P d log tail)
    (hinc : log.Pairwise fun a b => a.frame.genTime < b.frame.genTime)
    (hpos : ∀ e ∈ log, 0 < e.frame.genTime) (hc : OnChain log c) :
    PastTarget P d log time c ↔ ∃ p, c.page = some p ∧ (p = 1 ∨ beginOf d p ≤ time) ∧
      ∃ e ∈ log, e.slot.page = p ∧ e.slot.offset < c.offset ∧ time ≤ e.frame.genTime := by
  obtain ⟨p, hp, h1, h2⟩ := h.onChain_page hc
  obtain ⟨k, hk, hfind, hearly⟩ := h.found (dated_of_increasing hinc hpos) time
  rw [PastTarget, hfind, hp, Option.getD_some]
  constructor
  · rintro ⟨heq, hbehind⟩
    have hpk : max 1 k = p := (Prod.mk.inj (Except.ok.inj heq)).2
    refine ⟨p, rfl, ?_, hbehind⟩
    rcases Nat.eq_or_lt_of_le h1 with h1 | h1
    · exact Or.inl h1.symm
    · exact Or.inr ((hearly p (by omega) h2).mpr (by omega)).2
  · rintro ⟨p', hp', hbegin, e, he, hpage, hoff, hge⟩
    obtain rfl : p = p' := Option.some.inj hp'
    -- no later page begins at or before the time, since `e` is not from before it
    have hle : k ≤ p := by
      by_contra hgt
      have hbegin := ((hearly k (by omega) hk).mpr (Nat.le_refl k)).2
      have hlt := h.lt_begin hinc he (show e.slot.page < k by omega) hk
      exact Int64.not_lt.mpr (Int64.le_trans hbegin hge) hlt
    have hpk : max 1 k = p := by
      rcases hbegin with h1' | hbegin
      · omega
      · have : p ≤ k := by
          refine (hearly p h1 h2).mp ⟨fun h0 => ?_, hbegin⟩
          obtain ⟨pre, b, suf, hlog, -, hslot, -⟩ := h.first (List.ne_nil_of_mem he) h1 h2
          have hb : b ∈ log := by rw [hlog]; simp
          have hbpos := hpos b hb
          rw [← h.begin_eq hb hslot, h0] at hbpos
          exact absurd hbpos (by decide)
        omega
    rw [hpk]
    exact ⟨rfl, e, he, hpage, hoff, hge⟩

end

/-! ## A reader of several journals -/

/-- `Journal::seekToTime`. -/
def Journal.seekToTime (fuel : Nat) (time : Int64) (j : Journal) (files : Files) :
    Except Halt (Files × Journal) :=
  (j.cursor.seekToTime j.pageSize fuel time (j.disk files)).map fun (d, c) =>
    (j.put files d, { j with cursor := c })

namespace JournalReader

/-- The loop of `JournalReader::seekToTime`. -/
def seekJournals (fuel : Nat) (time : Int64) :
    List Journal → Files → Except Halt (Files × List Journal)
  | [], files => .ok (files, [])
  | j :: js, files =>
      (j.seekToTime fuel time files).bind fun (files, j) =>
        (seekJournals fuel time js files).map fun (files, js) => (files, j :: js)

/-- `JournalReader::seekToTime`. -/
def seekToTime (fuel : Nat) (time : Int64) : Files × JournalReader →
    Except Halt (Files × JournalReader)
  | (files, r) => (seekJournals fuel time r.journals files).map fun (files, js) =>
      (files, { r with journals := js, needsRebuild := true })

end JournalReader

/-- A call of a reader of journals that one session each has written; `advance` is
handed the frame the reader stands at. -/
def ReaderCall.Fits (files : Files) (r : JournalReader) : ReaderCall → Prop
  | .join _ location destId _ =>
      ∃ log, OneSession (findPageSize location.category destId) (files location.uid destId) log
  | .advance current =>
      ∀ j ∈ r.journals, r.singleJournal = some j.address → current = j.current files
  | _ => True

/-- **The states a reader can be in** while the page files hold `files`: any calls of it,
seeks among them. -/
inductive SeekRun (H : MergeHeap) (files : Files) (prefault : Bool) :
    Files × JournalReader → Prop where
  | start : SeekRun H files prefault (files, { prefault := prefault })
  | call {s s' : Files × JournalReader} {c : ReaderCall} (h : SeekRun H files prefault s)
      (fits : c.Fits s.1 s.2) (he : c.exec H s = .returns s') : SeekRun H files prefault s'
  | seekToTime {s s' : Files × JournalReader} {fuel : Nat} {time : Int64}
      (h : SeekRun H files prefault s) (he : JournalReader.seekToTime fuel time s = .ok s') :
      SeekRun H files prefault s'

/-- The journal has been written by one session, and its cursor stands at one of its
frames or behind the last one. -/
structure OnFrame (files : Files) (j : Journal) : Prop where
  written : ∃ log, OneSession j.pageSize (j.disk files) log
  onChain : ∀ log tail, Paged j.pageSize (j.disk files) log tail → OnChain log j.cursor

/-- The page files are as they were, and all journals stand at frames. -/
structure OnFrames (files : Files) (s : Files × JournalReader) : Prop where
  fixed : s.1 = files
  journals : ∀ j ∈ s.2.journals, OnFrame files j

/-- The same of a call that returns. -/
def KeepsFrames (files : Files) : Result (Files × JournalReader) → Prop
  | .returns s => OnFrames files s
  | _ => True

section
variable {H : MergeHeap} {files : Files} {r r' : JournalReader} {s s' : Files × JournalReader}
  {j j' : Journal}
open JournalReader

/-- A journal whose cursor went along its chain. -/
theorem OnFrame.move (h : OnFrame files j) {c : Reader}
    (hc : ∀ log tail, Paged j.pageSize (j.disk files) log tail → OnChain log c) :
    OnFrame files { j with cursor := c } := ⟨h.written, hc⟩

theorem OnFrame.next (h : OnFrame files j) {v : FrameView} (hv : v = j.current files) :
    ∃ j', j.next v files = .ok (files, j') ∧ OnFrame files j' := by
  obtain ⟨log, hlog⟩ := h.written
  obtain ⟨tail, hp⟩ := hlog.paged
  obtain ⟨c, hc, -⟩ := hp.next_current (h.onChain log tail hp)
  refine ⟨{ j with cursor := c }, ?_, h.move fun log' tail' hp' => ?_⟩
  · simp only [Journal.next, hv, Journal.current, hc, Except.ok_map, j.put_disk]
  · obtain ⟨c', hc', hon⟩ := hp'.next_current (h.onChain log' tail' hp')
    cases hc.symm.trans hc'
    exact hon

theorem OnFrame.seekToTime (h : OnFrame files j) {fuel : Nat} {time : Int64} {x : Files × Journal}
    (he : j.seekToTime fuel time files = .ok x) :
    x.1 = files ∧ OnFrame files x.2 ∧ ∃ c, x.2 = { j with cursor := c } ∧
      j.cursor.seekToTime j.pageSize fuel time (j.disk files) = .ok (j.disk files, c) := by
  obtain ⟨⟨d, c⟩, hc, rfl⟩ := Except.map_eq_ok.mp he
  obtain ⟨log, hlog⟩ := h.written
  obtain ⟨tail, hp⟩ := hlog.paged
  obtain ⟨rfl, -⟩ := hp.seekToTime_onChain (Or.inr (h.onChain log tail hp)) hc
  refine ⟨j.put_disk files, h.move fun log' tail' hp' => ?_, c, rfl, hc⟩
  exact (hp'.seekToTime_onChain (Or.inr (h.onChain log' tail' hp')) hc).2

theorem keepsFrames_stepJournal (h : ∀ j ∈ r.journals, OnFrame files j) {i : Nat}
    {v : Journal → FrameView} (hv : ∀ j, r.journals[i]? = some j → v j = j.current files) :
    KeepsFrames files (stepJournal i v (files, r)) := by
  unfold stepJournal
  simp only
  split
  · trivial
  · rename_i j hj
    have hmem := List.mem_of_getElem? hj
    obtain ⟨j', hnext, hj'⟩ := (h j hmem).next (hv j hj)
    rw [hnext]
    refine ⟨rfl, fun x hx => ?_⟩
    rcases List.mem_or_eq_of_mem_set hx with hx | rfl
    · exact h x hx
    · exact hj'

theorem keepsFrames_reselect (h : OnFrames files s) : KeepsFrames files (reselect H s) := by
  obtain ⟨files, r⟩ := s
  obtain ⟨rfl, hj⟩ := h
  have hupdate : ∀ q, r.updateHeap H files = some q → q.journals = r.journals := by
    intro q hq
    unfold updateHeap at hq
    split at hq
    · cases hq
      rfl
    · split at hq
      · cases hq
      · split at hq
        · cases hq
        · simp only at hq
          split at hq <;> cases hq <;> rfl
  simp only [reselect]
  split
  · cases hq : r.updateHeap H files with
    | none => trivial
    | some q => exact ⟨rfl, fun j hmem => hj j (hupdate q hq ▸ hmem)⟩
  · exact ⟨rfl, hj⟩

theorem keepsFrames_stepSingle (hb : Bookkeeping r)
    (h : ∀ j ∈ r.journals, OnFrame files j) {address : Nat} (hs : r.singleJournal = some address)
    {v : Journal → FrameView}
    (hv : ∀ j ∈ r.journals, r.singleJournal = some j.address → v j = j.current files) :
    KeepsFrames files (stepSingle address v (files, r)) := by
  obtain ⟨j, hj, -, haddr⟩ := hb.deref (hb.singleJournal_eq ▸ hs)
  refine keepsFrames_stepJournal h fun x hx => ?_
  have hmem := List.mem_of_getElem? hx
  rw [hj] at hmem
  rw [List.mem_singleton.mp hmem]
  exact hv j (by rw [hj]; simp) (by rw [hs, haddr])

theorem keepsFrames_next (hb : Bookkeeping r) (h : ∀ j ∈ r.journals, OnFrame files j) :
    KeepsFrames files (next H (files, r)) := by
  cases hi : r.currentJournalIdx with
  | none => exact next_of_none hi ▸ ⟨rfl, h⟩
  | some i =>
    rcases Nat.lt_or_ge i r.journals.length with hlt | hge
    · cases hs : r.singleJournal with
      | some address =>
        rw [next_single hi hlt hs]
        exact keepsFrames_stepSingle hb h hs fun _ _ _ => rfl
      | none =>
        rw [next_several hi hlt hs]
        have hstep := keepsFrames_stepJournal (i := i)
          (v := fun j => j.current files) h fun _ _ => rfl
        cases hx : stepJournal i (fun j => j.current files) (files, r) with
        | returns s =>
          rw [hx] at hstep
          exact keepsFrames_reselect hstep
        | throws s | faults s => trivial
    · exact next_of_ge hi hge ▸ ⟨rfl, h⟩

theorem keepsFrames_advance (hb : Bookkeeping r)
    (h : ∀ j ∈ r.journals, OnFrame files j) {v : FrameView}
    (hv : ∀ j ∈ r.journals, r.singleJournal = some j.address → v = j.current files) :
    KeepsFrames files (advance H v (files, r)) := by
  cases hs : r.singleJournal with
  | some address =>
    rw [advance_single hs]
    exact keepsFrames_stepSingle hb h hs hv
  | none =>
    rw [advance_several hs]
    exact keepsFrames_next hb h

/-- **One call.** -/
theorem OnFrames.exec (hb : Bookkeeping r) (h : ∀ j ∈ r.journals, OnFrame files j) {c : ReaderCall}
    (fits : c.Fits files r) : KeepsFrames files (c.exec H (files, r)) := by
  cases c with
  | join fuel location destId fromTime =>
    obtain ⟨log, hlog⟩ := fits
    simp only [ReaderCall.exec, JournalReader.join]
    split
    · exact ⟨rfl, h⟩
    · split
      · trivial
      · rename_i d c hseek
        obtain ⟨tail, hp⟩ := hlog.paged
        obtain ⟨rfl, -⟩ := hp.seekToTime_onChain (Or.inl rfl) hseek
        refine ⟨Journal.put_disk _ files, fun x hx => ?_⟩
        simp only [refreshSingleJournal_journals] at hx
        rcases List.mem_append.mp hx with hx | hx
        · exact h x hx
        · rw [List.mem_singleton.mp hx]
          exact ⟨⟨log, hlog⟩, fun log' tail' hp' => (hp'.seekToTime_onChain (Or.inl rfl) hseek).2⟩
  | disjoin locationUid =>
    refine ⟨rfl, fun x hx => ?_⟩
    simp only [JournalReader.disjoin] at hx
    split at hx
    · simp only [refreshSingleJournal_journals] at hx
      exact h x (List.mem_filter.mp hx).1
    · exact h x hx
  | setUseHeap useHeap => exact ⟨rfl, h⟩
  | isDataAvailable =>
    simp only [ReaderCall.exec]
    cases hs : r.singleFrame with
    | some address =>
      obtain ⟨j, -, -, hdata, -⟩ := look_single H files hb hs
      rw [hdata]
      exact ⟨rfl, h⟩
    | none =>
      rw [isDataAvailable_several hs]
      exact ⟨rfl, fun x hx => h x (@settled_journals H files r ▸ hx)⟩
  | tryCurrentFrame =>
    simp only [ReaderCall.exec]
    split
    · trivial
    · rename_i v q hq
      exact ⟨rfl, fun x hx => h x ((look_journals hb hq).1 ▸ hx)⟩
  | next => exact keepsFrames_next hb h
  | advance v => exact keepsFrames_advance hb h fits
  | nextStatic =>
    simp only [ReaderCall.exec, nextStatic]
    obtain ⟨v, q, hlook, hsame⟩ := tryCurrentFrame_returns H files hb
    obtain ⟨hjournals, hview⟩ := look_journals hb hlook
    simp only [hlook]
    cases v with
    | none => exact ⟨rfl, fun x hx => h x (hjournals ▸ hx)⟩
    | some v =>
      refine keepsFrames_advance (hsame.bookkeeping hb)
        (fun x hx => h x (hjournals ▸ hx)) fun x hx haddr => ?_
      exact hview v rfl x (hjournals ▸ hx) (hsame.singleJournal ▸ haddr)

/-- The loop of a seek, journal by journal. -/
theorem seekJournals_onFrames {js js' : List Journal} {fuel : Nat} {time : Int64} {files' : Files}
    (h : ∀ j ∈ js, OnFrame files j) (he : seekJournals fuel time js files = .ok (files', js')) :
    files' = files ∧ List.Forall₂ (fun j j' => OnFrame files j' ∧ ∃ c, j' = { j with cursor := c } ∧
      j.cursor.seekToTime j.pageSize fuel time (j.disk files) = .ok (j.disk files, c)) js js' := by
  induction js generalizing js' with
  | nil =>
    cases he
    exact ⟨rfl, .nil⟩
  | cons j js ih =>
    obtain ⟨⟨files₁, j₁⟩, hj, he⟩ := Except.bind_eq_ok.mp he
    obtain ⟨⟨files₂, js₂⟩, hjs, he⟩ := Except.map_eq_ok.mp he
    cases he
    obtain ⟨hfiles, hon, hc⟩ := (h j List.mem_cons_self).seekToTime hj
    obtain rfl : files₁ = files := hfiles
    obtain ⟨hfiles, hrest⟩ := ih (fun x hx => h x (List.mem_cons_of_mem _ hx)) hjs
    exact ⟨hfiles, .cons ⟨hon, hc⟩ hrest⟩

/-- With enough turns the loop gets to its end. -/
theorem seekJournals_returns (time : Int64) {js : List Journal} (h : ∀ j ∈ js, OnFrame files j) :
    ∃ n, ∀ fuel, n ≤ fuel → ∃ js', seekJournals fuel time js files = .ok (files, js') := by
  induction js with
  | nil => exact ⟨0, fun _ _ => ⟨[], rfl⟩⟩
  | cons j js ih =>
    obtain ⟨n, hn⟩ := ih fun x hx => h x (List.mem_cons_of_mem _ hx)
    have hj := h j List.mem_cons_self
    obtain ⟨log, hlog⟩ := hj.written
    obtain ⟨tail, hp⟩ := hlog.paged
    refine ⟨max n (tail.page + log.length + 1), fun fuel hfuel => ?_⟩
    obtain ⟨c, hc⟩ :=
      hp.seek_returns (hj.onChain log tail hp) time (show tail.page + log.length < fuel by omega)
    obtain ⟨js', hjs'⟩ := hn fuel (by omega)
    refine ⟨{ j with cursor := c } :: js', ?_⟩
    simp only [seekJournals, Journal.seekToTime, hc, Except.ok_map, Except.ok_bind,
      j.put_disk, hjs']

theorem labels_of_moved {js js' : List Journal}
    (h : List.Forall₂ (fun j j' => ∃ c, j' = { j with cursor := c }) js js') :
    (js'.map fun j => (j.address, j.key)) = js.map fun j => (j.address, j.key) := by
  induction h with
  | nil => rfl
  | cons hx _ ih =>
    obtain ⟨c, rfl⟩ := hx
    rw [List.map_cons, List.map_cons, ih]
    rfl

/-- **Whatever a reader was asked for**, its journals stand at frames. -/
theorem SeekRun.onFrames {prefault : Bool} (h : SeekRun H files prefault s) :
    Bookkeeping s.2 ∧ OnFrames files s := by
  induction h with
  | start =>
    exact ⟨⟨rfl, List.nodup_nil, fun j hj => (by cases hj), fun _ => ⟨rfl, rfl⟩⟩, rfl,
      fun j hj => by cases hj⟩
  | @call s s' c _ fits he ih =>
    obtain ⟨files', r⟩ := s
    obtain ⟨hb, rfl, hj⟩ := ih
    have hkeep := OnFrames.exec (H := H) hb hj fits
    have hbook := hb.exec H files' c
    rw [he] at hkeep hbook
    exact ⟨hbook, hkeep⟩
  | @seekToTime s s' fuel time _ he ih =>
    obtain ⟨files', r⟩ := s
    obtain ⟨hb, rfl, hj⟩ := ih
    obtain ⟨⟨files'', js⟩, hjs, rfl⟩ := Except.map_eq_ok.mp he
    obtain ⟨rfl, hall⟩ := seekJournals_onFrames hj hjs
    have hsame : SameJournals r { r with journals := js, needsRebuild := true } :=
      ⟨rfl, labels_of_moved (hall.imp fun _ _ ⟨_, c, hc, _⟩ => ⟨c, hc⟩), rfl, rfl⟩
    refine ⟨hsame.bookkeeping hb, rfl, fun j hmem => ?_⟩
    obtain ⟨i, hi, rfl⟩ := List.getElem_of_mem hmem
    exact ((List.forall₂_iff_get.mp hall).2 i (hall.length_eq ▸ hi) hi).1

end

/-! ## Seeking and joining anew -/

/-- With enough turns, `seekToTime` returns, changes no page file, and puts the cursor of
the `i`th journal where `join` puts the one of a new reader. -/
def SeeksAlike (files : Files) (r : JournalReader) (i : Nat) (j : Journal) (prefault : Bool)
    (time : Int64) : Prop :=
  ∃ n, ∀ fuel, n ≤ fuel → ∃ r' j' c, JournalReader.seekToTime fuel time (files, r) =
    .ok (files, r') ∧
    r'.journals[i]? = some j' ∧
    Reader.join j.pageSize fuel prefault time (j.disk files) = .ok (j.disk files, c) ∧
    j'.cursor.page = c.page ∧ j'.cursor.offset = c.offset

section
variable {H : MergeHeap} {files : Files} {prefault : Bool} {r : JournalReader}
  {i : Nat} {j : Journal}
variable {log : List Entry} {time : Int64}

theorem SeekRun.seeksAlike_iff (h : SeekRun H files prefault (files, r))
    (hj : r.journals[i]? = some j) (hlog : OneSession j.pageSize (j.disk files) log)
    (hinc : log.Pairwise fun a b => a.frame.genTime < b.frame.genTime) :
    SeeksAlike files r i j prefault time ↔ ¬ PastTarget j.pageSize (j.disk files) log
      time j.cursor := by
  obtain ⟨-, -, hall⟩ := h.onFrames
  obtain ⟨tail, hp⟩ := hlog.paged
  have hon := (hall j (List.mem_of_getElem? hj)).onChain log tail hp
  obtain ⟨n, hn⟩ := seekJournals_returns time hall
  -- what the two calls give, with enough turns
  have hboth : ∀ fuel, max n (tail.page + log.length + 1) ≤ fuel → ∃ r' j' c,
      JournalReader.seekToTime fuel time (files, r) = .ok (files, r') ∧ r'.journals[i]? = some j' ∧
      Reader.join j.pageSize fuel prefault time (j.disk files) = .ok (j.disk files, c) ∧
      ((j'.cursor.page = c.page ∧ j'.cursor.offset = c.offset) ↔
        ¬ PastTarget j.pageSize (j.disk files) log time j.cursor) := by
    intro fuel hfuel
    obtain ⟨js', hjs⟩ := hn fuel (by omega)
    obtain ⟨-, hmoved⟩ := seekJournals_onFrames hall hjs
    obtain ⟨hi, rfl⟩ := List.getElem?_eq_some_iff.mp hj
    have hi' : i < js'.length := hmoved.length_eq ▸ hi
    obtain ⟨-, c₁, hc₁, hseek⟩ := (List.forall₂_iff_get.mp hmoved).2 i hi hi'
    obtain ⟨c₁', c₂, hseek', hjoin, hiff⟩ :=
      hp.seek_compare hinc hon prefault (show tail.page + log.length < fuel by omega)
    cases hseek.symm.trans hseek'
    refine ⟨{ r with journals := js', needsRebuild := true }, _, c₂, ?_,
      List.getElem?_eq_getElem hi', hjoin, ?_⟩
    · simp only [JournalReader.seekToTime, hjs, Except.ok_map]
    · have hcur : js'[i].cursor = c₁ := congrArg Journal.cursor hc₁
      rw [hcur]
      exact hiff
  constructor
  · rintro ⟨m, hm⟩
    obtain ⟨r', j', c, hseek, hj', hjoin, hsame⟩ := hm (max m (max n (tail.page + log.length + 1)))
      (Nat.le_max_left ..)
    obtain ⟨r'', j'', c', hseek', hj'', hjoin', hiff⟩ := hboth _ (Nat.le_max_right ..)
    cases hseek.symm.trans hseek'
    cases hj'.symm.trans hj''
    cases hjoin.symm.trans hjoin'
    exact hiff.mp hsame
  · intro hnot
    refine ⟨max n (tail.page + log.length + 1), fun fuel hfuel => ?_⟩
    obtain ⟨r', j', c, hseek, hj', hjoin, hiff⟩ := hboth fuel hfuel
    exact ⟨r', j', c, hseek, hj', hjoin, hiff.mpr hnot⟩

end

/-- **Seeking does not depend on where the reader was**, unless it would have to go back
on its page.  A reader has joined any number of journals that one session each has
written, and has been asked for anything since then.  For a journal whose times
increase from frame to frame, `seekToTime` puts the cursor where `join` puts that of a
new reader if and only if the reader is not past the target on the page it is on.  With
positive times that is: its page is the first one, or begins at or before the time, and
a frame it has behind it there is not from before the time. -/
theorem seek_from_anywhere (H : MergeHeap) (files : Files) (prefault : Bool) (r : JournalReader)
    (h : SeekRun H files prefault (files, r)) (i : Nat) (j : Journal) (hj : r.journals[i]? = some j)
    (log : List Entry) (hlog : OneSession j.pageSize (j.disk files) log)
    (hinc : log.Pairwise fun a b => a.frame.genTime < b.frame.genTime) (time : Int64) :
    (SeeksAlike files r i j prefault time ↔ ¬ PastTarget j.pageSize (j.disk files) log
      time j.cursor) ∧
      ((∀ e ∈ log, 0 < e.frame.genTime) →
        (PastTarget j.pageSize (j.disk files) log time j.cursor ↔
          ∃ p, j.cursor.page = some p ∧ (p = 1 ∨ beginOf (j.disk files) p ≤ time) ∧
            ∃ e ∈ log, e.slot.page = p ∧ e.slot.offset < j.cursor.offset ∧
              time ≤ e.frame.genTime)) := by
  refine ⟨h.seeksAlike_iff hj hlog hinc, fun hpos => ?_⟩
  obtain ⟨tail, hp⟩ := hlog.paged
  exact hp.pastTarget_iff hinc hpos
    ((h.onFrames.2.journals j (List.mem_of_getElem? hj)).onChain log tail hp)

/-! ## A reader to try it on -/

/-- What a session of writes leaves, as a journal. -/
theorem written_oneSession {ws : List Write} (hws : ∀ w ∈ ws, w.Ok pageSizeDefault)
    {w : World × Local} (h : written ws = some w) :
    OneSession pageSizeDefault w.1.disk w.1.log ∧
      ∃ thread, w.1.log = journal pageSizeDefault thread ⟨1, pageHeaderSize⟩ 0 ws := by
  have hrun : Runs (Stmt.exec pageSizeDefault) (session ws, fresh true) ([], w) := runs_of_ended h
  have hreach : (⟨true, 0, ws⟩ : Job).Reaches pageSizeDefault .empty ([], w) :=
    Relation.ReflTransGen.mono (fun _ _ hs => Job.Step.own hs) _ _ hrun
  exact ⟨oneSession_of_unwarmed ⟨Nat.zero_le _, hws⟩ rfl hreach,
    (session_log pageSizeDefault true hws hrun).1⟩

theorem SeekRun.execAll {H : MergeHeap} {files : Files} {prefault : Bool}
    {s s' : Files × JournalReader} {cs : List ReaderCall} (h : SeekRun H files prefault s)
    (hfits : ∀ c ∈ cs, ∀ r, c.Fits files r) (he : ReaderCall.execAll H cs s = some s') :
    SeekRun H files prefault s' := by
  induction cs generalizing s with
  | nil =>
    cases he
    exact h
  | cons c cs ih =>
    obtain ⟨t, ht, he⟩ := Option.bind_eq_some_iff.mp he
    have hfixed := h.onFrames.2.fixed
    refine ih (.call h ?_ (Result.eq_returns ht))
      (fun x hx => hfits x (List.mem_cons_of_mem _ hx)) he
    rw [hfixed]
    exact hfits c List.mem_cons_self s.2

/-- A journal with frames of the times 1 and 3, and a reader that has joined it at time 0
and has been asked for `next` a few times. -/
def afterNexts (n : Nat) : Option ((World × Local) × (Files × JournalReader)) :=
  (written [.mark 5 1 7, .bytes 5 3 9 [4]]).bind fun w =>
    (ReaderCall.execAll mergeBySorting (.join 3 ⟨1, .log⟩ 0 0 :: List.replicate n .next)
      (fun _ _ => w.1.disk, { prefault := false })).map fun s => (w, s)

/-- Such a reader, and where it stands. -/
theorem afterNexts_run {n offset : Nat}
    (h : (afterNexts n).map (fun x => x.2.2.journals.map fun j =>
      (j.location.category, j.destId, j.cursor.page, j.cursor.offset)) =
      some [(.log, 0, some 1, offset)]) :
    ∃ (files : Files) (r : JournalReader) (j : Journal) (log : List Entry) (thread : Nat),
      SeekRun mergeBySorting files false (files, r) ∧ r.journals[0]? = some j ∧
      OneSession j.pageSize (j.disk files) log ∧ j.cursor.page = some 1 ∧ j.cursor.offset = offset ∧
      log = [⟨⟨1, 64⟩, (Write.mark 5 1 7).request.frame 0, thread⟩,
        ⟨⟨1, 128⟩, (Write.bytes 5 3 9 [4]).request.frame 1, thread⟩] := by
  obtain ⟨⟨w, files, r⟩, hx, hview⟩ := Option.map_eq_some_iff.mp h
  obtain ⟨w', hw, hx⟩ := Option.bind_eq_some_iff.mp hx
  obtain ⟨s, hs, hx⟩ := Option.map_eq_some_iff.mp hx
  cases hx
  obtain ⟨hone, thread, hlog⟩ := written_oneSession (by decide) hw
  have hrun : SeekRun mergeBySorting (fun _ _ => w.1.disk) false (files, r) := by
    refine SeekRun.execAll .start (fun c hc q => ?_) hs
    rcases List.mem_cons.mp hc with rfl | hc
    · exact ⟨_, hone⟩
    · rw [List.eq_of_mem_replicate hc]
      trivial
  obtain rfl : files = fun _ _ => w.1.disk := hrun.onFrames.2.fixed
  obtain ⟨j, js, hj, hplace, hnil⟩ := List.map_eq_cons_iff.mp hview
  obtain rfl := List.map_eq_nil_iff.mp hnil
  simp only [Prod.mk.injEq] at hplace
  obtain ⟨hcat, hdest, hpage, hoff⟩ := hplace
  have hsize : j.pageSize = pageSizeDefault := by rw [Journal.pageSize, hcat, hdest]; rfl
  refine ⟨_, r, j, w.1.log, thread, hrun, by rw [hj]; rfl, hsize ▸ hone, hpage, hoff, ?_⟩
  rw [hlog]
  exact twoWrites_plan thread

theorem twoFrames_increasing (thread : Nat) :
    [(⟨⟨1, 64⟩, (Write.mark 5 1 7).request.frame 0, thread⟩ : Entry),
      ⟨⟨1, 128⟩, (Write.bytes 5 3 9 [4]).request.frame 1, thread⟩].Pairwise
        (fun a b => a.frame.genTime < b.frame.genTime) := by
  have hlt : ((Write.mark 5 1 7).request.frame 0).genTime <
      ((Write.bytes 5 3 9 [4]).request.frame 1).genTime := by
    decide
  exact List.pairwise_pair.mpr hlt

/-- A reader that has just joined can seek. -/
theorem seek_from_anywhere_start :
    ∃ (files : Files) (r : JournalReader) (j : Journal),
      SeekRun mergeBySorting files false (files, r) ∧
      r.journals[0]? = some j ∧ SeeksAlike files r 0 j false 2 := by
  obtain ⟨files, r, j, log, thread, hrun, hj, hone, hpage, hoff, hlog⟩ :=
    @afterNexts_run 0 64 (by decide +kernel)
  have hseek := seek_from_anywhere mergeBySorting files false r hrun 0 j hj log hone
    (hlog ▸ twoFrames_increasing thread) 2
  refine ⟨files, r, j, hrun, hj, hseek.1.mpr ?_⟩
  rintro ⟨-, e, he, -, hlt, -⟩
  rw [hoff, hlog] at *
  rcases List.mem_cons.mp he with rfl | he
  · exact absurd hlt (Nat.lt_irrefl 64)
  · rw [List.mem_singleton.mp he] at hlt
    exact absurd hlt (show ¬ 128 < 64 by decide)

/-- A reader that has read both frames cannot go back to the first one. -/
theorem seek_stays_behind :
    ∃ (files : Files) (r : JournalReader) (j : Journal) (log : List Entry),
      SeekRun mergeBySorting files false (files, r) ∧ r.journals[0]? = some j ∧
      OneSession j.pageSize (j.disk files) log ∧
        (log.Pairwise fun a b => a.frame.genTime < b.frame.genTime) ∧
      ¬ SeeksAlike files r 0 j false 1 := by
  obtain ⟨files, r, j, log, thread, hrun, hj, hone, hpage, hoff, hlog⟩ :=
    @afterNexts_run 2 192 (by decide +kernel)
  have hinc : log.Pairwise fun a b => a.frame.genTime < b.frame.genTime :=
    hlog ▸ twoFrames_increasing thread
  refine ⟨files, r, j, log, hrun, hj, hone, hinc, ?_⟩
  rw [hrun.seeksAlike_iff hj hone hinc, not_not]
  obtain ⟨tail, hp⟩ := hone.paged
  have hpos : ∀ e ∈ log, 0 < e.frame.genTime := by
    intro e he
    have hall : ∀ f ∈ [(Write.mark 5 1 7).request.frame 0, (Write.bytes 5 3 9 [4]).request.frame 1],
        0 < f.genTime := by decide
    refine hall e.frame ?_
    have := List.mem_map_of_mem (f := Entry.frame) he
    rwa [hlog] at this
  refine (hp.pastTarget_iff hinc hpos
    ((hrun.onFrames.2.journals j (List.mem_of_getElem? hj)).onChain log tail hp)).mpr
    ⟨1, hpage, Or.inl rfl, ?_⟩
  have hge : (1 : Int64) ≤ ((Write.mark 5 1 7).request.frame 0).genTime := by decide
  refine ⟨⟨⟨1, 64⟩, (Write.mark 5 1 7).request.frame 0, thread⟩, by rw [hlog]; simp, rfl, ?_, hge⟩
  rw [hoff]
  exact (by decide : 64 < 192)

end Revoq
