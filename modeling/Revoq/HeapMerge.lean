import Revoq.MergeDrain

/-! # The heap merge

More than three journals.  `rebuildHeap` makes a heap of the heads twice: the current
index is the front of the first one, and the second one is kept.  While both have the
same front the kept heap stays in step with the journals (`InStep`), and draining is
a greedy merge.

If the least `gen_time` is tied the two fronts may differ.  Then the first turn pops
the entry of a journal that was not read: that journal is out of the heap for good,
and the one that was read is in it once too often (`Lost`).
-/
namespace Revoq
open StmtMachine HeapContract GreedyMerge

/-- The least `gen_time` of the journals' first frames belongs to one journal only. -/
def OneLeast (srcs : List (List Entry)) : Prop :=
  ∀ i k, LeastHead (firstTime srcs) i → LeastHead (firstTime srcs) k → i = k

section
variable {H : MergeHeap} {files : Files} {r q : JournalReader} {srcs : List (List Entry)}

/-- A rebuild makes no difference to what is drained. -/
theorem drain_refresh (hs : r.singleFrame = none) (hn : (r.refresh H files).needsRebuild = false)
    (fuel : Nat) :
    JournalReader.drain H fuel (files, r) = JournalReader.drain H fuel
      (files, r.refresh H files) := by
  have hs' : (r.refresh H files).singleFrame = none := sameJournals_refresh.singleFrame.trans hs
  have hidem : (r.refresh H files).refresh H files = r.refresh H files := by
    conv_lhs => rw [JournalReader.refresh, hn]
    rfl
  have havail : r.isDataAvailable H files = (r.refresh H files).isDataAvailable H files := by
    unfold JournalReader.isDataAvailable
    simp only [hs, hs', hidem]
  have htry : r.tryCurrentFrame H files = (r.refresh H files).tryCurrentFrame H files := by
    unfold JournalReader.tryCurrentFrame
    simp only [hs, hs', havail]
  cases fuel with
  | zero => rfl
  | succ fuel => simp only [JournalReader.drain, htry]

/-! ## A heap in step -/

/-- Only the journal that was passed over has a new head. -/
theorem ReadsFrom.heads_set {i : Nat} {rest : List Entry} (h : ReadsFrom files r srcs)
    (h' : ReadsFrom files q (srcs.set i rest)) {k : Nat} (hk : k ≠ i) :
    q.heads files k = r.heads files k := by
  rw [h'.heads_eq, h.heads_eq, firstTime, firstTime, List.getElem?_set_ne (Ne.symm hk)]

/-- **Draining with a heap in step** is a greedy merge. -/
theorem ReadsFrom.drains_inStep (h : ReadsFrom files r srcs) (hs : InStep files r)
    (huse : r.usesHeap = true) : DrainsAs (Least genTimeKey) H files r srcs := by
  generalize hm : total srcs = m
  induction m using Nat.strongRecOn generalizing r srcs with
  | ind m ih =>
    cases hheap : r.heap with
    | nil =>
      refine h.drains_dry ?_ (hs.mirrors.nil_iff.mp hheap) (hs.empty hheap)
      rintro hnil
      simp [JournalReader.usesHeap, hnil] at huse
    | cons top tl =>
      have hrefresh : r.refresh H files = r := by
        rw [JournalReader.refresh, hs.rebuild (by rw [hheap]; exact List.cons_ne_nil _ _)]
        rfl
      have hi : r.currentJournalIdx = some top.2 := by
        rw [hs.index, hheap]
        rfl
      have hleast := hs.least hi
      obtain ⟨t, ht, -⟩ := id hleast
      obtain ⟨e, rest, hsrc, -⟩ := h.heads_some ht
      refine h.drains_shown (by rw [hrefresh]; exact hi) hsrc (h.least hleast hsrc) ?_
      rw [hrefresh]
      intro journals hreads hlen
      have hheads : Heads srcs top.2 e rest := hsrc
      have huse' : ({ r with journals := journals } : JournalReader).usesHeap = true := by
        rw [JournalReader.usesHeap] at huse ⊢
        simpa only [hlen] using huse
      have hlt : top.2 < journals.length := by
        rw [hlen, h.length_eq]
        exact hheads.lt_length
      obtain ⟨q, hq, hstep, hj, h1, h2, h3⟩ := hs.reselect (H := H) huse' hheap ⟨rfl, rfl, rfl⟩ hlt
        fun k hk => h.heads_set hreads hk
      refine ⟨q, hq, ih _ (by have := hheads.total_eq; omega)
        (hreads.of_journals hj h1 h2) hstep ?_ rfl⟩
      rw [JournalReader.usesHeap, hj, h3]
      exact huse'

/-- **A rebuild without a tie, then draining.** -/
theorem ReadsFrom.drains_heap (h : ReadsFrom files r srcs) (huse : r.usesHeap = true)
    (hn : r.needsRebuild = true) (hone : OneLeast srcs) :
    DrainsAs (Least genTimeKey) H files r srcs := by
  have hne : r.journals ≠ [] := by
    rintro hnil
    simp [JournalReader.usesHeap, hnil] at huse
  by_cases hent : r.heapEntries files = []
  · exact h.drains_dry hne ((mirrors_heapEntries files r).nil_iff.mp hent) hn
  · have hheads : r.heads files = firstTime srcs := funext h.heads_eq
    have hrefresh : r.refresh H files = r.rebuildHeap H files := by
      rw [JournalReader.refresh, hn, if_pos rfl]
    have hin := inStep_rebuild (H := H) hne huse hent (hheads ▸ hone)
    have huse' : (r.rebuildHeap H files).usesHeap = true := by
      rw [JournalReader.usesHeap, JournalReader.rebuildHeap_journals]
      rw [JournalReader.usesHeap] at huse
      unfold JournalReader.rebuildHeap
      split_ifs <;> exact huse
    have hdrains := (hrefresh ▸ h.refresh (H := H)).drains_inStep (H := H) hin huse'
    intro fuel hfuel
    rw [drain_refresh h.singleFrame (hrefresh ▸ rebuildHeap_needsRebuild), hrefresh]
    exact hdrains fuel hfuel

/-! ## A heap that has lost a journal -/

/-- The heads without journal `b`. -/
def without (b : Nat) (heads : Nat → Option Int64) (i : Nat) : Option Int64 :=
  if i = b then none else heads i

/-- **Journal `b` is not in the heap**, and journal `a` is in it once too often. -/
structure Lost (files : Files) (a b : Nat) (r : JournalReader) : Prop where
  ne : a ≠ b
  heap : ∃ t rest, r.heap.Perm ((t, a) :: rest) ∧ Mirrors (without b (r.heads files)) rest
  index : r.currentJournalIdx = r.heap.head?.map Prod.snd
  rebuild : r.needsRebuild = false

variable {a b : Nat}

theorem Lost.front (h : Lost files a b r) : ∃ top tl, r.heap = top :: tl ∧ top.2 ≠ b := by
  obtain ⟨t, rest, hperm, hmir⟩ := h.heap
  cases hheap : r.heap with
  | nil =>
    rw [hheap] at hperm
    exact absurd (List.nil_perm.mp hperm) (List.cons_ne_nil _ _)
  | cons top tl =>
    refine ⟨top, tl, rfl, fun hb => ?_⟩
    have hmem : top ∈ (t, a) :: rest := hperm.mem_iff.mp (hheap ▸ List.mem_cons_self)
    rcases List.mem_cons.mp hmem with rfl | hmem
    · exact h.ne hb
    · have := (hmir.mem top.1 top.2).mp hmem
      rw [without, if_pos hb] at this
      cases this

/-- What is in the heap when the front is popped and its journal's new head pushed. -/
theorem Lost.popped (h : Lost files a b r) {top : HeapEntry} {tl : List HeapEntry}
    (hheap : r.heap = top :: tl) {t : Int64} (hhead : r.heads files top.2 = some t)
    {heads : Nat → Option Int64} (hsame : ∀ k, k ≠ top.2 → heads k = r.heads files k) :
    ∃ u rest, (match heads top.2 with
        | none => tl
        | some v => (v, top.2) :: tl).Perm ((u, a) :: rest) ∧ Mirrors (without b heads) rest := by
  obtain ⟨x, rest, hperm, hmir⟩ := h.heap
  obtain ⟨_, _, hheap', hb⟩ := h.front
  cases hheap.symm.trans hheap'
  rw [hheap] at hperm
  have hwithout : ∀ k, k ≠ top.2 → without b heads k = without b (r.heads files) k := by
    intro k hk
    rw [without, without, hsame k hk]
  have htop : without b heads top.2 = heads top.2 := if_neg hb
  -- the entry that mirrors the head of the popped journal
  have hmem : (t, top.2) ∈ rest := (hmir.mem t top.2).mpr ((if_neg hb).trans hhead)
  obtain ⟨rest', hrest⟩ : ∃ rest', rest.Perm ((t, top.2) :: rest') :=
    ⟨rest.erase (t, top.2), List.perm_cons_erase hmem⟩
  have hnew := Mirrors.update _ (hmir.perm hrest.symm) hwithout
  rw [htop] at hnew
  -- either it is the front itself, or the front is the entry too many
  have hpopped : ∃ u, tl.Perm ((u, a) :: rest') := by
    by_cases hx : top = (x, a)
    · subst hx
      exact ⟨t, (hperm.cons_inv).trans hrest⟩
    · have htm : top ∈ rest := by
        rcases List.mem_cons.mp (hperm.mem_iff.mp List.mem_cons_self) with he | hm
        · exact absurd he hx
        · exact hm
      have hteq : top = (t, top.2) := by
        have := (hmir.mem top.1 top.2).mp htm
        rw [without, if_neg hb, hhead] at this
        cases this
        rfl
      have hswap : ((x, a) :: (t, top.2) :: rest').Perm (top :: (x, a) :: rest') := by
        rw [← hteq]
        exact List.Perm.swap _ _ _
      exact ⟨x, List.Perm.cons_inv ((hperm.trans (hrest.cons _)).trans hswap)⟩
  obtain ⟨u, hu⟩ := hpopped
  refine ⟨u, _, ?_, hnew⟩
  cases heads top.2 with
  | none => exact hu
  | some v => exact (hu.cons _).trans (List.Perm.swap _ _ _)

theorem Lost.reselect (h : Lost files a b r) (huse : q.usesHeap = true) {i : Nat}
    (hi : r.currentJournalIdx = some i) {t : Int64} (hhead : r.heads files i = some t)
    (hq : q.heap = r.heap ∧ q.currentJournalIdx = r.currentJournalIdx ∧
      q.needsRebuild = r.needsRebuild)
    (hlt : i < q.journals.length) (hsame : ∀ k, k ≠ i → q.heads files k = r.heads files k) :
    ∃ q', JournalReader.reselect H (files, q) = .returns (files, q') ∧ Lost files a b q' ∧
      q'.journals = q.journals ∧ q'.singleJournal = q.singleJournal ∧
        q'.singleFrame = q.singleFrame ∧
      q'.useHeap = q.useHeap := by
  obtain ⟨hqh, hqi, hqn⟩ := hq
  obtain ⟨top, tl, hheap, -⟩ := h.front
  have htop : top.2 = i := by
    rw [h.index, hheap] at hi
    exact Option.some.inj hi
  subst htop
  obtain ⟨u, rest, hperm, hmir⟩ := h.popped hheap hhead hsame
  obtain ⟨heap, hheaped, hres⟩ :=
    reselect_heap (H := H) _ huse (hqi.trans hi) hlt _ _ (hqh.trans hheap)
  have hperm' := hheaped.perm.trans hperm
  refine ⟨_, hres, ⟨h.ne, ⟨u, rest, hperm', hmir⟩, rfl, ?_⟩, rfl, rfl, rfl, rfl⟩
  simp only
  rw [if_neg, hqn]
  · exact h.rebuild
  · rintro rfl
    exact absurd (List.nil_perm.mp hperm') (List.cons_ne_nil _ _)

/-- **A journal that is out of the heap is never read again.** -/
theorem ReadsFrom.never_delivered (h : ReadsFrom files r srcs) (hl : Lost files a b r)
    (huse : r.usesHeap = true) {fuel : Nat} {out : List (Nat × Frame)} {s : Files × JournalReader}
    (hd : JournalReader.drain H fuel (files, r) = some (out, s)) : ∀ x ∈ out, x.1 ≠ b := by
  induction fuel generalizing r srcs out with
  | zero => cases hd
  | succ fuel ih =>
    obtain ⟨top, tl, hheap, hb⟩ := hl.front
    have hi : r.currentJournalIdx = some top.2 := by
      rw [hl.index, hheap]
      rfl
    have hrefresh : r.refresh H files = r := by
      rw [JournalReader.refresh, hl.rebuild]
      rfl
    cases hhead : r.heads files top.2 with
    | none =>
      -- nothing is shown: the journal has no more frames, or is not there
      have hnone : ∃ q, r.tryCurrentFrame H files = some (none, q) := by
        have hraw : r.currentFrameRaw = r.journals[top.2]? := by
          rw [JournalReader.currentFrameRaw_eq, hi]
          rfl
        unfold JournalReader.tryCurrentFrame JournalReader.isDataAvailable
        simp only [h.singleFrame, hrefresh]
        cases hj : r.journals[top.2]? with
        | none =>
          rw [hj] at hraw
          simp only [hraw]
          exact ⟨_, rfl⟩
        | some j =>
          rw [hj] at hraw
          have hdata : j.hasData files = false := by
            rw [JournalReader.heads_of hj, Journal.head] at hhead
            by_contra hc
            rw [if_pos (by simpa using hc)] at hhead
            cases hhead
          simp only [hraw, hdata]
          exact ⟨_, rfl⟩
      obtain ⟨q, hq⟩ := hnone
      rw [JournalReader.drain] at hd
      simp only [hq] at hd
      cases hd
      intro x hx
      cases hx
    | some t =>
      obtain ⟨e, rest, hsrc, -⟩ := h.heads_some hhead
      obtain ⟨v, hlook, hv, hframe, journals, hadv, hreads, hlen⟩ := h.shown (H := H)
        (by rw [hrefresh]; exact hi) hsrc
      rw [hrefresh] at hlook hframe hadv hreads
      have huse' : ({ r with journals := journals } : JournalReader).usesHeap = true := by
        rw [JournalReader.usesHeap] at huse ⊢
        simpa only [hlen] using huse
      have hlt : top.2 < journals.length := by
        rw [hlen, h.length_eq]
        exact (List.getElem?_eq_some_iff.mp hsrc).1
      obtain ⟨q, hq, hlost, hj, h1, h2, h3⟩ :=
        hl.reselect (H := H) huse' hi hhead ⟨rfl, rfl, rfl⟩ hlt
        fun k hk => h.heads_set hreads hk
      rw [JournalReader.drain] at hd
      simp only [hlook, hframe, hadv, hq, Option.map_eq_some_iff] at hd
      obtain ⟨⟨out', s'⟩, hd', heq⟩ := hd
      cases heq
      intro x hx
      rcases List.mem_cons.mp hx with rfl | hx
      · rw [hv]
        exact hb
      · refine ih (hreads.of_journals hj h1 h2) hlost ?_ hd' x hx
        rw [JournalReader.usesHeap, hj, h3]
        exact huse'

/-! ## Two heaps at odds -/

/-- A heap with a given entry in front, if it may be there. -/
def favour (z : HeapEntry) (xs : List HeapEntry) : List HeapEntry :=
  if z ∈ xs ∧ ∀ b ∈ xs, journalComparator z b = false then z :: xs.erase z
  else mergeBySorting.makeHeap xs

theorem favour_heaped (z : HeapEntry) (xs : List HeapEntry) :
    Heaped journalComparator xs (favour z xs) := by
  unfold favour
  split
  · rename_i hz
    refine ⟨(List.perm_cons_erase hz.1).symm, fun x hx y hy => ?_⟩
    cases hx
    exact hz.2 y ((List.perm_cons_erase hz.1).mem_iff.mpr hy)
  · exact mergeBySorting.makeHeap_heaped xs

/-- Heap functions that favour one entry at first and another one later. -/
def atOdds (x y : HeapEntry) : MergeHeap :=
  { mergeBySorting with
    makeHeap := favour x
    queue := favour y
    makeHeap_heaped := favour_heaped x
    queue_heaped := favour_heaped y }

/-- **The first turn after a tie loses a journal.** -/
theorem ReadsFrom.tie_loses (h : ReadsFrom files r srcs) (huse : r.usesHeap = true)
    (hn : r.needsRebuild = true) (hab : a ≠ b) {t : Int64} (ha : r.heads files a = some t)
    (hb : r.heads files b = some t) (hleast : ∀ k u, r.heads files k = some u → t ≤ u) {fuel : Nat}
    {out : List (Nat × Frame)} {s : Files × JournalReader}
    (hd : JournalReader.drain (atOdds (t, a) (t, b)) fuel (files, r) = some (out, s)) :
    ∀ x ∈ out, x.1 ≠ b := by
  have hne : r.journals ≠ [] := by
    rintro hnil
    simp [JournalReader.usesHeap, hnil] at huse
  have hmir := mirrors_heapEntries files r
  have hfront : ∀ k, ∀ x ∈ r.heapEntries files, journalComparator (t, k) x = false := by
    intro k x hx
    rw [journalComparator, decide_eq_false_iff_not, gt_iff_lt, Int64.not_lt]
    exact hleast x.2 x.1 ((hmir.mem x.1 x.2).mp hx)
  have hmakeHeap :
      favour (t, a) (r.heapEntries files) = (t, a) :: (r.heapEntries files).erase (t, a) :=
    if_pos ⟨(hmir.mem t a).mpr ha, hfront a⟩
  have hperm : ((t, a) :: (r.heapEntries files).erase (t, a)).Perm (r.heapEntries files) :=
    (List.perm_cons_erase ((hmir.mem t a).mpr ha)).symm
  generalize htemp : (t, a) :: (r.heapEntries files).erase (t, a) = temp at hmakeHeap hperm
  have hmir' := hmir.perm hperm
  have hqueue : favour (t, b) temp = (t, b) :: temp.erase (t, b) :=
    if_pos ⟨(hmir'.mem t b).mpr hb, fun x hx => hfront b x (hperm.mem_iff.mp hx)⟩
  have hmir'' : Mirrors (r.heads files) ((t, b) :: temp.erase (t, b)) :=
    hmir'.perm (List.perm_cons_erase ((hmir'.mem t b).mpr hb)).symm
  have hrefresh : r.refresh (atOdds (t, a) (t, b)) files = { r with
      currentJournalIdx := some a
      heap := (t, b) :: temp.erase (t, b)
      needsRebuild := false } := by
    have hent : r.heapEntries files ≠ [] := fun he => by
      have := (hmir.mem t a).mpr ha
      rw [he] at this
      cases this
    rw [JournalReader.refresh, hn, if_pos rfl, JournalReader.rebuildHeap, if_neg hne,
      huse, if_pos rfl, if_neg hent]
    have hhead : temp.head? = some (t, a) := htemp ▸ rfl
    simp only [atOdds, hmakeHeap, hqueue, hhead, Option.map_some]
  generalize temp.erase (t, b) = tl at hrefresh hmir''
  cases fuel with
  | zero => cases hd
  | succ fuel =>
    obtain ⟨e, rest, hsrc, -⟩ := h.heads_some ha
    obtain ⟨v, hlook, hv, hframe, journals, hadv, hreads, hlen⟩ := h.shown
      (H := atOdds (t, a) (t, b)) (by rw [hrefresh]) hsrc
    generalize hq : ({ r.refresh (atOdds (t, a) (t, b)) files with journals := journals } :
      JournalReader) = q at hadv hreads
    rw [hrefresh] at hq
    have hqu : q.usesHeap = true := by
      rw [← hq]
      rw [JournalReader.usesHeap] at huse ⊢
      simpa only [hlen] using huse
    have hlt : a < q.journals.length := by
      rw [hreads.length_eq, List.length_set]
      exact (List.getElem?_eq_some_iff.mp hsrc).1
    obtain ⟨heap, hheaped, hres⟩ := reselect_heap (H := atOdds (t, a) (t, b)) files hqu
      (i := a) (by rw [← hq]) hlt (t, b) tl (by rw [← hq])
    -- the heap without `b`, then with the new head of `a` as well as the old one
    have hwithout : Mirrors (without b (r.heads files)) tl := by
      have := hmir''.update (without b (r.heads files)) fun k hk => if_neg hk
      simpa only [without, if_true] using this
    have hmem : (t, a) ∈ tl := (hwithout.mem t a).mpr ((if_neg hab).trans ha)
    have hsplit := List.perm_cons_erase hmem
    have hnew := (hwithout.perm hsplit.symm).update (without b (q.heads files)) fun k hk => by
      rw [without, without, h.heads_set hreads hk]
    have hqa : without b (q.heads files) a = q.heads files a := if_neg hab
    have hlost : ∃ u rest, heap.Perm ((u, a) :: rest) ∧
        Mirrors (without b (q.heads files)) rest := by
      refine ⟨t, _, hheaped.perm.trans ?_, hnew⟩
      simp only [hqa]
      cases q.heads files a with
      | none => exact hsplit
      | some w => exact (hsplit.cons _).trans (List.Perm.swap _ _ _)
    obtain ⟨u, rest', hperm', hmirq⟩ := hlost
    have hheap : heap ≠ [] := fun he => by
      rw [he] at hperm'
      exact absurd (List.nil_perm.mp hperm') (List.cons_ne_nil _ _)
    have hstate : Lost files a b { q with
        heap := heap
        currentJournalIdx := heap.head?.map Prod.snd
        needsRebuild := if heap = [] then true else q.needsRebuild } := by
      refine ⟨hab, ⟨u, rest', hperm', hmirq⟩, rfl, ?_⟩
      simp only [if_neg hheap, ← hq]
    rw [JournalReader.drain] at hd
    simp only [hlook, hframe, hadv, hres, Option.map_eq_some_iff] at hd
    obtain ⟨⟨out', s'⟩, hd', heq⟩ := hd
    cases heq
    intro x hx
    rcases List.mem_cons.mp hx with rfl | hx
    · rw [hv]
      exact hab
    · refine ReadsFrom.never_delivered (?_ : ReadsFrom files _ (srcs.set a rest)) hstate ?_ hd' x hx
      · exact hreads.of_journals rfl rfl rfl
      · exact hqu

end

/-- **When the heap merge is a greedy merge.**  More than three journals with any
contents, joined from time 0: whatever the heap functions do about ties, draining
delivers every frame exactly once, each journal's in order, and at each step one with
the least `gen_time`, if and only if the least `gen_time` among the first frames
belongs to one journal only. -/
theorem heap_merge_iff (prefault : Bool) (files : Files) (js : List (Location × UInt32))
    (srcs : List (List Entry)) (fuel : Nat) (h3 : 3 < js.length) (hd : Distinct js)
    (hst : List.Forall₂ (StoredAt files) js srcs) :
    (∀ H : MergeHeap, ∃ r,
      ReaderCall.execAll H (joinAll (fuel + 1) js) (files, { prefault := prefault }) =
        some (files, r) ∧
      ∀ turns, total srcs < turns → ∃ out r',
        JournalReader.drain H turns (files, r) = some (out, (files, r')) ∧
        Merges (Least genTimeKey) (framesOf srcs) out ∧
        (∀ i es, srcs[i]? = some es → ofSource i out = es.map Entry.frame) ∧
        r'.tryCurrentFrame H files = some (none, r')) ↔ OneLeast srcs := by
  have hjoined : ∀ H, ∃ r,
      ReaderCall.execAll H (joinAll (fuel + 1) js) (files, { prefault := prefault }) =
        some (files, r) ∧
      ReadsFrom files r srcs ∧ r.usesHeap = true ∧ r.needsRebuild = true := by
    intro H
    obtain ⟨r, hr, hj⟩ := (joined_new files prefault).joinAll hd hst H fuel
    rw [List.nil_append, List.nil_append] at hj
    refine ⟨r, hr, hj.readsFrom (by omega), ?_, hj.needsRebuild⟩
    have := hj.length_eq
    have hlt : r.journals.length > 3 := by omega
    simp [JournalReader.usesHeap, hj.useHeap, hlt]
  constructor
  · intro hall i k hi hk
    obtain ⟨t, hit, hile⟩ := hi
    obtain ⟨u, hku, hkle⟩ := hk
    obtain rfl : t = u := Int64.le_antisymm (hile k u hku) (hkle i t hit)
    by_contra hik
    obtain ⟨r, hr, hdrain⟩ := hall (atOdds (t, i) (t, k))
    obtain ⟨q, hq, hreads, huse, hn⟩ := hjoined (atOdds (t, i) (t, k))
    cases hr.symm.trans hq
    obtain ⟨out, r', hd', -, hown, -⟩ := hdrain _ (Nat.lt_succ_self _)
    rw [← hreads.heads_eq] at hit hku
    have hlost := hreads.tie_loses huse hn hik hit hku
      (fun m v hm => hile m v (by rw [← hreads.heads_eq]; exact hm)) hd'
    obtain ⟨e, rest, hsrc, -⟩ := hreads.heads_some hku
    have hmem : e.frame ∈ ofSource k out := by
      rw [hown k _ hsrc]
      exact List.mem_map_of_mem List.mem_cons_self
    rw [ofSource, List.mem_map] at hmem
    obtain ⟨x, hx, -⟩ := hmem
    obtain ⟨hx, hk'⟩ := List.mem_filter.mp hx
    exact hlost x hx (by simpa using hk')
  · intro hone H
    obtain ⟨r, hr, hreads, huse, hn⟩ := hjoined H
    refine ⟨r, hr, fun turns hturns => ?_⟩
    obtain ⟨out, r', hdrain, hmerge, hend⟩ := hreads.drains_heap huse hn hone turns hturns
    refine ⟨out, r', hdrain, hmerge, fun i es hes => ?_, hend⟩
    refine hmerge.ofSource (fun _ _ _ _ hp => hp.head) ?_
    rw [framesOf, List.getElem?_map, hes]
    rfl

/-- Four journals, of which one has a frame. -/
theorem heap_merge_one :
    ∃ (files : Files) (es : List Entry), es ≠ [] ∧ ∀ H : MergeHeap, ∃ r,
      ReaderCall.execAll H (joinAll 1 fourJournals)
        (files, { prefault := false }) = some (files, r) ∧
      ∃ out r', JournalReader.drain H (total [es, [], [], []] + 1)
        (files, r) = some (out, (files, r')) ∧
        ofSource 0 out = es.map Entry.frame := by
  obtain ⟨s, -, hrun, -⟩ := session_returns pageSizeDefault true
    (show ∀ w ∈ [Write.mark 5 1 7], w.Ok pageSizeDefault by decide)
  obtain ⟨s', -, hrun', -⟩ := session_returns pageSizeDefault true
    (show ∀ w ∈ ([] : List Write), w.Ok pageSizeDefault by simp)
  have hlog' : s'.1.log = [] := by
    obtain ⟨⟨thread, hlog⟩, -⟩ := session_log pageSizeDefault true (by simp) hrun'
    exact hlog
  have hlog : s.1.log ≠ [] := by
    obtain ⟨⟨thread, hlog⟩, -⟩ := session_log pageSizeDefault true (by decide) hrun
    rw [hlog]
    simp [journal, layOut, place]
  let files : Files := fun uid _ => if uid = 0 then s.1.disk else s'.1.disk
  have hempty : ∀ uid : UInt32, uid ≠ 0 → StoredAt files (⟨uid, .log⟩, 0) [] := fun uid hu =>
    hlog' ▸ storedAt_session (if_neg hu) (by simp) hrun'
  have hst : List.Forall₂ (StoredAt files) fourJournals [s.1.log, [], [], []] :=
    .cons (storedAt_session rfl (by decide) hrun)
      (.cons (hempty 1 (by decide))
        (.cons (hempty 2 (by decide)) (.cons (hempty 3 (by decide)) .nil)))
  have hone : OneLeast [s.1.log, [], [], []] := by
    have hzero : ∀ i t, firstTime [s.1.log, [], [], []] i = some t → i = 0 := by
      intro i t hi
      rcases i with _ | _ | _ | _ | i
      · rfl
      all_goals cases hi
    rintro i k ⟨t, hi, -⟩ ⟨u, hk, -⟩
    rw [hzero i t hi, hzero k u hk]
  refine ⟨files, s.1.log, hlog, fun H => ?_⟩
  obtain ⟨r, hr, h⟩ :=
    (heap_merge_iff false files fourJournals _ 0 (by decide) (by decide) hst).mpr hone H
  obtain ⟨out, r', hdrain, -, hown, -⟩ := h _ (Nat.lt_succ_self _)
  exact ⟨r, hr, out, r', hdrain, hown 0 _ rfl⟩

/-- Four journals with a `mark` each, stamped 1, 1, 2 and 3: one frame is delivered
and three never are. -/
theorem heap_merge_loses_frames :
    ∃ (files : Files) (srcs : List (List Entry)), List.Forall₂ (StoredAt files) fourJournals srcs ∧
      total srcs = 4 ∧ ∃ r out s,
        ReaderCall.execAll mergeBySorting (joinAll 1 fourJournals) (files, { prefault := false }) =
          some (files, r) ∧
        JournalReader.drain mergeBySorting 5 (files, r) = some (out, s) ∧
          out.map Prod.fst = [1] := by
  have h : (written [.mark 5 1 7]).bind (fun s₀ => (written [.mark 5 1 7]).bind fun s₁ =>
      (written [.mark 5 2 7]).bind fun s₂ => (written [.mark 5 3 7]).bind fun s₃ =>
        (ReaderCall.execAll mergeBySorting (joinAll 1 fourJournals)
          (fourFiles s₀ s₁ s₂ s₃, { prefault := false })).bind fun x =>
          (JournalReader.drain mergeBySorting 5 x).map fun y =>
            (total [s₀.1.log, s₁.1.log, s₂.1.log, s₃.1.log], y.1.map Prod.fst)) =
            some (4, [1]) := by
    decide +kernel
  obtain ⟨s₀, h₀, h⟩ := Option.bind_eq_some_iff.mp h
  obtain ⟨s₁, h₁, h⟩ := Option.bind_eq_some_iff.mp h
  obtain ⟨s₂, h₂, h⟩ := Option.bind_eq_some_iff.mp h
  obtain ⟨s₃, h₃, h⟩ := Option.bind_eq_some_iff.mp h
  obtain ⟨x, hx, h⟩ := Option.bind_eq_some_iff.mp h
  obtain ⟨y, hy, hresult⟩ := Option.map_eq_some_iff.mp h
  have hst : List.Forall₂ (StoredAt (fourFiles s₀ s₁ s₂ s₃)) fourJournals
      [s₀.1.log, s₁.1.log, s₂.1.log, s₃.1.log] :=
    .cons (storedAt_session rfl (by decide) (runs_of_ended h₀))
      (.cons (storedAt_session rfl (by decide) (runs_of_ended h₁))
        (.cons (storedAt_session rfl (by decide) (runs_of_ended h₂))
          (.cons (storedAt_session rfl (by decide) (runs_of_ended h₃)) .nil)))
  obtain ⟨r, hr, -⟩ := (joined_new (fourFiles s₀ s₁ s₂ s₃) false).joinAll (by decide) hst
    mergeBySorting 0
  cases hx.symm.trans hr
  obtain ⟨htotal, hout⟩ := Prod.mk.inj hresult
  exact ⟨_, _, hst, htotal, r, y.1, y.2, hr, hy, hout⟩

end Revoq
