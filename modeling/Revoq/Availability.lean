import Revoq.MergeDrain

/-! # Whether there is a frame

`isDataAvailable` goes one of three ways: the only journal is asked, a scan looks for
the least `gen_time`, or the index the heap left is looked at.  The index is either
about to be found again (`needs_rebuild_`), or good (`Tracks`).

Two things go wrong.  The scan starts from the largest `int64` and finds nothing if
no frame is stamped before it.  And a heap that was built over a tie may lose a
journal, after which the index gets stuck at one without frames.
-/
namespace Revoq
open StmtMachine HeapContract

/-- Some joined journal stands on a committed frame. -/
def HasFrame (s : Files × JournalReader) : Prop := ∃ j ∈ s.2.journals, j.hasData s.1 = true

/-- If a rebuild of the heap is due, the least `gen_time` belongs to one journal. -/
def NoTie (s : Files × JournalReader) : Prop := s.2.usesHeap = true → s.2.needsRebuild = true →
  ∀ i k, LeastHead (s.2.heads s.1) i → LeastHead (s.2.heads s.1) k → i = k

/-- If the journals are scanned and there are frames, not all of them are stamped with
the largest `int64`. -/
def Scannable (s : Files × JournalReader) : Prop := 1 < s.2.journals.length → s.2.usesHeap = false →
  HasFrame s → ∃ i t, s.2.heads s.1 i = some t ∧ t < Int64.maxValue

/-- The calls that may rebuild. -/
def ReaderCall.looks : ReaderCall → Bool
  | .isDataAvailable | .tryCurrentFrame | .nextStatic => true
  | _ => false

/-- **What any sequence of calls reaches**, where each call that may rebuild finds an
`ok` state.  The page files change only by what the calls do to them. -/
inductive CallRun (H : MergeHeap) (ok : Files × JournalReader → Prop) (prefault : Bool) :
    Files × JournalReader → Prop where
  | start (files : Files) : CallRun H ok prefault (files, { prefault := prefault })
  | returned {s s' : Files × JournalReader} {c : ReaderCall} (run : CallRun H ok prefault s)
      (hok : c.looks = true → ok s) (he : c.exec H s = .returns s') : CallRun H ok prefault s'
  | threw {s s' : Files × JournalReader} {c : ReaderCall} (run : CallRun H ok prefault s)
      (hok : c.looks = true → ok s) (he : c.exec H s = .throws s') : CallRun H ok prefault s'

/-- **The index is good, or will be found again.** -/
inductive Tracks (files : Files) (r : JournalReader) : Prop where
  | due (h : r.needsRebuild = true)
  | single (h : r.journals.length ≤ 1)
  | heap (huse : r.usesHeap = true) (h : InStep files r)
  | scan (huse : r.usesHeap = false) (i : Nat) (hi : r.currentJournalIdx = some i) (t : Int64)
      (ht : r.heads files i = some t) (hlt : t < Int64.maxValue)

section
variable {H : MergeHeap} {files : Files} {r r' : JournalReader}

theorem hasFrame_iff : HasFrame (files, r) ↔ ∃ i t, r.heads files i = some t := by
  constructor
  · rintro ⟨j, hj, hd⟩
    obtain ⟨i, hi⟩ := List.mem_iff_getElem?.mp hj
    exact ⟨i, _, JournalReader.heads_eq_some.mpr ⟨j, hi, hd, rfl⟩⟩
  · rintro ⟨i, t, ht⟩
    obtain ⟨j, hj, hd, -⟩ := JournalReader.heads_eq_some.mp ht
    exact ⟨j, List.mem_of_getElem? hj, hd⟩

theorem findMinimumLinear_lt {i : Nat} (h : r.findMinimumLinear files = some i) :
    ∃ t, r.heads files i = some t ∧ t < Int64.maxValue := by
  obtain ⟨j, hj, hhead, hlt⟩ := (scanned_findMinimumLinear files r.journals).found i h
  exact ⟨_, (JournalReader.heads_of hj).trans hhead, hlt⟩

variable (files) in
/-- The frame at an index with a head. -/
theorem currentFrameRaw_of_head {i : Nat} {t : Int64} (hi : r.currentJournalIdx = some i)
    (ht : r.heads files i = some t) : ∃ j, r.currentFrameRaw = some j ∧ j.hasData files = true := by
  obtain ⟨j, hj, hd, -⟩ := JournalReader.heads_eq_some.mp ht
  refine ⟨j, ?_, hd⟩
  rw [JournalReader.currentFrameRaw_eq, hi]
  exact hj

variable (H files) in
/-- What a scan that was due leaves. -/
theorem refresh_scan (hne : r.journals ≠ []) (huse : r.usesHeap = false)
    (hn : r.needsRebuild = true) :
    r.refresh H files =
      { r with currentJournalIdx := r.findMinimumLinear files, needsRebuild := false } := by
  rw [JournalReader.refresh, if_pos hn, JournalReader.rebuildHeap, if_neg hne, huse]
  rfl

theorem refresh_of_not_due (hn : ¬ r.needsRebuild = true) : r.refresh H files = r := if_neg hn

/-! ## The calls keep the index good -/

theorem Tracks.look (h : Tracks files r) (ht : NoTie (files, r)) :
    Tracks files (r.settled H files) := by
  by_cases hlen : r.journals.length ≤ 1
  · refine .single ?_
    rw [JournalReader.settled_journals]
    exact hlen
  have hne : r.journals ≠ [] := by
    rintro hnil
    rw [hnil] at hlen
    exact hlen (Nat.zero_le 1)
  have huses : (r.settled H files).usesHeap = r.usesHeap := by
    rw [JournalReader.usesHeap, JournalReader.usesHeap, JournalReader.settled_useHeap,
      JournalReader.settled_journals]
  by_cases hn : r.needsRebuild = true
  · by_cases huse : r.usesHeap = true
    · rcases JournalReader.settled_heap (H := H) huse hn (ht huse hn) with ⟨hn', -⟩ | ⟨hin, -⟩
      · exact .due hn'
      · exact .heap (huses.trans huse) hin
    · have huse : r.usesHeap = false := by simpa using huse
      have hrefresh := refresh_scan H files hne huse hn
      cases hmin : r.findMinimumLinear files with
      | none =>
        refine .due ?_
        rw [JournalReader.settled_of_index_none hne (by rw [hrefresh]; exact hmin)]
      | some i =>
        obtain ⟨t, hti, hlt⟩ := findMinimumLinear_lt hmin
        obtain ⟨j, hj, -⟩ := currentFrameRaw_of_head files (r := r.refresh H files)
          (i := i) (t := t) (by rw [hrefresh]; exact hmin) (by rw [hrefresh]; exact hti)
        refine .scan (huses.trans huse) i ?_ t ?_ hlt
        · rw [JournalReader.settled_of_raw hj, hrefresh]
          exact hmin
        · rw [JournalReader.heads, JournalReader.settled_journals]
          exact hti
  · -- there is nothing to rebuild and the index is good: the look changes nothing
    have hrefresh : r.refresh H files = r := refresh_of_not_due hn
    obtain ⟨j, hj⟩ : ∃ j, r.currentFrameRaw = some j := by
      cases h with
      | due h => exact absurd h hn
      | single h => exact absurd h hlen
      | heap huse h =>
        obtain ⟨j, hj, -⟩ := h.raw fun he => hn (h.empty he)
        exact ⟨j, hj⟩
      | scan huse i hi t ht hlt =>
        obtain ⟨j, hj, -⟩ := currentFrameRaw_of_head files hi ht
        exact ⟨j, hj⟩
    rw [JournalReader.settled_of_raw (j := j) (by rw [hrefresh]; exact hj), hrefresh]
    exact h

theorem Tracks.next (h : Tracks files r) (hb : Bookkeeping r) {s : Files × JournalReader}
    (he : JournalReader.next H (files, r) = .returns s) : Tracks s.1 s.2 := by
  have hsame : SameJournals r s.2 := by
    have := keeps_next H files hb
    rwa [he] at this
  cases h with
  | due h => exact .due (JournalReader.next_needsRebuild h he).1
  | single h => exact .single (hsame.length_eq ▸ h)
  | heap huse h =>
    by_cases hne : r.heap = []
    · exact .due (JournalReader.next_needsRebuild (h.empty hne) he).1
    · obtain ⟨hin, hu⟩ := h.next hb huse hne he
      refine .heap ?_ hin
      rw [JournalReader.usesHeap] at huse ⊢
      rw [hu, hsame.length_eq]
      exact huse
  | scan huse i hi t ht hlt =>
    rcases JournalReader.next_returns he with rfl | ⟨k, v, hs, -⟩ | ⟨k, x, -, -, hstep, hre⟩
    · exact .scan huse i hi t ht hlt
    · refine .single ?_
      by_contra hlen
      have hlen' := hsame.length_eq
      exact hs (hb.several (by omega)).1
    · obtain ⟨j, d, c, -, rfl⟩ := stepJournal_returns hstep
      refine .due (JournalReader.reselect_needsRebuild (Or.inr ?_) hre).1
      rw [JournalReader.usesHeap] at huse ⊢
      simpa only [List.length_set] using huse

theorem Tracks.advance (h : Tracks files r) (hb : Bookkeeping r) {v : FrameView}
    {s : Files × JournalReader} (he : JournalReader.advance H v (files, r) = .returns s) :
    Tracks s.1 s.2 := by
  cases hs : r.singleJournal with
  | none => exact h.next hb (JournalReader.advance_several hs ▸ he)
  | some address =>
    refine .single ?_
    have hsame : SameJournals r s.2 := by
      have := keeps_advance H files hb v
      rwa [he] at this
    by_contra hlen
    have hlen' := hsame.length_eq
    rw [(hb.several (by omega)).1] at hs
    cases hs

theorem Tracks.isDataAvailable (h : Tracks files r) (ht : NoTie (files, r)) {b : Bool}
    (he : r.isDataAvailable H files = some (b, r')) : Tracks files r' := by
  cases hs : r.singleFrame with
  | none =>
    rw [JournalReader.isDataAvailable_several hs] at he
    cases he
    exact h.look ht
  | some address =>
    unfold JournalReader.isDataAvailable at he
    simp only [hs] at he
    obtain ⟨j, -, hj⟩ := Option.map_eq_some_iff.mp he
    cases hj
    exact h

theorem Tracks.tryCurrentFrame (h : Tracks files r) (ht : NoTie (files, r)) {v : Option MergedView}
    (he : r.tryCurrentFrame H files = some (v, r')) : Tracks files r' := by
  cases hs : r.singleFrame with
  | none =>
    rw [JournalReader.tryCurrentFrame_several hs he]
    exact h.look ht
  | some address =>
    unfold JournalReader.tryCurrentFrame at he
    simp only [hs] at he
    obtain ⟨j, -, hj⟩ := Option.map_eq_some_iff.mp he
    cases hj
    exact h

theorem Tracks.join (h : Tracks files r) {fuel : Nat} {location : Location} {destId : UInt32}
    {fromTime : Int64} {s : Files × JournalReader}
    (he : JournalReader.join fuel location destId fromTime (files, r) = .returns s ∨
      JournalReader.join fuel location destId fromTime (files, r) = .throws s) :
        Tracks s.1 s.2 := by
  unfold JournalReader.join at he
  simp only at he
  split at he
  · rcases he with he | he
    · cases he
      exact h
    · cases he
  · split at he
    · rcases he with he | he
      · cases he
      · cases he
        exact h
    · rcases he with he | he
      · cases he
        exact .due rfl
      · cases he

theorem Tracks.disjoin (h : Tracks files r) (locationUid : UInt32) :
    Tracks files (r.disjoin locationUid) := by
  unfold JournalReader.disjoin
  simp only
  split
  · exact .due rfl
  · exact h

/-- `nextStatic` is a look and, if a frame is shown, an `advance`. -/
theorem nextStatic_cases {x : Result (Files × JournalReader)}
    (he : JournalReader.nextStatic H (files, r) = x) (hx : ∀ s, x ≠ .faults s) :
    ∃ v r', r.tryCurrentFrame H files = some (v, r') ∧
      (x = .returns (files, r') ∨ ∃ w, x = JournalReader.advance H w (files, r')) := by
  unfold JournalReader.nextStatic at he
  simp only at he
  split at he
  · exact absurd he.symm (hx _)
  · rename_i q hq
    exact ⟨none, q, hq, Or.inl he.symm⟩
  · rename_i v q hq
    exact ⟨some v, q, hq, Or.inr ⟨_, he.symm⟩⟩

/-- **Every call** keeps the index good. -/
theorem Tracks.exec (h : Tracks files r) (hb : Bookkeeping r) {c : ReaderCall}
    (hok : c.looks = true → NoTie (files, r)) {s : Files × JournalReader}
    (he : c.exec H (files, r) = .returns s ∨ c.exec H (files, r) = .throws s) : Tracks s.1 s.2 := by
  cases c with
  | join fuel location destId fromTime => exact h.join he
  | disjoin locationUid =>
    rcases he with he | he
    · cases he
      exact h.disjoin locationUid
    · cases he
  | setUseHeap useHeap =>
    rcases he with he | he
    · cases he
      exact .due rfl
    · cases he
  | isDataAvailable =>
    simp only [ReaderCall.exec] at he
    split at he
    · rcases he with he | he <;> cases he
    · rename_i b q hq
      rcases he with he | he
      · cases he
        exact h.isDataAvailable (hok rfl) hq
      · cases he
  | tryCurrentFrame =>
    simp only [ReaderCall.exec] at he
    split at he
    · rcases he with he | he <;> cases he
    · rename_i v q hq
      rcases he with he | he
      · cases he
        exact h.tryCurrentFrame (hok rfl) hq
      · cases he
  | next =>
    rcases he with he | he
    · exact h.next hb he
    · cases JournalReader.next_throws he
      exact h
  | advance v =>
    rcases he with he | he
    · exact h.advance hb he
    · cases JournalReader.advance_throws he
      exact h
  -- a look, and an advance if the look has shown a frame
  | nextStatic =>
    obtain ⟨v, q, hlook, hx⟩ : ∃ v q, r.tryCurrentFrame H files = some (v, q) ∧
        (s = (files, q) ∨ ∃ w, JournalReader.advance H w (files, q) = .returns s ∨
          JournalReader.advance H w (files, q) = .throws s) := by
      rcases he with he | he <;>
        obtain ⟨v, q, hlook, hx | ⟨w, hx⟩⟩ := nextStatic_cases he (fun _ => by simp)
      · cases hx
        exact ⟨v, q, hlook, Or.inl rfl⟩
      · exact ⟨v, q, hlook, Or.inr ⟨w, Or.inl hx.symm⟩⟩
      · cases hx
      · exact ⟨v, q, hlook, Or.inr ⟨w, Or.inr hx.symm⟩⟩
    have hq := h.tryCurrentFrame (hok rfl) hlook
    have hbq : Bookkeeping q := by
      obtain ⟨_, _, hlook', hsame⟩ := tryCurrentFrame_returns H files hb
      cases hlook.symm.trans hlook'
      exact hsame.bookkeeping hb
    rcases hx with rfl | ⟨w, hx | hx⟩
    · exact hq
    · exact hq.advance hbq hx
    · cases JournalReader.advance_throws hx
      exact hq

/-- **A whole run.** -/
theorem CallRun.tracks {prefault : Bool} {s : Files × JournalReader}
    (h : CallRun H NoTie prefault s) :
    Bookkeeping s.2 ∧ Tracks s.1 s.2 := by
  induction h with
  | start files =>
    exact ⟨⟨rfl, List.nodup_nil, fun j hj => (by cases hj), fun _ => ⟨rfl, rfl⟩⟩, .due rfl⟩
  | @returned s s' c _ hok he ih =>
    refine ⟨?_, ih.2.exec ih.1 hok (Or.inl he)⟩
    have := ih.1.exec H s.1 c
    rwa [he] at this
  | @threw s s' c _ hok he ih =>
    refine ⟨?_, ih.2.exec ih.1 hok (Or.inr he)⟩
    have := ih.1.exec H s.1 c
    rwa [he] at this

/-! ## The answer -/

variable (H files) in
/-- Asking the only journal. -/
theorem available_single (hb : Bookkeeping r) {address : Nat} (hs : r.singleFrame = some address) :
    ∃ b, r.isDataAvailable H files = some (b, r) ∧ (b = true ↔ HasFrame (files, r)) := by
  obtain ⟨j, hj, hd, -⟩ := hb.deref hs
  refine ⟨j.hasData files, ?_, ?_⟩
  · unfold JournalReader.isDataAvailable
    simp only [hs, hd, Option.map_some]
  · simp only [HasFrame, hj, List.mem_singleton, exists_eq_left]

/-- What the index is once it has been looked after: a journal with a head that counts,
or none because there is no such journal.  By scanning, a frame stamped with the
largest `int64` does not count. -/
theorem Tracks.refreshed (h : Tracks files r) (hlen : 1 < r.journals.length) :
    (∃ i t, (r.refresh H files).currentJournalIdx = some i ∧ r.heads files i = some t ∧
      (r.usesHeap = false → t < Int64.maxValue)) ∨
    ((r.refresh H files).currentJournalIdx = none ∧
      ∀ i t, r.heads files i = some t → r.usesHeap = false ∧ t = Int64.maxValue) := by
  have hne : r.journals ≠ [] := by
    rintro hnil
    rw [hnil] at hlen
    cases hlen
  by_cases hn : r.needsRebuild = true
  · have hrefresh : r.refresh H files = r.rebuildHeap H files := if_pos hn
    by_cases huse : r.usesHeap = true
    · have hmir := mirrors_heapEntries files r
      rw [hrefresh]
      by_cases hent : r.heapEntries files = []
      · have hdry := hmir.nil_iff.mp hent
        rw [rebuildHeap_dry hne hdry]
        refine Or.inr ⟨rfl, fun i t ht => ?_⟩
        rw [hdry i] at ht
        cases ht
      · have htemp := H.makeHeap_heaped (r.heapEntries files)
        obtain ⟨a, tl, ha, -⟩ := htemp.exists_front hent
        have hfront := (hmir.front_least htemp (by rw [ha]; rfl)).1
        refine Or.inl ⟨a.2, a.1, ?_, hfront, fun hc => ?_⟩
        · rw [JournalReader.rebuildHeap, if_neg hne, huse, if_pos rfl, if_neg hent]
          simp only [ha, List.head?_cons, Option.map_some]
        · rw [huse] at hc
          cases hc
    · have huse : r.usesHeap = false := by simpa using huse
      rw [refresh_scan H files hne huse hn]
      cases hmin : r.findMinimumLinear files with
      | none => exact Or.inr ⟨rfl, fun i t ht => ⟨huse, findMinimumLinear_none hmin i t ht⟩⟩
      | some i =>
        obtain ⟨t, ht, hlt⟩ := findMinimumLinear_lt hmin
        exact Or.inl ⟨i, t, rfl, ht, fun _ => hlt⟩
  · rw [refresh_of_not_due hn]
    cases h with
    | due h => exact absurd h hn
    | single h => omega
    | heap huse h =>
      obtain ⟨top, tl, hheap⟩ := List.exists_cons_of_ne_nil fun he => hn (h.empty he)
      have hi : r.currentJournalIdx = some top.2 := by
        rw [h.index, hheap]
        rfl
      obtain ⟨t, ht, -⟩ := h.least hi
      exact Or.inl ⟨top.2, t, hi, ht, fun hc => by rw [huse] at hc; cases hc⟩
    | scan huse i hi t ht hlt => exact Or.inl ⟨i, t, hi, ht, fun _ => hlt⟩

/-- **The answer for several journals.** -/
theorem Tracks.answer (h : Tracks files r) (hlen : 1 < r.journals.length)
    (hs : r.singleFrame = none) :
    ∃ b r', r.isDataAvailable H files = some (b, r') ∧
      (b = true ↔ ∃ i t, r.heads files i = some t ∧ (r.usesHeap = false → t < Int64.maxValue)) := by
  refine ⟨_, _, JournalReader.isDataAvailable_several hs, ?_⟩
  rcases h.refreshed (H := H) hlen with ⟨i, t, hi, ht, hlt⟩ | ⟨hi, hall⟩
  · obtain ⟨j, hj, hd⟩ := currentFrameRaw_of_head files (r := r.refresh H files) (t := t) hi (by
      rw [JournalReader.heads, JournalReader.refresh_journals]
      exact ht)
    rw [hj]
    exact ⟨fun _ => ⟨i, t, ht, hlt⟩, fun _ => hd⟩
  · have hraw : (r.refresh H files).currentFrameRaw = none := by
      rw [JournalReader.currentFrameRaw_eq, hi]
      rfl
    rw [hraw]
    constructor
    · intro hc
      cases hc
    · rintro ⟨i, t, ht, hlt⟩
      obtain ⟨huse, rfl⟩ := hall i t ht
      exact absurd (hlt huse) Int64.lt_irrefl

end

/-- **When the answer is right.**  Any calls, on any contents of the page files; where a
rebuild of the heap is due, the least `gen_time` belongs to one journal.  Then
`isDataAvailable` returns, and answers whether some joined journal stands on a
committed frame, if and only if it does not scan frames that are all stamped with the
largest `int64`. -/
theorem availability_iff (H : MergeHeap) (prefault : Bool) (s : Files × JournalReader)
    (h : CallRun H NoTie prefault s) :
    ∃ b r', s.2.isDataAvailable H s.1 = some (b, r') ∧ ((b = true ↔ HasFrame s) ↔ Scannable s) := by
  obtain ⟨files, r⟩ := s
  obtain ⟨hb, ht⟩ := h.tracks
  cases hs : r.singleFrame with
  | some address =>
    obtain ⟨b, hb', hiff⟩ := available_single H files hb hs
    refine ⟨b, r, hb', iff_of_true hiff fun hlen => ?_⟩
    have hlen : 1 < r.journals.length := hlen
    rw [(hb.several (by omega)).2] at hs
    cases hs
  | none =>
    by_cases hlen : 1 < r.journals.length
    · obtain ⟨b, r', he, hiff⟩ := ht.answer (H := H) hlen hs
      refine ⟨b, r', he, ?_⟩
      rw [hiff, hasFrame_iff]
      constructor
      · intro hright _ huse hframe
        obtain ⟨i, t, hti, hlt⟩ := hright.mpr (hasFrame_iff.mp hframe)
        exact ⟨i, t, hti, hlt huse⟩
      · intro hscan
        constructor
        · rintro ⟨i, t, hti, -⟩
          exact ⟨i, t, hti⟩
        · intro hframe
          by_cases huse : r.usesHeap = false
          · obtain ⟨i, t, hti, hlt⟩ := hscan hlen huse (hasFrame_iff.mpr hframe)
            exact ⟨i, t, hti, fun _ => hlt⟩
          · obtain ⟨i, t, hti⟩ := hframe
            exact ⟨i, t, hti, fun hc => absurd hc huse⟩
    · -- there are no journals
      have hnil : r.journals = [] := by
        rcases Nat.lt_or_ge r.journals.length 1 with h0 | h1
        · exact List.length_eq_zero_iff.mp (by omega)
        · obtain ⟨j, hj⟩ := List.length_eq_one_iff.mp (show r.journals.length = 1 by omega)
          rw [(hb.single j hj).2] at hs
          cases hs
      refine ⟨_, _, JournalReader.isDataAvailable_several hs,
        iff_of_true ?_ fun hc => absurd hc hlen⟩
      have hraw : (r.refresh H files).currentFrameRaw = none := by
        rw [JournalReader.currentFrameRaw_eq, JournalReader.refresh_journals, hnil]
        cases (r.refresh H files).currentJournalIdx <;> rfl
      rw [hraw]
      constructor
      · intro hc
        cases hc
      · rintro ⟨j, hj, -⟩
        simp only [hnil] at hj
        cases hj

theorem CallRun.execAll {H : MergeHeap} {ok : Files × JournalReader → Prop} {prefault : Bool}
    {cs : List ReaderCall} {s s' : Files × JournalReader} (h : CallRun H ok prefault s)
    (hok : (∀ s, ok s) ∨ ∀ c ∈ cs, c.looks = false) (he : ReaderCall.execAll H cs s = some s') :
    CallRun H ok prefault s' := by
  induction cs generalizing s with
  | nil =>
    cases he
    exact h
  | cons c cs ih =>
    obtain ⟨t, ht, he⟩ := Option.bind_eq_some_iff.mp he
    refine ih (.returned h (fun hl => ?_) (Result.eq_returns ht)) ?_ he
    · rcases hok with hok | hok
      · exact hok s
      · rw [hok c List.mem_cons_self] at hl
        cases hl
    · exact hok.imp id fun hall c' hc' => hall c' (List.mem_cons_of_mem _ hc')

/-- Joining does not look. -/
theorem joinAll_looks (fuel : Nat) (js : List (Location × UInt32)) :
    ∀ c ∈ joinAll fuel js, c.looks = false := by
  intro c hc
  obtain ⟨x, -, rfl⟩ := List.mem_map.mp hc
  rfl

theorem hasFrame_of_any {s : Files × JournalReader}
    (h : s.2.journals.any (fun j => j.hasData s.1) = true) :
    HasFrame s := List.any_eq_true.mp h

/-- Two journals with a `mark` each. -/
theorem availability_marks :
    ∃ s, CallRun mergeBySorting NoTie false s ∧ s.2.journals.length = 2 ∧
      ∃ b r', s.2.isDataAvailable mergeBySorting s.1 = some (b, r') ∧ (b = true ↔ HasFrame s) := by
  have h : (written [.mark 5 20 7]).bind (fun s₀ =>
      (ReaderCall.execAll mergeBySorting (joinAll 1 [(⟨0, .log⟩, 0), (⟨1, .log⟩, 0)])
        (fourFiles s₀ s₀ s₀ s₀, { prefault := false })).map fun x =>
          (x.2.journals.length, x.2.heads x.1 0)) = some (2, some 20) := by
    decide +kernel
  obtain ⟨s₀, -, h⟩ := Option.bind_eq_some_iff.mp h
  obtain ⟨s, hs, hresult⟩ := Option.map_eq_some_iff.mp h
  obtain ⟨hlen, hhead⟩ := Prod.mk.inj hresult
  have hrun : CallRun mergeBySorting NoTie false s :=
    (CallRun.start _).execAll (Or.inr (joinAll_looks 1 _)) hs
  obtain ⟨b, r', he, hiff⟩ := availability_iff mergeBySorting false s hrun
  exact ⟨s, hrun, hlen, b, r', he, hiff.mpr fun _ _ _ => ⟨0, 20, hhead, by decide⟩⟩

/-- Two ways to get a wrong answer: two journals whose frames are stamped with the
largest `int64`, and four whose first frames are stamped 1, 1, 2 and 3, after one of
them was read. -/
theorem availability_wrong_answers :
    (∃ s r', CallRun mergeBySorting NoTie false s ∧
      s.2.isDataAvailable mergeBySorting s.1 = some (false, r') ∧ HasFrame s) ∧
    ∃ s r', CallRun mergeBySorting (fun _ => True) false s ∧
      s.2.isDataAvailable mergeBySorting s.1 = some (false, r') ∧ HasFrame s := by
  constructor
  · have h : (written [.mark 5 Int64.maxValue 7]).bind (fun s₀ =>
        (ReaderCall.execAll mergeBySorting (joinAll 1 [(⟨0, .log⟩, 0), (⟨1, .log⟩, 0)])
          (fourFiles s₀ s₀ s₀ s₀, { prefault := false })).bind fun x =>
            (x.2.isDataAvailable mergeBySorting x.1).map fun y =>
              (y.1, x.2.journals.any fun j => j.hasData x.1)) = some (false, true) := by
      decide +kernel
    obtain ⟨s₀, -, h⟩ := Option.bind_eq_some_iff.mp h
    obtain ⟨s, hs, h⟩ := Option.bind_eq_some_iff.mp h
    obtain ⟨⟨b, r'⟩, he, hresult⟩ := Option.map_eq_some_iff.mp h
    obtain ⟨rfl, hany⟩ := Prod.mk.inj hresult
    exact ⟨s, r', (CallRun.start _).execAll (Or.inr (joinAll_looks 1 _)) hs, he,
      hasFrame_of_any hany⟩
  · have h : (written [.mark 5 1 7]).bind (fun s₀ => (written [.mark 5 2 7]).bind fun s₁ =>
        (written [.mark 5 3 7]).bind fun s₂ =>
          (ReaderCall.execAll mergeBySorting
            (joinAll 1 fourJournals ++ [.tryCurrentFrame, .advance ⟨0, 0⟩])
            (fourFiles s₀ s₀ s₁ s₂, { prefault := false })).bind fun x =>
              (x.2.isDataAvailable mergeBySorting x.1).map fun y =>
                (y.1, x.2.journals.any fun j => j.hasData x.1)) = some (false, true) := by
      decide +kernel
    obtain ⟨s₀, -, h⟩ := Option.bind_eq_some_iff.mp h
    obtain ⟨s₁, -, h⟩ := Option.bind_eq_some_iff.mp h
    obtain ⟨s₂, -, h⟩ := Option.bind_eq_some_iff.mp h
    obtain ⟨s, hs, h⟩ := Option.bind_eq_some_iff.mp h
    obtain ⟨⟨b, r'⟩, he, hresult⟩ := Option.map_eq_some_iff.mp h
    obtain ⟨rfl, hany⟩ := Prod.mk.inj hresult
    exact ⟨s, r', (CallRun.start _).execAll (Or.inl fun _ => trivial) hs, he, hasFrame_of_any hany⟩

end Revoq
