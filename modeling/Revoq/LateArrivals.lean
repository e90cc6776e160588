import Revoq.MergeDrain

/-! # Frames that arrive while the heap is in use

More than three journals, and writers that append to them while the reader reads.
`updateHeap` looks at the one journal that was just read, so a frame that arrives on
a journal without an entry in `heap_` is not seen before the heap runs empty.

A run is any order of appends, `tryCurrentFrame` and `advance`.  The entries that are
in the heap stay true to the journals (`KeptHeap`); as long as no journal with a frame is
missing from it when it is used (`UpToDate`), what is selected is a least head.
-/
namespace Revoq
open StmtMachine HeapContract

/-- No two journals' current frames have the same `gen_time`. -/
def DistinctHeads (heads : Nat → Option Int64) : Prop :=
  ∀ i k t, heads i = some t → heads k = some t → i = k

/-- Frames are appended: the frames that could be read can still be read. -/
def Appended (r : JournalReader) (files files' : Files) : Prop :=
  ∀ i t, r.heads files i = some t → r.heads files' i = some t

/-- `advance` goes through `updateHeap` with something to pop. -/
def JournalReader.updates (r : JournalReader) : Bool := !r.heap.isEmpty && r.currentFrameRaw.isSome

/-- **The heap is up to date**: no rebuild is due, and every joined journal with a
committed current frame has its entry. -/
def UpToDate (s : Files × JournalReader) : Prop :=
  s.2.needsRebuild = false ∧ ∀ i t, s.2.heads s.1 i = some t → (t, i) ∈ s.2.heap

/-- **A step of the system**, with the journal it selects, if it selects one; at each
use of the heap the state is `ok`. -/
inductive MergeStep (H : MergeHeap) (ok : Files × JournalReader → Prop) :
    Files × JournalReader → Option Nat → Files × JournalReader → Prop where
  | append {files files' : Files} {r : JournalReader} (h : Appended r files files') :
      MergeStep H ok (files, r) none (files', r)
  | look {files : Files} {r r' : JournalReader} {v : Option MergedView}
      (h : r.tryCurrentFrame H files = some (v, r')) :
      MergeStep H ok (files, r) (if r.needsRebuild then r'.currentJournalIdx else none) (files, r')
  | advance {s s' : Files × JournalReader} {v : FrameView} (hok : s.2.updates = true → ok s)
      (h : JournalReader.advance H v s = .returns s') :
      MergeStep H ok s (if s.2.updates then s'.2.currentJournalIdx else none) s'
  | threw {s s' : Files × JournalReader} {v : FrameView}
      (h : JournalReader.advance H v s = .throws s') :
      MergeStep H ok s none s'

/-- **Every order of steps**, with different times at all times. -/
inductive MergeRun (H : MergeHeap) (ok : Files × JournalReader → Prop)
    (start : Files × JournalReader) :
    Files × JournalReader → Prop where
  | nil : MergeRun H ok start start
  | step {s s' : Files × JournalReader} {selected : Option Nat} (run : MergeRun H ok start s)
      (h : MergeStep H ok s selected s') (hd : DistinctHeads (s'.2.heads s'.1)) :
      MergeRun H ok start s'

/-! ## What is kept -/

/-- **The heap's entries are true**: each is the head of its journal, and the current
journal is in front.  There may be journals without an entry. -/
structure KeptHeap (files : Files) (r : JournalReader) : Prop where
  nodup : (r.heap.map Prod.snd).Nodup
  sound : ∀ t i, (t, i) ∈ r.heap → r.heads files i = some t
  front : ∀ a ∈ r.heap.head?, ∀ b ∈ r.heap, journalComparator a b = false
  index : r.currentJournalIdx = r.heap.head?.map Prod.snd
  ne : r.heap ≠ []

section
variable {H : MergeHeap} {files files' : Files} {r r' : JournalReader}

theorem InStep.kept (h : InStep files r) (hn : r.needsRebuild = false) : KeptHeap files r :=
  ⟨h.mirrors.nodup, fun t i => (h.mirrors.mem t i).mp, h.front, h.index, fun he => by
    rw [h.empty he] at hn
    cases hn⟩

theorem KeptHeap.inStep (h : KeptHeap files r) (hu : UpToDate (files, r)) : InStep files r :=
  ⟨⟨h.nodup, fun t i => ⟨h.sound t i, hu.2 i t⟩⟩, h.front, h.index, fun _ => hu.1,
    fun he => absurd he h.ne⟩

/-- An append does not touch the entries. -/
theorem KeptHeap.append (h : KeptHeap files r) (ha : Appended r files files') : KeptHeap files' r :=
  ⟨h.nodup, fun t i hm => ha i t (h.sound t i hm), h.front, h.index, h.ne⟩

/-- The current journal has a frame. -/
theorem KeptHeap.raw (h : KeptHeap files r) : ∃ j, r.currentFrameRaw = some j := by
  obtain ⟨top, tl, hheap⟩ := List.exists_cons_of_ne_nil h.ne
  have ht := h.sound top.1 top.2 (by rw [hheap]; exact List.mem_cons_self)
  obtain ⟨j, hj, -⟩ := JournalReader.heads_eq_some.mp ht
  refine ⟨j, ?_⟩
  rw [JournalReader.currentFrameRaw_eq, h.index, hheap]
  exact hj

/-- **The invariant of a run.** -/
structure Merging (s : Files × JournalReader) : Prop where
  bookkeeping : Bookkeeping s.2
  usesHeap : s.2.usesHeap = true
  heap : s.2.needsRebuild = true ∨ KeptHeap s.1 s.2

theorem Merging.several {s : Files × JournalReader} (h : Merging s) :
    s.2.singleJournal = none ∧ s.2.singleFrame = none := by
  have := JournalReader.usesHeap_length h.usesHeap
  exact h.bookkeeping.several (by omega)

theorem Merging.append (h : Merging (files, r)) (ha : Appended r files files') :
    Merging (files', r) :=
  ⟨h.bookkeeping, h.usesHeap, h.heap.imp id fun hk => hk.append ha⟩

theorem DistinctHeads.one_least {heads : Nat → Option Int64} (hd : DistinctHeads heads) {i k : Nat}
    (hi : LeastHead heads i) (hk : LeastHead heads k) : i = k := by
  obtain ⟨t, hi, hit⟩ := hi
  obtain ⟨u, hk, hku⟩ := hk
  obtain rfl : t = u := Int64.le_antisymm (hit k u hk) (hku i t hi)
  exact hd i k t hi hk

theorem settled_kept (hk : KeptHeap files r) (hn : r.needsRebuild = false) :
    r.settled H files = r := by
  have hrefresh : r.refresh H files = r := by
    rw [JournalReader.refresh, hn]
    rfl
  obtain ⟨j, hj⟩ := hk.raw
  rw [JournalReader.settled_of_raw (j := j) (by rw [hrefresh]; exact hj), hrefresh]

theorem usesHeap_of_same (huse : r.usesHeap = true) (hs : SameJournals r r')
    (hu : r'.useHeap = r.useHeap) :
    r'.usesHeap = true := by
  rw [JournalReader.usesHeap] at huse ⊢
  rw [hu, hs.length_eq]
  exact huse

theorem Merging.look (h : Merging (files, r)) (hd : DistinctHeads (r.heads files)) :
    Merging (files, r.settled H files) ∧ (r.needsRebuild = true → ∀ i,
      (r.settled H files).currentJournalIdx = some i →
      LeastHead ((r.settled H files).heads files) i) := by
  have hsame : SameJournals r (r.settled H files) := JournalReader.sameJournals_settled
  have huse := usesHeap_of_same h.usesHeap hsame JournalReader.settled_useHeap
  by_cases hn : r.needsRebuild = true
  · rcases JournalReader.settled_heap (H := H) h.usesHeap hn fun _ _ => hd.one_least
      with ⟨hn', hidx⟩ | ⟨hin, hn'⟩
    · refine ⟨⟨hsame.bookkeeping h.bookkeeping, huse, Or.inl hn'⟩, fun _ i hi => ?_⟩
      rw [hidx] at hi
      cases hi
    · exact ⟨⟨hsame.bookkeeping h.bookkeeping, huse, Or.inr (hin.kept hn')⟩, fun _ i => hin.least⟩
  · have hk := h.heap.resolve_left hn
    rw [settled_kept hk (by simpa using hn)]
    exact ⟨h, fun hc => absurd hc hn⟩

theorem Merging.advance {s : Files × JournalReader} (h : Merging (files, r))
    (hok : r.updates = true → UpToDate (files, r))
    (he : JournalReader.next H (files, r) = .returns s) :
    Merging s ∧ (r.updates = true → ∀ i, s.2.currentJournalIdx = some i →
      LeastHead (s.2.heads s.1) i) := by
  have hsame : SameJournals r s.2 := by
    have := keeps_next H files h.bookkeeping
    rwa [he] at this
  have hb := hsame.bookkeeping h.bookkeeping
  by_cases hup : r.updates = true
  · have hto := hok hup
    have hk := h.heap.resolve_left (by rw [hto.1]; exact Bool.false_ne_true)
    obtain ⟨hin, hu⟩ := (hk.inStep hto).next h.bookkeeping h.usesHeap hk.ne he
    refine ⟨⟨hb, usesHeap_of_same h.usesHeap hsame hu, ?_⟩, fun _ i => hin.least⟩
    by_cases hn : s.2.needsRebuild = true
    · exact Or.inl hn
    · exact Or.inr (hin.kept (by simpa using hn))
  · refine ⟨?_, fun hc => absurd hc hup⟩
    rcases h.heap with hn | hk
    · obtain ⟨hn', hu⟩ := JournalReader.next_needsRebuild hn he
      exact ⟨hb, usesHeap_of_same h.usesHeap hsame hu, Or.inl hn'⟩
    · -- a heap whose entries are true is used
      obtain ⟨j, hj⟩ := hk.raw
      refine absurd ?_ hup
      rw [JournalReader.updates, hj]
      simpa using hk.ne

/-- **One step** keeps the invariant, and what it selects is a least head. -/
theorem Merging.step {s s' : Files × JournalReader} {selected : Option Nat} (h : Merging s)
    (hstep : MergeStep H UpToDate s selected s') (hd : DistinctHeads (s'.2.heads s'.1)) :
    Merging s' ∧ ∀ i, selected = some i → LeastHead (s'.2.heads s'.1) i := by
  cases hstep with
  | append ha => exact ⟨h.append ha, fun i hi => by cases hi⟩
  | @look files r r' v hlook =>
    obtain rfl := JournalReader.tryCurrentFrame_several h.several.2 hlook
    have hheads : (r.settled H files).heads files = r.heads files := by
      funext k
      rw [JournalReader.heads, JournalReader.settled_journals]
      rfl
    obtain ⟨hm, hleast⟩ := h.look (H := H) (hheads ▸ hd)
    refine ⟨hm, fun i hi => ?_⟩
    split at hi
    · exact hleast ‹_› i hi
    · cases hi
  | @advance s s' v hok he =>
    obtain ⟨files, r⟩ := s
    rw [JournalReader.advance_several h.several.1] at he
    obtain ⟨hm, hleast⟩ := h.advance hok he
    refine ⟨hm, fun i hi => ?_⟩
    split at hi
    · exact hleast ‹_› i hi
    · cases hi
  | @threw s s' v he =>
    obtain ⟨files, r⟩ := s
    rw [JournalReader.advance_several h.several.1] at he
    obtain rfl := JournalReader.next_throws he
    exact ⟨h, fun i hi => by cases hi⟩

theorem MergeRun.merging {s₀ s : Files × JournalReader} (h : MergeRun H UpToDate s₀ s)
    (h₀ : Merging s₀) :
    Merging s := by
  induction h with
  | nil => exact h₀
  | step _ hstep hd ih => exact (ih.step hstep hd).1

end

/-- **When the heap merge passes nothing over.**  A reader with more than three joined
journals and any past, every order of appends, looks and advances, all current
`gen_time`s different: if the heap is up to date whenever `updateHeap` pops it, then
the journal that is selected, by a rebuild or by `updateHeap`, has at that moment the
least `gen_time` of all joined journals' committed current frames. -/
theorem heap_merge_passes_nothing_over (H : MergeHeap) (prefault : Bool) (files : Files)
    (r : JournalReader) (hr : ReaderReaches H prefault r) (huse : r.useHeap = true)
    (h3 : 3 < r.journals.length) (hn : r.needsRebuild = true) (s s' : Files × JournalReader)
    (hrun : MergeRun H UpToDate (files, r) s) (i : Nat) (hstep : MergeStep H UpToDate s (some i) s')
    (hd : DistinctHeads (s'.2.heads s'.1)) :
    LeastHead (s'.2.heads s'.1) i := by
  have hu : r.usesHeap = true := by
    rw [JournalReader.usesHeap, huse]
    simpa using h3
  have hm : Merging (files, r) := ⟨hr.bookkeeping, hu, Or.inl hn⟩
  exact ((hrun.merging hm).step hstep hd).2 i rfl

/-! ## A frame that is passed over -/

theorem JournalReader.heads_getD (files : Files) (r : JournalReader) (i : Nat) :
    r.heads files i = (r.journals.map (Journal.head files)).getD i none := by
  rw [heads, List.getD_eq_getElem?_getD, List.getElem?_map]
  cases r.journals[i]? <;> rfl

theorem distinctHeads_of_list {files : Files} {r : JournalReader} {l : List (Option Int64)}
    (hl : r.journals.map (Journal.head files) = l)
    (h : ∀ i < l.length, ∀ k < l.length, l.getD i none = l.getD k none →
      l.getD i none ≠ none → i = k) :
    DistinctHeads (r.heads files) := by
  have hlt : ∀ i t, l.getD i none = some t → i < l.length := by
    intro i t hi
    by_contra hge
    rw [List.getD_eq_getElem?_getD, List.getElem?_eq_none (by omega)] at hi
    cases hi
  intro i k t hi hk
  rw [JournalReader.heads_getD, hl] at hi hk
  exact h i (hlt i t hi) k (hlt k t hk) (hi.trans hk.symm) (by rw [hi]; simp)

theorem appended_of_list {files files' : Files} {r : JournalReader} {l l' : List (Option Int64)}
    (hl : r.journals.map (Journal.head files) = l) (hl' : r.journals.map (Journal.head files') = l')
    (h : ∀ i < l.length, l.getD i none ≠ none → l'.getD i none = l.getD i none) :
    Appended r files files' := by
  intro i t hi
  rw [JournalReader.heads_getD, hl] at hi
  have hlt : i < l.length := by
    by_contra hge
    rw [List.getD_eq_getElem?_getD, List.getElem?_eq_none (by omega)] at hi
    cases hi
  rw [JournalReader.heads_getD, hl', h i hlt (by rw [hi]; simp), hi]

theorem upToDate_of_list {files : Files} {r : JournalReader} {l : List (Option Int64)}
    {heap : List HeapEntry} (hn : r.needsRebuild = false) (hheap : r.heap = heap)
    (hl : r.journals.map (Journal.head files) = l)
    (h : ∀ i < l.length, (l.getD i none).all fun t => (t, i) ∈ heap) : UpToDate (files, r) := by
  refine ⟨hn, fun i t hi => ?_⟩
  rw [JournalReader.heads_getD, hl] at hi
  have hlt : i < l.length := by
    by_contra hge
    rw [List.getD_eq_getElem?_getD, List.getElem?_eq_none (by omega)] at hi
    cases hi
  have hall := h i hlt
  rw [hi, Option.all_some, decide_eq_true_eq] at hall
  exact hheap ▸ hall

/-- Two of four journals have frames, stamped 25 on the first, 20 and 30 on the third.  The
reader is at the one stamped 20 when a frame stamped 40 arrives on the first journal; it
goes on, through `updateHeap`, to the one stamped 25. -/
theorem heap_merge_goes_on :
    ∃ (files : Files) (r : JournalReader) (s s' : Files × JournalReader),
      ReaderReaches mergeBySorting false r ∧ r.needsRebuild = true ∧
      MergeRun mergeBySorting UpToDate (files, r) s ∧ s.2.updates = true ∧
      MergeStep mergeBySorting UpToDate s (some 0) s' ∧ LeastHead (s'.2.heads s'.1) 0 := by
  have h : (written [.mark 5 25 7]).bind (fun s₀ => (written []).bind fun s₁ =>
      (written [.mark 5 20 7, .mark 5 30 7]).bind fun s₂ =>
      (written [.mark 5 25 7, .mark 5 40 7]).bind fun s₃ =>
        (ReaderCall.execAll mergeBySorting (joinAll 1 fourJournals)
          (fourFiles s₀ s₁ s₂ s₁, { prefault := false })).bind fun x =>
          (x.2.tryCurrentFrame mergeBySorting x.1).bind fun y =>
            (JournalReader.advance mergeBySorting ⟨0, 0⟩
              (fourFiles s₃ s₁ s₂ s₁, y.2)).returned.map fun z =>
              ((x.2.usesHeap && x.2.needsRebuild && y.2.updates && !y.2.needsRebuild, y.2.heap),
                z.2.currentJournalIdx, [y.2.journals.map (Journal.head x.1),
                  y.2.journals.map (Journal.head (fourFiles s₃ s₁ s₂ s₁)),
                  z.2.journals.map (Journal.head z.1)])) =
      some ((true, [(20, 2), (25, 0)]), some 0, [[some 25, none, some 20, none],
        [some 25, none, some 20, none], [some 25, none, some 30, none]]) := by
    decide +kernel
  obtain ⟨s₀, -, h⟩ := Option.bind_eq_some_iff.mp h
  obtain ⟨s₁, -, h⟩ := Option.bind_eq_some_iff.mp h
  obtain ⟨s₂, -, h⟩ := Option.bind_eq_some_iff.mp h
  obtain ⟨s₃, -, h⟩ := Option.bind_eq_some_iff.mp h
  obtain ⟨⟨files, r⟩, hx, h⟩ := Option.bind_eq_some_iff.mp h
  obtain ⟨⟨v, r'⟩, hy, h⟩ := Option.bind_eq_some_iff.mp h
  obtain ⟨s', hz, hresult⟩ := Option.map_eq_some_iff.mp h
  simp only [Prod.mk.injEq, Bool.and_eq_true, Bool.not_eq_true', List.cons.injEq,
    and_true] at hresult
  obtain ⟨⟨⟨⟨⟨huse, hn⟩, hup⟩, hn'⟩, hheap⟩, hidx, hl, hl', hl''⟩ := hresult
  have hlook : MergeStep mergeBySorting UpToDate (files, r)
      (if r.needsRebuild then r'.currentJournalIdx else none) (files, r') := .look hy
  have happend : MergeStep mergeBySorting UpToDate (files, r') none
      (fourFiles s₃ s₁ s₂ s₁, r') := .append (appended_of_list hl hl' (by decide))
  have hrun : MergeRun mergeBySorting UpToDate (files, r) (fourFiles s₃ s₁ s₂ s₁, r') :=
    .step (.step .nil hlook (distinctHeads_of_list hl (by decide))) happend
      (distinctHeads_of_list hl' (by decide))
  have hadvance : MergeStep mergeBySorting UpToDate (fourFiles s₃ s₁ s₂ s₁, r')
      (if r'.updates then s'.2.currentJournalIdx else none) s' :=
    .advance (fun _ => upToDate_of_list hn' hheap hl' (by decide)) (Result.eq_returns hz)
  rw [if_pos hup, hidx] at hadvance
  have hreach : ReaderReaches mergeBySorting false r := .execAll .start hx
  exact ⟨files, r, _, s', hreach, hn, hrun, hup, hadvance,
    heap_merge_passes_nothing_over mergeBySorting false files r hreach
      (Bool.and_eq_true_iff.mp huse).1 (JournalReader.usesHeap_length huse) hn _ _ hrun 0 hadvance
      (distinctHeads_of_list hl'' (by decide))⟩

/-- Two of four journals have frames, stamped 10, 30 and 40.  The reader is at the
first one when a frame stamped 20 arrives on a third journal; then it goes on to the
one stamped 30. -/
theorem heap_merge_passes_over :
    ∃ (files : Files) (r : JournalReader) (s s' : Files × JournalReader) (i : Nat),
      ReaderReaches mergeBySorting false r ∧ r.useHeap = true ∧ 3 < r.journals.length ∧
      r.needsRebuild = true ∧ MergeRun mergeBySorting (fun _ => True) (files, r) s ∧
      MergeStep mergeBySorting (fun _ => True) s (some i) s' ∧ DistinctHeads (s'.2.heads s'.1) ∧
      s'.2.heads s'.1 i = some 30 ∧ s'.2.heads s'.1 2 = some 20 ∧
        ¬ LeastHead (s'.2.heads s'.1) i := by
  have h : (written [.mark 5 10 7, .mark 5 30 7]).bind
      (fun s₀ => (written [.mark 5 40 7]).bind fun s₁ =>
      (written []).bind fun s₂ => (written [.mark 5 20 7]).bind fun s₃ =>
        (ReaderCall.execAll mergeBySorting (joinAll 1 fourJournals)
          (fourFiles s₀ s₁ s₂ s₂, { prefault := false })).bind fun x =>
          (x.2.tryCurrentFrame mergeBySorting x.1).bind fun y =>
            (JournalReader.advance mergeBySorting ⟨0, 0⟩
              (fourFiles s₀ s₁ s₃ s₂, y.2)).returned.map fun z =>
              (x.2.usesHeap && x.2.needsRebuild && y.2.updates, z.2.currentJournalIdx,
                [y.2.journals.map (Journal.head x.1),
                  y.2.journals.map (Journal.head (fourFiles s₀ s₁ s₃ s₂)),
                  z.2.journals.map (Journal.head z.1)])) =
      some (true, some 0, [[some 10, some 40, none, none],
        [some 10, some 40, some 20, none], [some 30, some 40, some 20, none]]) := by
    decide +kernel
  -- journal 2 gets a frame while 0 is consumed, and `updateHeap` asks 0 only
  obtain ⟨s₀, -, h⟩ := Option.bind_eq_some_iff.mp h
  obtain ⟨s₁, -, h⟩ := Option.bind_eq_some_iff.mp h
  obtain ⟨s₂, -, h⟩ := Option.bind_eq_some_iff.mp h
  obtain ⟨s₃, -, h⟩ := Option.bind_eq_some_iff.mp h
  obtain ⟨⟨files, r⟩, hx, h⟩ := Option.bind_eq_some_iff.mp h
  obtain ⟨⟨v, r'⟩, hy, h⟩ := Option.bind_eq_some_iff.mp h
  obtain ⟨s', hz, hresult⟩ := Option.map_eq_some_iff.mp h
  simp only [Prod.mk.injEq, Bool.and_eq_true, List.cons.injEq, and_true] at hresult
  obtain ⟨⟨⟨huse, hn⟩, hup⟩, hidx, hl, hl', hl''⟩ := hresult
  have hlook : MergeStep mergeBySorting (fun _ => True) (files, r)
      (if r.needsRebuild then r'.currentJournalIdx else none) (files, r') := .look hy
  have happend : MergeStep mergeBySorting (fun _ => True)
      (files, r') none (fourFiles s₀ s₁ s₃ s₂, r') :=
    .append (appended_of_list hl hl' (by decide))
  have hadvance : MergeStep mergeBySorting (fun _ => True) (fourFiles s₀ s₁ s₃ s₂, r')
      (if r'.updates then s'.2.currentJournalIdx else none) s' :=
    .advance (fun _ => trivial) (Result.eq_returns hz)
  rw [if_pos hup, hidx] at hadvance
  have h0 : s'.2.heads s'.1 0 = some 30 := by rw [JournalReader.heads_getD, hl'']; rfl
  have h2 : s'.2.heads s'.1 2 = some 20 := by rw [JournalReader.heads_getD, hl'']; rfl
  refine ⟨files, r, _, s', 0, .execAll .start hx, (Bool.and_eq_true_iff.mp huse).1,
    JournalReader.usesHeap_length huse, hn,
    .step (.step .nil hlook (distinctHeads_of_list hl (by decide))) happend
      (distinctHeads_of_list hl' (by decide)), hadvance,
      distinctHeads_of_list hl'' (by decide), h0, h2, ?_⟩
  rintro ⟨t, ht, hall⟩
  cases h0.symm.trans ht
  exact absurd (hall 2 20 h2) (by decide)

end Revoq
