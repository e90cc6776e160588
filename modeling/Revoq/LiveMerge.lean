import Mathlib.Algebra.Order.BigOperators.Group.Finset
import Revoq.Broadcast
import Revoq.LinearMerge
import Revoq.MergedLog

/-! # Merging journals that grow

Two or three journals, or any number with the heap turned off, each written by a process
of its own, and one `JournalReader` that has joined them all and merges them while they
grow.  It cannot be told from a reader of logs of which each operation is one step
(`MergedLog`).
-/
namespace Revoq
open ByteImage StmtMachine HeapContract GreedyMerge

/-- The writing sides of several journals, and where the journals are. -/
structure Sources (σ : Type) (m : Nat) where
  feed : Fin m → Feed σ
  place : Fin m → Location × UInt32

namespace Sources
variable {σ : Type} {m : Nat}

/-- The page size of a journal. -/
def pageSize (X : Sources σ m) (k : Fin m) : PageSize :=
  findPageSize (X.place k).1.category (X.place k).2

def world (X : Sources σ m) (feeds : Fin m → σ) (k : Fin m) : World := (X.feed k).world (feeds k)

/-- The page files of the journals. -/
def files (X : Sources σ m) (feeds : Fin m → σ) : Files := fun uid destId =>
  match (List.finRange m).find? fun k => (X.place k).1.uid = uid ∧ (X.place k).2 = destId with
  | some k => (X.world feeds k).disk
  | none => .empty

/-- A reader has left the page files like this. -/
def put (X : Sources σ m) (feeds : Fin m → σ) (files : Files) : Fin m → σ :=
  fun k => (X.feed k).put (feeds k) (files (X.place k).1.uid (X.place k).2)

/-- The journals can be followed and grow, and no frame is stamped with the largest time. -/
structure Grows (X : Sources σ m) (I : Fin m → σ → Prop) : Prop where
  distinct : Distinct (List.ofFn X.place)
  feed : ∀ k, (X.feed k).Grows (X.pageSize k) (I k)
  times : ∀ k s, I k s → ∀ e ∈ ((X.feed k).world s).log, e.frame.genTime < Int64.maxValue

end Sources

/-- Journals that are being written, and their reader. -/
structure Gathering (σ : Type) (m : Nat) where
  feeds : Fin m → σ
  reader : JournalReader
  view : Option MergedView := none

namespace Gathering
variable {σ : Type} {m : Nat}

/-- **One step**: of one of the writing sides, or one call of the reader, which only
advances over a frame it was shown. -/
inductive Step (X : Sources σ m) (H : MergeHeap) :
    Gathering σ m → List (MergedLog.Event Frame) → Gathering σ m → Prop where
  | write {A : Gathering σ m} (k : Fin m) {s : σ} (h : (X.feed k).next (A.feeds k) s) :
      Step X H A ((((X.feed k).world s).log.drop (X.world A.feeds k).log.length).map
        fun e => .appended k e.frame) { A with feeds := Function.update A.feeds k s }
  | nothing {A : Gathering σ m} {r' : JournalReader}
      (h : A.reader.tryCurrentFrame H (X.files A.feeds) = some (none, r')) :
      Step X H A [.nothing] { A with reader := r', view := none }
  | shown {A : Gathering σ m} {r' : JournalReader} {v : MergedView} {f : Frame}
      (h : A.reader.tryCurrentFrame H (X.files A.feeds) = some (some v, r'))
      (hf : r'.frame v (X.files A.feeds) = some f) :
      Step X H A [.shown v.frame f] { A with reader := r', view := some v }
  | advance {A : Gathering σ m} {v : MergedView} {f : Frame} {files : Files} {r' : JournalReader}
      (hv : A.view = some v) (hf : A.reader.frame v (X.files A.feeds) = some f)
      (h : JournalReader.advance H v.toFrameView (X.files A.feeds, A.reader) =
        .returns (files, r')) :
      Step X H A [.taken v.frame f] ⟨X.put A.feeds files, r', none⟩

end Gathering

/-- What was committed before the reader came. -/
def earlier {m : Nat} (log₀ : Fin m → List Frame) : List (MergedLog.Event Frame) :=
  (List.finRange m).flatMap fun k => (log₀ k).map (.appended k)

/-- **What the reader of growing journals can rely on.** -/
structure LiveMerge {σ : Type} {m : Nat} (X : Sources σ m) (H : MergeHeap)
    (log₀ : Fin m → List Frame) (es : List (MergedLog.Event Frame)) (A : Gathering σ m) : Prop where
  /-- The events are those of a merge of growing logs by `gen_time`. -/
  ordered : MergedLog.Ordered genTimeKey (earlier log₀ ++ es)
  /-- The logs are what is committed. -/
  appended : ∀ k : Fin m, log₀ k ++ MergedLog.appends k es = (X.world A.feeds k).log.map Entry.frame
  /-- No call fails. -/
  looks : ∃ v r', A.reader.tryCurrentFrame H (X.files A.feeds) = some (v, r') ∧
    ∀ x, v = some x → ∃ f, r'.frame x (X.files A.feeds) = some f
  advances : ∀ v, A.view = some v → ∃ f files r', A.reader.frame v (X.files A.feeds) = some f ∧
    JournalReader.advance H v.toFrameView (X.files A.feeds, A.reader) = .returns (files, r')

/-! ## The page files -/

namespace Sources
variable {σ : Type} {m : Nat} {X : Sources σ m} {I : Fin m → σ → Prop}
  {feeds : Fin m → σ} {k i : Fin m}

theorem Grows.place_inj (h : X.Grows I) (huid : (X.place k).1.uid = (X.place i).1.uid)
    (hdest : (X.place k).2 = (X.place i).2) : k = i := by
  have hnodup := h.distinct
  rw [Distinct, List.map_ofFn, List.nodup_ofFn] at hnodup
  exact hnodup (Prod.ext huid hdest)

theorem Grows.files_place (h : X.Grows I) (feeds : Fin m → σ) (k : Fin m) :
    X.files feeds (X.place k).1.uid (X.place k).2 = (X.world feeds k).disk := by
  have hfind : ((List.finRange m).find? fun i =>
      (X.place i).1.uid = (X.place k).1.uid ∧ (X.place i).2 = (X.place k).2) = some k := by
    cases hf : (List.finRange m).find? fun i =>
        (X.place i).1.uid = (X.place k).1.uid ∧ (X.place i).2 = (X.place k).2 with
    | none =>
      have := List.find?_eq_none.mp hf k (List.mem_finRange k)
      simp at this
    | some i =>
      have hi := List.find?_some hf
      simp only [decide_eq_true_eq] at hi
      rw [h.place_inj hi.1 hi.2]
  simp only [files, hfind]

theorem Grows.put_files (h : X.Grows I) (feeds : Fin m → σ) :
    X.put feeds (X.files feeds) = feeds := by
  funext k
  rw [put, h.files_place]
  exact (h.feed k).put (feeds k)

end Sources

/-! ## Where the reader stands -/

/-- The journal is the one at place `k`, and its cursor stands behind the `n` frames that
were taken. -/
structure Gathering.Stands {σ : Type} {m : Nat} (X : Sources σ m) (feeds : Fin m → σ)
    (k : Fin m) (n : Nat) (j : Journal) : Prop where
  address : j.address = k
  location : j.location = (X.place k).1
  destId : j.destId = (X.place k).2
  reads : Reads (X.world feeds k).log j.cursor none (((X.world feeds k).log.take n).map Entry.frame)

/-- **The reader and the merged log**: the cursors stand where the positions are, and the
choice is the current journal, unless a rebuild is due. -/
structure Gathers {σ : Type} {m : Nat} (X : Sources σ m) (I : Fin m → σ → Prop) (A : Gathering σ m)
    (s : MergedLog.State Frame) : Prop where
  feeds : ∀ k, I k (A.feeds k)
  logs : ∀ k : Fin m, s.log k = (X.world A.feeds k).log.map Entry.frame
  beyond : ∀ i, m ≤ i → s.log i = []
  inside : ∀ i, s.position i ≤ (s.log i).length
  standing : ∀ k : Fin m, ∃ j, A.reader.journals[k.val]? = some j ∧
    Gathering.Stands X A.feeds k (s.position k) j
  length : A.reader.journals.length = m
  several : A.reader.singleJournal = none ∧ A.reader.singleFrame = none
  linear : A.reader.usesHeap = false
  chosen : s.chosen = if A.reader.needsRebuild then none else A.reader.currentJournalIdx
  settled : A.reader.needsRebuild = false → ∃ (k : Fin m) (f : Frame),
    A.reader.currentJournalIdx = some k.val ∧ s.next k = some f
  view : ∀ v, A.view = some v → A.reader.needsRebuild = false ∧
    A.reader.currentJournalIdx = some v.frame ∧
    ∃ f, s.next v.frame = some f ∧ v.toFrameView = viewOf f

section
variable {σ : Type} {m : Nat} {X : Sources σ m} {I : Fin m → σ → Prop} {A : Gathering σ m}
  {s : MergedLog.State Frame} {H : MergeHeap}

/-- The frames the reader has still to take. -/
def Gathering.left (X : Sources σ m) (A : Gathering σ m) (s : MergedLog.State Frame) :
    List (List Entry) :=
  List.ofFn fun k => (X.world A.feeds k).log.drop (s.position k)

theorem Gathering.left_get {k : Nat} (hk : k < m) :
    (A.left X s)[k]? = some ((X.world A.feeds ⟨k, hk⟩).log.drop (s.position k)) := by
  rw [left, List.getElem?_ofFn, dif_pos hk]

theorem Gathers.infront (h : Gathers X I A s) (hX : X.Grows I) {k : Fin m} {j : Journal}
    (hj : Gathering.Stands X A.feeds k (s.position k) j) :
    InFront (X.files A.feeds) j ((X.world A.feeds k).log.drop (s.position k)) := by
  obtain ⟨tail, hread, -⟩ := ((hX.feed k).followable _ (h.feeds k)).readable
  obtain ⟨done, rest, slot, hlog, hdel, hchain, hat, -⟩ := hj.reads.split
  have hlen : done.length = s.position k := by
    have := congrArg List.length hdel
    have hin := h.inside k
    rw [h.logs k, List.length_map] at hin
    rw [List.length_map, List.length_map, List.length_take, Nat.min_eq_left hin] at this
    exact this.symm
  have hrest : (X.world A.feeds k).log.drop (s.position k) = rest := by
    rw [hlog, ← hlen, List.drop_left]
  have hdisk : j.disk (X.files A.feeds) = (X.world A.feeds k).disk := by
    rw [Journal.disk, hj.location, hj.destId, hX.files_place]
  have hsize : j.pageSize = X.pageSize k := by
    rw [Journal.pageSize, hj.location, hj.destId]
    rfl
  refine ⟨slot, tail, hat, ?_⟩
  rw [hdisk, hsize, hrest]
  have hread' : Readable (X.pageSize k) (X.world A.feeds k).disk ⟨1, pageHeaderSize⟩
      (X.world A.feeds k).log tail := hread
  rw [hlog] at hread'
  exact hread'.drop hchain

theorem Gathers.readsFrom (h : Gathers X I A s) (hX : X.Grows I) :
    ReadsFrom (X.files A.feeds) A.reader (A.left X s) := by
  refine ⟨List.forall₂_iff_get.mpr ⟨?_, fun k hk hk' => ?_⟩, fun i j hj => ?_,
    h.several.1, h.several.2⟩
  · rw [h.length, Gathering.left, List.length_ofFn]
  · rw [h.length] at hk
    obtain ⟨j, hj, hst⟩ := h.standing ⟨k, hk⟩
    have hget := Gathering.left_get (A := A) (X := X) (s := s) hk
    rw [List.getElem?_eq_getElem hk'] at hget
    rw [List.getElem?_eq_getElem (by rw [h.length]; exact hk)] at hj
    rw [List.get_eq_getElem, List.get_eq_getElem, Option.some.inj hj, Option.some.inj hget]
    exact h.infront hX hst
  · have hlt := (List.getElem?_eq_some_iff.mp hj).1
    rw [h.length] at hlt
    obtain ⟨j', hj', hst⟩ := h.standing ⟨i, hlt⟩
    cases hj.symm.trans hj'
    exact hst.address

/-- The next frame of a log is the first that is left of it. -/
theorem Gathers.next_some (h : Gathers X I A s) {k : Nat} {f : Frame} (hf : s.next k = some f) :
    ∃ (hk : k < m) (e : Entry) (rest : List Entry),
      (X.world A.feeds ⟨k, hk⟩).log.drop (s.position k) = e :: rest ∧ e.frame = f := by
  have hk : k < m := by
    by_contra hge
    rw [MergedLog.State.next, h.beyond k (Nat.le_of_not_lt hge)] at hf
    cases hf
  rw [MergedLog.State.next, h.logs ⟨k, hk⟩, List.getElem?_map, Option.map_eq_some_iff] at hf
  obtain ⟨e, he, rfl⟩ := hf
  rw [← List.head?_drop] at he
  obtain ⟨rest, hrest⟩ := List.head?_eq_some_iff.mp he
  exact ⟨hk, e, rest, hrest, rfl⟩

/-- The heads of the journals are the next frames of the logs. -/
theorem Gathers.heads_eq (h : Gathers X I A s) (hX : X.Grows I) (i : Nat) :
    A.reader.heads (X.files A.feeds) i = (s.next i).map fun f => f.genTime := by
  rw [(h.readsFrom hX).heads_eq, firstTime]
  by_cases hi : i < m
  · rw [Gathering.left_get hi, Option.bind_some, List.head?_drop,
      MergedLog.State.next, h.logs ⟨i, hi⟩, List.getElem?_map, Option.map_map]
    rfl
  · rw [MergedLog.State.next, h.beyond i (Nat.le_of_not_lt hi), List.getElem?_eq_none (by
      rw [Gathering.left, List.length_ofFn]
      exact Nat.le_of_not_lt hi)]
    rfl

theorem Gathers.firstLeast (h : Gathers X I A s) (hX : X.Grows I) {i : Nat}
    (hi : FirstLeastHead (A.reader.heads (X.files A.feeds)) i) :
    ∃ f, s.FirstLeast genTimeKey i f := by
  obtain ⟨t, ht, hall⟩ := hi
  rw [h.heads_eq hX, Option.map_eq_some_iff] at ht
  obtain ⟨f, hf, rfl⟩ := ht
  refine ⟨f, hf, fun k g hg => ?_⟩
  have hk : A.reader.heads (X.files A.feeds) k = some g.genTime := by
    rw [h.heads_eq hX, hg]
    rfl
  obtain ⟨hle, hlt⟩ := hall k _ hk
  exact ⟨Int64.le_iff_toInt_le.mp hle, fun hki => Int64.lt_iff_toInt_lt.mp (hlt hki)⟩

/-! ## Looking -/

/-- The reader has selected anew, or reports what it has selected. -/
theorem Gathers.reselected (h : Gathers X I A s) {r : JournalReader} {v : Option MergedView}
    {c : Option Nat} (hj : r.journals = A.reader.journals)
    (hsingle : r.singleJournal = none ∧ r.singleFrame = none) (hlin : r.usesHeap = false)
    (hc : c = if r.needsRebuild then none else r.currentJournalIdx)
    (hset : r.needsRebuild = false → ∃ (k : Fin m) (f : Frame), r.currentJournalIdx = some k.val ∧
      s.next k = some f)
    (hview : ∀ x, v = some x → r.needsRebuild = false ∧ r.currentJournalIdx = some x.frame ∧
      ∃ f, s.next x.frame = some f ∧ x.toFrameView = viewOf f) :
    Gathers X I { A with reader := r, view := v } { s with chosen := c } :=
  ⟨h.feeds, h.logs, h.beyond, h.inside,
    fun k => by rw [hj]; exact h.standing k, by rw [hj]; exact h.length, hsingle, hlin,
      hc, hset, hview⟩

theorem JournalReader.refresh_linear {files : Files} {r : JournalReader} (hne : r.journals ≠ [])
    (hlin : r.usesHeap = false) (hn : r.needsRebuild = true) : r.refresh H files =
      { r with currentJournalIdx := r.findMinimumLinear files, needsRebuild := false } := by
  rw [refresh, if_pos hn, rebuildHeap, if_neg hne, hlin]
  rfl

/-- The view that `tryCurrentFrame` gives is one of the current journal's frame. -/
theorem JournalReader.tryCurrentFrame_view {files : Files} {r r' : JournalReader} {v : MergedView}
    (hs : r.singleFrame = none) (h : r.tryCurrentFrame H files = some (some v, r')) :
    ∃ j, r'.currentFrameRaw = some j ∧
      v = { toFrameView := j.current files, frame := j.address } := by
  simp only [tryCurrentFrame, hs] at h
  split at h
  · cases h
  · cases h
  · obtain ⟨j, hj, hpair⟩ := Option.map_eq_some_iff.mp h
    obtain ⟨hv, rfl⟩ := Prod.mk.inj hpair
    refine ⟨j, hj, ?_⟩
    unfold viewOf at hv
    split at hv
    · cases hv
      rfl
    · cases hv

/-- What is selected is shown, with the view of the next frame of its log. -/
theorem Gathers.shown (h : Gathers X I A s) (hX : X.Grows I) {k : Nat} {f : Frame}
    (hi : (A.reader.refresh H (X.files A.feeds)).currentJournalIdx = some k)
    (hf : s.next k = some f) :
    A.reader.tryCurrentFrame H (X.files A.feeds) =
        some (some ⟨viewOf f, k⟩, A.reader.refresh H (X.files A.feeds)) ∧
      (A.reader.refresh H (X.files A.feeds)).frame ⟨viewOf f, k⟩ (X.files A.feeds) = some f := by
  obtain ⟨hk, e, rest, he, rfl⟩ := h.next_some hf
  have hreads := h.readsFrom hX
  have hleft : (A.left X s)[k]? = some (e :: rest) := by rw [Gathering.left_get hk, he]
  obtain ⟨v, hlook, hv, hframe, -⟩ := hreads.shown hi hleft
  obtain ⟨j, hraw, hvj⟩ := JournalReader.tryCurrentFrame_view h.several.2 hlook
  have hview : v = ⟨viewOf e.frame, k⟩ := by
    obtain ⟨j', hj', hst⟩ := hreads.journal hleft
    rw [JournalReader.currentFrameRaw_eq, hi, Option.bind_some,
      JournalReader.refresh_journals, hj'] at hraw
    cases hraw
    rw [hvj, hst.seen.current, hreads.address k j hj']
  rw [← hview]
  exact ⟨hlook, hframe⟩

/-- **Looking at the journals**: either none has a frame, or one is shown that was
selected before, or has the least time now. -/
theorem Gathers.look (h : Gathers X I A s) (hX : X.Grows I) (hm : 0 < m) :
    (s.chosen = none ∧ (∀ k, s.next k = none) ∧
      ∃ r', A.reader.tryCurrentFrame H (X.files A.feeds) = some (none, r') ∧
        Gathers X I { A with reader := r', view := none } s) ∨
    ∃ k f r', A.reader.tryCurrentFrame H (X.files A.feeds) = some (some ⟨viewOf f, k⟩, r') ∧
      r'.frame ⟨viewOf f, k⟩ (X.files A.feeds) = some f ∧ s.next k = some f ∧
      (s.chosen = some k ∨ s.chosen = none ∧ s.FirstLeast genTimeKey k f) ∧
      Gathers X I { A with reader := r', view := some ⟨viewOf f, k⟩ }
        { s with chosen := some k } := by
  have hne : A.reader.journals ≠ [] := by
    intro hnil
    have := h.length
    rw [hnil] at this
    exact absurd this (Nat.ne_of_lt hm)
  by_cases hn : A.reader.needsRebuild = true
  -- a selection is due: the answer is the least head, or there is none
  · have hchosen : s.chosen = none := by rw [h.chosen, if_pos hn]
    have hrefresh : A.reader.refresh H (X.files A.feeds) = _ :=
      JournalReader.refresh_linear hne h.linear hn
    cases hmin : A.reader.findMinimumLinear (X.files A.feeds) with
    | none =>
      -- `findMinimumLinear` passes over a time that is not below `INT64_MAX`
      have hnone : ∀ k, s.next k = none := by
        intro k
        cases hk : s.next k with
        | none => rfl
        | some f =>
          obtain ⟨hkm, e, rest, he, rfl⟩ := h.next_some hk
          have hhead : A.reader.heads (X.files A.feeds) k = some e.frame.genTime := by
            rw [h.heads_eq hX, hk]
            rfl
          have hlt := hX.times ⟨k, hkm⟩ _ (h.feeds ⟨k, hkm⟩) e
            (List.mem_of_mem_drop (he ▸ List.mem_cons_self))
          rw [findMinimumLinear_none hmin k _ hhead] at hlt
          exact absurd hlt Int64.lt_irrefl
      have hlook := (h.readsFrom hX).not_shown (H := H) hne (by rw [hrefresh]; exact hmin)
      refine Or.inl ⟨hchosen, hnone, _, hlook, ?_⟩
      have hg :=
        h.reselected (r := { A.reader.refresh H (X.files A.feeds) with needsRebuild := true })
        (v := none) (c := none) JournalReader.refresh_journals
        ⟨sameJournals_refresh.singleJournal.trans h.several.1,
          sameJournals_refresh.singleFrame.trans h.several.2⟩
        (by rw [hrefresh]; exact h.linear) (by rw [if_pos rfl]) (fun hc => by cases hc)
        (fun x hx => by cases hx)
      rw [← hchosen] at hg
      exact hg
    | some k =>
      obtain ⟨f, hleast⟩ := h.firstLeast hX (findMinimumLinear_some hmin)
      have hi : (A.reader.refresh H (X.files A.feeds)).currentJournalIdx = some k := by
        rw [hrefresh]; exact hmin
      have hnr : (A.reader.refresh H (X.files A.feeds)).needsRebuild = false := by rw [hrefresh]
      obtain ⟨hlook, hframe⟩ := h.shown hX hi hleast.1
      obtain ⟨hk, -⟩ := h.next_some hleast.1
      refine Or.inr ⟨k, f, _, hlook, hframe, hleast.1, Or.inr ⟨hchosen, hleast⟩, ?_⟩
      refine h.reselected JournalReader.refresh_journals
        ⟨sameJournals_refresh.singleJournal.trans h.several.1,
          sameJournals_refresh.singleFrame.trans h.several.2⟩
        (by rw [hrefresh]; exact h.linear) (by rw [hnr, hi]; rfl)
        (fun _ => ⟨⟨k, hk⟩, f, hi, hleast.1⟩) fun x hx => ?_
      cases hx
      exact ⟨hnr, hi, f, hleast.1, rfl⟩
  · have hn : A.reader.needsRebuild = false := by simpa using hn
    -- the frame selected before is kept, whatever was written since
    obtain ⟨k, f, hi, hf⟩ := h.settled hn
    have hrefresh : A.reader.refresh H (X.files A.feeds) = A.reader := by
      rw [JournalReader.refresh, hn]
      rfl
    have hchosen : s.chosen = some k.val := by rw [h.chosen, hn, hi]; rfl
    obtain ⟨hlook, hframe⟩ := h.shown (H := H) hX (by rw [hrefresh]; exact hi) hf
    rw [hrefresh] at hlook hframe
    refine Or.inr ⟨k, f, _, hlook, hframe, hf, Or.inl hchosen, ?_⟩
    refine h.reselected rfl h.several h.linear (by rw [hn, hi]; rfl) h.settled fun x hx => ?_
    cases hx
    exact ⟨hn, hi, f, hf, rfl⟩

/-! ## Advancing -/

/-- The journal at a cursor moves over its next frame. -/
theorem Gathers.journal_next (h : Gathers X I A s) (hX : X.Grows I) {k : Fin m}
    {j : Journal} {e : Entry} {rest : List Entry}
    (hst : Gathering.Stands X A.feeds k (s.position k) j)
    (he : (X.world A.feeds k).log.drop (s.position k) = e :: rest) :
    ∃ c, j.next (j.current (X.files A.feeds)) (X.files A.feeds) =
        .ok (X.files A.feeds, { j with cursor := c }) ∧
      Gathering.Stands X A.feeds k (s.position k + 1) { j with cursor := c } := by
  obtain ⟨tail, hread, -⟩ := ((hX.feed k).followable _ (h.feeds k)).readable
  have hin := h.inside k
  rw [h.logs k, List.length_map] at hin
  have hlen : (((X.world A.feeds k).log.take (s.position k)).map Entry.frame).length =
      s.position k := by
    rw [List.length_map, List.length_take, Nat.min_eq_left hin]
  have hget : (X.world A.feeds k).log[s.position k]? = some e := by
    rw [← List.head?_drop, he]
    rfl
  have hdisk : j.disk (X.files A.feeds) = (X.world A.feeds k).disk := by
    rw [Journal.disk, hst.location, hst.destId, hX.files_place]
  have hsize : j.pageSize = X.pageSize k := by
    rw [Journal.pageSize, hst.location, hst.destId]
    rfl
  have hcur : j.current (X.files A.feeds) = viewOf e.frame := (he ▸ h.infront hX hst).seen.current
  rcases hst.reads.next hread with ⟨e', hget', -, -, -, c, hadv, hreads⟩ | ⟨hall, -⟩
  · rw [hlen] at hget'
    cases hget.symm.trans hget'
    refine ⟨c, ?_, hst.address, hst.location, hst.destId, ?_⟩
    · have hn : j.cursor.next j.pageSize (viewOf e.frame) (j.disk (X.files A.feeds)) =
          .ok (j.disk (X.files A.feeds), c) := by
        rw [hdisk, hsize]
        exact hadv
      rw [hcur, Journal.next, hn]
      simp only [Except.ok_map, j.put_disk]
    · rw [List.take_add_one, hget, List.map_append]
      exact hreads
  · have := congrArg List.length hall
    rw [hlen, List.length_map] at this
    rw [List.getElem?_eq_none (Nat.le_of_eq this.symm)] at hget
    cases hget

/-- **Advancing over the frame that was shown.** -/
theorem Gathers.advance (h : Gathers X I A s) (hX : X.Grows I) {v : MergedView}
    (hv : A.view = some v) :
    ∃ f r', A.reader.frame v (X.files A.feeds) = some f ∧
      JournalReader.advance H v.toFrameView (X.files A.feeds, A.reader) =
        .returns (X.files A.feeds, r') ∧
      s.chosen = some v.frame ∧ s.next v.frame = some f ∧
      Gathers X I ⟨A.feeds, r', none⟩
        { s with
          position := Function.update s.position v.frame (s.position v.frame + 1),
          chosen := none } := by
  obtain ⟨hn, hi, f, hf, hview⟩ := h.view v hv
  have hrefresh : A.reader.refresh H (X.files A.feeds) = A.reader := by
    rw [JournalReader.refresh, hn]
    rfl
  obtain ⟨-, hframe⟩ := h.shown (H := H) hX (by rw [hrefresh]; exact hi) hf
  rw [hrefresh, ← hview] at hframe
  obtain ⟨hk, e, rest, he, rfl⟩ := h.next_some hf
  obtain ⟨j, hj, hst⟩ := h.standing ⟨v.frame, hk⟩
  obtain ⟨c, hnext, hst'⟩ := h.journal_next hX hst he
  have hlt : v.frame < A.reader.journals.length := Nat.lt_of_lt_of_eq hk h.length.symm
  have hchosen : s.chosen = some v.frame := by rw [h.chosen, hn, hi]; rfl
  refine ⟨e.frame, { A.reader with
    journals := A.reader.journals.set v.frame { j with cursor := c }, needsRebuild := true },
      hframe, ?_, hchosen, hf, ?_⟩
  · have hlin :
        ({ A.reader with journals := A.reader.journals.set v.frame { j with cursor := c } } :
        JournalReader).usesHeap = false := by
      have := h.linear
      rw [JournalReader.usesHeap] at this ⊢
      simpa only [List.length_set] using this
    rw [JournalReader.advance_several h.several.1, JournalReader.next_several hi hlt h.several.1]
    simp only [JournalReader.stepJournal, hj, hnext, Result.andThen, JournalReader.reselect, hlin,
      Bool.false_eq_true, if_false]
  · have hat : s.position v.frame + 1 ≤ (s.log v.frame).length :=
      (List.getElem?_eq_some_iff.mp hf).1
    refine ⟨h.feeds, h.logs, h.beyond, fun i => ?_, fun k => ?_, ?_, h.several, ?_, rfl,
      fun hc => (by cases hc), fun x hx => (by cases hx)⟩
    · by_cases hiv : i = v.frame
      · subst hiv
        simp only [Function.update_self]
        exact hat
      · simp only [Function.update_of_ne hiv]
        exact h.inside i
    · by_cases hkv : k.val = v.frame
      · obtain rfl : k = ⟨v.frame, hk⟩ := Fin.ext hkv
        refine ⟨_, List.getElem?_set_self hlt, ?_⟩
        simp only [Function.update_self]
        exact hst'
      · obtain ⟨j', hj', hst'⟩ := h.standing k
        refine ⟨j', ?_, ?_⟩
        · show (A.reader.journals.set v.frame { j with cursor := c })[k.val]? = some j'
          rw [List.getElem?_set_ne (Ne.symm hkv)]
          exact hj'
        · simp only [Function.update_of_ne hkv]
          exact hst'
    · show (A.reader.journals.set v.frame { j with cursor := c }).length = m
      rw [List.length_set]
      exact h.length
    · have := h.linear
      rw [JournalReader.usesHeap] at this ⊢
      simpa only [List.length_set] using this

/-! ## Writing -/

/-- The journals' logs after a step of one writing side. -/
def appendedAt (s : MergedLog.State Frame) (k : Nat) (fs : List Frame) : MergedLog.State Frame :=
  { s with log := Function.update s.log k (s.log k ++ fs) }

theorem next_appendedAt {i k : Nat} {f : Frame} {fs : List Frame} (h : s.next i = some f) :
    (appendedAt s k fs).next i = some f := by
  rw [MergedLog.State.next, appendedAt]
  by_cases hi : i = k
  · subst hi
    simp only [Function.update_self]
    rw [List.getElem?_append_left (List.getElem?_eq_some_iff.mp h).1]
    exact h
  · simp only [Function.update_of_ne hi]
    exact h

theorem Gathers.write (h : Gathers X I A s) (hX : X.Grows I) {k : Fin m} {u : σ}
    (hnext : (X.feed k).next (A.feeds k) u) :
    Gathers X I { A with feeds := Function.update A.feeds k u }
      (appendedAt s k
        ((((X.feed k).world u).log.drop (X.world A.feeds k).log.length).map Entry.frame)) := by
  obtain ⟨hu, hlog⟩ := (hX.feed k).next _ _ (h.feeds k) hnext
  have hself : X.world (Function.update A.feeds k u) k = (X.feed k).world u := by
    rw [Sources.world, Function.update_self]
  have hother : ∀ i, i ≠ k → X.world (Function.update A.feeds k u) i = X.world A.feeds i := by
    intro i hi
    rw [Sources.world, Function.update_of_ne hi]
    rfl
  obtain ⟨ext, hext⟩ := hlog
  have hext' : ((X.feed k).world u).log = (X.world A.feeds k).log ++ ext := hext.symm
  have hnews : ((X.feed k).world u).log.drop (X.world A.feeds k).log.length = ext := by
    rw [hext', List.drop_left]
  rw [hnews]
  -- only the log of `k` grows; the frame at a cursor stays the one it was
  refine ⟨fun i => ?_, fun i => ?_, fun i hi => ?_, fun i => ?_, fun i => ?_, h.length, h.several,
    h.linear, h.chosen, fun hn => ?_, fun x hx => ?_⟩
  · by_cases hi : i = k
    · subst hi
      simp only [Function.update_self]
      exact hu
    · simp only [Function.update_of_ne hi]
      exact h.feeds i
  · by_cases hi : i = k
    · subst hi
      show (appendedAt s i _).log i = (X.world (Function.update A.feeds i u) i).log.map Entry.frame
      simp only [appendedAt, Function.update_self]
      rw [hself, hext', List.map_append, ← h.logs i]
    · show (appendedAt s k _).log i = (X.world (Function.update A.feeds k u) i).log.map Entry.frame
      simp only [appendedAt, Function.update_of_ne fun hc => hi (Fin.ext hc)]
      rw [hother i hi, h.logs i]
  · have hne : i ≠ k.val := fun hc => absurd k.isLt (by omega)
    show (appendedAt s k _).log i = []
    simp only [appendedAt, Function.update_of_ne hne]
    exact h.beyond i hi
  · have := h.inside i
    show s.position i ≤ ((appendedAt s k _).log i).length
    simp only [appendedAt]
    by_cases hi : i = k.val
    · subst hi
      simp only [Function.update_self, List.length_append]
      omega
    · simp only [Function.update_of_ne hi]
      exact this
  · obtain ⟨j, hj, hst⟩ := h.standing i
    refine ⟨j, hj, hst.address, hst.location, hst.destId, ?_⟩
    show Reads (X.world (Function.update A.feeds k u) i).log j.cursor none
      (((X.world (Function.update A.feeds k u) i).log.take (s.position i)).map Entry.frame)
    by_cases hi : i = k
    · subst hi
      have hin := h.inside i
      rw [h.logs i, List.length_map] at hin
      rw [hself, hext', List.take_append_of_le_length hin]
      exact hst.reads.mono (List.prefix_append ..)
    · rw [hother i hi]
      exact hst.reads
  · obtain ⟨i, f, hi, hf⟩ := h.settled hn
    exact ⟨i, f, hi, next_appendedAt hf⟩
  · obtain ⟨hn, hi, f, hf, hview⟩ := h.view x hx
    exact ⟨hn, hi, f, next_appendedAt hf, hview⟩

/-- **Each step is one of the merged log.** -/
theorem Gathering.simulates (hX : X.Grows I) (hm : 0 < m) :
    Observed.Simulates (Step X H) (MergedLog.Step genTimeKey) (Gathers X I) := by
  intro A es A' s h hstep
  cases hstep with
  | @write k u hnext =>
    have htrace := MergedLog.trace_appends genTimeKey s k
      ((((X.feed k).world u).log.drop (X.world A.feeds k).log.length).map Entry.frame)
    rw [List.map_map] at htrace
    exact ⟨_, htrace, h.write hX hnext⟩
  | @nothing r' hlook =>
    rcases h.look (H := H) hX hm with ⟨hc, hnone, q, hq, hg⟩ | ⟨k, f, q, hq, -⟩
    · cases hlook.symm.trans hq
      exact ⟨s, .single (.nothing hc hnone), hg⟩
    · cases hlook.symm.trans hq
  | @shown r' v f hlook hf =>
    rcases h.look (H := H) hX hm with ⟨hc, hnone, q, hq, hg⟩
      | ⟨k, g, q, hq, hg, hnext, hc, hgathers⟩
    · cases hlook.symm.trans hq
    · cases hlook.symm.trans hq
      cases hf.symm.trans hg
      rcases hc with hc | ⟨hc, hleast⟩
      · have hsame : { s with chosen := some k } = s := by rw [← hc]
        rw [hsame] at hgathers
        exact ⟨s, .single (.again hc hnext), hgathers⟩
      · exact ⟨_, .single (.choose hc hleast), hgathers⟩
  | @advance v f files r' hv hf hadv =>
    obtain ⟨g, q, hg, hq, hc, hnext, hgathers⟩ := h.advance (H := H) hX hv
    cases hf.symm.trans hg
    cases hadv.symm.trans hq
    rw [hX.put_files]
    exact ⟨_, .single (.take hc hnext), hgathers⟩

/-! ## A reader that is left alone -/

/-- One of the writing sides goes on, and nobody reads. -/
theorem Gathering.writes (A : Gathering σ m) {k : Fin m} {u : σ}
    (h : Relation.ReflTransGen (X.feed k).next (A.feeds k) u) :
    ∃ es, Observed.Trace (Step X H) A es { A with feeds := Function.update A.feeds k u } := by
  induction h with
  | refl =>
    rw [Function.update_eq_self]
    exact ⟨[], .nil⟩
  | @tail u u' _ hnext ih =>
    obtain ⟨es, htrace⟩ := ih
    have hself : (X.feed k).next (Function.update A.feeds k u k) u' := by
      rw [Function.update_self]
      exact hnext
    have hstep := htrace.snoc (.write k hself)
    rw [show Function.update (Function.update A.feeds k u) k u' = Function.update A.feeds k u' from
      Function.update_idem ..] at hstep
    exact ⟨_, hstep⟩

/-- All of them go on. -/
theorem Gathering.writesAll (A : Gathering σ m) {u : Fin m → σ}
    (h : ∀ k, Relation.ReflTransGen (X.feed k).next (A.feeds k) (u k)) :
    ∃ es, Observed.Trace (Step X H) A es { A with feeds := u } := by
  have main : ∀ ks : List (Fin m), ks.Nodup → ∃ es, Observed.Trace (Step X H) A es
      { A with feeds := fun i => if i ∈ ks then u i else A.feeds i } := by
    intro ks
    induction ks with
    | nil =>
      intro _
      simp only [List.not_mem_nil, if_false]
      exact ⟨[], .nil⟩
    | cons k ks ih =>
      intro hnodup
      obtain ⟨hk, hks⟩ := List.nodup_cons.mp hnodup
      obtain ⟨es, htrace⟩ := ih hks
      let A₁ : Gathering σ m := { A with feeds := fun i => if i ∈ ks then u i else A.feeds i }
      have hturn : Relation.ReflTransGen (X.feed k).next (A₁.feeds k) (u k) := by
        rw [show A₁.feeds k = A.feeds k from if_neg hk]
        exact h k
      obtain ⟨fs, hwrite⟩ : ∃ fs, Observed.Trace (Step X H) A₁ fs _ := A₁.writes hturn
      have hfeeds : Function.update A₁.feeds k (u k) =
          fun i => if i ∈ k :: ks then u i else A.feeds i := by
        funext i
        by_cases hi : i = k
        · subst hi
          simp
        · simp [hi, A₁]
      rw [hfeeds] at hwrite
      exact ⟨es ++ fs, htrace.trans hwrite⟩
  obtain ⟨es, htrace⟩ := main (List.finRange m) (List.nodup_finRange m)
  simp only [List.mem_finRange, if_true] at htrace
  exact ⟨es, htrace⟩

/-- **Left alone, the reader takes frame after frame** until it is told that there is none. -/
theorem Gathers.drains (h : Gathers X I A s) (hX : X.Grows I) (hm : 0 < m) :
    ∃ es A', Observed.Trace (Gathering.Step X H) A (es ++ [.nothing]) A' ∧ A'.feeds = A.feeds := by
  induction hn : ∑ k : Fin m, ((s.log k).length - s.position k) using Nat.strong_induction_on
    generalizing A s with
  | _ n ih =>
    rcases h.look (H := H) hX hm with ⟨-, -, r', hlook, -⟩ | ⟨k, f, r', hlook, hf, hnext, -, hg⟩
    · exact ⟨[], _, .single (.nothing hlook), rfl⟩
    · obtain ⟨g, q, hframe, hadv, -, -, hg'⟩ := hg.advance (H := H) hX rfl
      obtain ⟨hk, -⟩ := h.next_some hnext
      have hlt : s.position k < (s.log k).length := (List.getElem?_eq_some_iff.mp hnext).1
      have hsum : ∑ i : Fin m, ((s.log i).length -
          Function.update s.position k (s.position k + 1) i) < n := by
        rw [← hn]
        refine Finset.sum_lt_sum (fun i _ => ?_) ⟨⟨k, hk⟩, Finset.mem_univ _, ?_⟩
        · by_cases hi : i.val = k
          · rw [hi, Function.update_self]
            omega
          · rw [Function.update_of_ne hi]
        · show (s.log k).length - Function.update s.position k (s.position k + 1) k <
            (s.log k).length - s.position k
          rw [Function.update_self]
          omega
      obtain ⟨es, A', htrace, hfeeds⟩ := ih _ hsum hg' rfl
      have hmove : Observed.Trace (Gathering.Step X H) A ([.shown k f] ++ [.taken k g]) _ :=
        (Observed.Trace.single (.shown hlook hf)).snoc (.advance rfl hframe hadv)
      rw [hX.put_files] at hmove
      refine ⟨[.shown k f] ++ [.taken k g] ++ es, A', ?_, hfeeds⟩
      rw [List.append_assoc]
      exact hmove.trans htrace

/-! ## Starting -/

/-- The reader has joined, and has not looked yet. -/
def Gathering.start (feeds : Fin m → σ) (r : JournalReader) : Gathering σ m :=
  { feeds, reader := r }

theorem Followable.storedAt {files : Files} {x : Location × UInt32} {w : World}
    (h : Followable (findPageSize x.1.category x.2) w) (hf : files x.1.uid x.2 = w.disk) :
    StoredAt files x w.log := by
  obtain ⟨tail, hread, -⟩ := h.readable
  refine ⟨⟨1, tail, ?_⟩, h.times⟩
  rw [hf]
  exact ⟨hread, h.first, h.last⟩

/-- The log before anything was taken. -/
def logsOf (log₀ : Fin m → List Frame) : MergedLog.State Frame where
  log := fun k => if h : k < m then log₀ ⟨k, h⟩ else []

theorem trace_earlier (log₀ : Fin m → List Frame) :
    Observed.Trace (MergedLog.Step genTimeKey) {} (earlier log₀) (logsOf log₀) := by
  have main : ∀ ks : List (Fin m), ks.Nodup → Observed.Trace (MergedLog.Step genTimeKey) {}
      (ks.flatMap fun k => (log₀ k).map (.appended k))
      (logsOf fun k => if k ∈ ks then log₀ k else []) := by
    intro ks
    induction ks using List.reverseRecOn with
    | nil =>
      intro _
      have hempty : (logsOf fun k : Fin m => if k ∈ [] then log₀ k else []) = {} := by
        simp [logsOf]
      rw [hempty]
      exact .nil
    | append_singleton ks k ih =>
      intro hnodup
      obtain ⟨hks, -, hdisj⟩ := List.nodup_append.mp hnodup
      have hk : k ∉ ks := fun hmem => hdisj k hmem k (List.mem_singleton.mpr rfl) rfl
      rw [List.flatMap_append, List.flatMap_singleton]
      refine (ih hks).trans ?_
      have htrace := MergedLog.trace_appends genTimeKey
        (logsOf fun i => if i ∈ ks then log₀ i else []) k (log₀ k)
      have hlog : (logsOf fun i => if i ∈ ks ++ [k] then log₀ i else []).log =
          Function.update (logsOf fun i => if i ∈ ks then log₀ i else []).log k.val
            ((logsOf fun i => if i ∈ ks then log₀ i else []).log k.val ++ log₀ k) := by
        funext i
        by_cases hi : i = k.val
        · subst hi
          simp [logsOf, hk]
        · have hne : ∀ h : i < m, (⟨i, h⟩ : Fin m) ≠ k := fun _ hc => hi (congrArg Fin.val hc)
          simp [logsOf, Function.update_of_ne hi, hne]
      rw [← hlog] at htrace
      exact htrace
  have h := main (List.finRange m) (List.nodup_finRange m)
  simp only [List.mem_finRange, if_true] at h
  exact h

/-- Every journal's cursor is where its `join` from time 0 has left it. -/
def CursorsJoined (files : Files) (fuel : Nat) (r : JournalReader) : Prop :=
  ∀ j ∈ r.journals, Reader.join j.pageSize fuel r.prefault 0 (j.disk files) =
    .ok (j.disk files, j.cursor)

theorem CursorsJoined.join {files : Files} {fuel : Nat} {r r' : JournalReader} {location : Location}
    {destId : UInt32} (h : CursorsJoined files fuel r)
    (he : JournalReader.join fuel location destId 0 (files, r) = .returns (files, r')) :
    CursorsJoined files fuel r' := by
  unfold JournalReader.join at he
  simp only at he
  split at he
  · cases he
    exact h
  · split at he
    · cases he
    · rename_i d c hseek
      obtain ⟨hput, rfl⟩ := Prod.mk.inj (Result.returns.inj he)
      -- the files are as they were, so the journal's are
      have hd : d = files location.uid destId := by
        rw [← congrFun (congrFun hput location.uid) destId, Journal.put, if_pos ⟨rfl, rfl⟩]
      intro j hj
      simp only [JournalReader.refreshSingleJournal_journals] at hj
      simp only [JournalReader.refreshSingleJournal_prefault]
      rcases List.mem_append.mp hj with hj | hj
      · exact h j hj
      · obtain rfl := List.mem_singleton.mp hj
        rw [hd] at hseek
        exact hseek

theorem Joined.joinAll_cursors {files : Files} {r : JournalReader}
    {js js' : List (Location × UInt32)} {srcs srcs' : List (List Entry)} {fuel : Nat}
    (h : Joined files r js srcs) (hc : CursorsJoined files (fuel + 1) r)
    (hd : Distinct (js ++ js')) (hst : List.Forall₂ (StoredAt files) js' srcs') (H : MergeHeap) :
    ∃ r', ReaderCall.execAll H (Revoq.joinAll (fuel + 1) js') (files, r) = some (files, r') ∧
      Joined files r' (js ++ js') (srcs ++ srcs') ∧ CursorsJoined files (fuel + 1) r' := by
  induction hst generalizing r js srcs with
  | nil =>
    rw [List.append_nil, List.append_nil]
    exact ⟨r, rfl, h, hc⟩
  | @cons x es js' srcs' hx _ ih =>
    rw [List.append_cons] at hd ⊢
    have hd' : Distinct (js ++ [x]) := by
      rw [Distinct, List.map_append, List.nodup_append] at hd
      exact hd.1
    obtain ⟨r₁, hr₁, hj₁, -⟩ := h.joinAt hd' (hx.seeksTo r.prefault fuel)
    obtain ⟨r', hr', hj', hc'⟩ := ih hj₁ (hc.join hr₁) hd
    refine ⟨r', ?_, by rw [List.append_cons srcs]; exact hj', hc'⟩
    rw [Revoq.joinAll, List.map_cons, ReaderCall.execAll, ReaderCall.exec, hr₁]
    exact hr'

/-- **The reader joins all journals from time 0**, and stands in front of every frame. -/
theorem gathers_start (hX : X.Grows I) (H : MergeHeap) {feeds : Fin m → σ}
    (h₀ : ∀ k, I k (feeds k)) (h2 : 2 ≤ m) (prefault useHeap : Bool)
    (hlin : m ≤ 3 ∨ useHeap = false) (fuel : Nat) :
    ∃ r, ReaderCall.execAll H (joinAll (fuel + 1) (List.ofFn X.place))
      (X.files feeds, { prefault := prefault }) =
        some (X.files feeds, r) ∧
      Gathers X I (Gathering.start feeds (r.setUseHeap useHeap))
        (logsOf fun k => (X.world feeds k).log.map Entry.frame) := by
  have hst : List.Forall₂ (StoredAt (X.files feeds)) (List.ofFn X.place)
      (List.ofFn fun k => (X.world feeds k).log) := by
    refine List.forall₂_iff_get.mpr ⟨by rw [List.length_ofFn, List.length_ofFn], fun i hi hi' => ?_⟩
    rw [List.length_ofFn] at hi
    simp only [List.get_eq_getElem, List.getElem_ofFn]
    exact ((hX.feed ⟨i, hi⟩).followable _ (h₀ ⟨i, hi⟩)).storedAt (hX.files_place feeds ⟨i, hi⟩)
  have hdistinct : Distinct ([] ++ List.ofFn X.place) := hX.distinct
  have hnew : CursorsJoined (X.files feeds) (fuel + 1) { prefault := prefault } :=
    fun j hj => (by cases hj)
  obtain ⟨r, hr, hj, hcursors⟩ :=
    (joined_new (X.files feeds) prefault).joinAll_cursors hnew hdistinct hst H
  rw [List.nil_append, List.nil_append] at hj
  have hreads := hj.readsFrom (by rw [List.length_ofFn]; exact h2)
  have hlen : r.journals.length = m := by rw [hj.length_eq, List.length_ofFn]
  refine ⟨r, hr, h₀, fun k => ?_, fun i hi => ?_, fun i => Nat.zero_le _, fun k => ?_, hlen,
    ⟨hreads.singleJournal, hreads.singleFrame⟩, ?_, rfl, fun hc => (by cases hc),
    fun v hv => (by cases hv)⟩
  · show (if h : k.val < m then _ else _) = _
    rw [dif_pos k.isLt]
    rfl
  · show (if h : i < m then _ else _) = _
    rw [dif_neg (Nat.not_lt.mpr hi)]
  · have hk : k.val < r.journals.length := hlen ▸ k.isLt
    have hget : r.journals[k.val]? = some r.journals[k.val] := List.getElem?_eq_getElem hk
    have hlabel := congrArg (fun l => l[k.val]?) hj.labels
    simp only [List.getElem?_map, hget, Option.map_some, List.getElem?_ofFn,
      dif_pos k.isLt] at hlabel
    obtain ⟨hlocation, hdest⟩ := Prod.mk.inj (Option.some.inj hlabel)
    refine ⟨_, hget, hj.address k.val _ hget, hlocation, hdest, ?_⟩
    have hjoined := hcursors _ (List.mem_of_getElem? hget)
    rw [Journal.pageSize, Journal.disk, hlocation, hdest, hX.files_place] at hjoined
    obtain ⟨c, hc, hreads⟩ := ((hX.feed k).followable _ (h₀ k)).join fuel r.prefault
    cases hc.symm.trans hjoined
    exact hreads
  · rcases hlin with h3 | rfl
    · have : ¬ r.journals.length > 3 := by omega
      simp [JournalReader.usesHeap, JournalReader.setUseHeap, Gathering.start, this]
    · rfl

/-- **A reader of growing journals**, whoever writes them. -/
theorem Gathering.liveMerge (hX : X.Grows I) (hm : 0 < m) {log₀ : Fin m → List Frame}
    {A₀ : Gathering σ m} (h₀ : Gathers X I A₀ (logsOf log₀)) {es : List (MergedLog.Event Frame)}
    (h : Observed.Trace (Step X H) A₀ es A) : LiveMerge X H log₀ es A ∧ ∀ k, I k (A.feeds k) := by
  obtain ⟨s, htrace, hs⟩ := (simulates hX hm).trace h₀ h
  obtain ⟨hmatch, hordered⟩ := MergedLog.Trace.ordered ((trace_earlier log₀).trans htrace)
  obtain ⟨hearlier, -⟩ := MergedLog.Trace.ordered (trace_earlier log₀)
  refine ⟨⟨hordered, fun k => ?_, ?_, fun v hv => ?_⟩, hs.feeds⟩
  · rw [← hs.logs k, ← hmatch.log k, MergedLog.appends_append, hearlier.log k]
    show _ = (if h : k.val < m then _ else _) ++ _
    rw [dif_pos k.isLt]
  · rcases hs.look (H := H) hX hm with ⟨-, -, r', hlook, -⟩ | ⟨k, f, r', hlook, hf, -⟩
    · exact ⟨none, r', hlook, fun x hx => by cases hx⟩
    · refine ⟨_, r', hlook, fun x hx => ?_⟩
      cases hx
      exact ⟨f, hf⟩
  · obtain ⟨f, r', hf, hadv, -⟩ := hs.advance (H := H) hX hv
    exact ⟨f, _, r', hf, hadv⟩

/-- A reader that is told that there is nothing has taken everything. -/
theorem LiveMerge.drained {log₀ : Fin m → List Frame} {es : List (MergedLog.Event Frame)}
    (h : LiveMerge X H log₀ (es ++ [.nothing]) A) (k : Fin m) :
    MergedLog.takes k es = (X.world A.feeds k).log.map Entry.frame := by
  obtain ⟨hearlier, -⟩ := MergedLog.Trace.ordered (trace_earlier log₀)
  have hlog : MergedLog.appends k (earlier log₀) = log₀ k :=
    (hearlier.log k).trans (dif_pos k.isLt)
  have hall := h.ordered.nothing (earlier log₀ ++ es) [] (List.append_assoc ..).symm k
  rw [MergedLog.takes_append, hearlier.taken k, MergedLog.appends_append, hlog] at hall
  have happended := h.appended k
  rw [MergedLog.appends_append] at happended
  exact hall.trans ((congrArg _ (List.append_nil _).symm).trans happended)

end

/-! ## Writers with their warmers -/

/-- Each journal is written by a process of its own, with a warmer. -/
def tandems {m : Nat} (place : Fin m → Location × UInt32) : Sources Tandem m where
  feed := fun k => Tandem.feed (findPageSize (place k).1.category (place k).2)
  place := place

theorem tandems_grows {m : Nat} {place : Fin m → Location × UInt32}
    (hplace : Distinct (List.ofFn place)) {job : Fin m → Job}
    (htime : ∀ k, ∀ w ∈ (job k).writes, w.Timely)
    (hmax : ∀ k, ∀ w ∈ (job k).writes, w.timestamp < Int64.maxValue ∧ w.now < Int64.maxValue) :
    (tandems place).Grows fun k => Tandem.Working ((tandems place).pageSize k) (job k) := by
  refine ⟨hplace, fun k => Tandem.feed_grows (htime k), fun k S hS e he => ?_⟩
  obtain ⟨thread, hsafe⟩ := hS.safe
  exact journal_times (p := (· < Int64.maxValue)) (hmax k) e ((hsafe.inv (.refl _)).1.subset he)

/-- **Merging live journals.**  Several writers, each with its warmer thread and a journal
of its own, and one reader that has joined the journals from time 0 and merges them by
rescanning.  Whatever the interleaving, no call of the reader fails, it takes of each
journal the frames that were committed, in order and each once, it chooses a frame with
the least `gen_time` of all that could be read at that moment, and it is told that there
is none only if it has taken every frame committed so far. -/
theorem live_merge (H : MergeHeap) {m : Nat} (place : Fin m → Location × UInt32)
    (hplace : Distinct (List.ofFn place)) (h2 : 2 ≤ m) (job : Fin m → Job)
    (hjob : ∀ k, (job k).Ok ((tandems place).pageSize k))
    (htime : ∀ k, ∀ w ∈ (job k).writes, w.Timely)
    (hmax : ∀ k, ∀ w ∈ (job k).writes, w.timestamp < Int64.maxValue ∧ w.now < Int64.maxValue)
    (ms : Fin m → List Mover) (S₀ : Fin m → Tandem)
    (h₀ : ∀ k, (Tandem.start (job k)).play ((tandems place).pageSize k) (ms k) = some (S₀ k))
    (ht₀ : ∀ k, (Tandem.start (job k)).TimelyRun ((tandems place).pageSize k) (ms k))
    (hctor : ∀ k, (S₀ k).code = (job k).writes.flatMap (Write.code false))
    (prefault useHeap : Bool) (hlin : m ≤ 3 ∨ useHeap = false) (fuel : Nat) :
    ∃ r, ReaderCall.execAll H (joinAll (fuel + 1) (List.ofFn place))
        ((tandems place).files S₀, { prefault := prefault }) = some ((tandems place).files S₀, r) ∧
      ∀ es A, Observed.Trace (Gathering.Step (tandems place) H)
        (Gathering.start S₀ (r.setUseHeap useHeap)) es A →
        LiveMerge (tandems place) H (fun k => (S₀ k).world.log.map Entry.frame) es A ∧
        ∀ k, dataOf (A.feeds k).world.log <+: (job k).writes.map fun w => w.request.frame 0 := by
  have hX := tandems_grows hplace htime hmax
  have hwork : ∀ k, Tandem.Working ((tandems place).pageSize k) (job k) (S₀ k) := fun k =>
    ((Tandem.follows_start _ (job k)).play (h₀ k) (ht₀ k)).1.working (hjob k) (hctor k)
  obtain ⟨r, hr, hstart⟩ := gathers_start hX H hwork h2 prefault useHeap hlin fuel
  refine ⟨r, hr, fun es A h => ?_⟩
  obtain ⟨hmerge, hlast⟩ := Gathering.liveMerge hX (by omega) hstart h
  refine ⟨hmerge, fun k => ?_⟩
  obtain ⟨thread, hsafe⟩ := (hlast k).safe
  rw [← dataOf_journal (hjob k).writes]
  exact dataOf_prefix (hsafe.inv (.refl _)).1

/-- Two journals are joined before anything is written; a write is made in each, and the
reader takes both frames. -/
theorem live_merge_two :
    ∃ (ms : Fin 2 → List Mover) (S₀ : Fin 2 → Tandem) (r : JournalReader)
      (es : List (MergedLog.Event Frame)) (A : Gathering Tandem 2),
      (∀ k, (Tandem.start (![⟨true, 1, [.mark 5 3 7]⟩, ⟨true, 1, [.bytes 5 2 9 [4]]⟩] k)).play
        ((tandems ![(⟨1, .log⟩, 0), (⟨2, .log⟩, 0)]).pageSize k) (ms k) = some (S₀ k)) ∧
      ReaderCall.execAll mergeBySorting (joinAll 1 (List.ofFn ![(⟨1, .log⟩, 0), (⟨2, .log⟩, 0)]))
        ((tandems ![(⟨1, .log⟩, 0), (⟨2, .log⟩, 0)]).files S₀, { prefault := false }) =
          some ((tandems ![(⟨1, .log⟩, 0), (⟨2, .log⟩, 0)]).files S₀, r) ∧
      Observed.Trace (Gathering.Step (tandems ![(⟨1, .log⟩, 0), (⟨2, .log⟩, 0)]) mergeBySorting)
        (Gathering.start S₀ (r.setUseHeap true)) (es ++ [.nothing]) A ∧
      (∀ k : Fin 2, MergedLog.takes k es = (A.feeds k).world.log.map Entry.frame ∧
        ((dataOf (A.feeds k).world.log).map fun f => (f.msgType, f.payload)) =
          ![[(7, [])], [(9, [4])]] k) ∧
      LiveMerge (tandems ![(⟨1, .log⟩, 0), (⟨2, .log⟩, 0)]) mergeBySorting
        (fun k => (S₀ k).world.log.map Entry.frame) (es ++ [.nothing]) A := by
  let place : Fin 2 → Location × UInt32 := ![(⟨1, .log⟩, 0), (⟨2, .log⟩, 0)]
  let job : Fin 2 → Job := ![⟨true, 1, [.mark 5 3 7]⟩, ⟨true, 1, [.bytes 5 2 9 [4]]⟩]
  have hjob : ∀ k, (job k).Ok ((tandems place).pageSize k) := by decide
  have hplace : Distinct (List.ofFn place) := by decide
  have htime : ∀ k, ∀ w ∈ (job k).writes, w.Timely := by decide
  have hmax : ∀ k, ∀ w ∈ (job k).writes,
    w.timestamp < Int64.maxValue ∧ w.now < Int64.maxValue := by decide
  choose n S₀ h₀ hctor hthread using fun k => Tandem.constructed (hjob k)
  have ht₀ := fun k => Tandem.timelyRun_writer (P := (tandems place).pageSize k)
    (S := Tandem.start (job k)) (fun _ => id) (n k)
  obtain ⟨r, hr, all⟩ := live_merge mergeBySorting place hplace (by decide) job hjob htime hmax
    (fun k => List.replicate (n k) .writer) S₀ h₀ ht₀ hctor false true (Or.inl (by decide)) 0
  -- each writer makes its write
  have hX := tandems_grows hplace htime hmax
  have hwork := fun k =>
    ((Tandem.follows_start _ (job k)).play (h₀ k) (ht₀ k)).1.working (hjob k) (hctor k)
  choose U hwrites hdata using fun k =>
    (hwork k).finishes (hjob k) (by rw [hthread k]; exact fun _ => id)
  obtain ⟨es, hwritten⟩ := Gathering.writesAll (X := tandems place) (H := mergeBySorting)
    (Gathering.start S₀ (r.setUseHeap true)) hwrites
  -- and the reader is left alone
  obtain ⟨r', hr', hstart⟩ := gathers_start hX mergeBySorting hwork (by decide) false true
    (Or.inl (by decide)) 0
  cases hr.symm.trans hr'
  obtain ⟨s, -, hs⟩ := (Gathering.simulates hX (by decide)).trace hstart hwritten
  obtain ⟨fs, A, hdrain, hfeeds⟩ := hs.drains (H := mergeBySorting) hX (by decide)
  have htrace := hwritten.trans hdrain
  rw [← List.append_assoc] at htrace
  have hmerge := (all _ _ htrace).1
  refine ⟨_, S₀, r, es ++ fs, A, h₀, hr, htrace, fun k => ⟨hmerge.drained k, ?_⟩, hmerge⟩
  rw [hfeeds]
  show ((dataOf (U k).world.log).map _) = _
  rw [hdata k]
  revert k
  exact Fin.forall_fin_two.mpr ⟨rfl, rfl⟩

end Revoq
