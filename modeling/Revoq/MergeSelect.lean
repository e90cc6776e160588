import Revoq.Bookkeeping

/-! # How the reader selects a frame

What `findMinimumLinear`, `rebuildHeap` and `updateHeap` do, said in terms of the
journals' *heads*: the `gen_time` of each journal's current frame, if it has one.

The scan finds the first least head, provided one is below the largest `int64`.  A
heap that mirrors the heads has a least one in front; `updateHeap` keeps it in step
with the journal it pops, and with no other.
-/
namespace Revoq
open StmtMachine HeapContract

/-- The `gen_time` of the journal's current frame, if it has one. -/
def Journal.head (files : Files) (j : Journal) : Option Int64 :=
  if j.hasData files then some (j.genTime files) else none

/-- The heads of the joined journals. -/
def JournalReader.heads (files : Files) (r : JournalReader) (i : Nat) : Option Int64 :=
  r.journals[i]?.bind (Journal.head files)

/-- No journal's head is before this journal's. -/
def LeastHead (heads : Nat → Option Int64) (i : Nat) : Prop :=
  ∃ t, heads i = some t ∧ ∀ k u, heads k = some u → t ≤ u

/-- And those of the journals joined before it are behind. -/
def FirstLeastHead (heads : Nat → Option Int64) (i : Nat) : Prop :=
  ∃ t, heads i = some t ∧ ∀ k u, heads k = some u → t ≤ u ∧ (k < i → t < u)

theorem FirstLeastHead.least {heads : Nat → Option Int64} {i : Nat} (h : FirstLeastHead heads i) :
    LeastHead heads i := by
  obtain ⟨t, ht, hall⟩ := h
  exact ⟨t, ht, fun k u hu => (hall k u hu).1⟩

/-- No journal has a current frame. -/
def Dry (heads : Nat → Option Int64) : Prop := ∀ i, heads i = none

theorem Journal.head_eq_some {files : Files} {j : Journal} {t : Int64} :
    j.head files = some t ↔ j.hasData files = true ∧ j.genTime files = t := by
  unfold Journal.head
  split <;> simp [*]

theorem JournalReader.heads_of {files : Files} {r : JournalReader} {i : Nat} {j : Journal}
    (h : r.journals[i]? = some j) : r.heads files i = j.head files := by
  rw [heads, h]
  rfl

theorem JournalReader.heads_eq_some {files : Files} {r : JournalReader} {i : Nat} {t : Int64} :
    r.heads files i = some t ↔
      ∃ j, r.journals[i]? = some j ∧ j.hasData files = true ∧ j.genTime files = t := by
  rw [heads, Option.bind_eq_some_iff]
  simp only [Journal.head_eq_some]

/-- A head depends on the journal's own files. -/
theorem Journal.head_congr {files files' : Files} {j : Journal} (h : j.disk files' = j.disk files) :
    j.head files' = j.head files := by
  unfold Journal.head Journal.hasData Journal.genTime Journal.current
  rw [h]

/-- **Moving one journal leaves the other heads alone.** -/
theorem Bookkeeping.heads_step {files : Files} {r : JournalReader} (hb : Bookkeeping r) {i : Nat}
    {v : Journal → FrameView} {s : Files × JournalReader}
    (h : JournalReader.stepJournal i v (files, r) = .returns s) {k : Nat} (hk : k ≠ i) :
    s.2.heads s.1 k = r.heads files k := by
  obtain ⟨j, d, c, hj, rfl⟩ := stepJournal_returns h
  have hget : (r.journals.set i { j with cursor := c })[k]? = r.journals[k]? :=
    List.getElem?_set_ne (Ne.symm hk)
  simp only [JournalReader.heads, hget]
  cases hj' : r.journals[k]? with
  | none => rfl
  | some j' =>
    refine Journal.head_congr (if_neg ?_)
    rintro ⟨huid, hdest⟩
    -- the keys of two places are different
    have hlt : k < (r.journals.map Journal.key).length := by
      rw [List.length_map]
      exact (List.getElem?_eq_some_iff.mp hj').1
    refine hk ((List.getElem?_inj hlt hb.nodup).mp ?_)
    simp only [List.getElem?_map, hj, hj', Option.map_some, Journal.key, huid, hdest]

/-! ## The linear scan -/

/-- What the scan has found in the journals it has looked at. -/
structure Scanned (files : Files) (js : List Journal) (best : Int64 × Option Nat) : Prop where
  nothing : best.2 = none → best.1 = Int64.maxValue
  found : ∀ i, best.2 = some i → ∃ j, js[i]? = some j ∧ j.head files = some best.1 ∧
    best.1 < Int64.maxValue
  least : ∀ k j u, js[k]? = some j → j.head files = some u →
    best.1 ≤ u ∧ ∀ i, best.2 = some i → k < i → best.1 < u

theorem Int64.le_maxValue (t : Int64) : t ≤ Int64.maxValue := by
  have h : Int64.maxValue.toInt = 2 ^ 63 - 1 := by decide
  have := t.toInt_lt
  rw [Int64.le_iff_toInt_le, h]
  omega

theorem Scanned.step {files : Files} {js : List Journal} {best : Int64 × Option Nat}
    (h : Scanned files js best) (x : Journal) :
    Scanned files (js ++ [x]) (JournalReader.scanStep files best (x, js.length)) := by
  have hget : ∀ k j, (js ++ [x])[k]? = some j → js[k]? = some j ∨ k = js.length ∧ x = j := by
    intro k j hk
    rcases Nat.lt_trichotomy k js.length with hlt | rfl | hgt
    · rw [List.getElem?_append_left hlt] at hk
      exact Or.inl hk
    · rw [List.getElem?_concat_length] at hk
      exact Or.inr ⟨rfl, Option.some.inj hk⟩
    · rw [List.getElem?_eq_none (by simp; omega)] at hk
      cases hk
  have hkeep : ∀ (k : Nat) (j : Journal), js[k]? = some j → (js ++ [x])[k]? = some j := by
    intro k j hk
    rw [List.getElem?_append_left (List.getElem?_eq_some_iff.mp hk).1]
    exact hk
  unfold JournalReader.scanStep
  simp only
  split
  · rename_i hx
    refine ⟨fun hn => (by cases hn), fun i hi => ?_, fun k j u hk hu => ?_⟩
    · cases hi
      refine ⟨x, List.getElem?_concat_length, Journal.head_eq_some.mpr ⟨hx.1, rfl⟩, ?_⟩
      exact Int64.lt_of_lt_of_le hx.2 (Int64.le_maxValue _)
    · rcases hget k j hk with hk | ⟨rfl, rfl⟩
      · have hlt := Int64.lt_of_lt_of_le hx.2 (h.least k j u hk hu).1
        exact ⟨Int64.le_of_lt hlt, fun _ _ _ => hlt⟩
      · obtain ⟨-, rfl⟩ := Journal.head_eq_some.mp hu
        refine ⟨Int64.le_refl _, fun i hi hlt => ?_⟩
        cases hi
        omega
  · rename_i hx
    refine ⟨h.nothing, fun i hi => ?_, fun k j u hk hu => ?_⟩
    · obtain ⟨j, hj, hhead, hlt⟩ := h.found i hi
      exact ⟨j, hkeep i j hj, hhead, hlt⟩
    · rcases hget k j hk with hk | ⟨rfl, rfl⟩
      · exact h.least k j u hk hu
      · obtain ⟨hd, rfl⟩ := Journal.head_eq_some.mp hu
        refine ⟨Int64.not_lt.mp fun hlt => hx ⟨hd, hlt⟩, fun i hi hlt => ?_⟩
        obtain ⟨j', hj', -⟩ := h.found i hi
        have := (List.getElem?_eq_some_iff.mp hj').1
        omega

theorem scanned_findMinimumLinear (files : Files) (js : List Journal) :
    Scanned files js (js.zipIdx.foldl (JournalReader.scanStep files) (Int64.maxValue, none)) := by
  induction js using List.reverseRecOn with
  | nil => exact ⟨fun _ => rfl, fun i hi => (by cases hi), fun k j u hk => (by cases hk)⟩
  | append_singleton js x ih =>
    rw [List.zipIdx_append, List.foldl_append]
    simpa using ih.step x

/-- **The scan finds the first least head.** -/
theorem findMinimumLinear_some {files : Files} {r : JournalReader} {i : Nat}
    (h : r.findMinimumLinear files = some i) : FirstLeastHead (r.heads files) i := by
  have hs := scanned_findMinimumLinear files r.journals
  obtain ⟨j, hj, hhead, -⟩ := hs.found i h
  refine ⟨_, (JournalReader.heads_of hj).trans hhead, fun k u hu => ?_⟩
  obtain ⟨j', hj', hu⟩ := Option.bind_eq_some_iff.mp hu
  obtain ⟨hle, hlt⟩ := hs.least k j' u hj' hu
  exact ⟨hle, hlt i h⟩

/-- It finds nothing if every head is the largest `int64`. -/
theorem findMinimumLinear_none {files : Files} {r : JournalReader}
    (h : r.findMinimumLinear files = none) (i : Nat) (t : Int64) (ht : r.heads files i = some t) :
    t = Int64.maxValue := by
  have hs := scanned_findMinimumLinear files r.journals
  obtain ⟨j, hj, hhead⟩ := Option.bind_eq_some_iff.mp ht
  have hle := (hs.least i j t hj hhead).1
  rw [hs.nothing h] at hle
  exact Int64.le_antisymm (Int64.le_maxValue t) hle

/-! ## The heap -/

/-- **The heap mirrors the heads**: one entry for each. -/
structure Mirrors (heads : Nat → Option Int64) (heap : List HeapEntry) : Prop where
  nodup : (heap.map Prod.snd).Nodup
  mem : ∀ t i, (t, i) ∈ heap ↔ heads i = some t

section
variable {heads heads' : Nat → Option Int64} {heap heap' : List HeapEntry} {H : MergeHeap}

theorem Mirrors.perm (h : Mirrors heads heap) (hp : heap'.Perm heap) : Mirrors heads heap' :=
  ⟨(hp.map Prod.snd).nodup_iff.mpr h.nodup, fun t i => hp.mem_iff.trans (h.mem t i)⟩

theorem Mirrors.nil_iff (h : Mirrors heads heap) : heap = [] ↔ Dry heads := by
  constructor
  · rintro rfl i
    cases hi : heads i with
    | none => rfl
    | some t => exact absurd ((h.mem t i).mpr hi) List.not_mem_nil
  · intro hdry
    refine List.eq_nil_iff_forall_not_mem.mpr fun x hx => ?_
    have := (h.mem x.1 x.2).mp hx
    rw [hdry] at this
    cases this

/-- The front of a heap that mirrors the heads is a least one. -/
theorem Mirrors.front_least {xs : List HeapEntry} (h : Mirrors heads xs)
    (hh : Heaped journalComparator xs heap) {top : HeapEntry} (htop : heap.head? = some top) :
    heads top.2 = some top.1 ∧ LeastHead heads top.2 := by
  have hm := h.perm hh.perm
  have hmem : top ∈ heap := List.mem_of_mem_head? htop
  have ht := (hm.mem top.1 top.2).mp hmem
  refine ⟨ht, top.1, ht, fun k u hu => ?_⟩
  have := hh.front top htop (u, k) ((hm.mem u k).mpr hu)
  rw [journalComparator, decide_eq_false_iff_not, gt_iff_lt, Int64.not_lt] at this
  exact this

theorem heapEntries_mem {files : Files} {r : JournalReader} {t : Int64} {i : Nat} :
    (t, i) ∈ r.heapEntries files ↔ r.heads files i = some t := by
  rw [JournalReader.heapEntries, List.mem_filterMap, JournalReader.heads_eq_some]
  constructor
  · rintro ⟨⟨j, k⟩, hmem, he⟩
    rw [List.mem_zipIdx_iff_getElem?] at hmem
    simp only at he hmem
    split at he
    · rename_i hd
      cases he
      exact ⟨j, hmem, hd, rfl⟩
    · cases he
  · rintro ⟨j, hj, hd, rfl⟩
    refine ⟨(j, i), List.mem_zipIdx_iff_getElem?.mpr hj, ?_⟩
    simp only [hd, if_true]

theorem heapEntries_nodup (files : Files) (r : JournalReader) :
    ((r.heapEntries files).map Prod.snd).Nodup := by
  have hsub : ((r.heapEntries files).map Prod.snd).Sublist (r.journals.zipIdx.map Prod.snd) := by
    unfold JournalReader.heapEntries
    generalize r.journals.zipIdx = xs
    induction xs with
    | nil => exact List.Sublist.refl _
    | cons x xs ih =>
      rw [List.filterMap_cons]
      simp only
      split
      · exact ih.cons x.2
      · rename_i hsome
        split at hsome
        · cases hsome
          exact ih.cons_cons x.2
        · cases hsome
  refine hsub.nodup ?_
  rw [List.zipIdx_map_snd]
  exact List.nodup_range'

/-- **What `rebuildHeap` collects mirrors the heads.** -/
theorem mirrors_heapEntries (files : Files) (r : JournalReader) :
    Mirrors (r.heads files) (r.heapEntries files) :=
  ⟨heapEntries_nodup files r, fun _ _ => heapEntries_mem⟩

variable (heads') in
/-- Popping the front and pushing what its journal has now keeps the heap in step,
if the other journals' heads are the same. -/
theorem Mirrors.update {top : HeapEntry} {rest : List HeapEntry}
    (h : Mirrors heads (top :: rest)) (hsame : ∀ k, k ≠ top.2 → heads' k = heads k) :
    Mirrors heads' (match heads' top.2 with
      | none => rest
      | some t => (t, top.2) :: rest) := by
  have hnot : top.2 ∉ rest.map Prod.snd := (List.nodup_cons.mp h.nodup).1
  have hrest : ∀ t i, (t, i) ∈ rest ↔ i ≠ top.2 ∧ heads' i = some t := by
    intro t i
    constructor
    · intro hm
      have hne : i ≠ top.2 := fun he => hnot (List.mem_map.mpr ⟨(t, i), hm, he⟩)
      exact ⟨hne, (hsame i hne).trans ((h.mem t i).mp (List.mem_cons_of_mem _ hm))⟩
    · rintro ⟨hne, hi⟩
      have := (h.mem t i).mpr ((hsame i hne).symm.trans hi)
      rcases List.mem_cons.mp this with rfl | hm
      · exact absurd rfl hne
      · exact hm
  cases ht : heads' top.2 with
  | none =>
    refine ⟨(List.nodup_cons.mp h.nodup).2, fun t i =>
      (hrest t i).trans ⟨fun hx => hx.2, fun hi => ?_⟩⟩
    refine ⟨?_, hi⟩
    rintro rfl
    rw [ht] at hi
    cases hi
  | some u =>
    refine ⟨List.nodup_cons.mpr ⟨hnot, (List.nodup_cons.mp h.nodup).2⟩, fun t i => ?_⟩
    rw [List.mem_cons, hrest]
    constructor
    · rintro (heq | hx)
      · cases heq
        exact ht
      · exact hx.2
    · intro hi
      by_cases hne : i = top.2
      · subst hne
        rw [ht] at hi
        cases hi
        exact Or.inl rfl
      · exact Or.inr ⟨hne, hi⟩

/-- **The heap is in step**: it mirrors the heads, its front is the current index,
and there is nothing to rebuild unless it is empty. -/
structure InStep (files : Files) (r : JournalReader) : Prop where
  mirrors : Mirrors (r.heads files) r.heap
  front : ∀ a ∈ r.heap.head?, ∀ b ∈ r.heap, journalComparator a b = false
  index : r.currentJournalIdx = r.heap.head?.map Prod.snd
  rebuild : r.heap ≠ [] → r.needsRebuild = false
  empty : r.heap = [] → r.needsRebuild = true

theorem InStep.least {files : Files} {r : JournalReader} (h : InStep files r) {i : Nat}
    (hi : r.currentJournalIdx = some i) : LeastHead (r.heads files) i := by
  rw [h.index, Option.map_eq_some_iff] at hi
  obtain ⟨top, htop, rfl⟩ := hi
  exact (h.mirrors.front_least ⟨.refl _, h.front⟩ htop).2

theorem Heaped.trans {xs ys zs : List HeapEntry} (h : ys.Perm xs)
    (h' : Heaped journalComparator ys zs) : Heaped journalComparator xs zs :=
  ⟨h'.perm.trans h, h'.front⟩

/-- `updateHeap` in terms of heads. -/
theorem updateHeap_eq (files : Files) {r : JournalReader} {i : Nat} {j : Journal}
    (hi : r.currentJournalIdx = some i) (hj : r.journals[i]? = some j) {top : HeapEntry}
    {rest : List HeapEntry} (hheap : r.heap = top :: rest) :
    ∃ heap, Heaped journalComparator (match r.heads files i with
        | none => rest
        | some t => (t, i) :: rest) heap ∧
      r.updateHeap H files = some { r with
        heap := heap
        currentJournalIdx := heap.head?.map Prod.snd
        needsRebuild := if heap = [] then true else r.needsRebuild } := by
  have hpop := H.pop_heaped (top :: rest)
  rw [List.tail_cons] at hpop
  rw [JournalReader.heads_of hj]
  unfold JournalReader.updateHeap Journal.head
  rw [hheap, if_neg (List.cons_ne_nil _ _), hi]
  simp only [hj]
  cases hd : j.hasData files with
  | true =>
    simp only [if_true]
    have hpush := H.push_heaped (H.pop (top :: rest)) (j.genTime files, i)
    refine ⟨_, Heaped.trans (hpop.perm.cons _) hpush, ?_⟩
    obtain ⟨a, tl, ha, -⟩ := hpush.exists_front (List.cons_ne_nil _ _)
    rw [ha]
    rfl
  | false =>
    simp only [Bool.false_eq_true, if_false]
    refine ⟨_, hpop, ?_⟩
    cases H.pop (top :: rest) with
    | nil => rfl
    | cons a tl => rfl

/-- The end of `next`, with a heap. -/
theorem reselect_heap (files : Files) {r : JournalReader} (huse : r.usesHeap = true) {i : Nat}
    (hi : r.currentJournalIdx = some i) (hlt : i < r.journals.length) (top : HeapEntry)
    (rest : List HeapEntry) (hheap : r.heap = top :: rest) :
    ∃ heap, Heaped journalComparator (match r.heads files i with
        | none => rest
        | some t => (t, i) :: rest) heap ∧
      JournalReader.reselect H (files, r) = .returns (files, { r with
        heap := heap
        currentJournalIdx := heap.head?.map Prod.snd
        needsRebuild := if heap = [] then true else r.needsRebuild }) := by
  obtain ⟨heap, hheaped, hu⟩ := updateHeap_eq (H := H) files hi
    (List.getElem?_eq_getElem hlt) hheap
  refine ⟨heap, hheaped, ?_⟩
  simp only [JournalReader.reselect, huse, if_true, hu]

/-- The current journal has a frame. -/
theorem InStep.raw {files : Files} {r : JournalReader} (h : InStep files r) (hne : r.heap ≠ []) :
    ∃ j, r.currentFrameRaw = some j ∧ j.hasData files = true := by
  obtain ⟨top, tl, hheap⟩ := List.exists_cons_of_ne_nil hne
  have hi : r.currentJournalIdx = some top.2 := by
    rw [h.index, hheap]
    rfl
  obtain ⟨t, ht, -⟩ := h.least hi
  obtain ⟨j, hj, hd, -⟩ := JournalReader.heads_eq_some.mp ht
  refine ⟨j, ?_, hd⟩
  rw [JournalReader.currentFrameRaw_eq, hi]
  exact hj

/-- **Moving the front journal keeps the heap in step**, as long as no other head
changes. -/
theorem InStep.reselect {files files' : Files} {r q : JournalReader} (h : InStep files r)
    (huse : q.usesHeap = true) {top : HeapEntry} {tl : List HeapEntry} (hheap : r.heap = top :: tl)
    (hq : q.heap = r.heap ∧ q.currentJournalIdx = r.currentJournalIdx ∧
      q.needsRebuild = r.needsRebuild)
    (hlt : top.2 < q.journals.length)
    (hsame : ∀ k, k ≠ top.2 → q.heads files' k = r.heads files k) :
    ∃ q', JournalReader.reselect H (files', q) = .returns (files', q') ∧ InStep files' q' ∧
      q'.journals = q.journals ∧ q'.singleJournal = q.singleJournal ∧
        q'.singleFrame = q.singleFrame ∧
      q'.useHeap = q.useHeap := by
  obtain ⟨hqh, hqi, hqn⟩ := hq
  have hi : q.currentJournalIdx = some top.2 := by
    rw [hqi, h.index, hheap]
    rfl
  have hmir := (hheap ▸ h.mirrors).update _ hsame
  obtain ⟨heap, hheaped, hres⟩ := reselect_heap (H := H) _ huse hi hlt _ _ (hqh.trans hheap)
  refine ⟨_, hres, ⟨hmir.perm hheaped.perm, hheaped.front, rfl, fun hne => ?_, fun he => ?_⟩, rfl,
    rfl, rfl, rfl⟩
  · simp only at hne ⊢
    rw [if_neg hne, hqn]
    exact h.rebuild (by rw [hheap]; exact List.cons_ne_nil _ _)
  · simp only at he ⊢
    rw [if_pos he]

theorem JournalReader.usesHeap_length {r : JournalReader} (huse : r.usesHeap = true) :
    3 < r.journals.length := by
  rw [usesHeap, Bool.and_eq_true, decide_eq_true_eq] at huse
  exact huse.2

/-- **`next` with a heap in step** leaves it in step. -/
theorem InStep.next {files : Files} {r : JournalReader} (h : InStep files r) (hb : Bookkeeping r)
    (huse : r.usesHeap = true) (hne : r.heap ≠ []) {s : Files × JournalReader}
    (he : JournalReader.next H (files, r) = .returns s) :
    InStep s.1 s.2 ∧ s.2.useHeap = r.useHeap := by
  have h3 := JournalReader.usesHeap_length huse
  obtain ⟨hs, -⟩ := hb.several (by omega)
  obtain ⟨top, tl, hheap⟩ := List.exists_cons_of_ne_nil hne
  have hi : r.currentJournalIdx = some top.2 := by
    rw [h.index, hheap]
    rfl
  obtain ⟨t, ht, -⟩ := h.least hi
  obtain ⟨j, hj, -⟩ := JournalReader.heads_eq_some.mp ht
  have hlt := (List.getElem?_eq_some_iff.mp hj).1
  rw [JournalReader.next_several hi hlt hs] at he
  cases hstep : JournalReader.stepJournal top.2 (fun j => j.current files) (files, r) with
  | faults x | throws x =>
    rw [hstep] at he
    cases he
  | returns x =>
    rw [hstep] at he
    obtain ⟨files', q⟩ := x
    have hsame : ∀ k, k ≠ top.2 → q.heads files' k = r.heads files k :=
      fun k hk => hb.heads_step hstep hk
    obtain ⟨j, d, c, -, heq⟩ := stepJournal_returns hstep
    obtain ⟨-, hq⟩ := Prod.mk.inj heq
    have hlen : q.journals.length = r.journals.length := by
      rw [hq]
      exact List.length_set
    have huse' : q.usesHeap = true := by
      rw [JournalReader.usesHeap, hlen, hq]
      exact huse
    obtain ⟨q', hq', hin, -, -, -, huq⟩ :=
      h.reselect (H := H) huse' hheap (by rw [hq]; exact ⟨rfl, rfl, rfl⟩) (hlen ▸ hlt) hsame
    rw [Result.andThen, hq'] at he
    cases he
    exact ⟨hin, huq.trans (by rw [hq])⟩

/-- After a rebuild the heap is in step, if the front of both heaps is the same. -/
theorem inStep_rebuild {files : Files} {r : JournalReader} (hne : r.journals ≠ [])
    (huse : r.usesHeap = true) (hent : r.heapEntries files ≠ [])
    (hone : ∀ i k, LeastHead (r.heads files) i → LeastHead (r.heads files) k → i = k) :
    InStep files (r.rebuildHeap H files) := by
  have hmir := mirrors_heapEntries files r
  have htemp := H.makeHeap_heaped (r.heapEntries files)
  have hqueue := H.queue_heaped (H.makeHeap (r.heapEntries files))
  obtain ⟨a, tl, ha, -⟩ := htemp.exists_front hent
  obtain ⟨b, tl', hb, -⟩ := hqueue.exists_front (htemp.ne_nil hent)
  have hla := (hmir.front_least htemp (by rw [ha]; rfl)).2
  have hlb := ((hmir.perm htemp.perm).front_least hqueue (by rw [hb]; rfl)).2
  have hreb : r.rebuildHeap H files = { r with
      currentJournalIdx := some a.2
      heap := H.queue (H.makeHeap (r.heapEntries files))
      needsRebuild := false } := by
    rw [JournalReader.rebuildHeap, if_neg hne, huse, if_pos rfl, if_neg hent]
    simp only [ha, List.head?_cons, Option.map_some]
  rw [hreb]
  refine ⟨(hmir.perm htemp.perm).perm hqueue.perm, hqueue.front, ?_, fun _ => rfl, fun hnil => ?_⟩
  · simp only [hb, List.head?_cons, Option.map_some, hone _ _ hla hlb]
  · exact absurd hnil (hqueue.ne_nil (htemp.ne_nil hent))

/-- Without heads, a rebuild selects nothing. -/
theorem rebuildHeap_dry {files : Files} {r : JournalReader} (hne : r.journals ≠ [])
    (hd : Dry (r.heads files)) :
    r.rebuildHeap H files = { r with currentJournalIdx := none, needsRebuild := false } := by
  unfold JournalReader.rebuildHeap
  rw [if_neg hne]
  split
  · rw [if_pos ((mirrors_heapEntries files r).nil_iff.mpr hd)]
  · cases hm : r.findMinimumLinear files with
    | none => rfl
    | some i =>
      obtain ⟨t, ht, -⟩ := findMinimumLinear_some hm
      rw [hd i] at ht
      cases ht

theorem rebuildHeap_needsRebuild {files : Files} {r : JournalReader} :
    (r.rebuildHeap H files).needsRebuild = false := by
  unfold JournalReader.rebuildHeap
  split_ifs <;> rfl

end

/-! ## What `tryCurrentFrame` leaves -/

namespace JournalReader
variable {H : MergeHeap} {files : Files} {r r' : JournalReader}

/-- The reader after a look at several journals. -/
def settled (H : MergeHeap) (files : Files) (r : JournalReader) : JournalReader :=
  if (r.refresh H files).currentFrameRaw.isSome || r.journals.isEmpty then r.refresh H files
  else { r.refresh H files with needsRebuild := true }

theorem isDataAvailable_several (hs : r.singleFrame = none) :
    r.isDataAvailable H files = some
      (((r.refresh H files).currentFrameRaw.map fun j => j.hasData files).getD false,
        r.settled H files) := by
  unfold isDataAvailable settled
  simp only [hs]
  cases hraw : (r.refresh H files).currentFrameRaw with
  | some j => rfl
  | none =>
    simp only [refresh_journals, Option.isSome_none, Bool.false_or, Option.map_none,
      Option.getD_none]

theorem tryCurrentFrame_several (hs : r.singleFrame = none) {v : Option MergedView}
    (h : r.tryCurrentFrame H files = some (v, r')) : r' = r.settled H files := by
  unfold tryCurrentFrame at h
  simp only [hs, isDataAvailable_several hs] at h
  split at h
  · cases h
  · rename_i heq
    cases h
    exact (Prod.mk.inj (Option.some.inj heq)).2.symm
  · rename_i heq
    obtain ⟨j, -, hj⟩ := Option.map_eq_some_iff.mp h
    cases hj
    exact (Prod.mk.inj (Option.some.inj heq)).2.symm

theorem settled_of_raw {j : Journal} (h : (r.refresh H files).currentFrameRaw = some j) :
    r.settled H files = r.refresh H files := by
  rw [settled, h]
  rfl

theorem settled_of_index_none (hne : r.journals ≠ [])
    (h : (r.refresh H files).currentJournalIdx = none) :
    r.settled H files = { r.refresh H files with needsRebuild := true } := by
  have hemp : r.journals.isEmpty = false := by simpa using hne
  rw [settled, currentFrameRaw_eq, h, hemp]
  rfl

theorem sameJournals_settled : SameJournals r (r.settled H files) := by
  unfold settled
  split
  · exact sameJournals_refresh
  · exact sameJournals_refresh.trans ⟨rfl, rfl, rfl, rfl⟩

@[simp] theorem settled_journals : (r.settled H files).journals = r.journals := by
  unfold settled
  split <;> simp

@[simp] theorem settled_useHeap : (r.settled H files).useHeap = r.useHeap := by
  unfold settled refresh rebuildHeap
  split_ifs <;> rfl

/-- **A look that rebuilds the heap** without a tie leaves it in step, or there is no
head at all. -/
theorem settled_heap (huse : r.usesHeap = true) (hn : r.needsRebuild = true)
    (hone : ∀ i k, LeastHead (r.heads files) i → LeastHead (r.heads files) k → i = k) :
    (r.settled H files).needsRebuild = true ∧ (r.settled H files).currentJournalIdx = none ∨
      InStep files (r.settled H files) ∧ (r.settled H files).needsRebuild = false := by
  have hrefresh : r.refresh H files = r.rebuildHeap H files := if_pos hn
  have hne : r.journals ≠ [] := by
    intro hnil
    have := usesHeap_length huse
    rw [hnil] at this
    cases this
  by_cases hent : r.heapEntries files = []
  · have hdry := rebuildHeap_dry (H := H) hne ((mirrors_heapEntries files r).nil_iff.mp hent)
    rw [← hrefresh] at hdry
    rw [settled_of_index_none hne (by rw [hdry]), hdry]
    exact Or.inl ⟨rfl, rfl⟩
  · have hin := inStep_rebuild (H := H) hne huse hent hone
    rw [← hrefresh] at hin
    have hn' : (r.refresh H files).needsRebuild = false := hrefresh ▸ rebuildHeap_needsRebuild
    obtain ⟨j, hj, -⟩ := hin.raw fun he => by
      rw [hin.empty he] at hn'
      cases hn'
    rw [settled_of_raw hj]
    exact Or.inr ⟨hin, hn'⟩

/-- The ways of `next` to return. -/
theorem next_returns {s : Files × JournalReader} (h : next H (files, r) = .returns s) :
    s = (files, r) ∨
    (∃ i v, r.singleJournal ≠ none ∧ stepJournal i v (files, r) = .returns s) ∨
    ∃ i x, r.currentJournalIdx = some i ∧ r.singleJournal = none ∧
      stepJournal i (fun j => j.current files) (files, r) = .returns x ∧
        reselect H x = .returns s := by
  unfold next at h
  simp only at h
  split at h
  · cases h
    exact Or.inl rfl
  · rename_i i hi
    split at h
    · cases h
      exact Or.inl rfl
    · split at h
      · rename_i address hs
        exact Or.inr (Or.inl ⟨_, _, by rw [hs]; simp, h⟩)
      · rename_i hs
        cases hstep : stepJournal i (fun j => j.current files) (files, r) with
        | faults x | throws x =>
          rw [hstep] at h
          cases h
        | returns x =>
          rw [hstep] at h
          exact Or.inr (Or.inr ⟨i, x, hi, hs, hstep, h⟩)

theorem stepJournal_throws {i : Nat} {v : Journal → FrameView} {s : Files × JournalReader}
    (h : stepJournal i v (files, r) = .throws s) : s = (files, r) := by
  unfold stepJournal at h
  simp only at h
  split at h
  · cases h
  · split at h
    · cases h
      rfl
    · cases h

/-- Where `next` throws, nothing has changed. -/
theorem next_throws {s : Files × JournalReader} (h : next H (files, r) = .throws s) :
    s = (files, r) := by
  unfold next at h
  simp only at h
  split at h
  · cases h
  · rename_i i hi
    split at h
    · cases h
    · split at h
      · exact stepJournal_throws h
      · cases he : stepJournal i (fun j => j.current files) (files, r) with
        | faults x =>
          rw [he] at h
          cases h
        | throws x =>
          rw [he] at h
          cases h
          exact stepJournal_throws he
        | returns x =>
          rw [he, Result.andThen, reselect] at h
          split at h
          · split at h <;> cases h
          · cases h

theorem advance_throws {v : FrameView} {s : Files × JournalReader}
    (h : advance H v (files, r) = .throws s) : s = (files, r) := by
  unfold advance at h
  simp only at h
  split at h
  · exact stepJournal_throws h
  · exact next_throws h

/-- A rebuild that is due stays due, and the scan asks for one. -/
theorem reselect_needsRebuild {x s : Files × JournalReader}
    (hn : x.2.needsRebuild = true ∨ x.2.usesHeap = false) (h : reselect H x = .returns s) :
    s.2.needsRebuild = true ∧ s.2.useHeap = x.2.useHeap := by
  obtain ⟨files, q⟩ := x
  simp only [reselect] at h
  split at h
  · rename_i huse
    have hn : q.needsRebuild = true := hn.resolve_right (by simp [huse])
    split at h
    · cases h
    · rename_i q' hu
      cases h
      unfold updateHeap at hu
      split at hu
      · cases hu
        exact ⟨rfl, rfl⟩
      · split at hu
        · cases hu
        · split at hu
          · cases hu
          · simp only at hu
            split at hu
            · cases hu
              exact ⟨rfl, rfl⟩
            · cases hu
              exact ⟨hn, rfl⟩
  · cases h
    exact ⟨rfl, rfl⟩

theorem next_needsRebuild (hn : r.needsRebuild = true) {s : Files × JournalReader}
    (h : next H (files, r) = .returns s) : s.2.needsRebuild = true ∧ s.2.useHeap = r.useHeap := by
  rcases next_returns h with rfl | ⟨i, v, -, hstep⟩ | ⟨i, x, -, -, hstep, hre⟩
  · exact ⟨hn, rfl⟩
  · obtain ⟨j, d, c, -, rfl⟩ := stepJournal_returns hstep
    exact ⟨hn, rfl⟩
  · obtain ⟨j, d, c, -, rfl⟩ := stepJournal_returns hstep
    exact reselect_needsRebuild (Or.inl hn) hre

end JournalReader

end Revoq
