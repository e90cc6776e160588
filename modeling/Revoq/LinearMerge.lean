import Revoq.MergeDrain

/-! # The linear merge

Two or three journals, or any number with the heap turned off: every turn rescans the
journals' heads.  Draining them is the greedy merge by `gen_time`, with ties going to
the journal that was joined first.
-/
namespace Revoq
open StmtMachine HeapContract GreedyMerge

/-- The frames are stamped before the largest `int64`. -/
def InTime (srcs : List (List Entry)) : Prop :=
  ∀ es ∈ srcs, ∀ e ∈ es, e.frame.genTime < Int64.maxValue

theorem InTime.set {srcs : List (List Entry)} (h : InTime srcs) {i : Nat} {e : Entry}
    {rest : List Entry} (hs : srcs[i]? = some (e :: rest)) : InTime (srcs.set i rest) := by
  intro es hes x hx
  rcases List.mem_or_eq_of_mem_set hes with hes | rfl
  · exact h es hes x hx
  · exact h _ (List.mem_of_getElem? hs) x (List.mem_cons_of_mem _ hx)

/-- **Draining by rescanning** is the greedy merge. -/
theorem ReadsFrom.drains_linear {H : MergeHeap} {files : Files} {r : JournalReader}
    {srcs : List (List Entry)} (h : ReadsFrom files r srcs) (hne : r.journals ≠ [])
    (hlin : r.usesHeap = false) (hn : r.needsRebuild = true) (ht : InTime srcs) :
    DrainsAs (FirstLeast genTimeKey) H files r srcs := by
  -- induction on what is left to deliver; `needsRebuild` is set again after every turn
  generalize hm : total srcs = m
  induction m using Nat.strongRecOn generalizing r srcs with
  | ind m ih =>
    have hrefresh : r.refresh H files =
        { r with currentJournalIdx := r.findMinimumLinear files, needsRebuild := false } := by
      rw [JournalReader.refresh, if_pos hn, JournalReader.rebuildHeap, if_neg hne, hlin]
      rfl
    cases hmin : r.findMinimumLinear files with
    | none =>
      refine h.drains_dry hne (fun i => ?_) hn
      cases hi : r.heads files i with
      | none => rfl
      | some t =>
        have htmax := findMinimumLinear_none hmin i t hi
        obtain ⟨e, rest, hs, rfl⟩ := h.heads_some hi
        have := ht _ (List.mem_of_getElem? hs) e List.mem_cons_self
        rw [htmax] at this
        exact absurd this Int64.lt_irrefl
    | some i =>
      have hleast := findMinimumLinear_some hmin
      obtain ⟨t, hti, -⟩ := id hleast
      obtain ⟨e, rest, hs, -⟩ := h.heads_some hti
      refine h.drains_shown (by rw [hrefresh]; exact hmin) hs (h.firstLeast hleast hs) ?_
      intro journals hreads hlen
      rw [hrefresh] at hreads ⊢
      have huses : ({ r with
          currentJournalIdx := r.findMinimumLinear files
          needsRebuild := false
          journals := journals } : JournalReader).usesHeap = false := by
        rw [JournalReader.usesHeap] at hlin ⊢
        simpa only [hlen] using hlin
      refine ⟨{ r with
          currentJournalIdx := r.findMinimumLinear files
          needsRebuild := true
          journals := journals }, ?_, ?_⟩
      · simp only [JournalReader.reselect, huses, Bool.false_eq_true, if_false]
      · have hheads : Heads srcs i e rest := hs
        refine ih (total (srcs.set i rest)) (by have := hheads.total_eq; omega)
          (hreads.of_journals rfl rfl rfl) ?_ huses rfl (ht.set hs) rfl
        intro hnil
        simp only at hnil
        rw [hnil] at hlen
        exact hne (List.length_eq_zero_iff.mp hlen.symm)

/-- **The linear merge is the greedy merge.**  Journals with any contents, joined from
time 0 by a reader that scans: draining ends and delivers every frame exactly once,
each journal's in order, at each step one with the least `gen_time` among the
journals' current frames and of several the one of the journal joined first.  After
that `tryCurrentFrame` shows nothing, however often it is called. -/
theorem linear_merge_greedy (H : MergeHeap) (prefault useHeap : Bool) (files : Files)
    (js : List (Location × UInt32)) (srcs : List (List Entry)) (fuel : Nat) (h2 : 2 ≤ js.length)
    (hlin : js.length ≤ 3 ∨ useHeap = false) (hd : Distinct js)
    (hst : List.Forall₂ (StoredAt files) js srcs) (ht : InTime srcs) :
    ∃ r, ReaderCall.execAll H (joinAll (fuel + 1) js)
      (files, { prefault := prefault }) = some (files, r) ∧
      ∀ turns, total srcs < turns → ∃ out r',
        JournalReader.drain H turns (files, r.setUseHeap useHeap) = some (out, (files, r')) ∧
        Merges (FirstLeast genTimeKey) (framesOf srcs) out ∧
        (∀ i es, srcs[i]? = some es → ofSource i out = es.map Entry.frame) ∧
        r'.tryCurrentFrame H files = some (none, r') := by
  obtain ⟨r, hr, hj⟩ := (joined_new files prefault).joinAll hd hst H fuel
  rw [List.nil_append, List.nil_append] at hj
  have hreads := hj.readsFrom h2
  have hlen := hj.length_eq
  have hdrains : DrainsAs (FirstLeast genTimeKey) H files (r.setUseHeap useHeap) srcs := by
    refine ReadsFrom.drains_linear (hreads.of_journals rfl rfl rfl) ?_ ?_ rfl ht
    · intro hnil
      have hnil : r.journals = [] := hnil
      rw [hnil, List.length_nil] at hlen
      omega
    · rcases hlin with h3 | rfl
      · have : ¬ r.journals.length > 3 := by omega
        simp [JournalReader.usesHeap, JournalReader.setUseHeap, this]
      · rfl
  refine ⟨r, hr, fun turns hturns => ?_⟩
  obtain ⟨out, r', hdrain, hmerge, hend⟩ := hdrains turns hturns
  refine ⟨out, r', hdrain, hmerge, fun i es hes => ?_, hend⟩
  refine hmerge.ofSource (fun _ _ _ _ hp => hp.head) ?_
  rw [framesOf, List.getElem?_map, hes]
  rfl

/-- Two journals with a `mark` each. -/
theorem linear_merge_marks :
    ∃ (files : Files) (es : List Entry) (r : JournalReader), es ≠ [] ∧
      ReaderCall.execAll mergeBySorting (joinAll 1 [(⟨1, .log⟩, 0), (⟨2, .log⟩, 0)])
        (files, { prefault := false }) = some (files, r) ∧
      ∃ out r', JournalReader.drain mergeBySorting (total [es, es] + 1) (files, r.setUseHeap true) =
          some (out, (files, r')) ∧ ofSource 0 out = es.map Entry.frame ∧
        r'.tryCurrentFrame mergeBySorting files = some (none, r') := by
  have hws : ∀ w ∈ [Write.mark 5 1 7], w.Ok pageSizeDefault := by decide
  obtain ⟨s, -, hrun, -⟩ := session_returns pageSizeDefault true hws
  have htime : ∀ e ∈ s.1.log, e.frame.genTime < Int64.maxValue := by
    intro e he
    obtain ⟨w, hw, h⟩ := session_genTime hws hrun he
    rw [List.mem_singleton.mp hw] at h
    rcases h with h | h <;> rw [h] <;> decide
  have htimely : ∀ w ∈ [Write.mark 5 1 7], w.Ok pageSizeDefault ∧ w.Timely := by decide
  have hst : ∀ uid, StoredAt (fun _ _ => s.1.disk) (⟨uid, .log⟩, 0) s.1.log := fun uid =>
    storedAt_session rfl htimely hrun
  obtain ⟨r, hr, h⟩ := linear_merge_greedy mergeBySorting false true (fun _ _ => s.1.disk)
    [(⟨1, .log⟩, 0), (⟨2, .log⟩, 0)] [s.1.log, s.1.log] 0 (by decide)
    (Or.inl (by decide)) (by decide) (.cons (hst 1) (.cons (hst 2) .nil)) (by
      intro es hes e he
      rcases List.mem_cons.mp hes with rfl | hes
      · exact htime e he
      · rw [List.mem_singleton.mp hes] at he
        exact htime e he)
  obtain ⟨out, r', hdrain, -, hown, hend⟩ := h _ (Nat.lt_succ_self _)
  obtain ⟨⟨thread, hlog⟩, -⟩ := session_log pageSizeDefault true hws hrun
  have hne : s.1.log ≠ [] := by
    rw [hlog]
    simp [journal, layOut, place]
  exact ⟨_, _, r, hne, hr, out, r', hdrain, hown 0 _ rfl, hend⟩

end Revoq
