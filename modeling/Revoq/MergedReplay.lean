import Revoq.LinearMerge
import Revoq.SeekAgain
import Revoq.SortedMerge

/-! # Replaying several journals from a time

A reader that joins two or three journals (or any number with the heap turned off) at a
time and drains them, compared with one that joins from time 0: sentinels aside, it
delivers what the other one delivers from that time on, in the same order.

`SeekTime` settles which frames of one journal that is.  The order is that of
`SortedMerge`: the merge holds back what stands behind a sentinel with a later stamp, and
from another page on it may not meet that sentinel any more.  As long as no frame of
another journal lies in between (`Unhindered`) that makes no difference.
-/
namespace Revoq
open StmtMachine HeapContract GreedyMerge

/-- The data frames that are not from before the time. -/
def dueFrames (time : Int64) (log : List Entry) : List Frame :=
  (userData (log.map Entry.frame)).filter fun f => time ≤ f.genTime

/-- **A replay**: a new reader joins the journals at the time and drains them, and after
that no frame is shown. -/
def Replays (H : MergeHeap) (prefault useHeap : Bool) (files : Files)
    (js : List (Location × UInt32)) (fuel : Nat) (time : Int64) (out : List (Nat × Frame)) : Prop :=
  ∃ r r', ReaderCall.execAll H (joinAllAt fuel time js)
    (files, { prefault := prefault }) = some (files, r) ∧
    JournalReader.drain H fuel (files, r.setUseHeap useHeap) = some (out, (files, r')) ∧
    r'.tryCurrentFrame H files = some (none, r')

/-- What a journal is read from after a seek: all that is due, if no page boundary runs
between frames of the time. -/
structure Leaves (time : Int64) (rest log : List Entry) : Prop where
  suffix : rest <:+ log
  due_iff : userData (rest.map Entry.frame) = dueFrames time log ↔ ¬ Straddles log time

section
variable {P : PageSize} {d : Disk} {log : List Entry} {tail : Slot} {time : Int64}

/-- No page boundary runs between frames of time 0. -/
theorem Paged.not_straddles_zero (h : Paged P d log tail) (hd : Dated log) : ¬ Straddles log 0 := by
  rintro ⟨a, s, b, ⟨front, suf, hinfix⟩, hsend, ha, -⟩
  have hmem : ∀ x ∈ [a, s, b], x ∈ log := fun x hx => by
    rw [← hinfix]
    exact List.mem_append_left _ (List.mem_append_right _ hx)
  have hchain := h.live.chain
  rw [← hinfix, List.append_assoc] at hchain
  obtain ⟨u, -, -, hsu, -⟩ := hchain.split
  -- a frame in front of a sentinel is a data frame
  have hadata : ¬ a.frame.IsPageEnd := by
    intro hp
    have := h.sentinels s (hmem s (by simp)) hsend
    rw [hsu, Slot.after_pageEnd hp] at this
    exact Nat.lt_irrefl _ this
  have := hd.positive a (hmem a (by simp)) hadata
  rw [ha] at this
  exact Int64.lt_irrefl this

theorem dueFrames_zero (hd : Dated log) : dueFrames 0 log = userData (log.map Entry.frame) := by
  refine List.filter_eq_self.mpr fun f hf => ?_
  obtain ⟨hf, hdata⟩ := List.mem_filter.mp hf
  obtain ⟨e, he, rfl⟩ := List.mem_map.mp hf
  exact decide_eq_true (Int64.le_of_lt (hd.positive e he (of_decide_eq_true hdata)))

/-- **One journal's part of a replay.** -/
theorem Paged.leaves (h : Paged P d log tail) (hd : Dated log) (time : Int64)
    (prefault : Bool) {fuel : Nat} (hfuel : tail.page + log.length < fuel) :
    ∃ rest, Leaves time rest log ∧ ∃ c s t, Reader.join P fuel prefault time d =
      .ok (d, c) ∧ c.At s ∧
      Readable P d s rest t := by
  obtain ⟨k, pre, rest, slot, r, hlog, hjoin, hr, hread, hs⟩ := h.seek hd time prefault hfuel
  refine ⟨rest, ⟨⟨pre, hlog.symm⟩, ?_⟩, r, slot, tail, hjoin, hr, hread⟩
  rw [← hs.passed_iff h hd hlog]
  exact hs.delivers_iff hlog

end

/-- The journals' contents, each written in one session. -/
def SessionFiles (files : Files) (js : List (Location × UInt32))
    (logs : List (List Entry)) : Prop :=
  List.Forall₂ (fun x log => OneSession (findPageSize x.1.category x.2) (files x.1.uid x.2) log) js
    logs

section
variable {files : Files} {js : List (Location × UInt32)}
  {logs rests : List (List Entry)} {time : Int64}

/-- With enough turns every journal is found at its place. -/
theorem SessionFiles.leaves (h : SessionFiles files js logs) (hd : ∀ log ∈ logs, Dated log) :
    ∃ n, ∀ fuel, n ≤ fuel → ∀ (prefault : Bool) (time : Int64), ∃ rests,
      List.Forall₂ (SeeksTo files prefault fuel time) js rests ∧
        List.Forall₂ (Leaves time) rests logs := by
  induction h with
  | nil => exact ⟨0, fun _ _ _ _ => ⟨[], .nil, .nil⟩⟩
  | @cons x log js logs hx _ ih =>
    obtain ⟨n, hn⟩ := ih fun l hl => hd l (List.mem_cons_of_mem _ hl)
    obtain ⟨tail, hp⟩ := hx.paged
    refine ⟨max n (tail.page + log.length + 1), fun fuel hfuel prefault time => ?_⟩
    obtain ⟨rests, hseeks, hleaves⟩ := hn fuel (le_trans (le_max_left ..) hfuel) prefault time
    have hlen : tail.page + log.length < fuel :=
      lt_of_lt_of_le (Nat.lt_succ_self _) (le_trans (le_max_right ..) hfuel)
    obtain ⟨rest, hl, hseek⟩ := hp.leaves (hd log List.mem_cons_self) time prefault hlen
    exact ⟨rest :: rests, .cons hseek hseeks, .cons hl hleaves⟩

theorem total_leaves (h : List.Forall₂ (Leaves time) rests logs) : total rests ≤ total logs := by
  induction h with
  | nil => exact Nat.le_refl _
  | cons hl _ ih =>
    have hle := hl.suffix.length_le
    simp only [total, List.map_cons, List.sum_cons] at ih ⊢
    omega

theorem suffix_framesOf (h : List.Forall₂ (Leaves time) rests logs) :
    List.Forall₂ (fun l' l => l' <:+ l) (framesOf rests) (framesOf logs) := by
  rw [framesOf, framesOf, List.forall₂_map_left_iff, List.forall₂_map_right_iff]
  exact h.imp fun _ _ hl => hl.suffix.map _

theorem InTime.leaves (ht : InTime logs) (h : List.Forall₂ (Leaves time) rests logs) :
    InTime rests := by
  induction h with
  | nil => exact ht
  | @cons rest log rests logs hl _ ih =>
    intro es hes e he
    rcases List.mem_cons.mp hes with rfl | hes
    · exact ht log List.mem_cons_self e (hl.suffix.subset he)
    · exact ih (fun es hes => ht es (List.mem_cons_of_mem _ hes)) es hes e he

/-- The data frames of each journal, in order of time. -/
theorem pairwise_userData {l : List Entry} (hd : Dated l) :
    ((l.map Entry.frame).filter fun f => f.IsUserData).Pairwise fun a b => genTimeKey a ≤
    genTimeKey b := by
  have := hd.nondecreasing
  rw [List.pairwise_filter] at this ⊢
  rw [List.pairwise_map]
  refine this.imp fun {a b} h ha hb => ?_
  exact Int64.le_iff_toInt_le.mp (h ha hb)

theorem pairwise_leaves (hd : ∀ log ∈ logs, Dated log) (h : List.Forall₂ (Leaves time) rests logs) :
    ∀ l ∈ framesOf rests, (l.filter fun f => f.IsUserData).Pairwise fun a b => genTimeKey a ≤
      genTimeKey b := by
  intro l hl
  obtain ⟨rest, hrest, rfl⟩ := List.mem_map.mp hl
  obtain ⟨i, hi, rfl⟩ := List.getElem_of_mem hrest
  have hi' : i < logs.length := h.length_eq ▸ hi
  have hleaves := (List.forall₂_iff_get.mp h).2 i hi hi'
  exact (pairwise_userData (hd _ (List.getElem_mem hi'))).sublist
    ((hleaves.suffix.sublist.map Entry.frame).filter _)

/-- All that is due is left in every journal. -/
theorem userData_leaves_iff (h : List.Forall₂ (Leaves time) rests logs) :
    rests.map (fun l => userData (l.map Entry.frame)) = logs.map (dueFrames time) ↔
      ∀ log ∈ logs, ¬ Straddles log time := by
  induction h with
  | nil => exact ⟨fun _ log hlog => (by cases hlog), fun _ => rfl⟩
  | cons hl _ ih =>
    rw [List.map_cons, List.map_cons, List.cons.injEq, ih, hl.due_iff, List.forall_mem_cons]

theorem SessionFiles.not_straddles_zero (h : SessionFiles files js logs)
    (hd : ∀ log ∈ logs, Dated log) :
    ∀ log ∈ logs, ¬ Straddles log 0 := by
  induction h with
  | nil => exact fun log hlog => (by cases hlog)
  | cons hx _ ih =>
    obtain ⟨tail, hp⟩ := hx.paged
    rw [List.forall_mem_cons] at hd ⊢
    exact ⟨hp.not_straddles_zero hd.1, ih hd.2⟩

/-- **What a replay delivers**: the stable merge of what the journals are read from. -/
theorem replay_sorted {H : MergeHeap} {prefault useHeap : Bool} {fuel : Nat} (h2 : 2 ≤ js.length)
    (hlin : js.length ≤ 3 ∨ useHeap = false) (hdistinct : Distinct js)
    (hd : ∀ log ∈ logs, Dated log) (ht : InTime logs)
    (hu : Unhindered genTimeKey Frame.IsUserData (framesOf logs))
    (hseeks : List.Forall₂ (SeeksTo files prefault fuel time) js rests)
    (hleaves : List.Forall₂ (Leaves time) rests logs) (hfuel : total logs < fuel) :
    ∃ out, Replays H prefault useHeap files js fuel time out ∧
      (out.filter fun x => x.2.IsUserData) = sortedMerge genTimeKey
      (rests.map fun l => userData (l.map Entry.frame)) := by
  obtain ⟨r, hr, hj⟩ := (joined_new files prefault).joinAllAt hdistinct hseeks H
  rw [List.nil_append, List.nil_append] at hj
  have hlen := hj.length_eq
  have hdrains : DrainsAs (FirstLeast genTimeKey) H files (r.setUseHeap useHeap) rests := by
    refine ReadsFrom.drains_linear ((hj.readsFrom h2).of_journals rfl rfl rfl) ?_ ?_ rfl
      (ht.leaves hleaves)
    · intro hnil
      have hnil : r.journals = [] := hnil
      rw [hnil, List.length_nil] at hlen
      omega
    · rcases hlin with h3 | rfl
      · have : ¬ r.journals.length > 3 := by omega
        simp [JournalReader.usesHeap, JournalReader.setUseHeap, this]
      · rfl
  obtain ⟨out, r', hdrain, hmerge, hend⟩ :=
    hdrains fuel (Nat.lt_of_le_of_lt (total_leaves hleaves) hfuel)
  refine ⟨out, ⟨r, r', hr, hdrain, hend⟩, ?_⟩
  have hmin : ∀ l ∈ framesOf rests, ∀ f ∈ l, Int64.minValue.toInt ≤ genTimeKey f :=
    fun _ _ f _ => f.genTime.minValue_le_toInt
  rw [hmerge.filter_eq hmin Frame.IsUserData (pairwise_leaves hd hleaves)
    (hu.of_suffix (suffix_framesOf hleaves)), framesOf, List.map_map]
  rfl

end

/-- **A merged replay from a time.**  Journals that one session each has written, with
times that are positive and do not decrease and sentinels not stamped before the frame
in front of them, two or three of them (or any number with the heap turned off): a
reader that joins them all from time 0 drains, sentinels aside, the stable merge of
their frames by `gen_time`.  One that joins them at a time delivers exactly those of
these frames that are not from before it, in the same order, if and only if in none of
the journals a page boundary runs between data frames of that very time.

No frame of another journal may lie between a frame and what holds it back in its own
journal, a sentinel with a later stamp. -/
theorem merged_replay (H : MergeHeap) (prefault useHeap : Bool) (files : Files)
    (js : List (Location × UInt32)) (logs : List (List Entry)) (h2 : 2 ≤ js.length)
    (hlin : js.length ≤ 3 ∨ useHeap = false) (hdistinct : Distinct js)
    (hrec : SessionFiles files js logs) (hd : ∀ log ∈ logs, Dated log) (ht : InTime logs)
    (hu : Unhindered genTimeKey Frame.IsUserData (framesOf logs)) :
    ∃ n, ∀ fuel, n ≤ fuel → ∃ all, Replays H prefault useHeap files js fuel 0 all ∧
      (all.filter fun x => x.2.IsUserData) = sortedMerge genTimeKey
      (logs.map fun l => userData (l.map Entry.frame)) ∧
      ∀ time, ∃ out, Replays H prefault useHeap files js fuel time out ∧
        ((out.filter fun x => x.2.IsUserData) =
          (all.filter fun x => x.2.IsUserData ∧ time ≤ x.2.genTime) ↔
          ∀ log ∈ logs, ¬ Straddles log time) := by
  obtain ⟨n, hn⟩ := hrec.leaves hd
  refine ⟨max n (total logs + 1), fun fuel hfuel => ?_⟩
  have hn := hn fuel (le_trans (le_max_left ..) hfuel)
  have hfuel : total logs < fuel := lt_of_lt_of_le (Nat.lt_succ_self _)
    (le_trans (le_max_right ..) hfuel)
  have hsorted : ∀ l ∈ logs.map fun l => userData (l.map Entry.frame),
      l.Pairwise fun a b => genTimeKey a ≤ genTimeKey b := by
    intro l hl
    obtain ⟨log, hlog, rfl⟩ := List.mem_map.mp hl
    exact pairwise_userData (hd log hlog)
  obtain ⟨rests₀, hseeks₀, hleaves₀⟩ := hn prefault 0
  obtain ⟨all, hall, hdata⟩ := replay_sorted h2 hlin hdistinct hd ht hu hseeks₀ hleaves₀ hfuel
  have hzero : logs.map (dueFrames 0) = logs.map fun l => userData (l.map Entry.frame) :=
    List.map_congr_left fun log hlog => dueFrames_zero (hd log hlog)
  rw [(userData_leaves_iff hleaves₀).mpr (hrec.not_straddles_zero hd), hzero] at hdata
  refine ⟨all, hall, hdata, fun time => ?_⟩
  obtain ⟨rests, hseeks, hleaves⟩ := hn prefault time
  obtain ⟨out, hout, hleft⟩ := replay_sorted h2 hlin hdistinct hd ht hu hseeks hleaves hfuel
  refine ⟨out, hout, ?_⟩
  have hdue : (all.filter fun x => x.2.IsUserData ∧ time ≤ x.2.genTime) =
      sortedMerge genTimeKey (logs.map (dueFrames time)) := by
    have hsplit : (all.filter fun x => x.2.IsUserData ∧ time ≤ x.2.genTime) =
        (all.filter fun x => x.2.IsUserData).filter fun x => time ≤ x.2.genTime := by
      rw [List.filter_filter]
      refine List.filter_congr fun x _ => ?_
      rw [Bool.decide_and, Bool.and_comm]
    rw [hsplit, hdata, sortedMerge_filter hsorted fun f => time ≤ f.genTime, List.map_map]
    rfl
  rw [hleft, hdue, sortedMerge_inj ?_ ?_ ?_, userData_leaves_iff hleaves]
  · intro l hl
    obtain ⟨rest, hrest, rfl⟩ := List.mem_map.mp hl
    exact pairwise_leaves hd hleaves _ (List.mem_map_of_mem hrest)
  · intro l hl
    obtain ⟨log, hlog, rfl⟩ := List.mem_map.mp hl
    exact (pairwise_userData (hd log hlog)).sublist List.filter_sublist
  · rw [List.length_map, List.length_map, hleaves.length_eq]

/-- Two journals with frames of the times 1 and 3, replayed from time 2: the frames of
time 3 come, and nothing else. -/
theorem merged_replay_two :
    ∃ (files : Files) (log : List Entry) (n : Nat), log.length = 2 ∧ ∀ fuel, n ≤ fuel → ∃ all out,
      Replays mergeBySorting false true files [(⟨1, .log⟩, 0), (⟨2, .log⟩, 0)] fuel 0 all ∧
      Replays mergeBySorting false true files [(⟨1, .log⟩, 0), (⟨2, .log⟩, 0)] fuel 2 out ∧
      (out.filter fun x => x.2.IsUserData) =
      (all.filter fun x => x.2.IsUserData ∧ 2 ≤ x.2.genTime) := by
  obtain ⟨s, thread, -, hone, hlog⟩ := twoWrites_oneSession
  have hinc := hlog ▸ twoFrames_increasing thread
  have hstamps : ∀ e ∈ s.1.log, 0 < e.frame.genTime ∧ e.frame.genTime < Int64.maxValue := by
    have hall : ∀ f ∈ [(Write.mark 5 1 7).request.frame 0, (Write.bytes 5 3 9 [4]).request.frame 1],
        0 < f.genTime ∧ f.genTime < Int64.maxValue := by decide
    intro e he
    refine hall e.frame ?_
    have := List.mem_map_of_mem (f := Entry.frame) he
    rwa [hlog] at this
  have hboth : ∀ {p : List Entry → Prop}, p s.1.log → ∀ l ∈ [s.1.log, s.1.log], p l := by
    intro p hp l hl
    simp only [List.mem_cons, List.not_mem_nil, or_false, or_self] at hl
    rwa [hl]
  obtain ⟨n, hn⟩ := merged_replay mergeBySorting false true (fun _ _ => s.1.disk)
    [(⟨1, .log⟩, 0), (⟨2, .log⟩, 0)] [s.1.log, s.1.log] (by decide) (Or.inl (by decide)) (by decide)
    (.cons hone (.cons hone .nil)) (hboth (dated_of_increasing hinc fun e he => (hstamps e he).1))
    (hboth fun e he => (hstamps e he).2) (by
      -- nothing is held back
      intro i j pre suf l a x y hi hj hij hx hy hpx hpy hbad
      obtain ⟨es, hes, hsplit⟩ := List.mem_map.mp (List.mem_of_getElem? hi)
      have hpw :=
        hboth (p := fun l => (l.map Entry.frame).Pairwise fun a b => a.genTime < b.genTime)
        (List.pairwise_map.mpr hinc) es hes
      rw [hsplit] at hpw
      have hlt := List.rel_of_pairwise_cons (List.pairwise_append.mp hpw).2.1 hx
      exact lt_asymm hbad.1 (Int64.lt_iff_toInt_lt.mp hlt))
  refine ⟨fun _ _ => s.1.disk, s.1.log, n, by rw [hlog]; rfl, fun fuel hfuel => ?_⟩
  obtain ⟨all, hall, -, htime⟩ := hn fuel hfuel
  obtain ⟨out, hout, hiff⟩ := htime 2
  refine ⟨all, out, hall, hout, hiff.mpr (hboth ?_)⟩
  rintro ⟨a, x, b, hin, hx, -⟩
  have hmem : x ∈ s.1.log := hin.subset (by simp)
  rw [hlog] at hmem
  have hdata : ∀ f ∈ [(Write.mark 5 1 7).request.frame 0, (Write.bytes 5 3 9 [4]).request.frame 1],
      ¬ f.IsPageEnd := by decide
  exact hdata x.frame (List.mem_map_of_mem hmem) hx

end Revoq
