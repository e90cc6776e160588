import Revoq.JournalReader

/-! # The reader's bookkeeping

The set of joined keys, the pointers to a single journal and the vector of journals
agree after any sequence of calls, and no call subscripts the vector out of range.
The current index and the heap may be stale in between; every use of the index is
guarded, so that does no harm.
-/
namespace Revoq
open StmtMachine HeapContract

/-- **The bookkeeping of a reader.** -/
structure Bookkeeping (r : JournalReader) : Prop where
  keys : r.joinedKeys = (r.journals.map Journal.key).toFinset
  nodup : (r.journals.map Journal.key).Nodup
  /-- The two pointers refer to the only journal. -/
  single : ∀ j, r.journals = [j] → r.singleJournal = some j.address ∧ r.singleFrame = some j.address
  several : r.journals.length ≠ 1 → r.singleJournal = none ∧ r.singleFrame = none

/-- The reader differs in cursors and caches only. -/
structure SameJournals (r r' : JournalReader) : Prop where
  keys : r'.joinedKeys = r.joinedKeys
  labels : (r'.journals.map fun j => (j.address, j.key)) = r.journals.map fun j =>
      (j.address, j.key)
  singleJournal : r'.singleJournal = r.singleJournal
  singleFrame : r'.singleFrame = r.singleFrame

section
variable {H : MergeHeap} {files files' : Files} {r r' r'' : JournalReader}

theorem SameJournals.refl (r : JournalReader) : SameJournals r r := ⟨rfl, rfl, rfl, rfl⟩

theorem SameJournals.trans (h : SameJournals r r') (h' : SameJournals r' r'') :
    SameJournals r r'' :=
  ⟨h'.keys.trans h.keys, h'.labels.trans h.labels, h'.singleJournal.trans h.singleJournal,
    h'.singleFrame.trans h.singleFrame⟩

theorem SameJournals.length_eq (h : SameJournals r r') :
    r'.journals.length = r.journals.length := by
  simpa using congrArg List.length h.labels

theorem SameJournals.bookkeeping (h : SameJournals r r') (hb : Bookkeeping r) : Bookkeeping r' := by
  have hkeys : r'.journals.map Journal.key = r.journals.map Journal.key := by
    simpa [Function.comp_def] using congrArg (List.map Prod.snd) h.labels
  constructor
  · rw [h.keys, hb.keys, hkeys]
  · rw [hkeys]
    exact hb.nodup
  · intro j hj
    have hlen := h.length_eq
    rw [hj] at hlen
    obtain ⟨i, hi⟩ := List.length_eq_one_iff.mp hlen.symm
    have haddr : i.address = j.address := by
      have := h.labels
      rw [hi, hj] at this
      simp only [List.map_cons, List.map_nil, List.cons.injEq, Prod.mk.injEq, and_true] at this
      exact this.1.symm
    rw [h.singleJournal, h.singleFrame, ← haddr]
    exact hb.single i hi
  · intro hlen
    rw [h.singleJournal, h.singleFrame]
    exact hb.several (h.length_eq ▸ hlen)

theorem sameJournals_rebuildHeap : SameJournals r (r.rebuildHeap H files) := by
  unfold JournalReader.rebuildHeap
  split_ifs <;> exact ⟨rfl, rfl, rfl, rfl⟩

theorem sameJournals_refresh : SameJournals r (r.refresh H files) := by
  unfold JournalReader.refresh
  split
  · exact sameJournals_rebuildHeap
  · exact .refl r

variable (H files) in
/-- `updateHeap` at an index in range. -/
theorem updateHeap_returns {i : Nat} {j : Journal} (hi : r.currentJournalIdx = some i)
    (hj : r.journals[i]? = some j) : ∃ r', r.updateHeap H files = some r' ∧ SameJournals r r' := by
  unfold JournalReader.updateHeap
  rw [hi]
  simp only [hj]
  split
  · exact ⟨_, rfl, rfl, rfl, rfl, rfl⟩
  · split <;> exact ⟨_, rfl, rfl, rfl, rfl, rfl⟩

/-- The pointer to a single journal is good. -/
theorem Bookkeeping.deref (hb : Bookkeeping r) {address : Nat} (h : r.singleFrame = some address) :
    ∃ j, r.journals = [j] ∧ r.deref address = some j ∧ j.address = address := by
  by_cases hlen : r.journals.length = 1
  · obtain ⟨j, hj⟩ := List.length_eq_one_iff.mp hlen
    have haddr : j.address = address := Option.some.inj ((hb.single j hj).2.symm.trans h)
    refine ⟨j, hj, ?_, haddr⟩
    rw [JournalReader.deref, hj]
    simp [haddr]
  · rw [(hb.several hlen).2] at h
    cases h

theorem Bookkeeping.singleJournal_eq (hb : Bookkeeping r) : r.singleJournal = r.singleFrame := by
  by_cases hlen : r.journals.length = 1
  · obtain ⟨j, hj⟩ := List.length_eq_one_iff.mp hlen
    rw [(hb.single j hj).1, (hb.single j hj).2]
  · rw [(hb.several hlen).1, (hb.several hlen).2]

/-! ## Every call -/

/-- The call does not fault, and leaves the journals in place. -/
def KeepsJournals (r : JournalReader) : Result (Files × JournalReader) → Prop
  | .returns s | .throws s => SameJournals r s.2
  | .faults _ => False

theorem KeepsJournals.same (r : JournalReader) (files : Files) :
    KeepsJournals r (.returns (files, r)) := SameJournals.refl r

/-- One journal has moved. -/
theorem sameJournals_set {i : Nat} {j : Journal} (hj : r.journals[i]? = some j) (c : Reader) :
    SameJournals r { r with journals := r.journals.set i { j with cursor := c } } := by
  refine ⟨rfl, ?_, rfl, rfl⟩
  obtain ⟨hi, rfl⟩ := List.getElem?_eq_some_iff.mp hj
  refine List.ext_getElem? fun k => ?_
  by_cases hk : i = k
  · subst hk
    simp [hi, Journal.key]
  · simp [List.getElem?_set_ne hk]

variable (files) in
theorem keeps_stepJournal {i : Nat} (hi : i < r.journals.length) (v : Journal → FrameView) :
    KeepsJournals r (JournalReader.stepJournal i v (files, r)) := by
  unfold JournalReader.stepJournal
  simp only [List.getElem?_eq_getElem hi]
  cases hn : (r.journals[i]).next (v r.journals[i]) files with
  | error => exact SameJournals.refl r
  | ok x =>
    rw [Journal.next, Except.map_eq_ok] at hn
    obtain ⟨x, -, rfl⟩ := hn
    exact sameJournals_set (List.getElem?_eq_getElem hi) x.2

theorem keeps_stepSingle (hb : Bookkeeping r) {address : Nat} (h : r.singleFrame = some address)
    (v : Journal → FrameView) :
    KeepsJournals r (JournalReader.stepSingle address v (files, r)) := by
  obtain ⟨j, hj, -, haddr⟩ := hb.deref h
  refine keeps_stepJournal files ?_ v
  rw [hj]
  simp [haddr]

/-- What is new after a journal has moved: its cursor, and its page files. -/
theorem stepJournal_returns {i : Nat} {v : Journal → FrameView} {s : Files × JournalReader}
    (h : JournalReader.stepJournal i v (files, r) = .returns s) :
    ∃ j d c, r.journals[i]? = some j ∧
      s = (j.put files d, { r with journals := r.journals.set i { j with cursor := c } }) := by
  unfold JournalReader.stepJournal at h
  simp only at h
  split at h
  · cases h
  · rename_i j hj
    cases hn : j.next (v j) files with
    | error =>
      rw [hn] at h
      cases h
    | ok x =>
      rw [hn] at h
      cases h
      rw [Journal.next, Except.map_eq_ok] at hn
      obtain ⟨⟨d, c⟩, -, rfl⟩ := hn
      exact ⟨j, d, c, hj, rfl⟩

variable (H files) in
/-- **`next` at any time**: the index may be stale, but it is looked at first. -/
theorem keeps_next (hb : Bookkeeping r) : KeepsJournals r (JournalReader.next H (files, r)) := by
  cases hi : r.currentJournalIdx with
  | none => exact JournalReader.next_of_none hi ▸ .same r files
  | some i =>
    rcases Nat.lt_or_ge i r.journals.length with hlt | hge
    · cases hs : r.singleJournal with
      | some address =>
        rw [JournalReader.next_single hi hlt hs]
        exact keeps_stepSingle hb (hb.singleJournal_eq ▸ hs) _
      | none =>
        have hstep := keeps_stepJournal files hlt fun j => j.current files
        rw [JournalReader.next_several hi hlt hs]
        cases he : JournalReader.stepJournal i (fun j => j.current files) (files, r) with
        | faults s | throws s =>
          rw [he] at hstep
          exact hstep
        | returns s =>
          rw [he] at hstep
          obtain ⟨files', r'⟩ := s
          have hsame : SameJournals r r' := hstep
          have hlen : i < r'.journals.length := hsame.length_eq ▸ hlt
          have hidx : r'.currentJournalIdx = some i := by
            obtain ⟨j, d, c, -, heq⟩ := stepJournal_returns he
            cases heq
            exact hi
          simp only [Result.andThen, JournalReader.reselect]
          split
          · obtain ⟨r'', hu, hsame'⟩ := updateHeap_returns H files' hidx
              (List.getElem?_eq_getElem hlen)
            rw [hu]
            exact hsame.trans hsame'
          · exact hsame.trans ⟨rfl, rfl, rfl, rfl⟩
    · exact JournalReader.next_of_ge hi hge ▸ .same r files

variable (H files) in
theorem keeps_advance (hb : Bookkeeping r) (v : FrameView) :
    KeepsJournals r (JournalReader.advance H v (files, r)) := by
  cases hs : r.singleJournal with
  | some address =>
    rw [JournalReader.advance_single hs]
    exact keeps_stepSingle hb (hb.singleJournal_eq ▸ hs) _
  | none =>
    rw [JournalReader.advance_several hs]
    exact keeps_next H files hb

variable (H files) in
theorem isDataAvailable_returns (hb : Bookkeeping r) :
    ∃ b r', r.isDataAvailable H files = some (b, r') ∧ SameJournals r r' ∧
      (r.singleFrame = none → b = true → ∃ j, r'.currentFrameRaw = some j) := by
  unfold JournalReader.isDataAvailable
  cases hs : r.singleFrame with
  | some address =>
    obtain ⟨j, -, hd, -⟩ := hb.deref hs
    simp only [hd]
    exact ⟨_, r, rfl, .refl r, fun h => by cases h⟩
  | none =>
    have hsame : SameJournals r (r.refresh H files) := sameJournals_refresh
    simp only
    split
    · rename_i j hj
      exact ⟨_, _, rfl, hsame, fun _ _ => ⟨j, hj⟩⟩
    · refine ⟨_, _, rfl, ?_, fun _ h => by cases h⟩
      split
      · exact hsame
      · exact hsame.trans ⟨rfl, rfl, rfl, rfl⟩

variable (H files) in
theorem tryCurrentFrame_returns (hb : Bookkeeping r) :
    ∃ v r', r.tryCurrentFrame H files = some (v, r') ∧ SameJournals r r' := by
  unfold JournalReader.tryCurrentFrame
  cases hs : r.singleFrame with
  | some address =>
    obtain ⟨j, -, hd, -⟩ := hb.deref hs
    simp only [hd]
    exact ⟨_, r, rfl, .refl r⟩
  | none =>
    obtain ⟨b, r', he, hsame, hraw⟩ := isDataAvailable_returns H files hb
    simp only [he]
    cases b with
    | false => exact ⟨_, r', rfl, hsame⟩
    | true =>
      obtain ⟨j, hj⟩ := hraw hs rfl
      simp only [hj]
      exact ⟨_, r', rfl, hsame⟩

theorem keeps_nextStatic (hb : Bookkeeping r) :
    KeepsJournals r (JournalReader.nextStatic H (files, r)) := by
  unfold JournalReader.nextStatic
  obtain ⟨v, r', he, hsame⟩ := tryCurrentFrame_returns H files hb
  simp only [he]
  cases v with
  | none => exact hsame
  | some v =>
    have hadv := keeps_advance H files (hsame.bookkeeping hb) v.toFrameView
    simp only
    cases ha : JournalReader.advance H v.toFrameView (files, r') with
    | returns s | throws s =>
      rw [ha] at hadv
      exact hsame.trans hadv
    | faults s =>
      rw [ha] at hadv
      exact hadv

/-- A reader whose pointers have just been refreshed. -/
theorem bookkeeping_refresh (hk : r.joinedKeys = (r.journals.map Journal.key).toFinset)
    (hn : (r.journals.map Journal.key).Nodup) (b : Bool) :
    Bookkeeping { r.refreshSingleJournal with needsRebuild := b } := by
  constructor
  · simpa using hk
  · simpa using hn
  · intro j h
    simp only [JournalReader.refreshSingleJournal_journals] at h
    simp only [JournalReader.refreshSingleJournal, h, and_self]
  · intro h
    simp only [JournalReader.refreshSingleJournal_journals] at h
    unfold JournalReader.refreshSingleJournal
    split
    · rename_i j heq
      rw [heq] at h
      exact absurd rfl h
    · exact ⟨rfl, rfl⟩

theorem Bookkeeping.join (hb : Bookkeeping r) {fuel : Nat} {location : Location} {destId : UInt32}
    {fromTime : Int64} {s : Files × JournalReader}
    (h : JournalReader.join fuel location destId fromTime (files, r) = .returns s ∨
      JournalReader.join fuel location destId fromTime (files, r) = .throws s) :
        Bookkeeping s.2 := by
  unfold JournalReader.join at h
  simp only at h
  split at h
  · rcases h with h | h
    · cases h
      exact hb
    · cases h
  · rename_i hnew
    split at h
    · rcases h with h | h
      · cases h
      · cases h
        exact hb
    · rcases h with h | h
      · cases h
        refine bookkeeping_refresh ?_ ?_ true
        · refine Finset.ext fun k => ?_
          simp only [hb.keys, Finset.mem_insert, List.mem_toFinset, List.map_append, List.map_cons,
            List.map_nil, List.mem_append, List.mem_singleton]
          exact Or.comm
        · rw [hb.keys, List.mem_toFinset] at hnew
          simp only [List.map_append, List.map_cons, List.map_nil]
          exact List.nodup_append.mpr ⟨hb.nodup, List.nodup_singleton _, fun a ha b hb' hab => by
            rw [List.mem_singleton] at hb'
            exact hnew (by rw [hab, hb'] at ha; exact ha)⟩
      · cases h

theorem Bookkeeping.disjoin (hb : Bookkeeping r) (locationUid : UInt32) :
    Bookkeeping (r.disjoin locationUid) := by
  unfold JournalReader.disjoin
  simp only
  split
  · refine bookkeeping_refresh rfl ?_ true
    exact hb.nodup.sublist (List.Sublist.map _ List.filter_sublist)
  · exact hb

variable (H files) in
/-- **Every call** keeps the bookkeeping, and none faults. -/
theorem Bookkeeping.exec (hb : Bookkeeping r) (c : ReaderCall) :
    match c.exec H (files, r) with
    | .returns s | .throws s => Bookkeeping s.2
    | .faults _ => False := by
  have of_keeps : ∀ {x : Result (Files × JournalReader)}, KeepsJournals r x →
      match x with
      | .returns s | .throws s => Bookkeeping s.2
      | .faults _ => False := by
    intro x hx
    cases x with
    | returns s | throws s => exact SameJournals.bookkeeping hx hb
    | faults s => exact hx
  cases c with
  | join fuel location destId fromTime =>
    simp only [ReaderCall.exec]
    split
    · exact hb.join (Or.inl ‹_›)
    · exact hb.join (Or.inr ‹_›)
    · rename_i h
      unfold JournalReader.join at h
      simp only at h
      split at h
      · cases h
      · split at h <;> cases h
  | disjoin locationUid => exact hb.disjoin locationUid
  | setUseHeap useHeap =>
    have hsame : SameJournals r (r.setUseHeap useHeap) := ⟨rfl, rfl, rfl, rfl⟩
    exact hsame.bookkeeping hb
  | isDataAvailable =>
    obtain ⟨b, r', he, hsame, -⟩ := isDataAvailable_returns H files hb
    simp only [ReaderCall.exec, he]
    exact hsame.bookkeeping hb
  | tryCurrentFrame =>
    obtain ⟨v, r', he, hsame⟩ := tryCurrentFrame_returns H files hb
    simp only [ReaderCall.exec, he]
    exact hsame.bookkeeping hb
  | next => exact of_keeps (keeps_next H files hb)
  | advance v => exact of_keeps (keeps_advance H files hb v)
  | nextStatic => exact of_keeps (keeps_nextStatic hb)

end

/-- The states a reader can be in: any calls, each on whatever the page files hold
at the time. -/
inductive ReaderReaches (H : MergeHeap) (prefault : Bool) : JournalReader → Prop where
  | start : ReaderReaches H prefault { prefault := prefault }
  | returned {r : JournalReader} {files : Files} {c : ReaderCall} {s : Files × JournalReader}
      (h : ReaderReaches H prefault r) (he : c.exec H (files, r) = .returns s) :
      ReaderReaches H prefault s.2
  | threw {r : JournalReader} {files : Files} {c : ReaderCall} {s : Files × JournalReader}
      (h : ReaderReaches H prefault r) (he : c.exec H (files, r) = .throws s) :
      ReaderReaches H prefault s.2

theorem ReaderReaches.bookkeeping {H : MergeHeap} {prefault : Bool} {r : JournalReader}
    (h : ReaderReaches H prefault r) : Bookkeeping r := by
  induction h with
  | start => exact ⟨rfl, List.nodup_nil, fun j hj => (by cases hj), fun _ => ⟨rfl, rfl⟩⟩
  | @returned r files c s _ he ih =>
    have := ih.exec H files c
    rwa [he] at this
  | @threw r files c s _ he ih =>
    have := ih.exec H files c
    rwa [he] at this

theorem ReaderReaches.execAll {H : MergeHeap} {prefault : Bool} {cs : List ReaderCall}
    {s s' : Files × JournalReader} (h : ReaderReaches H prefault s.2)
    (he : ReaderCall.execAll H cs s = some s') : ReaderReaches H prefault s'.2 := by
  induction cs generalizing s with
  | nil =>
    cases he
    exact h
  | cons c cs ih =>
    obtain ⟨t, ht, he⟩ := Option.bind_eq_some_iff.mp he
    exact ih (.returned h (Result.eq_returns ht)) he

/-- **The reader's bookkeeping.**  After any sequence of calls, on any contents of the
page files, the reader's fields agree, and no call subscripts `journals_` out of
range or follows a pointer to a journal that is gone. -/
theorem reader_bookkeeping (H : MergeHeap) (prefault : Bool) (r : JournalReader)
    (h : ReaderReaches H prefault r) :
    Bookkeeping r ∧ ∀ files c s, ReaderCall.exec H (files, r) c ≠ .faults s := by
  refine ⟨h.bookkeeping, fun files c s he => ?_⟩
  have := h.bookkeeping.exec H files c
  rwa [he] at this

/-- Four journals in empty directories are joined, and two locations disjoined again;
then `next` is called before anything was rebuilt. -/
theorem reader_bookkeeping_stale :
    ∃ s, ReaderCall.execAll mergeBySorting
        [.join 1 ⟨1, .log⟩ 0 0, .join 1 ⟨2, .log⟩ 0 0, .join 1 ⟨3, .log⟩ 0 0, .join 1 ⟨3, .log⟩ 7 0,
          .tryCurrentFrame, .disjoin 3, .disjoin 2, .join 1 ⟨4, .log⟩ 0 0, .next]
        (fun _ _ => .empty, { prefault := true }) = some s ∧
      s.2.journals.length = 2 ∧ s.2.currentJournalIdx = some 0 ∧ s.2.needsRebuild = true ∧
      Bookkeeping s.2 := by
  have h : (ReaderCall.execAll mergeBySorting
        [.join 1 ⟨1, .log⟩ 0 0, .join 1 ⟨2, .log⟩ 0 0, .join 1 ⟨3, .log⟩ 0 0, .join 1 ⟨3, .log⟩ 7 0,
          .tryCurrentFrame, .disjoin 3, .disjoin 2, .join 1 ⟨4, .log⟩ 0 0, .next]
        (fun _ _ => .empty, { prefault := true })).map (fun s =>
          (s.2.journals.length, s.2.currentJournalIdx, s.2.needsRebuild)) =
          some (2, some 0, true) := by
    decide +kernel
  obtain ⟨s, hs, h⟩ := Option.map_eq_some_iff.mp h
  simp only [Prod.mk.injEq] at h
  exact ⟨s, hs, h.1, h.2.1, h.2.2, (reader_bookkeeping _ true s.2 (.execAll .start hs)).1⟩

end Revoq
