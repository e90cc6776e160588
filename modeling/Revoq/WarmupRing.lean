import Revoq.RingSlots
import Revoq.RingTallySteps

/-! # The ring hands out each mapping once

The steps of the two threads keep the invariant of the slots; where the warmer claims a
slot, the tally says that it is not the writer's.
-/
namespace Revoq.WarmupRing
open Custody

variable {o : Options} {s s' : State}

/-! ## Every step keeps the invariant -/

/-- The search for a page that is not in the ring. -/
theorem Safe.lookUp {maps : Bool} (h : Safe o s) (hphase : s.warmer.phase = .lookUp)
    (hstep : warmerStep o maps s = some s') : Safe o s' := by
  have hclosing := h.not_closing hstep
  have hempty := Warmer.emptyHanded_lookUp (o := o) hphase
  unfold WarmupRing.warmerStep at hstep
  cases hw : s.warmer with
  | bootRunning =>
    simp only [hw] at hstep
    cases hstep
    split
    · exact h.rest .bootCurrent hempty ⟨rfl, rfl, rfl⟩ hclosing
    · exact h.rest .loop hempty ⟨rfl, rfl, rfl⟩ hclosing
  | bootCurrent =>
    simp only [hw] at hstep
    cases hstep
    split
    · exact h.rest .loop hempty ⟨rfl, rfl, rfl⟩ hclosing
    · exact h.rest .bootRunning hempty ⟨rfl, rfl, rfl⟩ hclosing
  | loop =>
    simp only [hw] at hstep
    cases hstep
    split
    · exact h.rest .snapshot hempty ⟨rfl, rfl, rfl⟩ hclosing
    · exact h.rest .exited hempty ⟨rfl, rfl, rfl⟩ hclosing
  | snapshot =>
    simp only [hw] at hstep
    cases hstep
    split
    · exact h.rest .loop hempty ⟨rfl, rfl, rfl⟩ hclosing
    · exact h.turn _ 1 hempty hclosing
  | scan c i j =>
    simp only [hw] at hstep
    split at hstep
    · cases hstep
      split
      · exact h.turn c (i + 1) hempty hclosing
      · exact h.rest (.scan c i (j + 1)) hempty ⟨rfl, rfl, rfl⟩ hclosing
    · cases hstep
      exact h.rest (.index c i) hempty ⟨rfl, rfl, rfl⟩ hclosing
  | index c i =>
    simp only [hw] at hstep
    cases hstep
    exact h.rest (.claim c i s.writeIndex) hempty ⟨rfl, rfl, rfl⟩ hclosing
  | exited => simp [hw] at hstep
  | _ =>
    rw [hw] at hphase
    cases hphase

/-- The claim of a slot, and the mapping. -/
theorem Safe.warming {maps : Bool} (h : Safe o s) (ht : Tally o s) (hN : 0 < o.ringSize)
    (hclear : ∀ c i w, s.warmer = .claim c i w → ∀ p, s.writer.window ≠ some (p, w % o.ringSize))
    (hphase : s.warmer.phase = .warming)
    (hstep : warmerStep o maps s = some s') : Safe o s' := by
  have hclosing := h.not_closing hstep
  unfold WarmupRing.warmerStep at hstep
  cases hw : s.warmer with
  -- an empty slot has no mapping, so nothing is lost when it is taken
  | claim c i w =>
    have hk := Nat.mod_lt w hN
    simp only [hw] at hstep
    split at hstep
    · rename_i hempty
      cases hstep
      have hfree := hclear c i w hw
      have hplain := h.plain (w % o.ringSize) hk (by rw [hw]; exact fun hb => (by cases hb)) hfree
        fun hc => hclosing (Writer.closing_of_cleared hc)
      have hfree' : (s.ring (w % o.ringSize)).isOwned = false := by
        rcases hplain with ⟨hge, -⟩ | ⟨-, hf⟩
        · omega
        · exact hf
      refine h.warm hk ({ · with pageId := -2 }) (.map c i w) (Or.inl (by rw [hw]; rfl))
        (Or.inl ⟨rfl, rfl, hfree'⟩) hfree hclosing (fun q m hm => (by cases hm))
        (fun j hj => ?_) (fun j hj => (by cases hj)) (State.slotHolds_free hfree')
        (State.slotHolds_free ?_) fun r => ?_
      · rw [hw] at hj
        cases hj
      · rw [State.setSlot_self]
        exact hfree'
      · rw [hw]
        rfl
    · cases hstep
      exact h.turn c (i + 1) (by rw [hw]; exact ⟨rfl, rfl, rfl⟩) hclosing
  | map c i w =>
    obtain ⟨hk, hslot⟩ := h.busy (w % o.ringSize) (by rw [hw]; rfl)
    simp only [hw] at hstep hslot
    split at hstep
    · cases hstep
      exact h.map (fun m hm => ht.numbered.serial_lt hm) hw hclosing
    · cases hstep
      refine h.walk (.giveUp c i w) (by rw [hw]; rfl) (by rw [hw]; rfl)
        (by rw [hw]; rfl) ?_ hclosing
      rintro k hk
      cases hk
      exact hslot
  -- `loadMmapBuffer` has failed: the slot goes back without a mapping
  | giveUp c i w =>
    have hb : s.warmer.busy o = some (w % o.ringSize) := by rw [hw]; rfl
    obtain ⟨hk, hslot⟩ := h.busy _ hb
    obtain ⟨hta, htd, htb⟩ := o.turn_emptyHanded c (i + 1)
    simp only [hw] at hstep hslot
    cases hstep
    refine h.warm hk ({ · with pageId := -1 }) (o.turn c (i + 1)) (Or.inr hb)
      (Or.inr ⟨htb, Or.inr ⟨rfl, hslot.2⟩⟩) (h.in_hand hb) hclosing (fun q m hm => ?_)
      (fun j hj => ?_)
      (fun j hj => ?_) (State.slotHolds_free hslot.2) (State.slotHolds_free ?_) fun r => ?_
    · rw [hta] at hm
      cases hm
    · rw [hw] at hj
      cases hj
    · rw [htd] at hj
      cases hj
    · rw [State.setSlot_self]
      exact hslot.2
    · rw [hw, hta]
      rfl
  | _ =>
    rw [hw] at hphase
    cases hphase

/-- The stores behind a mapping. -/
theorem Safe.publication {maps : Bool} (h : Safe o s) (ht : Tally o s)
    (hphase : s.warmer.phase = .publication)
    (hstep : warmerStep o maps s = some s') : Safe o s' := by
  have hclosing := h.not_closing hstep
  unfold WarmupRing.warmerStep at hstep
  cases hw : s.warmer with
  | storeAddress c i w addr =>
    have hb : s.warmer.busy o = some (w % o.ringSize) := by rw [hw]; rfl
    obtain ⟨hk, hslot⟩ := h.busy _ hb
    have hlocal := h.localFile
    simp only [hw] at hstep hslot hlocal
    cases hstep
    refine h.warm hk ({ · with address := some addr }) (.storeSize c i w addr) (Or.inr hb)
      (Or.inl ⟨rfl, hslot.1, hslot.2, rfl⟩) (h.in_hand hb) hclosing hlocal (fun j hj => ?_)
      (fun j hj => (by cases hj)) (State.slotHolds_free hslot.2)
      (State.slotHolds_free ?_) fun r => ?_
    · rw [hw] at hj
      cases hj
    · rw [State.setSlot_self]
      exact hslot.2
    · rw [hw]
      rfl
  | storeSize c i w addr =>
    have hb : s.warmer.busy o = some (w % o.ringSize) := by rw [hw]; rfl
    obtain ⟨hk, hslot⟩ := h.busy _ hb
    have hlocal := h.localFile
    simp only [hw] at hstep hslot hlocal
    cases hstep
    refine h.warm hk ({ · with size := o.pageSize }) (.storeOwned c i w addr) (Or.inr hb)
      (Or.inl ⟨rfl, hslot.1, hslot.2.1, hslot.2.2, rfl⟩)
      (h.in_hand hb) hclosing hlocal (fun j hj => ?_)
      (fun j hj => (by cases hj)) (State.slotHolds_free hslot.2.1)
      (State.slotHolds_free ?_) fun r => ?_
    · rw [hw] at hj
      cases hj
    · rw [State.setSlot_self]
      exact hslot.2.1
    · rw [hw]
      rfl
  -- the mapping passes from the warmer to the slot
  | storeOwned c i w addr =>
    have hb : s.warmer.busy o = some (w % o.ringSize) := by rw [hw]; rfl
    obtain ⟨hk, hslot⟩ := h.busy _ hb
    have hfile : addr.file = c + i := h.localFile (c + i) addr (by rw [hw]; rfl)
    simp only [hw] at hstep hslot
    obtain ⟨hpage, howned, haddr, hsize⟩ := hslot
    cases hstep
    refine h.warm hk ({ · with isOwned := true }) (.storePageId c i w) (Or.inr hb)
      (Or.inl ⟨rfl, hpage, rfl, hsize, addr, haddr, hfile⟩) (h.in_hand hb) hclosing
      (fun q m hm => (by cases hm)) (fun j hj => ?_) (fun j hj => (by cases hj))
      (State.slotHolds_free howned) (State.slotHolds_owned (fun hd => (by cases hd)) ?_) fun r => ?_
    · rw [hw] at hj
      cases hj
    · rw [State.setSlot_self]
    · rw [hw, State.setSlot_self, haddr]
      exact Nat.add_comm ..
  -- all other fields are stored by now, so the slot is full when it is offered
  | storePageId c i w =>
    have hb : s.warmer.busy o = some (w % o.ringSize) := by rw [hw]; rfl
    obtain ⟨hk, hslot⟩ := h.busy _ hb
    have hdist := ht.distance c i (by rw [hw]; rfl)
    have hseen := ht.seen c (by rw [hw]; rfl)
    simp only [hw] at hstep hslot
    obtain ⟨hpage, hfull⟩ := hslot
    cases hstep
    refine h.warm hk ({ · with pageId := c + i }) (.fetchAdd c i) (Or.inr hb)
      (Or.inr ⟨rfl, Or.inl ⟨?_, hfull⟩⟩) (h.in_hand hb) hclosing (fun q m hm => (by cases hm))
      (fun j hj => ?_) (fun j hj => (by cases hj)) (State.slotHolds_owned ?_ hfull.1)
      (State.slotHolds_owned (fun hd => (by cases hd)) ?_) fun r => ?_
    · show (0 : Int) ≤ c + i
      omega
    · rw [hw] at hj
      cases hj
    · rw [hw]
      exact fun hd => by cases hd
    · rw [State.setSlot_self]
      exact hfull.1
    · rw [hw, State.setSlot_self]
      rfl
  | fetchAdd c i =>
    simp only [hw] at hstep
    cases hstep
    exact { h.turn c (i + 1) (by rw [hw]; exact ⟨rfl, rfl, rfl⟩) hclosing with }
  | _ =>
    rw [hw] at hphase
    cases hphase

/-- `cleanupOldPages` claims a slot that still holds its stale page. -/
theorem Safe.claimStale (h : Safe o s) (ht : Tally o s) {c q : Int} {j : Nat}
    (hw : s.warmer = .cleanupClaim c j q) (hpage : (s.ring j).pageId = q)
    (hclosing : ¬ s.writer.closing) :
    Safe o { s.setSlot j ({ · with pageId := -1 }) with warmer := .cleanupOwned c j } := by
  obtain ⟨⟨hq, -⟩, hj⟩ := ht.stale c j q hw
  -- a page that the writer is taking is later than the stale one
  have hfree : ∀ p, s.writer.window ≠ some (p, j) := by
    intro p hp
    have := (h.window p j hp).2.2.1
    omega
  have hfull : Full o (s.ring j).pageId (s.ring j) := by
    rcases h.plain j hj (by rw [hw]; exact fun hb => (by cases hb)) hfree
      (fun hc => hclosing (Writer.closing_of_cleared hc)) with ⟨-, hf⟩ | ⟨hn, -⟩
    · exact hf
    · omega
  refine h.warm hj ({ · with pageId := -1 }) (.cleanupOwned c j) (Or.inl (by rw [hw]; rfl))
    (Or.inl ⟨rfl, rfl, _, hfull⟩) hfree hclosing (fun q m hm => (by cases hm))
    (fun j' hj' => ?_) (fun j hj => (by cases hj)) (State.slotHolds_owned ?_ hfull.1)
    (State.slotHolds_owned (fun hd => (by cases hd)) ?_) fun r => ?_
  · rw [hw] at hj'
    cases hj'
  · rw [hw]
    exact fun hd => by cases hd
  · rw [State.setSlot_self]
    exact hfull.1
  · rw [hw, State.setSlot_self]
    rfl

/-- `cleanupOldPages`. -/
theorem Safe.cleanup {maps : Bool} (h : Safe o s) (ht : Tally o s)
    (hphase : s.warmer.phase = .cleanup) (hstep : warmerStep o maps s = some s') : Safe o s' := by
  have hclosing := h.not_closing hstep
  unfold WarmupRing.warmerStep at hstep
  cases hw : s.warmer with
  | cleanup c j =>
    simp only [hw] at hstep
    split at hstep
    · split at hstep
      · cases hstep
        exact h.rest (.cleanupClaim c j _) (by rw [hw]; exact ⟨rfl, rfl, rfl⟩)
          ⟨rfl, rfl, rfl⟩ hclosing
      · cases hstep
        exact h.rest (.cleanup c (j + 1)) (by rw [hw]; exact ⟨rfl, rfl, rfl⟩)
          ⟨rfl, rfl, rfl⟩ hclosing
    · cases hstep
      exact h.rest .loop (by rw [hw]; exact ⟨rfl, rfl, rfl⟩) ⟨rfl, rfl, rfl⟩ hclosing
  | cleanupClaim c j q =>
    simp only [hw] at hstep
    split at hstep
    · rename_i hpage
      cases hstep
      exact h.claimStale ht hw hpage hclosing
    · cases hstep
      exact h.rest (.cleanup c (j + 1)) (by rw [hw]; exact ⟨rfl, rfl, rfl⟩) ⟨rfl, rfl, rfl⟩ hclosing
  | cleanupOwned c j =>
    obtain ⟨hj, hslot⟩ := h.busy j (by rw [hw]; rfl)
    simp only [hw] at hstep hslot
    obtain ⟨hpage, q, hfull⟩ := hslot
    cases hstep
    rw [if_pos hfull.1]
    refine h.walk (.cleanupAddress c j) (by rw [hw]; rfl) (by rw [hw]; rfl)
      (by rw [hw]; rfl) ?_ hclosing
    rintro k hk
    cases hk
    exact ⟨hpage, q, hfull⟩
  | cleanupAddress c j =>
    obtain ⟨hj, hslot⟩ := h.busy j (by rw [hw]; rfl)
    simp only [hw] at hstep hslot
    obtain ⟨hpage, q, hfull⟩ := hslot
    obtain ⟨m, hm, -⟩ := hfull.2.2
    cases hstep
    rw [if_pos (by rw [hm]; rfl)]
    refine h.walk (.cleanupRelease c j) (by rw [hw]; rfl) (by rw [hw]; rfl)
      (by rw [hw]; rfl) ?_ hclosing
    rintro k hk
    cases hk
    exact ⟨hpage, q, hfull⟩
  | cleanupRelease c j =>
    simp only [hw] at hstep
    cases hstep
    exact h.release hw hclosing
  -- the mapping is released, and the slot counts as holding none
  | cleanupZero c j =>
    have hb : s.warmer.busy o = some j := by rw [hw]; rfl
    obtain ⟨hj, hslot⟩ := h.busy j hb
    simp only [hw] at hstep hslot
    cases hstep
    have hwas : s.slotHolds j = none := by
      rw [State.slotHolds, hw]
      exact if_pos rfl
    have hnow : State.slotHolds { s.setSlot j ({ · with address := none }) with
        warmer := .cleanupDisown c j } j = none := by
      simp [State.slotHolds, State.setSlot_self]
    refine h.warm hj ({ · with address := none }) (.cleanupDisown c j) (Or.inr hb)
      (Or.inl ⟨rfl, hslot, rfl⟩) (h.in_hand hb) hclosing (fun q m hm => (by cases hm))
      (fun j' hj' => ?_) (fun j hj => (by cases hj)) hwas hnow fun r => ?_
    · rw [hw] at hj'
      cases hj'
      rfl
    · rw [hw]
      rfl
  | cleanupDisown c j =>
    have hb : s.warmer.busy o = some j := by rw [hw]; rfl
    obtain ⟨hj, hslot⟩ := h.busy j hb
    simp only [hw] at hstep hslot
    cases hstep
    have hwas : s.slotHolds j = none := by simp [State.slotHolds, hslot.2]
    refine h.warm hj ({ · with isOwned := false }) (.cleanup c (j + 1)) (Or.inr hb)
      (Or.inr ⟨rfl, Or.inr ⟨hslot.1, rfl⟩⟩) (h.in_hand hb) hclosing (fun q m hm => (by cases hm))
      (fun j' hj' => ?_) (fun j hj => (by cases hj)) hwas (State.slotHolds_free ?_) fun r => ?_
    · rw [hw] at hj'
      cases hj'
    · rw [State.setSlot_self]
    · rw [hw]
      rfl
  | _ =>
    rw [hw] at hphase
    cases hphase

/-- **A step of the warmer keeps the invariant**, if it does not claim the slot the writer
still needs. -/
theorem Safe.warmerStep {maps : Bool} (h : Safe o s) (ht : Tally o s) (hN : 0 < o.ringSize)
    (hclear : ∀ c i w, s.warmer = .claim c i w → ∀ p, s.writer.window ≠ some (p, w % o.ringSize))
    (hstep : warmerStep o maps s = some s') : Safe o s' := by
  cases hphase : s.warmer.phase with
  | lookUp => exact h.lookUp hphase hstep
  | warming => exact h.warming ht hN hclear hphase hstep
  | publication => exact h.publication ht hphase hstep
  | cleanup => exact h.cleanup ht hphase hstep

/-- **A step of the writer keeps the invariant.** -/
theorem Safe.writerStep (h : Safe o s) (ht : Tally o s) (hN : 0 < o.ringSize)
    (hstep : writerStep o s = some s') : Safe o s' := by
  unfold WarmupRing.writerStep at hstep
  -- a pc outside the window and the destructor
  have walk : ∀ w : Writer, s.writer.addr = none → s.writer.window = none →
      (∀ k, ¬ s.writer.cleared k) → w.addr = none → w.window = none → (∀ k, ¬ w.cleared k) →
      w.Expects o s.ring → ¬ w.closing → Safe o { s with writer := w } := by
    intro w h1 h2 h3 h4 h5 h6 h7 h8
    exact h.write w (h4.trans h1.symm) (h5.trans h2.symm) h7
      (fun k _ => ⟨fun hc => absurd hc (h6 k), fun hc => absurd hc (h3 k)⟩) fun hc => absurd hc h8
  cases hw : s.writer with
  | idle | gone => simp [hw] at hstep
  | loadRead p =>
    simp only [hw] at hstep walk
    cases hstep
    exact walk (.look p s.readIndex 0) rfl rfl (fun _ hc => hc) rfl rfl (fun _ hc => hc)
      trivial fun hc => hc
  | look p startRead i =>
    simp only [hw] at hstep walk
    split at hstep
    · cases hstep
      split
      · exact walk (.claim p startRead i) rfl rfl (fun _ hc => hc) rfl rfl (fun _ hc => hc) trivial
          fun hc => hc
      · exact walk (.look p startRead (i + 1)) rfl rfl (fun _ hc => hc) rfl rfl
          (fun _ hc => hc) trivial
          fun hc => hc
    · cases hstep
      exact walk (.update p) rfl rfl (fun _ hc => hc) rfl rfl (fun _ hc => hc) trivial fun hc => hc
  -- the CAS: it wins the slot, or finds that the page has gone
  | claim p startRead i =>
    have hp := ht.request p (by rw [hw]; rfl)
    simp only [hw] at hstep walk
    split at hstep
    · rename_i hpage
      cases hstep
      exact h.take hw (by omega) hN hpage
    · cases hstep
      exact walk (.look p startRead (i + 1)) rfl rfl (fun _ hc => hc) rfl rfl
        (fun _ hc => hc) trivial
        fun hc => hc
  | readSize p idx =>
    obtain ⟨-, -, -, hfull⟩ := h.window p idx (by rw [hw]; rfl)
    simp only [hw] at hstep
    cases hstep
    refine h.write (.readAddress p idx (s.ring idx).size) (by rw [hw]; rfl)
      (by rw [hw]; rfl) hfull.2.1 (fun k _ => ?_) fun hc => (by cases hc)
    rw [hw]
    exact Iff.rfl
  | readAddress p idx sizeOut =>
    have hread := h.read
    rw [hw] at hread
    simp only [hw] at hstep
    cases hstep
    refine h.write (.disown p idx sizeOut (s.ring idx).address) (by rw [hw]; rfl) (by rw [hw]; rfl)
      ⟨hread, rfl⟩ (fun k _ => ?_) fun hc => (by cases hc)
    rw [hw]
    exact Iff.rfl
  | disown p idx sizeOut addr =>
    simp only [hw] at hstep
    cases hstep
    exact h.disown hw
  | storeRead p idx sizeOut addr =>
    simp only [hw] at hstep
    cases hstep
    exact h.answer hw _
  | update p =>
    simp only [hw] at hstep walk
    cases hstep
    exact { walk .idle rfl rfl (fun _ hc => hc) rfl rfl (fun _ hc => hc) trivial fun hc => hc with }
  | join =>
    simp only [hw] at hstep
    split at hstep
    · rename_i hexited
      cases hstep
      refine h.write (.releaseAll 0) (by rw [hw]; rfl) (by rw [hw]; rfl) trivial (fun k _ => ?_)
        fun _ => hexited
      rw [hw]
      exact ⟨fun hc => absurd hc (Nat.not_lt_zero k), fun hc => (by cases hc)⟩
    · cases hstep
  -- the warmer has exited, so no slot is in its hands
  | releaseAll i =>
    have hexited : s.warmer = .exited := h.joined (by rw [hw]; trivial)
    have hd : s.warmer.dangling ≠ some i := by
      rw [hexited]
      exact fun hd => by cases hd
    simp only [hw] at hstep
    split at hstep
    · rename_i hi
      split at hstep
      · rename_i hc
        cases hstep
        exact h.clearNext hw hi _ _ rfl fun r => by rw [State.slotHolds_owned hd hc.1]
      · rename_i hc
        cases hstep
        have howned : (s.ring i).isOwned = false := by
          have hplain := h.plain i hi (by rw [hexited]; exact fun hb => (by cases hb))
            (fun p hp => by rw [hw] at hp; cases hp) (by rw [hw]; exact Nat.lt_irrefl i)
          rcases hplain with ⟨-, hfull⟩ | ⟨-, hf⟩
          · obtain ⟨m, hm, -⟩ := hfull.2.2
            exact absurd ⟨hfull.1, by rw [hm]; rfl⟩ hc
          · exact hf
        have hnext := h.clearNext hw hi (s.ring i) [] howned fun r => by
          rw [State.slotHolds_free howned]
          rfl
        rwa [Function.update_eq_self, List.nil_append] at hnext
    · rename_i hi
      cases hstep
      refine h.write .gone (by rw [hw]; rfl) (by rw [hw]; rfl) trivial (fun k hk => ?_)
        fun _ => hexited
      rw [hw]
      exact ⟨fun _ => Nat.lt_of_lt_of_le hk (Nat.not_lt.mp hi), fun _ => trivial⟩

/-! ## Every run -/

/-- **Every move keeps the invariant**, if the ring is large enough. -/
theorem Safe.step {move : Move} (h : Safe o s) (ht : Tally o s) (hN : 0 < o.ringSize)
    (hroom : 3 * o.warmupDistance ≤ o.ringSize + 1)
    (hstep : step o move s = some s') : Safe o s' := by
  cases move with
  | rotate =>
    rw [WarmupRing.step] at hstep
    split at hstep
    · rename_i hw
      cases hstep
      refine h.write (.loadRead (s.currentPage + 1)) (by rw [hw]; rfl) (by rw [hw]; rfl) trivial
        (fun k _ => ?_) fun hc => (by cases hc)
      rw [hw]
      exact Iff.rfl
    · cases hstep
  | destruct =>
    rw [WarmupRing.step] at hstep
    split at hstep
    · rename_i hw
      cases hstep
      have hwrite := h.write .join (by rw [hw]; rfl) (by rw [hw]; rfl) trivial
        (fun k _ => (by rw [hw]; exact Iff.rfl)) fun hc => (by cases hc)
      exact { hwrite with }
    · cases hstep
  | writer => exact h.writerStep ht hN hstep
  | warmer maps =>
    exact h.warmerStep ht hN (fun c i w hw p hp => ht.clear hroom hw hp rfl) hstep

theorem Safe.start (o : Options) (first : Nat) : Safe o (start first) where
  account := by
    have hslots : placed o.ringSize (WarmupRing.start first).slotHolds = [] :=
      List.filterMap_eq_nil_iff.mpr fun _ _ => rfl
    rw [State.held, hslots]
    exact .empty
  localFile := by rintro q m hm; cases hm
  busy := by rintro k hk; cases hk
  window := by rintro p idx hp; cases hp
  plain := fun k _ _ _ _ => Or.inr ⟨rfl, rfl⟩
  read := trivial
  answers := by rintro a ha; cases ha
  cleared := by rintro k _ hc; cases hc
  joined := by rintro hc; cases hc

theorem Reaches.safe {first : Nat} (h : Reaches o first s) (hN : 0 < o.ringSize)
    (hroom : 3 * o.warmupDistance ≤ o.ringSize + 1) : Safe o s := by
  induction h with
  | start => exact .start o first
  | step hprev hstep ih => exact ih.step (hprev.tally hN) hN hroom hstep

/-- **What becomes of the ring's mappings.** -/
structure HandsOut (o : Options) (s : State) : Prop where
  /-- No two mappings that were made are taken for one. -/
  distinct : s.mapped.Nodup
  /-- A mapping is in exactly one place, or was released exactly once by the ring. -/
  once : ∀ m ∈ s.mapped, (s.held o).count m + s.released.count m = 1
  /-- Nothing else is in any place. -/
  known : ∀ m ∈ s.held o, m ∈ s.mapped
  /-- An address that `getWarmedPage(p)` returned is a mapping of page `p`. -/
  right : ∀ a ∈ s.returned, a.address.file = a.page ∧ a.size = o.pageSize
  /-- After the destructor, a mapping is the writer's, or was released. -/
  settled : s.writer = .gone → s.held o = s.returned.map Answer.address

theorem Safe.handsOut (h : Safe o s) : HandsOut o s := by
  refine ⟨h.account.distinct, fun m hm => h.account.once hm, fun m hm => h.account.made_of_held hm,
    h.answers, fun hw => ?_⟩
  have hexited : s.warmer = .exited := h.joined (by rw [hw]; trivial)
  have hslots : placed o.ringSize s.slotHolds = [] := by
    refine List.filterMap_eq_nil_iff.mpr fun k hk => State.slotHolds_free ?_
    exact h.cleared k (List.mem_range.mp hk) (by rw [hw]; trivial)
  rw [State.held, hslots, hexited, hw]
  rfl

/-- **The warm-up ring.**  If `3 * warmup_distance ≤ RingSize + 1`, each mapping is handed
out once, to the page it is of, whatever the order of the two threads' steps and
whichever mappings fail. -/
theorem ring_hands_out_once (o : Options) (first : Nat) (s : State) (hN : 0 < o.ringSize)
    (hroom : 3 * o.warmupDistance ≤ o.ringSize + 1) (h : Reaches o first s) : HandsOut o s :=
  (h.safe hN hroom).handsOut

/-- Moves, each so many times. -/
def moves (parts : List (Nat × Move)) : List Move :=
  parts.flatMap fun part => List.replicate part.1 part.2

/-- The default ring at distance 5: the warmer maps pages 2 to 6, the writer takes page 2
meanwhile, and the destructor releases the rest. -/
theorem ring_hands_out_once_five :
    ∃ s, run ⟨16, 5, 2097152⟩ (moves [(1, .writer), (60, .warmer true), (1, .rotate), (8, .writer),
        (1, .destruct), (87, .warmer true), (18, .writer)]) (start 1) = some s ∧
      s.writer = .gone ∧ HandsOut ⟨16, 5, 2097152⟩ s := by
  have h :
      (run ⟨16, 5, 2097152⟩ (moves [(1, .writer), (60, .warmer true), (1, .rotate), (8, .writer),
      (1, .destruct), (87, .warmer true), (18, .writer)]) (start 1)).map State.writer =
      some .gone := by
    decide +kernel
  obtain ⟨s, hrun, hs⟩ := Option.map_eq_some_iff.mp h
  exact ⟨s, hrun, hs, ring_hands_out_once _ 1 s (by decide) (by decide) (Reaches.start.run hrun)⟩

/-- The default ring at distance 8.  Pages 2 to 8 fail at first, so page 9 is warmed before
them; the writer takes pages 2 to 8 behind the warmer's back, which warms them once more;
then the warmer waits for slot 0 with page 11. -/
def overtaken : List Move :=
  moves ([(1, .writer), (170, .warmer false), (220, .warmer true), (1, .rotate), (9, .writer)] ++
    (List.replicate 6 [(1, Move.rotate), (8, .writer)]).flatten ++
    [(239, .warmer true), (1, .rotate), (11, .writer), (3, .warmer true), (5, .writer)])

/-- There, `getWarmedPage(9)` returns a mapping of page 11, and the mapping of page 9 is
lost. -/
theorem ring_hands_out_wrong :
    ∃ s, Reaches ⟨16, 8, 2097152⟩ 1 s ∧ s.returned.head? = some ⟨9, ⟨16, 11⟩, 2097152⟩ ∧
      ⟨0, 9⟩ ∈ s.mapped ∧ (s.held ⟨16, 8, 2097152⟩).count ⟨0, 9⟩ + s.released.count ⟨0, 9⟩ = 0 := by
  have h : (run ⟨16, 8, 2097152⟩ overtaken (start 1)).map (fun s => (s.returned.head?,
      decide (⟨0, 9⟩ ∈ s.mapped), (s.held ⟨16, 8, 2097152⟩).count ⟨0, 9⟩ +
        s.released.count ⟨0, 9⟩)) =
      some (some ⟨9, ⟨16, 11⟩, 2097152⟩, true, 0) := by
    decide +kernel
  obtain ⟨s, hrun, hs⟩ := Option.map_eq_some_iff.mp h
  simp only [Prod.mk.injEq, decide_eq_true_eq] at hs
  exact ⟨s, Reaches.start.run hrun, hs⟩

end Revoq.WarmupRing
