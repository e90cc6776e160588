import Revoq.RingTally

/-! # Every step keeps the tally

The steps of the two threads, one by one.  Most of them only move a program counter;
those that change the tally are `Tally.map`, `Tally.publish`, `Tally.advance` and
`Tally.setPage`.
-/
namespace Revoq.WarmupRing

variable {o : Options} {s s' : State}

/-- The warmer goes on without a snapshot. -/
theorem Tally.boot (h : Tally o s) (w : Warmer) (hrest : w.Resting) (hnone : w.seen = none)
    (hpub : s.warmer.publishing = none) (huncounted : s.warmer.uncounted = 0) :
    Tally o { s with warmer := w } := by
  refine h.rest w hpub huncounted hrest ?_ ?_
  · intro c hc
    rw [hnone] at hc
    cases hc
  · rintro c j q rfl
    cases hnone

/-- The warmer goes on in `cleanupOldPages`. -/
theorem Tally.clean (h : Tally o s) (w : Warmer) {c : Int} (hrest : w.Resting)
    (hwc : w.seen = some c) (hc : s.warmer.seen = some c) (hpub : s.warmer.publishing = none)
    (huncounted : s.warmer.uncounted = 0) (hne : ∀ j q, w ≠ .cleanupClaim c j q) :
    Tally o { s with warmer := w } := by
  refine h.rest w hpub huncounted hrest ?_ ?_
  · intro c' hc'
    rw [hwc] at hc'
    cases hc'
    exact h.seen_ahead hc
  · rintro c' j q rfl
    cases hwc
    exact absurd rfl (hne j q)

/-- The search for a page that is not in the ring. -/
theorem Tally.lookUp {maps : Bool} (h : Tally o s) (hphase : s.warmer.phase = .lookUp)
    (hstep : warmerStep o maps s = some s') : Tally o s' := by
  unfold WarmupRing.warmerStep at hstep
  cases hw : s.warmer with
  | bootRunning =>
    simp only [hw] at hstep
    cases hstep
    split
    · exact h.boot .bootCurrent ⟨rfl, rfl, rfl, rfl, rfl⟩ rfl (by rw [hw]; rfl) (by rw [hw]; rfl)
    · exact h.boot .loop ⟨rfl, rfl, rfl, rfl, rfl⟩ rfl (by rw [hw]; rfl) (by rw [hw]; rfl)
  | bootCurrent =>
    simp only [hw] at hstep
    cases hstep
    split
    · exact h.boot .loop ⟨rfl, rfl, rfl, rfl, rfl⟩ rfl (by rw [hw]; rfl) (by rw [hw]; rfl)
    · exact h.boot .bootRunning ⟨rfl, rfl, rfl, rfl, rfl⟩ rfl (by rw [hw]; rfl) (by rw [hw]; rfl)
  | loop =>
    simp only [hw] at hstep
    cases hstep
    split
    · exact h.boot .snapshot ⟨rfl, rfl, rfl, rfl, rfl⟩ rfl (by rw [hw]; rfl) (by rw [hw]; rfl)
    · exact h.boot .exited ⟨rfl, rfl, rfl, rfl, rfl⟩ rfl (by rw [hw]; rfl) (by rw [hw]; rfl)
  | snapshot =>
    simp only [hw] at hstep
    cases hstep
    split
    · exact h.boot .loop ⟨rfl, rfl, rfl, rfl, rfl⟩ rfl (by rw [hw]; rfl) (by rw [hw]; rfl)
    · rename_i hge
      exact h.turn (Nat.le_refl 1) (by rw [hw]; rfl) (by rw [hw]; rfl)
        ⟨⟨Int.not_lt.mp hge, Int.le_refl _⟩, h.ahead_current⟩
  -- the slots passed so far do not hold the page
  | scan c i j =>
    have hmiss := h.missing (c + i) j (by rw [hw]; rfl)
    simp only [hw] at hstep
    split at hstep
    · cases hstep
      split
      · exact h.turn (by omega) (by rw [hw]; rfl) (by rw [hw]; rfl) (h.seen_ahead (by rw [hw]; rfl))
      · rename_i hne
        refine h.pursue (.scan c i (j + 1)) (by rw [hw]; rfl) rfl (by rw [hw]; rfl)
          (by rw [hw]; rfl) (by rw [hw]; rfl) ?_ ?_ ?_
        · rintro x hx
          cases hx
        · rintro x hx
          cases hx
        · rintro q n hq k hk
          cases hq
          rcases Nat.lt_succ_iff_lt_or_eq.mp hk with hk | rfl
          · exact hmiss k hk
          · exact hne
    · rename_i hj
      cases hstep
      refine h.pursue (.index c i) (by rw [hw]; rfl) rfl (by rw [hw]; rfl) (by rw [hw]; rfl)
        (by rw [hw]; rfl) ?_ ?_ ?_
      · rintro x hx
        cases hx
      · rintro x hx
        cases hx
      · rintro q n hq k hk
        cases hq
        exact hmiss k (by omega)
  -- the scan has passed every slot, and none holds the page
  | index c i =>
    have hmiss := h.missing (c + i) o.ringSize (by rw [hw]; rfl)
    simp only [hw] at hstep
    cases hstep
    refine h.pursue (.claim c i s.writeIndex) (by rw [hw]; rfl) rfl (by rw [hw]; rfl)
      (by rw [hw]; rfl) (by rw [hw]; rfl) ?_ ?_ ?_
    · rintro x hx
      cases hx
      rfl
    · rintro x hx
      cases hx
    · rintro q n hq
      cases hq
      exact hmiss
  | exited => simp [hw] at hstep
  | _ =>
    rw [hw] at hphase
    cases hphase

/-- The claim of a slot, and the mapping. -/
theorem Tally.warming {maps : Bool} (h : Tally o s) (hphase : s.warmer.phase = .warming)
    (hstep : warmerStep o maps s = some s') : Tally o s' := by
  unfold WarmupRing.warmerStep at hstep
  cases hw : s.warmer with
  -- an empty slot is marked: no page is lost by the store
  | claim c i w =>
    have hmiss := h.missing (c + i) o.ringSize (by rw [hw]; rfl)
    simp only [hw] at hstep
    split at hstep
    · rename_i hempty
      cases hstep
      have hset := h.setPage (w % o.ringSize) (-2) (by decide)
        (fun _ _ _ => rfl) fun q hq hk => by omega
      refine hset.pursue (.map c i w) (by rw [State.setSlot, hw]; rfl) rfl
        (by rw [State.setSlot, hw]; rfl)
        (by rw [State.setSlot, hw]; rfl) (by rw [State.setSlot, hw]; rfl) ?_ ?_ ?_
      · rintro x hx
        cases hx
        exact h.loaded w (by rw [hw]; rfl)
      · rintro x hx
        cases hx
        simp only [State.setSlot, Function.update_self]
      · rintro q n hq
        cases hq
        exact hset.missing (c + i) o.ringSize (by rw [State.setSlot, hw]; rfl)
    · cases hstep
      exact h.turn (by omega) (by rw [hw]; rfl) (by rw [hw]; rfl) (h.seen_ahead (by rw [hw]; rfl))
  | map c i w =>
    simp only [hw] at hstep
    split at hstep
    · cases hstep
      exact h.map hw
    · cases hstep
      refine h.pursue (.giveUp c i w) (by rw [hw]; rfl) rfl (by rw [hw]; rfl) (by rw [hw]; rfl)
        (by rw [hw]; rfl) ?_ ?_ ?_
      · rintro x hx
        exact h.loaded x (by rw [hw]; exact hx)
      · rintro x hx
        exact h.claimed x (by rw [hw]; exact hx)
      · rintro q n hq
        exact h.missing q n (by rw [hw]; exact hq)
  -- the slot holds the mark of the claim, so no page is lost by the store
  | giveUp c i w =>
    have hclaimed := h.claimed w (by rw [hw]; rfl)
    have hturn := h.turn (c := c) (i := i + 1) (by omega) (by rw [hw]; rfl) (by rw [hw]; rfl)
      (h.seen_ahead (by rw [hw]; rfl))
    simp only [hw] at hstep
    cases hstep
    refine hturn.setPage (w % o.ringSize) (-1) (by decide) (fun x hx => ?_) fun q hq hk => ?_
    · rw [Options.turn_claimed] at hx
      cases hx
    · have : (s.ring (w % o.ringSize)).pageId = q := hk
      omega
  | _ =>
    rw [hw] at hphase
    cases hphase

/-- The stores behind a mapping. -/
theorem Tally.publication {maps : Bool} (h : Tally o s) (hN : 0 < o.ringSize)
    (hphase : s.warmer.phase = .publication) (hstep : warmerStep o maps s = some s') :
    Tally o s' := by
  unfold WarmupRing.warmerStep at hstep
  cases hw : s.warmer with
  | storeAddress c i w addr =>
    simp only [hw] at hstep
    cases hstep
    have hgo := h.pursue (.storeSize c i w addr) (by rw [hw]; rfl) rfl (by rw [hw]; rfl)
      (by rw [hw]; rfl) (by rw [hw]; rfl) (fun x hx => h.loaded x (by rw [hw]; exact hx))
      (fun x hx => h.claimed x (by rw [hw]; exact hx)) fun q n hq => by cases hq
    exact hgo.reslot (w % o.ringSize) ({ · with address := some addr }) fun _ => rfl
  | storeSize c i w addr =>
    simp only [hw] at hstep
    cases hstep
    have hgo := h.pursue (.storeOwned c i w addr) (by rw [hw]; rfl) rfl (by rw [hw]; rfl)
      (by rw [hw]; rfl) (by rw [hw]; rfl) (fun x hx => h.loaded x (by rw [hw]; exact hx))
      (fun x hx => h.claimed x (by rw [hw]; exact hx)) fun q n hq => by cases hq
    exact hgo.reslot (w % o.ringSize) ({ · with size := o.pageSize }) fun _ => rfl
  | storeOwned c i w addr =>
    simp only [hw] at hstep
    cases hstep
    have hgo := h.pursue (.storePageId c i w) (by rw [hw]; rfl) rfl (by rw [hw]; rfl)
      (by rw [hw]; rfl) (by rw [hw]; rfl) (fun x hx => h.loaded x (by rw [hw]; exact hx))
      (fun x hx => h.claimed x (by rw [hw]; exact hx)) fun q n hq => by cases hq
    exact hgo.reslot (w % o.ringSize) ({ · with isOwned := true }) fun _ => rfl
  | storePageId c i w =>
    simp only [hw] at hstep
    cases hstep
    exact h.publish hN hw
  | fetchAdd c i =>
    simp only [hw] at hstep
    cases hstep
    have hadv := h.advance hw
    exact hadv.turn (by omega) rfl rfl (hadv.seen_ahead rfl)
  | _ =>
    rw [hw] at hphase
    cases hphase

/-- `cleanupOldPages`. -/
theorem Tally.cleanup {maps : Bool} (h : Tally o s) (hphase : s.warmer.phase = .cleanup)
    (hstep : warmerStep o maps s = some s') : Tally o s' := by
  unfold WarmupRing.warmerStep at hstep
  cases hw : s.warmer with
  | cleanup c j =>
    simp only [hw] at hstep
    split at hstep
    · rename_i hj
      split at hstep
      · rename_i hold
        cases hstep
        refine h.rest _ (by rw [hw]; rfl) (by rw [hw]; rfl) ⟨rfl, rfl, rfl, rfl, rfl⟩ ?_ ?_
        · rintro c' hc'
          cases hc'
          exact h.seen_ahead (by rw [hw]; rfl)
        · rintro c' j' q hq
          cases hq
          exact ⟨hold, hj⟩
      · cases hstep
        exact h.clean (.cleanup c (j + 1)) ⟨rfl, rfl, rfl, rfl, rfl⟩ rfl
          (by rw [hw]; rfl) (by rw [hw]; rfl) (by rw [hw]; rfl) (by simp)
    · cases hstep
      exact h.boot .loop ⟨rfl, rfl, rfl, rfl, rfl⟩ rfl (by rw [hw]; rfl) (by rw [hw]; rfl)
  -- a stale page lies behind the pages taken, so its slot may be emptied
  | cleanupClaim c j q =>
    obtain ⟨hstale, -⟩ := h.stale c j q hw
    have hseen := h.seen c (by rw [hw]; rfl)
    have htaken := h.current_le_taken
    simp only [hw] at hstep
    split at hstep
    · rename_i hq
      cases hstep
      have hclean := h.clean (.cleanupOwned c j) ⟨rfl, rfl, rfl, rfl, rfl⟩ rfl
        (by rw [hw]; rfl) (by rw [hw]; rfl) (by rw [hw]; rfl) (by simp)
      refine hclean.setPage j (-1) (by decide) (fun x hx => (by cases hx)) fun q' _ hk => ?_
      have hqq : q' = q := hk.symm.trans hq
      have hle : q' ≤ s.taken := by omega
      refine ⟨hle, fun hge => ?_⟩
      have : s.currentPage - o.ringSize ≤ q' := hge
      omega
    · cases hstep
      exact h.clean (.cleanup c (j + 1)) ⟨rfl, rfl, rfl, rfl, rfl⟩ rfl
        (by rw [hw]; rfl) (by rw [hw]; rfl) (by rw [hw]; rfl) (by simp)
  | cleanupOwned c j =>
    simp only [hw] at hstep
    cases hstep
    split
    · exact h.clean (.cleanupAddress c j) ⟨rfl, rfl, rfl, rfl, rfl⟩ rfl
        (by rw [hw]; rfl) (by rw [hw]; rfl) (by rw [hw]; rfl) (by simp)
    · exact h.clean (.cleanup c (j + 1)) ⟨rfl, rfl, rfl, rfl, rfl⟩ rfl
        (by rw [hw]; rfl) (by rw [hw]; rfl) (by rw [hw]; rfl) (by simp)
  | cleanupAddress c j =>
    simp only [hw] at hstep
    cases hstep
    split
    · exact h.clean (.cleanupRelease c j) ⟨rfl, rfl, rfl, rfl, rfl⟩ rfl
        (by rw [hw]; rfl) (by rw [hw]; rfl) (by rw [hw]; rfl) (by simp)
    · exact h.clean (.cleanup c (j + 1)) ⟨rfl, rfl, rfl, rfl, rfl⟩ rfl
        (by rw [hw]; rfl) (by rw [hw]; rfl) (by rw [hw]; rfl) (by simp)
  | cleanupRelease c j =>
    simp only [hw] at hstep
    cases hstep
    have hclean := h.clean (.cleanupZero c j) ⟨rfl, rfl, rfl, rfl, rfl⟩ rfl
      (by rw [hw]; rfl) (by rw [hw]; rfl) (by rw [hw]; rfl) (by simp)
    exact { hclean with }
  | cleanupZero c j =>
    simp only [hw] at hstep
    cases hstep
    have hclean := h.clean (.cleanupDisown c j) ⟨rfl, rfl, rfl, rfl, rfl⟩ rfl
      (by rw [hw]; rfl) (by rw [hw]; rfl) (by rw [hw]; rfl) (by simp)
    exact hclean.reslot j ({ · with address := none }) fun _ => rfl
  | cleanupDisown c j =>
    simp only [hw] at hstep
    cases hstep
    have hclean := h.clean (.cleanup c (j + 1)) ⟨rfl, rfl, rfl, rfl, rfl⟩ rfl
      (by rw [hw]; rfl) (by rw [hw]; rfl) (by rw [hw]; rfl) (by simp)
    exact hclean.reslot j ({ · with isOwned := false }) fun _ => rfl
  | _ =>
    rw [hw] at hphase
    cases hphase

/-- **A step of the warmer keeps the tally.** -/
theorem Tally.warmerStep {maps : Bool} (h : Tally o s) (hN : 0 < o.ringSize)
    (hstep : warmerStep o maps s = some s') : Tally o s' := by
  cases hphase : s.warmer.phase with
  | lookUp => exact h.lookUp hphase hstep
  | warming => exact h.warming hphase hstep
  | publication => exact h.publication hN hphase hstep
  | cleanup => exact h.cleanup hphase hstep

/-- The writer goes on with its request. -/
theorem Tally.ask (h : Tally o s) (w : Writer) {p : Int}
    (hp : p = s.currentPage + 1 ∧ 0 ≤ s.currentPage) (hrequest : w.request = some p)
    (hwindow : ∀ q idx, w.window = some (q, idx) →
      ∃ m ∈ s.mapped, m.file = q ∧ m.serial % o.ringSize = idx)
    (htaken : s.taken ≤ State.taken { s with writer := w }) : Tally o { s with writer := w } := by
  refine h.write w ?_ ?_ ?_ hwindow htaken
  · rintro rfl
    cases hrequest
  · intro q hq
    cases hrequest.symm.trans hq
    exact hp
  · rintro q rfl
    cases hrequest

/-- The writer leaves for the destructor, or goes on there. -/
theorem Tally.leave (h : Tally o s) (w : Writer) (hrequest : w.request = none)
    (hwindow : w.window = none) (hidle : w ≠ .idle) (hupdate : ∀ p, w ≠ .update p)
    (htaken : s.taken = s.currentPage) : Tally o { s with writer := w } := by
  refine h.write w (fun hw => absurd hw hidle) ?_ (fun p hw => absurd hw (hupdate p)) ?_ ?_
  · intro p hp
    rw [hrequest] at hp
    cases hp
  · intro p idx hp
    rw [hwindow] at hp
    cases hp
  · rw [htaken]
    show s.currentPage ≤ w.taken s.currentPage
    cases w with
    | readSize | readAddress | disown | storeRead => cases hrequest
    | update p => exact absurd rfl (hupdate p)
    | _ => exact Int.le_refl _

/-- `updateCurrentPage`. -/
theorem Tally.settle (h : Tally o s) {p : Int} (hw : s.writer = .update p) :
    Tally o { s with writer := .idle, currentPage := p } := by
  obtain ⟨hle, hpos⟩ := h.update p hw
  have htaken : s.taken = p := by rw [State.taken, hw]; rfl
  exact { h with
    seen := fun c hc => ⟨(h.seen c hc).1, Int.le_trans (h.seen c hc).2 hle⟩
    ahead := by
      intro q hq
      have hq := h.ahead q hq
      show q ≤ s.warmer.seen.getD p + o.warmupDistance
      cases hseen : s.warmer.seen with
      | none =>
        rw [hseen] at hq
        simp only [Option.getD_none] at hq ⊢
        omega
      | some c =>
        rw [hseen] at hq
        exact hq
    settled := fun _ => hpos
    request := by rintro q hq; cases hq
    update := by rintro q hq; cases hq
    window := by rintro q idx hq; cases hq
    once := fun q hq => h.once q (htaken ▸ hq)
    twice := by
      intro q hq
      have : p - o.ringSize ≤ q := hq
      exact h.twice q (by omega) }

/-- The writer wins the slot of the page it asks for: it was the only one to hold it. -/
theorem Tally.take (h : Tally o s) (hN : 0 < o.ringSize) {p : Int} {startRead i : Nat}
    (hw : s.writer = .claim p startRead i)
    (hpage : (s.ring ((startRead + i) % o.ringSize)).pageId = p) :
    Tally o { s.setSlot ((startRead + i) % o.ringSize) ({ · with pageId := -1 }) with
      writer := .readSize p ((startRead + i) % o.ringSize) } := by
  have htaken := h.current_le_taken
  have hp := h.request p (by rw [hw]; rfl)
  have hsame : s.taken = s.currentPage := by rw [State.taken, hw]; rfl
  have hone := (h.once p (by omega)).1
  obtain ⟨m, hm, hfile, hserial⟩ := h.slots _ (Nat.mod_lt (startRead + i) hN) (by omega)
  have hask := h.ask (.readSize p ((startRead + i) % o.ringSize)) hp rfl ?_ ?_
  · refine hask.setPage ((startRead + i) % o.ringSize) (-1) (by decide) (fun w hclaim hk => ?_)
      fun q hq hk => ?_
    · have := h.claimed w hclaim
      rw [hk, hpage] at this
      omega
    · cases hk.symm.trans hpage
      refine ⟨Int.le_refl _, fun _ hc => ?_⟩
      have : s.files.count p = 2 := hc
      omega
  · rintro q idx hq
    cases hq
    exact ⟨m, hm, hfile.trans hpage, hserial⟩
  · rw [hsame]
    show s.currentPage ≤ p
    omega

/-- **A step of the writer keeps the tally.** -/
theorem Tally.writerStep (h : Tally o s) (hN : 0 < o.ringSize) (hstep : writerStep o s = some s') :
    Tally o s' := by
  unfold WarmupRing.writerStep at hstep
  have htaken := h.current_le_taken
  rw [State.taken] at htaken
  cases hw : s.writer with
  | idle | gone => simp [hw] at hstep
  | loadRead p =>
    simp only [hw] at hstep
    cases hstep
    refine h.ask (.look p s.readIndex 0) (h.request p (by rw [hw]; rfl)) rfl
      (fun q idx hq => by cases hq) ?_
    rw [State.taken, hw]
    exact Int.le_refl _
  -- the writer asks for one page all the time that it looks
  | look p startRead i =>
    have hp := h.request p (by rw [hw]; rfl)
    have hsame : s.taken = s.currentPage := by rw [State.taken, hw]; rfl
    simp only [hw] at hstep
    split at hstep
    · cases hstep
      split
      · exact h.ask (.claim p startRead i) hp rfl (fun q idx hq => (by cases hq))
          (Int.le_of_eq hsame)
      · exact h.ask (.look p startRead (i + 1)) hp rfl (fun q idx hq => (by cases hq))
          (Int.le_of_eq hsame)
    · cases hstep
      refine h.write (.update p) (fun hq => (by cases hq)) (fun q hq => (by cases hq)) ?_
        (fun q idx hq => (by cases hq)) ?_
      · rintro q hq
        cases hq
        omega
      · rw [hsame]
        show s.currentPage ≤ p
        omega
  | claim p startRead i =>
    have hp := h.request p (by rw [hw]; rfl)
    have hsame : s.taken = s.currentPage := by rw [State.taken, hw]; rfl
    simp only [hw] at hstep
    split at hstep
    · rename_i hpage
      cases hstep
      exact h.take hN hw hpage
    · cases hstep
      exact h.ask (.look p startRead (i + 1)) hp rfl (fun q idx hq => (by cases hq))
        (Int.le_of_eq hsame)
  | readSize p idx =>
    simp only [hw] at hstep
    cases hstep
    refine h.ask (.readAddress p idx (s.ring idx).size) (h.request p (by rw [hw]; rfl)) rfl ?_ ?_
    · exact fun q k hq => h.window q k (by rw [hw]; exact hq)
    · rw [State.taken, hw]
      exact Int.le_refl _
  | readAddress p idx sizeOut =>
    simp only [hw] at hstep
    cases hstep
    refine h.ask (.disown p idx sizeOut (s.ring idx).address)
      (h.request p (by rw [hw]; rfl)) rfl ?_ ?_
    · exact fun q k hq => h.window q k (by rw [hw]; exact hq)
    · rw [State.taken, hw]
      exact Int.le_refl _
  | disown p idx sizeOut addr =>
    simp only [hw] at hstep
    cases hstep
    have hask := h.ask (.storeRead p idx sizeOut addr) (h.request p (by rw [hw]; rfl)) rfl ?_ ?_
    · exact hask.reslot idx ({ · with isOwned := false }) fun _ => rfl
    · exact fun q k hq => by cases hq
    · rw [State.taken, hw]
      exact Int.le_refl _
  -- `read_index` is no part of the tally
  | storeRead p idx sizeOut addr =>
    have hp := h.request p (by rw [hw]; rfl)
    simp only [hw] at hstep
    cases hstep
    have hwrite := h.write (.update p) (fun hq => (by cases hq)) (fun q hq => (by cases hq)) ?_
      (fun q idx hq => (by cases hq)) ?_
    · exact { hwrite with }
    · rintro q hq
      cases hq
      omega
    · rw [State.taken, hw]
      exact Int.le_refl _
  | update p =>
    simp only [hw] at hstep
    cases hstep
    exact h.settle hw
  | join =>
    have hsame : s.taken = s.currentPage := by rw [State.taken, hw]; rfl
    simp only [hw] at hstep
    split at hstep
    · cases hstep
      exact h.leave (.releaseAll 0) rfl rfl (fun hq => (by cases hq))
        (fun p hq => (by cases hq)) hsame
    · cases hstep
  | releaseAll i =>
    have hsame : s.taken = s.currentPage := by rw [State.taken, hw]; rfl
    have hnext := h.leave (.releaseAll (i + 1)) rfl rfl (fun hq => (by cases hq))
      (fun p hq => (by cases hq)) hsame
    simp only [hw] at hstep
    split at hstep
    · split at hstep
      · cases hstep
        have hslot := hnext.reslot i ({ · with address := none, isOwned := false }) fun _ => rfl
        exact { hslot with }
      · cases hstep
        exact hnext
    · cases hstep
      exact h.leave .gone rfl rfl (fun hq => (by cases hq)) (fun p hq => (by cases hq)) hsame

/-- **Every move keeps the tally.** -/
theorem Tally.step {move : Move} (h : Tally o s) (hN : 0 < o.ringSize)
    (hstep : step o move s = some s') : Tally o s' := by
  cases move with
  | rotate =>
    rw [WarmupRing.step] at hstep
    split at hstep
    · rename_i hw
      cases hstep
      refine h.ask (.loadRead (s.currentPage + 1)) ⟨rfl, h.settled hw⟩ rfl
        (fun q idx hq => (by cases hq)) ?_
      rw [State.taken, hw]
      exact Int.le_refl _
    · cases hstep
  | destruct =>
    rw [WarmupRing.step] at hstep
    split at hstep
    · rename_i hw
      cases hstep
      have hsame : s.taken = s.currentPage := by rw [State.taken, hw]; rfl
      exact { h.leave .join rfl rfl (fun hq => (by cases hq)) (fun p hq => (by cases hq)) hsame with
        }
    · cases hstep
  | writer => exact h.writerStep hN hstep
  | warmer maps => exact h.warmerStep hN hstep

theorem Tally.start (o : Options) (first : Nat) : Tally o (start first) where
  numbered := trivial
  index := rfl
  loaded := by rintro w hw; cases hw
  seen := by rintro c hc; cases hc
  distance := by rintro c i hi; cases hi
  claimed := by rintro w hw; cases hw
  stale := by rintro c j q hq; cases hq
  latest := by rintro q hq; cases hq
  ahead := by rintro q hq; cases hq
  positive := by rintro q hq; cases hq
  order := .nil
  missing := by rintro q n hq; cases hq
  slots := by
    intro k _ hpos
    have : (0 : Int) ≤ -1 := hpos
    omega
  settled := by rintro hw; cases hw
  request := by rintro p hp; cases hp
  update := by
    rintro p hp
    cases hp
    show (-1 : Int) ≤ first ∧ (0 : Int) ≤ first
    omega
  window := by rintro p idx hp; cases hp
  once := fun q _ => ⟨Nat.zero_le _, fun hc => (by cases hc)⟩
  twice := fun q _ => ⟨Nat.zero_le _, fun hc => (by cases hc)⟩

theorem Reaches.tally {first : Nat} (h : Reaches o first s) (hN : 0 < o.ringSize) : Tally o s := by
  induction h with
  | start => exact .start o first
  | step _ hstep ih => exact ih.step hN hstep

end Revoq.WarmupRing
