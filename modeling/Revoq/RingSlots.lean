import Revoq.RingTally

/-! # The slots of the ring

A slot is in somebody's hands: the warmer's between its claim and the publication or
the end of a cleanup, the writer's between its claim and the store of `is_owned`.  What
such a slot looks like follows from where its holder is; every other slot is full or
empty (`Plain`).  That nobody writes into the writer's slot is the one thing the slots
cannot say, and is taken from the tally.
-/
namespace Revoq.WarmupRing
open Custody

/-! ## Who holds a mapping -/

/-- The mapping the warmer has only in a variable, with its page. -/
def Warmer.addr : Warmer → Option (Int × Mapping)
  | .storeAddress c i _ m | .storeSize c i _ m | .storeOwned c i _ m => some (c + i, m)
  | _ => none

/-- The slot whose mapping the warmer has released and not yet forgotten. -/
def Warmer.dangling : Warmer → Option Nat
  | .cleanupZero _ j => some j
  | _ => none

/-- The mapping the writer has only in a variable. -/
def Writer.addr : Writer → Option Mapping
  | .storeRead _ _ _ addr => addr
  | _ => none

/-- The mapping a slot holds for the ring: what the destructor would release. -/
def State.slotHolds (s : State) (k : Nat) : Option Mapping :=
  if s.warmer.dangling = some k then none
  else if (s.ring k).isOwned then (s.ring k).address else none

/-- **Every place a mapping is held in**: the warmer's local address, the slots, the
writer's local address, and what was returned to the writer. -/
def State.held (o : Options) (s : State) : List Mapping :=
  (s.warmer.addr.map Prod.snd).toList ++ placed o.ringSize s.slotHolds ++ s.writer.addr.toList ++
    s.returned.map Answer.address

/-! ## What the slots look like -/

/-- The slot holds a mapping of page `q`. -/
def Full (o : Options) (q : Int) (slot : PageSlot) : Prop :=
  slot.isOwned = true ∧ slot.size = o.pageSize ∧ ∃ m, slot.address = some m ∧ m.file = q

/-- A slot in nobody's hands. -/
def Plain (o : Options) (slot : PageSlot) : Prop :=
  (0 ≤ slot.pageId ∧ Full o slot.pageId slot) ∨ (slot.pageId = -1 ∧ slot.isOwned = false)

/-- The slot in the warmer's hands. -/
def Warmer.busy (o : Options) : Warmer → Option Nat
  | .map _ _ w | .giveUp _ _ w | .storeAddress _ _ w _ | .storeSize _ _ w _ | .storeOwned _ _ w _
  | .storePageId _ _ w => some (w % o.ringSize)
  | .cleanupOwned _ j | .cleanupAddress _ j | .cleanupRelease _ j | .cleanupZero _ j
  | .cleanupDisown _ j => some j
  | _ => none

/-- What the slot in the warmer's hands looks like. -/
def Warmer.Expects (o : Options) (slot : PageSlot) : Warmer → Prop
  | .map .. | .giveUp .. | .storeAddress .. => slot.pageId = -2 ∧ slot.isOwned = false
  | .storeSize _ _ _ m => slot.pageId = -2 ∧ slot.isOwned = false ∧ slot.address = some m
  | .storeOwned _ _ _ m =>
      slot.pageId = -2 ∧ slot.isOwned = false ∧ slot.address = some m ∧ slot.size = o.pageSize
  | .storePageId c i _ => slot.pageId = -2 ∧ Full o (c + i) slot
  | .cleanupOwned .. | .cleanupAddress .. | .cleanupRelease .. =>
      slot.pageId = -1 ∧ ∃ q, Full o q slot
  | .cleanupZero .. => slot.pageId = -1
  | .cleanupDisown .. => slot.pageId = -1 ∧ slot.address = none
  | _ => True

/-- What the writer has read. -/
def Writer.Expects (o : Options) (ring : Nat → PageSlot) : Writer → Prop
  | .readAddress _ _ sizeOut => sizeOut = o.pageSize
  | .disown _ idx sizeOut addr => sizeOut = o.pageSize ∧ addr = (ring idx).address
  | .storeRead p _ sizeOut addr => sizeOut = o.pageSize ∧ ∃ m, addr = some m ∧ m.file = p
  | _ => True

/-- The slot was seen by `releaseAllPages`. -/
def Writer.cleared (k : Nat) : Writer → Prop
  | .releaseAll i => k < i
  | .gone => True
  | _ => False

/-- `releaseAllPages` is running or over. -/
def Writer.closing : Writer → Prop
  | .releaseAll _ | .gone => True
  | _ => False

/-- **The invariant of the ring.** -/
structure Safe (o : Options) (s : State) : Prop where
  account : Account s.mapped (s.held o) s.released
  localFile : ∀ q m, s.warmer.addr = some (q, m) → m.file = q
  busy : ∀ k, s.warmer.busy o = some k → k < o.ringSize ∧ s.warmer.Expects o (s.ring k)
  window : ∀ p idx, s.writer.window = some (p, idx) →
    idx < o.ringSize ∧ s.warmer.busy o ≠ some idx ∧ (s.ring idx).pageId = -1 ∧ Full o p (s.ring idx)
  plain : ∀ k, k < o.ringSize → s.warmer.busy o ≠ some k → (∀ p, s.writer.window ≠ some (p, k)) →
    ¬ s.writer.cleared k → Plain o (s.ring k)
  read : s.writer.Expects o s.ring
  answers : ∀ a ∈ s.returned, a.address.file = a.page ∧ a.size = o.pageSize
  cleared : ∀ k, k < o.ringSize → s.writer.cleared k → (s.ring k).isOwned = false
  joined : s.writer.closing → s.warmer = .exited

variable {o : Options} {s s' : State}

theorem State.count_held (o : Options) (s : State) (r : Mapping) :
    (s.held o).count r = (s.warmer.addr.map Prod.snd).toList.count r +
      (placed o.ringSize s.slotHolds).count r + s.writer.addr.toList.count r +
      (s.returned.map Answer.address).count r := by
  rw [State.held, List.count_append, List.count_append, List.count_append]

/-! ## What keeps the invariant -/

theorem Writer.closing_of_cleared {w : Writer} {k : Nat} (h : w.cleared k) : w.closing := by
  cases w with
  | releaseAll | gone => trivial
  | _ => cases h

theorem Writer.Expects.congr {ring ring' : Nat → PageSlot} {w : Writer} (h : w.Expects o ring)
    (hsame : ∀ p idx, w.window = some (p, idx) → ring' idx = ring idx) : w.Expects o ring' := by
  cases w with
  | disown p idx sizeOut addr =>
    obtain ⟨hsize, haddr⟩ := h
    exact ⟨hsize, by rw [hsame p idx rfl]; exact haddr⟩
  | readAddress | storeRead => exact h
  | _ => trivial

/-- The warmer walks on without touching the ring. -/
theorem Safe.walk (h : Safe o s) (w : Warmer) (haddr : w.addr = s.warmer.addr)
    (hdangling : w.dangling = s.warmer.dangling) (hbusy : w.busy o = s.warmer.busy o)
    (hexpects : ∀ k, w.busy o = some k → w.Expects o (s.ring k)) (hclosing : ¬ s.writer.closing) :
    Safe o { s with warmer := w } := by
  have hslots : State.slotHolds { s with warmer := w } = s.slotHolds := by
    funext k
    simp only [State.slotHolds, hdangling]
  refine { h with
    account := h.account.move fun r => ?_
    localFile := fun q m hm => h.localFile q m (haddr ▸ hm)
    busy := fun k hk => ⟨(h.busy k (hbusy ▸ hk)).1, hexpects k hk⟩
    window := fun p idx hp => hbusy ▸ h.window p idx hp
    plain := fun k hk hfree => h.plain k hk (hbusy ▸ hfree)
    joined := fun hc => absurd hc hclosing }
  rw [State.count_held, State.count_held, hslots, haddr]

/-- The writer walks on without touching the ring. -/
theorem Safe.write (h : Safe o s) (w : Writer) (haddr : w.addr = s.writer.addr)
    (hwindow : w.window = s.writer.window) (hexpects : w.Expects o s.ring)
    (hcleared : ∀ k, k < o.ringSize → (w.cleared k ↔ s.writer.cleared k))
    (hjoined : w.closing → s.warmer = .exited) : Safe o { s with writer := w } := by
  refine { h with
    account := h.account.move fun r => ?_
    window := fun p idx hp => h.window p idx (hwindow ▸ hp)
    plain := fun k hk hfree hwin hc =>
      h.plain k hk hfree (fun p hp => hwin p (hwindow.trans hp)) fun hc' =>
          hc ((hcleared k hk).mpr hc')
    read := hexpects
    cleared := fun k hk hc => h.cleared k hk ((hcleared k hk).mp hc)
    joined := hjoined }
  rw [State.count_held, State.count_held, haddr]
  rfl

theorem State.slotHolds_other {k : Nat} {f : PageSlot → PageSlot} {w : Warmer}
    (hfrom : ∀ j, s.warmer.dangling = some j → j = k)
    (hto : ∀ j, w.dangling = some j → j = k) {j : Nat} (hj : j ≠ k) :
    State.slotHolds { s.setSlot k f with warmer := w } j = s.slotHolds j := by
  have hring : Function.update s.ring k (f (s.ring k)) j = s.ring j := Function.update_of_ne hj ..
  simp only [State.slotHolds, State.setSlot, hring]
  rw [if_neg fun hd => hj (hto j hd), if_neg fun hd => hj (hfrom j hd)]

theorem State.setSlot_self (s : State) (k : Nat) (f : PageSlot → PageSlot) :
    (s.setSlot k f).ring k = f (s.ring k) := by
  simp only [State.setSlot, Function.update_self]

theorem State.setSlot_other (s : State) (f : PageSlot → PageSlot) {j k : Nat} (h : j ≠ k) :
    (s.setSlot k f).ring j = s.ring j := by
  simp only [State.setSlot, Function.update_of_ne h]

theorem State.slotHolds_free {k : Nat} (h : (s.ring k).isOwned = false) : s.slotHolds k = none := by
  rw [State.slotHolds, h]
  simp

theorem State.slotHolds_owned {k : Nat} (hd : s.warmer.dangling ≠ some k)
    (h : (s.ring k).isOwned = true) : s.slotHolds k = (s.ring k).address := by
  rw [State.slotHolds, if_neg hd, if_pos h]

/-- **The warmer changes a slot** that it has in hand, takes in hand or lets go. -/
theorem Safe.warm (h : Safe o s) {k : Nat} (hk : k < o.ringSize)
    (f : PageSlot → PageSlot) (w : Warmer)
    (hfrom : s.warmer.busy o = none ∨ s.warmer.busy o = some k)
    (hto : (w.busy o = some k ∧ w.Expects o (f (s.ring k))) ∨
    (w.busy o = none ∧ Plain o (f (s.ring k))))
    (hfree : ∀ p, s.writer.window ≠ some (p, k)) (hclosing : ¬ s.writer.closing)
    (hlocal : ∀ q m, w.addr = some (q, m) → m.file = q)
    (hdfrom : ∀ j, s.warmer.dangling = some j → j = k) (hdto : ∀ j, w.dangling = some j → j = k)
    {was now : Option Mapping} (hwas : s.slotHolds k = was)
    (hnow : State.slotHolds { s.setSlot k f with warmer := w } k = now)
    (hsum : ∀ r, (w.addr.map Prod.snd).toList.count r + now.toList.count r =
      (s.warmer.addr.map Prod.snd).toList.count r + was.toList.count r) :
    Safe o { s.setSlot k f with warmer := w } := by
  have hself := s.setSlot_self k f
  have hother := fun j (hj : j ≠ k) => s.setSlot_other f hj
  -- only slot `k` changes hands, so the others keep what they had
  have hnot : ∀ j, j ≠ k → s.warmer.busy o ≠ some j := by
    intro j hj hb
    rcases hfrom with hn | hn
    · rw [hn] at hb
      cases hb
    · exact hj (Option.some.inj (hb.symm.trans hn))
  refine { h with
    account := h.account.move fun r => ?_
    localFile := hlocal
    busy := ?_
    window := ?_
    plain := ?_
    read := ?_
    cleared := fun j hj hc => absurd (Writer.closing_of_cleared hc) hclosing
    joined := fun hc => absurd hc hclosing }
  -- what slot `k` holds now and what the warmer holds add up to the same as before
  · have hchange := count_placed_change (f := State.slotHolds { s.setSlot k f with warmer := w })
      (g := s.slotHolds) hk (fun j hj => State.slotHolds_other hdfrom hdto hj) r
    have := hsum r
    rw [hwas, hnow] at hchange
    rw [State.count_held, State.count_held]
    show (w.addr.map Prod.snd).toList.count r + _ + s.writer.addr.toList.count r +
      (s.returned.map Answer.address).count r = _
    omega
  · intro j hj
    rcases hto with ⟨hb, he⟩ | ⟨hb, -⟩
    · cases hb.symm.trans hj
      exact ⟨hk, by rw [hself]; exact he⟩
    · cases hb.symm.trans hj
  · intro p idx hp
    obtain ⟨hidx, -, hpage, hfull⟩ := h.window p idx hp
    have hne : idx ≠ k := by
      rintro rfl
      exact hfree p hp
    refine ⟨hidx, fun hb => ?_, ?_⟩
    · rcases hto with ⟨hb', -⟩ | ⟨hb', -⟩
      · exact hne (Option.some.inj (hb.symm.trans hb'))
      · cases hb.symm.trans hb'
    · rw [hother idx hne]
      exact ⟨hpage, hfull⟩
  · intro j hj hb hwin hc
    by_cases hjk : j = k
    · subst hjk
      rcases hto with ⟨hb', -⟩ | ⟨-, hp⟩
      · exact absurd hb' hb
      · rw [hself]
        exact hp
    · rw [hother j hjk]
      exact h.plain j hj (hnot j hjk) hwin hc
  · refine h.read.congr fun p idx hp => hother idx ?_
    rintro rfl
    exact hfree p hp

/-- The warmer has no mapping and no slot in hand. -/
structure Warmer.EmptyHanded (o : Options) (w : Warmer) : Prop where
  addr : w.addr = none
  dangling : w.dangling = none
  busy : w.busy o = none

theorem Warmer.emptyHanded_lookUp {w : Warmer} (h : w.phase = .lookUp) : w.EmptyHanded o := by
  cases w with
  | bootRunning | bootCurrent | loop | snapshot | scan | index | exited => exact ⟨rfl, rfl, rfl⟩
  | _ => cases h

/-- The warmer walks on with nothing in hand. -/
theorem Safe.rest (h : Safe o s) (w : Warmer) (hfrom : s.warmer.EmptyHanded o)
    (hto : w.EmptyHanded o) (hclosing : ¬ s.writer.closing) :
    Safe o { s with warmer := w } := by
  refine h.walk w (hto.addr.trans hfrom.addr.symm) (hto.dangling.trans hfrom.dangling.symm)
    (hto.busy.trans hfrom.busy.symm) (fun k hk => ?_) hclosing
  rw [hto.busy] at hk
  cases hk

theorem Options.turn_emptyHanded (o : Options) (c : Int) (i : Nat) :
    (o.turn c i).EmptyHanded o := by
  unfold turn
  split
  · exact ⟨rfl, rfl, rfl⟩
  · exact ⟨rfl, rfl, rfl⟩

/-- The warmer goes on to a distance, or to the cleanup behind the last one. -/
theorem Safe.turn (h : Safe o s) (c : Int) (i : Nat) (hfrom : s.warmer.EmptyHanded o)
    (hclosing : ¬ s.writer.closing) : Safe o { s with warmer := o.turn c i } :=
  h.rest _ hfrom (o.turn_emptyHanded c i) hclosing

/-- The slot in the warmer's hands is not the writer's. -/
theorem Safe.in_hand (h : Safe o s) {k : Nat} (hb : s.warmer.busy o = some k) (p : Int) :
    s.writer.window ≠ some (p, k) := fun hp => (h.window p k hp).2.1 hb

/-- While the warmer moves, the destructor does not touch the ring. -/
theorem Safe.not_closing {maps : Bool} (h : Safe o s) (hstep : warmerStep o maps s = some s') :
    ¬ s.writer.closing := by
  intro hc
  rw [warmerStep, h.joined hc] at hstep
  cases hstep

/-- A page is mapped. -/
theorem Safe.map (h : Safe o s) (hnumbered : ∀ m ∈ s.mapped, m.serial < s.mapped.length) {c : Int}
    {i w : Nat} (hw : s.warmer = .map c i w) (hclosing : ¬ s.writer.closing) :
    Safe o { s with warmer := .storeAddress c i w ⟨s.mapped.length, c + i⟩,
                    mapped := ⟨s.mapped.length, c + i⟩ :: s.mapped } := by
  let m : Mapping := ⟨s.mapped.length, c + i⟩
  have hnew : m ∉ s.mapped := fun hm => Nat.lt_irrefl _ (hnumbered m hm)
  have hbusy := h.busy
  have hwindow := h.window
  have hplain := h.plain
  simp only [hw] at hbusy hwindow hplain
  refine { h with
    account := h.account.make hnew fun r => ?_
    localFile := by rintro q m hm; cases hm; rfl
    busy := hbusy
    window := hwindow
    plain := hplain
    joined := fun hc => absurd hc hclosing }
  have hslots : State.slotHolds { s with
      warmer := .storeAddress c i w m, mapped := m :: s.mapped } =
      s.slotHolds := by
    funext k
    simp only [State.slotHolds, hw, Warmer.dangling]
  rw [State.count_held, State.count_held, hslots, hw]
  show List.count r [m] + (placed o.ringSize s.slotHolds).count r + s.writer.addr.toList.count r +
      (s.returned.map Answer.address).count r = 0 + (placed o.ringSize s.slotHolds).count r +
      s.writer.addr.toList.count r + (s.returned.map Answer.address).count r + List.count r [m]
  omega

/-- A cleanup releases the mapping of its slot. -/
theorem Safe.release (h : Safe o s) {c : Int} {j : Nat} (hw : s.warmer = .cleanupRelease c j)
    (hclosing : ¬ s.writer.closing) :
    Safe o { s with
      warmer := .cleanupZero c j, released := (s.ring j).address.toList ++ s.released } := by
  obtain ⟨hj, hslot⟩ := h.busy j (by rw [hw]; rfl)
  have hwindow := h.window
  have hplain := h.plain
  simp only [hw] at hslot hwindow hplain
  obtain ⟨hpage, q, hfull⟩ := hslot
  refine { h with
    account := h.account.giveBack _ fun r => ?_
    localFile := by rintro q m hm; cases hm
    busy := by rintro k hk; cases hk; exact ⟨hj, hpage⟩
    window := hwindow
    plain := hplain
    joined := fun hc => absurd hc hclosing }
  have hwas : s.slotHolds j = (s.ring j).address :=
    State.slotHolds_owned (by rw [hw]; exact fun hd => by cases hd) hfull.1
  have hnow : State.slotHolds { s with
      warmer := .cleanupZero c j, released := (s.ring j).address.toList ++ s.released } j =
        none := if_pos rfl
  have hchange := count_placed_change (f := State.slotHolds { s with
      warmer := .cleanupZero c j, released := (s.ring j).address.toList ++ s.released })
    (g := s.slotHolds) hj (fun k hk => ?_) r
  · rw [hwas, hnow] at hchange
    rw [State.count_held, State.count_held, hw]
    show 0 + (placed o.ringSize s.slotHolds).count r + s.writer.addr.toList.count r +
      (s.returned.map Answer.address).count r = 0 + _ + s.writer.addr.toList.count r +
      (s.returned.map Answer.address).count r + _
    have : (none : Option Mapping).toList.count r = 0 := rfl
    omega
  · simp [State.slotHolds, hw, Warmer.dangling, Ne.symm hk]

/-- A slot with a page in it is in nobody's hands. -/
theorem Safe.full_of_page (h : Safe o s) {k : Nat} (hk : k < o.ringSize)
    (hpos : 0 ≤ (s.ring k).pageId) (hcleared : ¬ s.writer.cleared k) :
    s.warmer.busy o ≠ some k ∧ Full o (s.ring k).pageId (s.ring k) := by
  have hbusy : s.warmer.busy o ≠ some k := by
    intro hb
    have hslot := (h.busy k hb).2
    cases hw : s.warmer with
    | map | giveUp | storeAddress | storeSize | storeOwned | storePageId | cleanupOwned
    | cleanupAddress
    | cleanupRelease | cleanupDisown =>
      rw [hw] at hslot
      have := hslot.1
      omega
    | cleanupZero =>
      rw [hw] at hslot
      have : (s.ring k).pageId = -1 := hslot
      omega
    | _ =>
      rw [hw] at hb
      cases hb
  refine ⟨hbusy, ?_⟩
  have hfree : ∀ p, s.writer.window ≠ some (p, k) := by
    intro p hp
    have := (h.window p k hp).2.2.1
    omega
  rcases h.plain k hk hbusy hfree hcleared with ⟨-, hf⟩ | ⟨hn, -⟩
  · exact hf
  · omega

/-- The writer empties a slot. -/
theorem Safe.take (h : Safe o s) {p : Int} {startRead i : Nat}
    (hw : s.writer = .claim p startRead i) (hp : 0 ≤ p) (hN : 0 < o.ringSize)
    (hpage : (s.ring ((startRead + i) % o.ringSize)).pageId = p) :
    Safe o { s.setSlot ((startRead + i) % o.ringSize) ({ · with pageId := -1 }) with
      writer := .readSize p ((startRead + i) % o.ringSize) } := by
  let k := (startRead + i) % o.ringSize
  have hk : k < o.ringSize := Nat.mod_lt _ hN
  have hcleared : ∀ j, ¬ s.writer.cleared j := by
    intro j hc
    rw [hw] at hc
    cases hc
  obtain ⟨hbusy, hfull⟩ := h.full_of_page hk (hpage.symm ▸ hp) (hcleared k)
  rw [hpage] at hfull
  have hself := s.setSlot_self k ({ · with pageId := -1 })
  have hother := fun j (hj : j ≠ k) => s.setSlot_other ({ · with pageId := -1 }) hj
  have hslots :
      State.slotHolds { s.setSlot k ({ · with pageId := -1 }) with writer := .readSize p k } =
      s.slotHolds := by
    funext j
    by_cases hj : j = k
    · subst hj
      simp only [State.slotHolds, State.setSlot, Function.update_self]
    · simp only [State.slotHolds, State.setSlot, Function.update_of_ne hj]
  refine { h with
    account := h.account.move fun r => ?_
    busy := ?_
    window := ?_
    plain := ?_
    read := trivial
    cleared := fun j _ hc => (by cases hc)
    joined := fun hc => (by cases hc) }
  · rw [State.count_held, State.count_held, hslots, hw]
    rfl
  · intro j hb
    have hne : j ≠ k := by
      rintro rfl
      exact hbusy hb
    rw [hother j hne]
    exact h.busy j hb
  · rintro q idx hq
    cases hq
    refine ⟨hk, hbusy, ?_⟩
    rw [hself]
    exact ⟨rfl, hfull⟩
  · intro j hj hb hwin _
    have hne : j ≠ k := by
      rintro rfl
      exact hwin p rfl
    rw [hother j hne]
    refine h.plain j hj hb (fun q hq => ?_) (hcleared j)
    rw [hw] at hq
    cases hq

/-- The writer has read the slot and lets it go. -/
theorem Safe.disown (h : Safe o s) {p : Int} {idx sizeOut : Nat} {addr : Option Mapping}
    (hw : s.writer = .disown p idx sizeOut addr) :
    Safe o { s.setSlot idx
      ({ · with isOwned := false }) with writer := .storeRead p idx sizeOut addr } := by
  obtain ⟨hidx, hbusy, hpage, hfull⟩ := h.window p idx (by rw [hw]; rfl)
  have hread := h.read
  rw [hw] at hread
  obtain ⟨hsize, haddr⟩ := hread
  have hcleared : ∀ j, ¬ s.writer.cleared j := by
    intro j hc
    rw [hw] at hc
    cases hc
  have hself := s.setSlot_self idx ({ · with isOwned := false })
  have hother := fun j (hj : j ≠ idx) => s.setSlot_other ({ · with isOwned := false }) hj
  have hd : s.warmer.dangling ≠ some idx := by
    intro hd
    refine hbusy ?_
    cases hwm : s.warmer with
    | cleanupZero c j =>
      rw [hwm] at hd
      cases hd
      rfl
    | _ =>
      rw [hwm] at hd
      cases hd
  have hwas := State.slotHolds_owned hd hfull.1
  have hnow : State.slotHolds { s.setSlot idx ({ · with isOwned := false }) with
      writer := .storeRead p idx sizeOut addr } idx = none :=
    State.slotHolds_free (by rw [State.setSlot_self])
  refine { h with
    account := h.account.move fun r => ?_
    busy := ?_
    window := fun q k hq => (by cases hq)
    plain := ?_
    read := ⟨hsize, by rw [haddr]; exact hfull.2.2⟩
    cleared := fun j _ hc => (by cases hc)
    joined := fun hc => (by cases hc) }
  · have hchange := count_placed_change (f := State.slotHolds
        { s.setSlot idx ({ · with isOwned := false }) with
          writer := .storeRead p idx sizeOut addr })
      (g := s.slotHolds) hidx (fun j hj => ?_) r
    · rw [hwas, hnow, ← haddr] at hchange
      rw [State.count_held, State.count_held, hw]
      show (s.warmer.addr.map Prod.snd).toList.count r + _ + addr.toList.count r +
        (s.returned.map Answer.address).count r = _ + _ + 0 + _
      have : (none : Option Mapping).toList.count r = 0 := rfl
      omega
    · simp only [State.slotHolds, State.setSlot, Function.update_of_ne hj]
  · intro j hb
    have hne : j ≠ idx := by
      rintro rfl
      exact hbusy hb
    rw [hother j hne]
    exact h.busy j hb
  · intro j hj hb _ _
    by_cases hjk : j = idx
    · subst hjk
      rw [hself]
      exact Or.inr ⟨hpage, rfl⟩
    · rw [hother j hjk]
      refine h.plain j hj hb (fun q hq => ?_) (hcleared j)
      rw [hw] at hq
      exact hjk (congrArg Prod.snd (Option.some.inj hq)).symm

/-- `getWarmedPage` returns. -/
theorem Safe.answer (h : Safe o s) {p : Int} {idx sizeOut : Nat} {addr : Option Mapping}
    (hw : s.writer = .storeRead p idx sizeOut addr) (readIndex : Nat) :
    Safe o { s with
      writer := .update p, readIndex := readIndex
      returned := (addr.map fun addr => ⟨p, addr, sizeOut⟩).toList ++ s.returned } := by
  have hread := h.read
  have hplain := h.plain
  rw [hw] at hread
  simp only [hw] at hplain
  obtain ⟨hsize, m, rfl, hfile⟩ := hread
  refine { h with
    account := h.account.move fun r => ?_
    window := fun q k hq => (by cases hq)
    plain := fun k hk hb _ _ => hplain k hk hb (fun q hq => (by cases hq)) fun hc => hc
    read := trivial
    answers := ?_
    cleared := fun j _ hc => (by cases hc)
    joined := fun hc => (by cases hc) }
  · rw [State.count_held, State.count_held, hw]
    show (s.warmer.addr.map Prod.snd).toList.count r + (placed o.ringSize s.slotHolds).count r + 0 +
        (m :: s.returned.map Answer.address).count r =
      (s.warmer.addr.map Prod.snd).toList.count r + (placed o.ringSize s.slotHolds).count r +
        List.count r [m] + (s.returned.map Answer.address).count r
    rw [count_cons_eq m (s.returned.map Answer.address)]
    omega
  · intro a ha
    rcases List.mem_cons.mp ha with rfl | ha
    · exact ⟨hfile, hsize⟩
    · exact h.answers a ha

/-- `releaseAllPages` has looked at a slot. -/
theorem Safe.clearNext (h : Safe o s) {i : Nat} (hw : s.writer = .releaseAll i)
    (hi : i < o.ringSize) (slot : PageSlot) (back : List Mapping) (howned : slot.isOwned = false)
    (hback : ∀ r, (s.slotHolds i).toList.count r = back.count r) :
    Safe o { s with
      ring := Function.update s.ring i slot, writer := .releaseAll (i + 1)
      released := back ++ s.released } := by
  have hexited : s.warmer = .exited := h.joined (by rw [hw]; trivial)
  have hself : Function.update s.ring i slot i = slot := Function.update_self ..
  have hother : ∀ j, j ≠ i → Function.update s.ring i slot j = s.ring j :=
    fun j hj => Function.update_of_ne hj ..
  have hnow : State.slotHolds { s with
      ring := Function.update s.ring i slot, writer := .releaseAll (i + 1)
      released := back ++ s.released } i = none :=
    State.slotHolds_free ((congrArg PageSlot.isOwned hself).trans howned)
  refine { h with
    account := h.account.giveBack back fun r => ?_
    busy := fun k hk => (by rw [hexited] at hk; cases hk)
    window := fun p k hp => (by cases hp)
    plain := ?_
    read := trivial
    cleared := ?_
    joined := fun _ => hexited }
  · have hchange := count_placed_change (f := State.slotHolds { s with
        ring := Function.update s.ring i slot, writer := .releaseAll (i + 1)
        released := back ++ s.released }) (g := s.slotHolds) hi (fun j hj => ?_) r
    · rw [hnow, hback] at hchange
      rw [State.count_held, State.count_held, hw]
      show (s.warmer.addr.map Prod.snd).toList.count r +
          (placed o.ringSize s.slotHolds).count r + 0 +
          (s.returned.map Answer.address).count r =
        (s.warmer.addr.map Prod.snd).toList.count r + _ + 0 +
        (s.returned.map Answer.address).count r +
          back.count r
      have : (none : Option Mapping).toList.count r = 0 := rfl
      omega
    · simp only [State.slotHolds, hother j hj]
  · intro j hj hb _ hc
    have hne : j ≠ i := fun he => hc (show j < i + 1 by omega)
    show Plain o (Function.update s.ring i slot j)
    rw [hother j hne]
    refine h.plain j hj hb (fun p hp => ?_) fun hc' => hc ?_
    · rw [hw] at hp
      cases hp
    · rw [hw] at hc'
      exact Nat.lt_succ_of_lt hc'
  · intro j hj hc
    show (Function.update s.ring i slot j).isOwned = false
    by_cases hne : j = i
    · rw [hne, hself]
      exact howned
    · rw [hother j hne]
      refine h.cleared j hj ?_
      rw [hw]
      have : j < i + 1 := hc
      show j < i
      omega

end Revoq.WarmupRing
