import Mathlib.Algebra.Order.BigOperators.Group.Finset
import Mathlib.Data.Int.Interval
import Mathlib.Data.Nat.ModEq
import Revoq.Custody
import Revoq.PageWarmer

/-! # How far the ring can turn

The writer empties a slot before it has read it, so the warmer must not come round to
that slot meanwhile.  How many pages can be warmed after a page, before the writer has
taken it?  A page ahead of the writer is warmed once; a page behind it at most twice,
the second time by a warmer whose snapshot was stale; and all of them lie within the
warm-up distance.  If the ring is large enough for that, the warmer stays away
(`Tally.clear`).
-/
namespace Revoq.WarmupRing
open Custody

/-! ## Where the threads are -/

/-- The snapshot of `current_page_` the warmer works with. -/
def Warmer.seen : Warmer → Option Int
  | .scan c _ _ | .index c _ | .claim c _ _ | .map c _ _ | .giveUp c _ _ | .storeAddress c _ _ _
  | .storeSize c _ _ _ | .storeOwned c _ _ _ | .storePageId c _ _ | .fetchAdd c _ | .cleanup c _
  | .cleanupClaim c _ _ | .cleanupOwned c _ | .cleanupAddress c _ | .cleanupRelease c _
  | .cleanupZero c _ | .cleanupDisown c _ => some c
  | _ => none

/-- The page the warmer looks for or warms, with its distance. -/
def Warmer.aim : Warmer → Option (Int × Nat)
  | .scan c i _ | .index c i | .claim c i _ | .map c i _ | .giveUp c i _ | .storeAddress c i _ _
  | .storeSize c i _ _ | .storeOwned c i _ _ | .storePageId c i _ => some (c, i)
  | _ => none

/-- The page the warmer has mapped and not yet published. -/
def Warmer.publishing : Warmer → Option Int
  | .storeAddress c i _ _ | .storeSize c i _ _ | .storeOwned c i _ _
  | .storePageId c i _ => some (c + i)
  | _ => none

/-- The page the warmer knows to be missing from the first slots, and their number. -/
def Warmer.missing (o : Options) : Warmer → Option (Int × Nat)
  | .scan c i j => some (c + i, j)
  | .index c i | .claim c i _ | .map c i _ | .giveUp c i _ => some (c + i, o.ringSize)
  | _ => none

/-- The write index the warmer has loaded. -/
def Warmer.loaded : Warmer → Option Nat
  | .claim _ _ w | .map _ _ w | .giveUp _ _ w | .storeAddress _ _ w _ | .storeSize _ _ w _
  | .storeOwned _ _ w _ | .storePageId _ _ w => some w
  | _ => none

/-- The write index of the slot the warmer has claimed. -/
def Warmer.claimed : Warmer → Option Nat
  | .map _ _ w | .giveUp _ _ w | .storeAddress _ _ w _ | .storeSize _ _ w _ | .storeOwned _ _ w _
  | .storePageId _ _ w => some w
  | _ => none

/-- The number of mappings that `write_index_` does not count yet. -/
def Warmer.uncounted : Warmer → Nat
  | .storeAddress .. | .storeSize .. | .storeOwned .. | .storePageId .. | .fetchAdd .. => 1
  | _ => 0

/-- The parts of `warmupLoop`: the search for a page that is not in the ring, the claim of a
slot and the mapping, the stores behind it, and `cleanupOldPages`. -/
inductive Phase where
  | lookUp | warming | publication | cleanup

/-- The part of the loop the warmer is in. -/
def Warmer.phase : Warmer → Phase
  | .bootRunning | .bootCurrent | .loop | .snapshot | .scan .. | .index .. | .exited => .lookUp
  | .claim .. | .map .. | .giveUp .. => .warming
  | .storeAddress .. | .storeSize .. | .storeOwned .. | .storePageId .. | .fetchAdd .. =>
      .publication
  | .cleanup .. | .cleanupClaim .. | .cleanupOwned .. | .cleanupAddress .. | .cleanupRelease ..
  | .cleanupZero .. | .cleanupDisown .. => .cleanup

/-- The page the writer asks for. -/
def Writer.request : Writer → Option Int
  | .loadRead p | .look p _ _ | .claim p _ _ | .readSize p _ | .readAddress p _ _ | .disown p _ _ _
  | .storeRead p _ _ _ => some p
  | _ => none

/-- The page and the slot of a writer that has emptied the slot and still needs it. -/
def Writer.window : Writer → Option (Int × Nat)
  | .readSize p idx | .readAddress p idx _ | .disown p idx _ _ => some (p, idx)
  | _ => none

/-- The last page that may have been taken from the ring. -/
def Writer.taken (currentPage : Int) : Writer → Int
  | .readSize p _ | .readAddress p _ _ | .disown p _ _ _ | .storeRead p _ _ _ | .update p => p
  | _ => currentPage

def State.taken (s : State) : Int := s.writer.taken s.currentPage

/-- The page is in the ring or about to be. -/
def Present (o : Options) (s : State) (q : Int) : Prop :=
  (∃ k, k < o.ringSize ∧ (s.ring k).pageId = q) ∨ s.warmer.publishing = some q

/-- The pages that were warmed, the latest first. -/
def State.files (s : State) : List Int := s.mapped.map Mapping.file

/-- The serial number of a mapping is the number of those made before it. -/
def Numbered : List Mapping → Prop
  | [] => True
  | m :: ms => m.serial = ms.length ∧ Numbered ms

/-- **The tally of the pages that were warmed.** -/
structure Tally (o : Options) (s : State) : Prop where
  numbered : Numbered s.mapped
  index : s.mapped.length = s.writeIndex + s.warmer.uncounted
  loaded : ∀ w, s.warmer.loaded = some w → w = s.writeIndex
  seen : ∀ c, s.warmer.seen = some c → 0 ≤ c ∧ c ≤ s.currentPage
  distance : ∀ c i, s.warmer.aim = some (c, i) → 1 ≤ i ∧ i ≤ o.warmupDistance
  claimed : ∀ w, s.warmer.claimed = some w → (s.ring (w % o.ringSize)).pageId = -2
  stale : ∀ c j q, s.warmer = .cleanupClaim c j q → (0 ≤ q ∧ q < c - o.ringSize) ∧ j < o.ringSize
  latest : ∀ q, s.warmer.publishing = some q → s.mapped.head? = some ⟨s.writeIndex, q⟩
  ahead : ∀ q ∈ s.files, q ≤ s.warmer.seen.getD s.currentPage + o.warmupDistance
  positive : ∀ q ∈ s.files, 0 < q
  order : s.files.Pairwise fun newer older : Int => older < newer + o.warmupDistance
  missing : ∀ q n, s.warmer.missing o = some (q, n) → ∀ k, k < n → (s.ring k).pageId ≠ q
  slots : ∀ k, k < o.ringSize → 0 ≤ (s.ring k).pageId →
    ∃ m ∈ s.mapped, m.file = (s.ring k).pageId ∧ m.serial % o.ringSize = k
  settled : s.writer = .idle → 0 ≤ s.currentPage
  request : ∀ p, s.writer.request = some p → p = s.currentPage + 1 ∧ 0 ≤ s.currentPage
  update : ∀ p, s.writer = .update p → s.currentPage ≤ p ∧ 0 ≤ p
  window : ∀ p idx, s.writer.window = some (p, idx) → ∃ m ∈ s.mapped, m.file = p ∧
    m.serial % o.ringSize = idx
  once : ∀ q, s.taken < q → s.files.count q ≤ 1 ∧ (s.files.count q = 1 → Present o s q)
  twice : ∀ q, s.currentPage - o.ringSize ≤ q →
    s.files.count q ≤ 2 ∧ (s.files.count q = 2 → Present o s q)

/-! ## The warmer stays away -/

/-- The mappings made after one, and their number. -/
theorem Numbered.split {ms : List Mapping} (h : Numbered ms) {m : Mapping} (hm : m ∈ ms) :
    ∃ newer older, ms = newer ++ m :: older ∧ newer.length + m.serial + 1 = ms.length := by
  induction ms with
  | nil => cases hm
  | cons x ms ih =>
    rcases List.mem_cons.mp hm with rfl | hm
    · refine ⟨[], ms, rfl, ?_⟩
      have := h.1
      simp only [List.length_nil, List.length_cons]
      omega
    · obtain ⟨newer, older, rfl, hlen⟩ := ih h.2 hm
      refine ⟨x :: newer, older, rfl, ?_⟩
      simp only [List.length_cons]
      omega

theorem Numbered.serial_lt {ms : List Mapping} (h : Numbered ms) {m : Mapping} (hm : m ∈ ms) :
    m.serial < ms.length := by
  obtain ⟨newer, older, -, hlen⟩ := h.split hm
  omega

/-- The part of a list that lies in an interval has at most so many elements. -/
theorem filter_length_le {l : List Int} (f : Int → Bool) (lo : Int) {n c : Nat}
    (hrange : ∀ q ∈ l, f q → lo ≤ q ∧ q < lo + n) (hcount : ∀ q ∈ l, f q → l.count q ≤ c) :
    (l.filter f).length ≤ c * n := by
  have hsub : (l.filter f).toFinset ⊆ Finset.Ico lo (lo + n) := by
    intro q hq
    obtain ⟨hq, hf⟩ := List.mem_filter.mp (List.mem_toFinset.mp hq)
    exact Finset.mem_Ico.mpr (hrange q hq hf)
  have hle : ∀ q ∈ (l.filter f).toFinset, (l.filter f).count q ≤ c := by
    intro q hq
    obtain ⟨hq, hf⟩ := List.mem_filter.mp (List.mem_toFinset.mp hq)
    rw [List.count_filter hf]
    exact hcount q hq hf
  calc (l.filter f).length = ∑ q ∈ (l.filter f).toFinset, (l.filter f).count q :=
        (List.sum_toFinset_count_eq_length _).symm
    _ ≤ (l.filter f).toFinset.card • c := Finset.sum_le_card_nsmul _ _ _ hle
    _ ≤ (Finset.Ico lo (lo + n)).card * c := Nat.mul_le_mul_right c (Finset.card_le_card hsub)
    _ = c * n := by
      rw [Int.card_Ico, Nat.mul_comm]
      congr 1
      omega

variable {o : Options} {s s' : State}

theorem Writer.request_of_window {w : Writer} {p : Int} {idx : Nat} (h : w.window = some (p, idx)) :
    w.request = some p := by
  cases w with
  | readSize | readAddress | disown =>
    cases h
    rfl
  | _ => cases h

theorem State.taken_of_window {p : Int} {idx : Nat} (h : s.writer.window = some (p, idx)) :
    s.taken = p := by
  rw [State.taken]
  cases hw : s.writer with
  | readSize | readAddress | disown =>
    rw [hw] at h
    cases h
    rfl
  | _ =>
    rw [hw] at h
    cases h

theorem Tally.missing_claim (h : Tally o s) {c : Int} {i w : Nat} (hw : s.warmer = .claim c i w) :
    ¬ Present o s (c + i) := by
  rintro (⟨k, hk, hq⟩ | hq)
  · exact h.missing (c + i) o.ringSize (by rw [hw]; rfl) k hk hq
  · rw [hw] at hq
    cases hq

/-- How often a page was warmed since one that the writer has emptied the slot of. -/
theorem Tally.count_since (h : Tally o s) (hroom : 3 * o.warmupDistance ≤ o.ringSize + 1) {p : Int}
    (htaken : s.taken = p) (hreq : p = s.currentPage + 1) {newer older : List Mapping} {m : Mapping}
    (hsplit : s.mapped = newer ++ m :: older) (hfile : m.file = p) {x : Int}
    (hx : ¬ Present o s x) {q : Int} (hq : p - o.warmupDistance < q) :
    (q < p → (x :: newer.map Mapping.file).count q ≤ 2) ∧
      (¬ q < p → (x :: newer.map Mapping.file).count q ≤ 1) := by
  have hfiles : s.files.count q =
      (newer.map Mapping.file).count q + [p].count q + (older.map Mapping.file).count q := by
    rw [State.files, hsplit, List.map_append, List.map_cons, hfile,
      List.count_append, Nat.add_assoc, count_cons_eq p]
  obtain ⟨htwo, hpresent⟩ := h.twice q (by omega)
  rw [count_cons_eq x]
  have hxq : [x].count q = 0 ∨ ([x].count q = 1 ∧ s.files.count q ≤ 1) := by
    by_cases hxq : x = q
    · subst hxq
      refine Or.inr ⟨by simp, ?_⟩
      by_contra hc
      exact hx (hpresent (by omega))
    · exact Or.inl (List.count_eq_zero.mpr (by simpa using Ne.symm hxq))
  refine ⟨fun _ => by omega, fun hge => ?_⟩
  by_cases hqp : q = p
  · have hself : [p].count q = 1 := by simp [hqp]
    omega
  · obtain ⟨hone, hpresent⟩ := h.once q (by omega)
    by_cases hxq' : x = q
    · subst hxq'
      have : s.files.count x ≠ 1 := fun hc => hx (hpresent hc)
      omega
    · have : [x].count q = 0 := List.count_eq_zero.mpr (by simpa using Ne.symm hxq')
      omega

/-- **The warmer does not come round** to a slot the writer still needs. -/
theorem Tally.clear (h : Tally o s) (hroom : 3 * o.warmupDistance ≤ o.ringSize + 1) {c : Int}
    {i w : Nat} (hw : s.warmer = .claim c i w) {p : Int} {idx : Nat}
    (hwin : s.writer.window = some (p, idx)) : w % o.ringSize ≠ idx := by
  intro hidx
  have hwi : w = s.writeIndex := h.loaded w (by rw [hw]; rfl)
  have hlen : s.mapped.length = w := by
    have := h.index
    rw [hw] at this
    exact this.trans hwi.symm
  obtain ⟨hi, hD⟩ := h.distance c i (by rw [hw]; rfl)
  obtain ⟨-, hc⟩ := h.seen c (by rw [hw]; rfl)
  have hreq : p = s.currentPage + 1 := (h.request p (Writer.request_of_window hwin)).1
  have htaken : s.taken = p := State.taken_of_window hwin
  have hahead : ∀ q ∈ s.files, q ≤ c + o.warmupDistance := by
    have := h.ahead
    rwa [hw] at this
  obtain ⟨m, hm, hfile, hserial⟩ := h.window p idx hwin
  obtain ⟨newer, older, hsplit, hnewer⟩ := h.numbered.split hm
  -- the warmer is at least a whole turn further
  have hturn : o.ringSize ≤ w - m.serial := by
    have hmod : Nat.ModEq o.ringSize m.serial w := hserial.trans hidx.symm
    exact Nat.le_of_dvd (by omega) ((Nat.modEq_iff_dvd' (by omega)).mp hmod)
  -- the pages warmed since, and the one to be warmed
  let pages := (c + i) :: newer.map Mapping.file
  have hrange : ∀ q ∈ pages, p - o.warmupDistance < q ∧ q < p + o.warmupDistance := by
    intro q hq
    have hp : p ≤ c + o.warmupDistance := hahead p (List.mem_map.mpr ⟨m, hm, hfile⟩)
    rcases List.mem_cons.mp hq with rfl | hq
    · omega
    · have hle :=
        hahead q (by rw [State.files, hsplit, List.map_append]; exact List.mem_append_left _ hq)
      have horder := h.order
      rw [State.files, hsplit, List.map_append, List.pairwise_append] at horder
      have := horder.2.2 q hq p (by rw [List.map_cons, hfile]; exact List.mem_cons_self)
      omega
  have hcount := fun q => h.count_since hroom htaken hreq hsplit hfile (h.missing_claim hw) (q := q)
  have hbelow : (pages.filter fun q => decide (q < p)).length ≤ 2 * (o.warmupDistance - 1) := by
    refine filter_length_le _ (p - o.warmupDistance + 1) ?_ ?_
    · intro q hq hlt
      have := hrange q hq
      have := of_decide_eq_true hlt
      omega
    · intro q hq hlt
      exact (hcount q (hrange q hq).1).1 (of_decide_eq_true hlt)
  have habove : (pages.filter fun q => !decide (q < p)).length ≤ 1 * o.warmupDistance := by
    refine filter_length_le _ p ?_ ?_
    · intro q hq hge
      simp only [Bool.not_eq_true', decide_eq_false_iff_not] at hge
      have := hrange q hq
      omega
    · intro q hq hge
      simp only [Bool.not_eq_true', decide_eq_false_iff_not] at hge
      exact (hcount q (hrange q hq).1).2 hge
  have hsum := List.length_eq_length_filter_add (l := pages) fun q => decide (q < p)
  have hpages : pages.length = newer.length + 1 := by simp [pages]
  omega

/-! ## What keeps the tally -/

theorem Warmer.missing_aim {w : Warmer} {q : Int} {n : Nat} (h : w.missing o = some (q, n)) :
    ∃ c i, w.aim = some (c, i) ∧ w.seen = some c ∧ q = c + i := by
  cases w with
  | scan c i _ | index c i | claim c i _ | map c i _ | giveUp c i _ =>
    cases h
    exact ⟨c, i, rfl, rfl, rfl⟩
  | _ => cases h

theorem Tally.missing_pos (h : Tally o s) {q : Int} {n : Nat}
    (hq : s.warmer.missing o = some (q, n)) :
    0 < q := by
  obtain ⟨c, i, haim, hseen, rfl⟩ := Warmer.missing_aim hq
  have := h.distance c i haim
  have := h.seen c hseen
  omega

theorem Tally.current_le_taken (h : Tally o s) : s.currentPage ≤ s.taken := by
  rw [State.taken]
  cases hw : s.writer with
  | readSize p | readAddress p | disown p | storeRead p =>
    have := (h.request p (by rw [hw]; rfl)).1
    simp only [Writer.taken]
    omega
  | update p => exact (h.update p hw).1
  | _ => exact Int.le_refl _

/-- Nothing warmed is out of reach of a snapshot that is still to come. -/
theorem Tally.ahead_current (h : Tally o s) :
    ∀ q ∈ s.files, q ≤ s.currentPage + o.warmupDistance := by
  intro q hq
  have hle := h.ahead q hq
  cases hseen : s.warmer.seen with
  | none => rwa [hseen] at hle
  | some c =>
    rw [hseen] at hle
    have := h.seen c hseen
    simp only [Option.getD_some] at hle
    omega

/-- The warmer walks on without touching the ring. -/
theorem Tally.walk (h : Tally o s) (w : Warmer) (hpub : w.publishing = s.warmer.publishing)
    (huncounted : w.uncounted = s.warmer.uncounted)
    (hseen : ∀ c, w.seen = some c →
      (0 ≤ c ∧ c ≤ s.currentPage) ∧ ∀ q ∈ s.files, q ≤ c + o.warmupDistance)
    (hdistance : ∀ c i, w.aim = some (c, i) → 1 ≤ i ∧ i ≤ o.warmupDistance)
    (hloaded : ∀ x, w.loaded = some x → x = s.writeIndex)
    (hclaimed : ∀ x, w.claimed = some x → (s.ring (x % o.ringSize)).pageId = -2)
    (hmissing : ∀ q n, w.missing o = some (q, n) → ∀ k, k < n → (s.ring k).pageId ≠ q)
    (hstale : ∀ c j q, w = .cleanupClaim c j q → (0 ≤ q ∧ q < c - o.ringSize) ∧ j < o.ringSize) :
    Tally o { s with warmer := w } := by
  have hpresent : ∀ q, Present o s q → Present o { s with warmer := w } q := by
    rintro q (hq | hq)
    · exact Or.inl hq
    · exact Or.inr (hpub.trans hq)
  refine { h with
    index := huncounted ▸ h.index
    loaded := hloaded
    seen := fun c hc => (hseen c hc).1
    distance := hdistance
    claimed := hclaimed
    stale := hstale
    latest := fun q hq => h.latest q (hpub ▸ hq)
    missing := hmissing
    ahead := ?_
    once := fun q hq => ⟨(h.once q hq).1, fun hc => hpresent q ((h.once q hq).2 hc)⟩
    twice := fun q hq => ⟨(h.twice q hq).1, fun hc => hpresent q ((h.twice q hq).2 hc)⟩ }
  intro q hq
  cases hw : w.seen with
  | none => exact h.ahead_current q hq
  | some c => exact (hseen c hw).2 q hq

/-- The writer walks on without touching the ring. -/
theorem Tally.write (h : Tally o s) (w : Writer) (hsettled : w = .idle → 0 ≤ s.currentPage)
    (hrequest : ∀ p, w.request = some p → p = s.currentPage + 1 ∧ 0 ≤ s.currentPage)
    (hupdate : ∀ p, w = .update p → s.currentPage ≤ p ∧ 0 ≤ p)
    (hwindow : ∀ p idx, w.window = some (p, idx) →
      ∃ m ∈ s.mapped, m.file = p ∧ m.serial % o.ringSize = idx)
    (htaken : s.taken ≤ State.taken { s with writer := w }) : Tally o { s with writer := w } :=
  { h with
    settled := hsettled
    request := hrequest
    update := hupdate
    window := hwindow
    once := fun q hq => h.once q (Int.lt_of_le_of_lt htaken hq) }

/-- A slot is changed and keeps its page. -/
theorem Tally.reslot (h : Tally o s) (k : Nat) (f : PageSlot → PageSlot)
    (hf : ∀ slot, (f slot).pageId = slot.pageId) : Tally o (s.setSlot k f) := by
  have hsame : ∀ j, ((s.setSlot k f).ring j).pageId = (s.ring j).pageId := by
    intro j
    by_cases hj : j = k
    · rw [hj, State.setSlot]
      simp only [Function.update_self, hf]
    · rw [State.setSlot]
      simp only [Function.update_of_ne hj]
  have hpresent : ∀ q, Present o s q → Present o (s.setSlot k f) q := by
    rintro q (⟨j, hj, hq⟩ | hq)
    · exact Or.inl ⟨j, hj, (hsame j).trans hq⟩
    · exact Or.inr hq
  exact { h with
    claimed := fun w hw => (hsame _).trans (h.claimed w hw)
    missing := fun q n hq j hj => hsame j ▸ h.missing q n hq j hj
    slots := fun j hj hpos => by
      rw [hsame] at hpos ⊢
      exact h.slots j hj hpos
    once := fun q hq => ⟨(h.once q hq).1, fun hc => hpresent q ((h.once q hq).2 hc)⟩
    twice := fun q hq => ⟨(h.twice q hq).1, fun hc => hpresent q ((h.twice q hq).2 hc)⟩ }

/-- A slot is emptied or claimed: nothing is lost that the tally counts on. -/
theorem Tally.setPage (h : Tally o s) (k : Nat) (x : Int) (hx : x < 0)
    (hclaimed : ∀ w, s.warmer.claimed = some w → w % o.ringSize = k → x = -2)
    (hlost : ∀ q, 0 < q → (s.ring k).pageId = q →
      q ≤ s.taken ∧ (s.currentPage - o.ringSize ≤ q → s.files.count q ≠ 2)) :
    Tally o (s.setSlot k ({ · with pageId := x })) := by
  have hself : ((s.setSlot k ({ · with pageId := x })).ring k).pageId = x := by
    simp only [State.setSlot, Function.update_self]
  have hother : ∀ j, j ≠ k → (s.setSlot k ({ · with pageId := x })).ring j = s.ring j := by
    intro j hj
    simp only [State.setSlot, Function.update_of_ne hj]
  have hpresent : ∀ q, Present o s q → (s.ring k).pageId ≠ q →
      Present o (s.setSlot k ({ · with pageId := x })) q := by
    rintro q (⟨j, hj, hq⟩ | hq) hne
    · have hjk : j ≠ k := fun he => hne (he ▸ hq)
      exact Or.inl ⟨j, hj, by rw [hother j hjk]; exact hq⟩
    · exact Or.inr hq
  have hpos : ∀ q n, s.files.count q = n + 1 → 0 < q :=
    fun q n hc => h.positive q (List.count_pos_iff.mp (by omega))
  refine { h with claimed := ?_, missing := ?_, slots := ?_, once := ?_, twice := ?_ }
  · intro w hw
    by_cases hk : w % o.ringSize = k
    · rw [hk, hself]
      exact hclaimed w hw hk
    · rw [hother _ hk]
      exact h.claimed w hw
  · intro q n hq j hj
    by_cases hk : j = k
    · have := h.missing_pos hq
      rw [hk, hself]
      omega
    · rw [hother _ hk]
      exact h.missing q n hq j hj
  · intro j hj hge
    by_cases hk : j = k
    · rw [hk, hself] at hge
      omega
    · rw [hother _ hk] at hge ⊢
      exact h.slots j hj hge
  · intro q hq
    refine ⟨(h.once q hq).1, fun hc => hpresent q ((h.once q hq).2 hc) fun hk => ?_⟩
    have hle := (hlost q (hpos q 0 hc) hk).1
    exact absurd (Int.lt_of_le_of_lt hle hq) (Int.lt_irrefl q)
  · intro q hq
    refine ⟨(h.twice q hq).1, fun hc => hpresent q ((h.twice q hq).2 hc) fun hk => ?_⟩
    exact (hlost q (hpos q 1 hc) hk).2 hq hc

/-- A page is mapped: it was not in the ring. -/
theorem Tally.map (h : Tally o s) {c : Int} {i w : Nat} (hw : s.warmer = .map c i w) :
    Tally o { s with warmer := .storeAddress c i w ⟨s.mapped.length, c + i⟩,
                     mapped := ⟨s.mapped.length, c + i⟩ :: s.mapped } := by
  have hwi : w = s.writeIndex := h.loaded w (by rw [hw]; rfl)
  have hlen : s.mapped.length = s.writeIndex := by
    have := h.index
    rwa [hw] at this
  have hseen := h.seen c (by rw [hw]; rfl)
  have hdist := h.distance c i (by rw [hw]; rfl)
  have hclaimed := h.claimed w (by rw [hw]; rfl)
  have hahead : ∀ q ∈ s.files, q ≤ c + o.warmupDistance := by
    have := h.ahead
    rwa [hw] at this
  have hmissing : ¬ Present o s (c + i) := by
    rintro (⟨k, hk, hq⟩ | hq)
    · exact h.missing (c + i) o.ringSize (by rw [hw]; rfl) k hk hq
    · rw [hw] at hq
      cases hq
  -- only the new page is counted once more, and it is about to be in the ring
  have hcount : ∀ q n, (s.files.count q ≤ n + 1 ∧ (s.files.count q = n + 1 → Present o s q)) →
      ((c + i) :: s.files).count q ≤ n + 1 ∧ (((c + i) :: s.files).count q = n + 1 →
        Present o { s with warmer := .storeAddress c i w ⟨s.mapped.length, c + i⟩,
                           mapped := ⟨s.mapped.length, c + i⟩ :: s.mapped } q) := by
    rintro q n ⟨hle, hpresent⟩
    by_cases hq : c + i = q
    · subst hq
      have hne : s.files.count (c + i) ≠ n + 1 := fun hc => hmissing (hpresent hc)
      rw [List.count_cons_self]
      exact ⟨by omega, fun _ => Or.inr rfl⟩
    · rw [List.count_cons_of_ne hq]
      refine ⟨hle, fun hc => ?_⟩
      rcases hpresent hc with hp | hp
      · exact Or.inl hp
      · rw [hw] at hp
        cases hp
  have hmem : ∀ {m : Mapping}, m ∈ s.mapped →
      m ∈ (⟨s.mapped.length, c + i⟩ : Mapping) :: s.mapped :=
    fun hm => List.mem_cons_of_mem _ hm
  exact { h with
    numbered := ⟨rfl, h.numbered⟩
    index := by simp only [List.length_cons, hlen]; rfl
    loaded := fun x hx => h.loaded x (by rw [hw]; exact hx)
    seen := by rintro c' hc'; cases hc'; exact hseen
    distance := by rintro c' i' hi'; cases hi'; exact hdist
    claimed := by rintro w' hw'; cases hw'; exact hclaimed
    stale := by rintro _ _ _ hq; cases hq
    latest := by rintro q hq; cases hq; rw [List.head?_cons, hlen]
    ahead := by
      intro q hq
      rcases List.mem_cons.mp hq with rfl | hq
      · simp only [Warmer.seen, Option.getD_some]
        omega
      · exact hahead q hq
    positive := by
      intro q hq
      rcases List.mem_cons.mp hq with rfl | hq
      · simp only
        omega
      · exact h.positive q hq
    order := by
      refine List.pairwise_cons.mpr ⟨fun q hq => ?_, h.order⟩
      have := hahead q hq
      simp only
      omega
    missing := by rintro q n hq; cases hq
    slots := fun k hk hpos => (h.slots k hk hpos).imp fun m hm => ⟨hmem hm.1, hm.2⟩
    window := fun p idx hp => (h.window p idx hp).imp fun m hm => ⟨hmem hm.1, hm.2⟩
    once := fun q hq => hcount q 0 (h.once q hq)
    twice := fun q hq => hcount q 1 (h.twice q hq) }

/-- A page is published in the slot the warmer has claimed. -/
theorem Tally.publish (h : Tally o s) (hN : 0 < o.ringSize) {c : Int} {i w : Nat}
    (hw : s.warmer = .storePageId c i w) :
    Tally o { s.setSlot (w % o.ringSize)
      ({ · with pageId := c + i }) with warmer := .fetchAdd c i } := by
  have hwi : w = s.writeIndex := h.loaded w (by rw [hw]; rfl)
  have hindex : s.mapped.length = s.writeIndex + 1 := by
    have := h.index
    rwa [hw] at this
  have hahead : ∀ q ∈ s.files, q ≤ c + o.warmupDistance := by
    have := h.ahead
    rwa [hw] at this
  have hseen := h.seen c (by rw [hw]; rfl)
  have hclaimed := h.claimed w (by rw [hw]; rfl)
  have hhead : (⟨s.writeIndex, c + i⟩ : Mapping) ∈ s.mapped :=
    List.mem_of_mem_head? (h.latest (c + i) (by rw [hw]; rfl))
  have hself : (Function.update s.ring (w % o.ringSize)
      { s.ring (w % o.ringSize) with pageId := c + i } (w % o.ringSize)).pageId = c + i := by
    rw [Function.update_self]
  have hother : ∀ j, j ≠ w % o.ringSize → Function.update s.ring (w % o.ringSize)
      { s.ring (w % o.ringSize) with pageId := c + i } j = s.ring j :=
    fun j hj => Function.update_of_ne hj ..
  have hpresent : ∀ q, 0 < q → Present o s q → Present o
      { s.setSlot (w % o.ringSize) ({ · with pageId := c + i }) with warmer := .fetchAdd c i }
        q := by
    rintro q hq (⟨j, hj, hjq⟩ | hq)
    · have hne : j ≠ w % o.ringSize := by
        rintro rfl
        omega
      exact Or.inl ⟨j, hj, (congrArg PageSlot.pageId (hother j hne)).trans hjq⟩
    · rw [hw] at hq
      cases hq
      exact Or.inl ⟨_, Nat.mod_lt _ hN, hself⟩
  have hpos : ∀ q n, s.files.count q = n + 1 → 0 < q :=
    fun q n hc => h.positive q (List.count_pos_iff.mp (by omega))
  exact { h with
    index := hindex
    loaded := by rintro x hx; cases hx
    seen := by rintro c' hc'; cases hc'; exact hseen
    distance := by rintro c' i' hi'; cases hi'
    claimed := by rintro w' hw'; cases hw'
    stale := by rintro _ _ _ hq; cases hq
    latest := by rintro q hq; cases hq
    ahead := hahead
    missing := by rintro q n hq; cases hq
    slots := by
      intro j hj hge
      by_cases hjk : j = w % o.ringSize
      · subst hjk
        refine ⟨_, hhead, hself.symm, ?_⟩
        rw [hwi]
      · have he := congrArg PageSlot.pageId (hother j hjk)
        obtain ⟨m, hm, hf, hs⟩ := h.slots j hj (he ▸ hge)
        exact ⟨m, hm, hf.trans he.symm, hs⟩
    once := fun q hq => ⟨(h.once q hq).1, fun hc => hpresent q (hpos q 0 hc) ((h.once q hq).2 hc)⟩
    twice := fun q hq =>
        ⟨(h.twice q hq).1, fun hc => hpresent q (hpos q 1 hc) ((h.twice q hq).2 hc)⟩ }

theorem Tally.seen_ahead (h : Tally o s) {c : Int} (hc : s.warmer.seen = some c) :
    (0 ≤ c ∧ c ≤ s.currentPage) ∧ ∀ q ∈ s.files, q ≤ c + o.warmupDistance := by
  have hahead := h.ahead
  rw [hc] at hahead
  exact ⟨h.seen c hc, hahead⟩

/-- The warmer is not about to warm a page. -/
structure Warmer.Resting (w : Warmer) : Prop where
  aim : w.aim = none
  loaded : w.loaded = none
  claimed : w.claimed = none
  publishing : w.publishing = none
  uncounted : w.uncounted = 0

/-- The warmer comes to rest, or goes on resting. -/
theorem Tally.rest (h : Tally o s) (w : Warmer) (hpub : s.warmer.publishing = none)
    (huncounted : s.warmer.uncounted = 0) (hw : w.Resting)
    (hseen : ∀ c, w.seen = some c →
      (0 ≤ c ∧ c ≤ s.currentPage) ∧ ∀ q ∈ s.files, q ≤ c + o.warmupDistance)
    (hstale : ∀ c j q, w = .cleanupClaim c j q → (0 ≤ q ∧ q < c - o.ringSize) ∧ j < o.ringSize) :
    Tally o { s with warmer := w } := by
  refine h.walk w (hw.publishing.trans hpub.symm) (hw.uncounted.trans huncounted.symm) hseen
    ?_ ?_ ?_ ?_ hstale
  · intro c' i' hi'
    rw [hw.aim] at hi'
    cases hi'
  · intro x hx
    rw [hw.loaded] at hx
    cases hx
  · intro x hx
    rw [hw.claimed] at hx
    cases hx
  · intro q n hq
    obtain ⟨c', i', hi', -⟩ := Warmer.missing_aim hq
    rw [hw.aim] at hi'
    cases hi'

/-- The warmer goes on with the page it is after. -/
theorem Tally.pursue (h : Tally o s) (w : Warmer) (haim : w.aim = s.warmer.aim)
    (hsome : w.aim.isSome) (hseen : w.seen = s.warmer.seen)
    (hpub : w.publishing = s.warmer.publishing) (huncounted : w.uncounted = s.warmer.uncounted)
    (hloaded : ∀ x, w.loaded = some x → x = s.writeIndex)
    (hclaimed : ∀ x, w.claimed = some x → (s.ring (x % o.ringSize)).pageId = -2)
    (hmissing : ∀ q n, w.missing o = some (q, n) → ∀ k, k < n → (s.ring k).pageId ≠ q) :
    Tally o { s with warmer := w } := by
  refine h.walk w hpub huncounted ?_ ?_ hloaded hclaimed hmissing ?_
  · intro c hc
    exact h.seen_ahead (hseen ▸ hc)
  · intro c i hi
    exact h.distance c i (haim ▸ hi)
  · rintro c j q rfl
    cases hsome

/-- The warmer goes on to a distance, or to the cleanup behind the last one. -/
theorem Tally.turn (h : Tally o s) {c : Int} {i : Nat} (hi : 1 ≤ i)
    (hpub : s.warmer.publishing = none) (huncounted : s.warmer.uncounted = 0)
    (hseen : (0 ≤ c ∧ c ≤ s.currentPage) ∧ ∀ q ∈ s.files, q ≤ c + o.warmupDistance) :
    Tally o { s with warmer := o.turn c i } := by
  unfold Options.turn
  split
  · rename_i hle
    refine h.walk (.scan c i 0) hpub.symm huncounted.symm ?_ ?_ ?_ ?_ ?_ ?_
    · rintro c' hc'
      cases hc'
      exact hseen
    · rintro c' i' hi'
      cases hi'
      exact ⟨hi, hle⟩
    · rintro x hx
      cases hx
    · rintro x hx
      cases hx
    · rintro q n hq k hk
      cases hq
      cases hk
    · rintro _ _ _ hq
      cases hq
  · refine h.rest (.cleanup c 0) hpub huncounted ⟨rfl, rfl, rfl, rfl, rfl⟩ ?_ ?_
    · rintro c' hc'
      cases hc'
      exact hseen
    · rintro _ _ _ hq
      cases hq

theorem Options.turn_claimed (o : Options) (c : Int) (i : Nat) : (o.turn c i).claimed = none := by
  unfold turn
  split
  · rfl
  · rfl

/-- `write_index_` counts the page that was published. -/
theorem Tally.advance (h : Tally o s) {c : Int} {i : Nat} (hw : s.warmer = .fetchAdd c i) :
    Tally o { s with warmer := .cleanup c 0, writeIndex := s.writeIndex + 1 } := by
  obtain ⟨hseen, hahead⟩ := h.seen_ahead (c := c) (by rw [hw]; rfl)
  have hindex := h.index
  rw [hw] at hindex
  have hpresent : ∀ q, Present o s q →
      Present o { s with warmer := .cleanup c 0, writeIndex := s.writeIndex + 1 } q := by
    rintro q (hq | hq)
    · exact Or.inl hq
    · rw [hw] at hq
      cases hq
  exact { h with
    index := hindex
    loaded := by rintro x hx; cases hx
    seen := by rintro c' hc'; cases hc'; exact hseen
    distance := by rintro c' i' hi'; cases hi'
    claimed := by rintro w' hw'; cases hw'
    stale := by rintro _ _ _ hq; cases hq
    latest := by rintro q hq; cases hq
    ahead := hahead
    missing := by rintro q n hq; cases hq
    once := fun q hq => ⟨(h.once q hq).1, fun hc => hpresent q ((h.once q hq).2 hc)⟩
    twice := fun q hq => ⟨(h.twice q hq).1, fun hc => hpresent q ((h.twice q hq).2 hc)⟩ }

end Revoq.WarmupRing
