import Revoq.PageMappings

/-! # The account of the mappings

A process loads pages, warms them, hands warmed pages on and destroys pages, in any
order, and the kernel may fail any system call.  After each of these steps the
descriptors are those from before, and every mapping belongs to one page or one warmed
slot, but for those that a rejected header or a failed `munmap` has left behind, one
each.
-/
namespace Revoq.PageMappings
open CallProgram MmapBuffer

/-- What of a process holds mappings: its pages, and what its warmers have in their slots. -/
structure Process where
  kernel : Kernel
  pages : List Page
  warmed : List (Nat × Nat)

/-- How a step ends. -/
inductive Outcome where
  | done
  | loadThrew (e : JournalError)
  /-- A warmed mapping of this size has become the page. -/
  | adopted (size : Nat) (page : Page)
  | adoptThrew (e : JournalError)

/-- The steps that leave a mapping behind. -/
def Outcome.leaves : Outcome → Bool
  | .loadThrew e => e.afterMapping
  | .adoptThrew _ => true
  | _ => false

/-- **A step of the process.** -/
inductive Step (s : Process) : Outcome → Process → Prop where
  | load {path : String} {category : Category} {P : PageSize} {isWriting prefault : Bool}
      {page : Page} {k : Kernel}
      (h : Ends kernel (load path category P isWriting prefault) s.kernel (.ok page) k) :
      Step s .done { s with kernel := k, pages := page :: s.pages }
  | loadThrew {path : String} {category : Category} {P : PageSize} {isWriting prefault : Bool}
      {e : JournalError} {k : Kernel}
      (h : Ends kernel (PageMappings.load path category P isWriting prefault)
      s.kernel (.error e) k) :
      Step s (.loadThrew e) { s with kernel := k }
  | destroy {page : Page} {k : Kernel} (hp : page ∈ s.pages)
      (h : Ends kernel (destroy page : Program Call.Answer Empty Unit) s.kernel (.ok ()) k) :
      Step s .done { s with kernel := k, pages := s.pages.erase page }
  | warm {path : String} {P : PageSize} {isWriter : Bool} {addr : Nat} {k : Kernel}
      (h : Ends kernel (warmPageIntoSlot path P.bytes isWriter) s.kernel (.ok addr) k) :
      Step s .done { s with kernel := k, warmed := (addr, P.bytes) :: s.warmed }
  | warmThrew {path : String} {P : PageSize} {isWriter : Bool} {e : MmapError} {k : Kernel}
      (h : Ends kernel (warmPageIntoSlot path P.bytes isWriter) s.kernel (.error e) k) :
      Step s .done { s with kernel := k }
  | readerWarm {path : String} {P : PageSize} {timeoutMs addr : Nat} {k : Kernel}
      (h : Ends kernel (readerWarm path P.bytes timeoutMs : Program Call.Answer Empty (Option Nat))
        s.kernel (.ok (some addr)) k) :
      Step s .done { s with kernel := k, warmed := (addr, P.bytes) :: s.warmed }
  | readerWarmNone {path : String} {P : PageSize} {timeoutMs : Nat} {k : Kernel}
      (h : Ends kernel (PageMappings.readerWarm path P.bytes timeoutMs :
        Program Call.Answer Empty (Option Nat))
        s.kernel (.ok none) k) :
      Step s .done { s with kernel := k }
  /-- The writer's `rotatePage` takes a warmed page. -/
  | rotate {id : Int} {category : Category} {prefault : Bool} {addr size : Nat}
      {page : Page} {k : Kernel} (hw : (addr, size) ∈ s.warmed)
      (h : Ends kernel (loadFromAddress id category addr prefault) s.kernel (.ok page) k) :
      Step s (.adopted size page) ⟨k, page :: s.pages, s.warmed.erase (addr, size)⟩
  /-- It has taken the address, and the exception leaves `rotatePage`. -/
  | rotateThrew {id : Int} {category : Category} {prefault : Bool} {addr size : Nat}
      {e : JournalError} {k : Kernel} (hw : (addr, size) ∈ s.warmed)
      (h : Ends kernel (loadFromAddress id category addr prefault) s.kernel (.error e) k) :
      Step s (.adoptThrew e) { s with kernel := k, warmed := s.warmed.erase (addr, size) }
  /-- `Journal::loadPage` takes a warmed page. -/
  | take {id : Int} {category : Category} {addr size : Nat} {page : Page} {k : Kernel}
      (hw : (addr, size) ∈ s.warmed)
      (h : Ends kernel (takeWarmed id category addr size : Program Call.Answer Empty (Option Page))
      s.kernel
        (.ok (some page)) k) :
      Step s (.adopted size page) ⟨k, page :: s.pages, s.warmed.erase (addr, size)⟩
  | takeNone {id : Int} {category : Category} {addr size : Nat} {k : Kernel}
      (hw : (addr, size) ∈ s.warmed)
      (h : Ends kernel (takeWarmed id category addr size : Program Call.Answer Empty (Option Page))
      s.kernel
        (.ok none) k) :
      Step s .done { s with kernel := k, warmed := s.warmed.erase (addr, size) }
  /-- A warmer drops a slot. -/
  | release {addr size : Nat} {k : Kernel} (hw : (addr, size) ∈ s.warmed)
      (h : Ends kernel (release addr size : Program Call.Answer Empty Unit) s.kernel (.ok ()) k) :
      Step s .done { s with kernel := k, warmed := s.warmed.erase (addr, size) }

/-- A run of a process that has these descriptors open and no page, the latest outcome
first. -/
inductive Run (fds : List Nat) : List Outcome → Process → Prop where
  | start : Run fds [] ⟨⟨fds, [], 0⟩, [], []⟩
  | step {tr : List Outcome} {s s' : Process} {x : Outcome} (h : Run fds tr s) (hs : Step s x s') :
      Run fds (x :: tr) s'

/-- The header of every warmed page that was handed on has the size that was mapped. -/
def Sized (tr : List Outcome) : Prop :=
  ∀ size page, Outcome.adopted size page ∈ tr → page.size = size

/-! ## Mappings and their owners -/

def Page.range (page : Page) : Nat × Nat := (page.address, page.size)

/-- The mappings that have an owner. -/
def Process.owned (s : Process) : List (Nat × Nat) := s.pages.map Page.range ++ s.warmed

theorem map_eraseP (maps : List Mapping) (addr size : Nat) :
    (maps.eraseP (Mapping.at addr size)).map Mapping.range = (maps.map Mapping.range).erase
    (addr, size) := by
  induction maps with
  | nil => rfl
  | cons m maps ih =>
    rw [List.map_cons]
    by_cases hm : m.range = (addr, size)
    · rw [List.eraseP_cons_of_pos (Mapping.at_iff.mpr hm), hm, List.erase_cons_head]
    · rw [List.eraseP_cons_of_neg (mt Mapping.at_iff.mp hm), List.map_cons, ih,
        List.erase_cons_tail (by simpa using hm)]

/-- **The account**: every mapping has its owner, but for `n` of them and those that
`munmap` has not taken down. -/
def Balanced (k : Kernel) (owned : List (Nat × Nat)) (n : Nat) : Prop :=
  ∃ stray : List (Nat × Nat),
    (k.maps.map Mapping.range).Perm (owned ++ stray) ∧ stray.length = n + k.refused

namespace Balanced

variable {k k' : Kernel} {owned owned' : List (Nat × Nat)} {n addr size : Nat} {m : Mapping}

theorem same (h : Balanced k owned n) (hk : Same k k') : Balanced k' owned n := by
  obtain ⟨stray, hperm, hlen⟩ := h
  rcases hk with rfl | ⟨m, rfl⟩
  · exact ⟨stray, hperm, hlen⟩
  · refine ⟨m.range :: stray, ?_, congrArg Nat.succ hlen⟩
    exact (hperm.cons m.range).trans List.perm_middle.symm

/-- What is owned passes from one owner to another. -/
theorem move (h : Balanced k owned n) (hp : owned.Perm owned') : Balanced k owned' n := by
  obtain ⟨stray, hperm, hlen⟩ := h
  exact ⟨stray, hperm.trans (hp.append_right stray), hlen⟩

theorem gain (h : Balanced k owned n) (hk : Gains k k' m) : Balanced k' (m.range :: owned) n := by
  obtain ⟨stray, hperm, hlen⟩ := h
  refine ⟨stray, ?_, hlen.trans (by rw [hk.refused])⟩
  rw [hk.maps]
  exact hperm.cons _

/-- A mapping is left behind. -/
theorem leave {r : Nat × Nat} (h : Balanced k (r :: owned) n) : Balanced k owned (n + 1) := by
  obtain ⟨stray, hperm, hlen⟩ := h
  refine ⟨r :: stray, hperm.trans List.perm_middle.symm, ?_⟩
  rw [List.length_cons, hlen, Nat.add_right_comm]

theorem lose (h : Balanced k ((addr, size) :: owned) n) (hk : Loses k k' addr size) :
    Balanced k' owned n := by
  rcases hk with rfl | rfl
  · obtain ⟨stray, hperm, hlen⟩ := h
    refine ⟨stray, ?_, hlen⟩
    have := hperm.erase (addr, size)
    rwa [List.cons_append, List.erase_cons_head, ← map_eraseP] at this
  · obtain ⟨stray, hperm, hlen⟩ := h
    refine ⟨(addr, size) :: stray, ?_, congrArg Nat.succ hlen⟩
    exact hperm.trans List.perm_middle.symm

theorem mapped (h : Balanced k owned n) (hr : (addr, size) ∈ owned) :
    ∃ m ∈ k.maps, Mapping.at addr size m := by
  obtain ⟨stray, hperm, -⟩ := h
  obtain ⟨m, hm, hr⟩ := List.mem_map.mp (hperm.mem_iff.mpr (List.mem_append_left _ hr))
  exact ⟨m, hm, Mapping.at_iff.mpr hr⟩

end Balanced

/-! ## What the kernel sees to -/

/-- **Mappings lie apart**, none at the null address. -/
structure Apart (k : Kernel) : Prop where
  pairwise : k.maps.Pairwise Mapping.Apart
  address : ∀ m ∈ k.maps, m.addr ≠ 0

theorem Apart.unmap {k : Kernel} (h : Apart k) (addr size : Nat) : Apart (k.unmap addr size) :=
  ⟨h.pairwise.sublist List.eraseP_sublist, fun m hm => h.address m (List.eraseP_sublist.subset hm)⟩

theorem Apart.answers {k k' : Kernel} {c : Call} {x : Call.Answer c}
    (hx : kernel.answers k c x k') (h : Apart k) :
    Apart k' := by
  have hsame : ∀ {fds : List Nat} {refused : Nat},
      k' = { k with fds := fds, refused := refused } → Apart k' := by
    rintro fds refused rfl
    exact ⟨h.pairwise, h.address⟩
  cases c with
  | «open» path write creat =>
    cases x with
    | ok fd => exact hsame hx.2
    | error errno => exact hsame hx
  | mmap fd size write populate =>
    cases x with
    | ok addr =>
      obtain ⟨h0, hapart, rfl⟩ := hx
      refine ⟨List.pairwise_cons.mpr ⟨hapart, h.pairwise⟩, fun m hm => ?_⟩
      rcases List.mem_cons.mp hm with rfl | hm
      · exact h0
      · exact h.address m hm
    | error errno => exact hsame hx
  | munmap addr size =>
    have hx : k' = if x = none then k.unmap addr size else k.refuse := hx
    split at hx
    · exact hx ▸ h.unmap addr size
    · exact hsame hx
  | close fd => exact hsame hx
  | zero addr size => exact hsame hx.2
  | writeField addr field value => exact hsame hx.2
  | _ => exact hsame hx

/-! ## Runs -/

/-- **The ledger** of a process after a run. -/
structure Ledger (fds : List Nat) (tr : List Outcome) (s : Process) : Prop where
  fds : s.kernel.fds = fds
  balance : Balanced s.kernel s.owned (tr.countP Outcome.leaves)
  apart : Apart s.kernel
  sizes : ∀ slot ∈ s.warmed, pageHeaderSize ≤ slot.2

namespace Ledger

variable {fds : List Nat} {tr : List Outcome} {s : Process}

theorem mapped_page (h : Ledger fds tr s) {page : Page} (hp : page ∈ s.pages) :
    ∃ m ∈ s.kernel.maps, Mapping.at page.address page.size m :=
  h.balance.mapped (List.mem_append_left _ (List.mem_map_of_mem (f := Page.range) hp))

theorem mapped_warmed (h : Ledger fds tr s) {addr size : Nat} (hw : (addr, size) ∈ s.warmed) :
    ∃ m ∈ s.kernel.maps, Mapping.at addr size m := h.balance.mapped (List.mem_append_right _ hw)

theorem address_ne (h : Ledger fds tr s) {addr size : Nat}
    (hm : ∃ m ∈ s.kernel.maps, Mapping.at addr size m) :
    addr ≠ 0 := by
  obtain ⟨m, hm, hat⟩ := hm
  have hrange := Mapping.at_iff.mp hat
  have := h.apart.address m hm
  rwa [show m.addr = addr from congrArg Prod.fst hrange] at this

theorem headerAt (h : Ledger fds tr s) {addr size : Nat} (hw : (addr, size) ∈ s.warmed) :
    HeaderAt s.kernel addr := by
  obtain ⟨m, hm, hat⟩ := h.mapped_warmed hw
  have hrange := Mapping.at_iff.mp hat
  refine ⟨m, hm, congrArg Prod.fst hrange, ?_⟩
  rw [show m.size = size from congrArg Prod.snd hrange]
  exact h.sizes _ hw

/-- The mapping of a page, and what else is owned. -/
theorem owned_page {page : Page} (hp : page ∈ s.pages) :
    s.owned.Perm ((page.address, page.size) :: ((s.pages.erase page).map Page.range ++ s.warmed)) :=
  ((List.perm_cons_erase hp).map Page.range).append_right s.warmed

theorem owned_warmed {addr size : Nat} (hw : (addr, size) ∈ s.warmed) :
    s.owned.Perm ((addr, size) :: (s.pages.map Page.range ++ s.warmed.erase (addr, size))) :=
  ((List.perm_cons_erase hw).append_left _).trans List.perm_middle

theorem sizes_erase (h : Ledger fds tr s) (slot : Nat × Nat) :
    ∀ r ∈ s.warmed.erase slot, pageHeaderSize ≤ r.2 := fun r hr =>
        h.sizes r (List.mem_of_mem_erase hr)

theorem header_le (P : PageSize) : pageHeaderSize ≤ P.bytes := by
  have := P.roomy
  rw [pageHeaderSize]
  omega

/-- A step that leaves nothing behind. -/
theorem quiet {x : Outcome} {s' : Process} (hx : x.leaves = false) (hfds : s'.kernel.fds = fds)
    (hbalance : Balanced s'.kernel s'.owned (tr.countP Outcome.leaves)) (hapart : Apart s'.kernel)
    (hsizes : ∀ slot ∈ s'.warmed, pageHeaderSize ≤ slot.2) : Ledger fds (x :: tr) s' := by
  refine ⟨hfds, ?_, hapart, hsizes⟩
  rwa [List.countP_cons_of_neg (by simp [hx])]

/-- A step that leaves a mapping behind. -/
theorem leaving {x : Outcome} {s' : Process} {r : Nat × Nat} (hx : x.leaves = true)
    (hfds : s'.kernel.fds = fds)
    (hbalance : Balanced s'.kernel (r :: s'.owned) (tr.countP Outcome.leaves))
    (hapart : Apart s'.kernel) (hsizes : ∀ slot ∈ s'.warmed, pageHeaderSize ≤ slot.2) :
    Ledger fds (x :: tr) s' := by
  refine ⟨hfds, ?_, hapart, hsizes⟩
  rw [List.countP_cons_of_pos hx]
  exact hbalance.leave

theorem start (fds : List Nat) : Ledger fds [] ⟨⟨fds, [], 0⟩, [], []⟩ :=
  ⟨rfl, ⟨[], .nil, rfl⟩, ⟨.nil, fun m hm => (by cases hm)⟩, fun slot hslot => (by cases hslot)⟩

/-- A warmed page that is handed on. -/
theorem adopt (h : Ledger fds tr s) {addr size : Nat} {page : Page} {k : Kernel}
    (hw : (addr, size) ∈ s.warmed) (hk : k = s.kernel) (haddr : page.address = addr)
    (hsize : page.size = size) :
    Ledger fds (.adopted size page :: tr) ⟨k, page :: s.pages, s.warmed.erase (addr, size)⟩ := by
  subst hk
  refine quiet rfl h.fds (h.balance.move ?_) h.apart (h.sizes_erase _)
  rw [← haddr, ← hsize] at hw ⊢
  exact owned_warmed hw

/-- A warmed page that is let go. -/
theorem drop (h : Ledger fds tr s) {addr size : Nat} {k : Kernel} (hw : (addr, size) ∈ s.warmed)
    (hk : Loses s.kernel k addr size) (hapart : Apart k) :
    Ledger fds (.done :: tr) { s with kernel := k, warmed := s.warmed.erase (addr, size) } :=
  quiet rfl (hk.descriptors.trans h.fds) ((h.balance.move (owned_warmed hw)).lose hk) hapart
    (h.sizes_erase _)

/-- A page that is warmed. -/
theorem warm (h : Ledger fds tr s) {m : Mapping} {k : Kernel} (hk : Gains s.kernel k m)
    (hapart : Apart k) (hsize : pageHeaderSize ≤ m.size) :
    Ledger fds (.done :: tr) { s with kernel := k, warmed := (m.addr, m.size) :: s.warmed } := by
  refine quiet rfl (hk.fds.trans h.fds) ((h.balance.gain hk).move List.perm_middle.symm) hapart
    fun slot hslot => ?_
  rcases List.mem_cons.mp hslot with rfl | hslot
  · exact hsize
  · exact h.sizes slot hslot

/-- **A step keeps the ledger.** -/
theorem step (h : Ledger fds tr s) {x : Outcome} {s' : Process} (hs : Step s x s')
    (hsized : ∀ size page, x = .adopted size page → page.size = size) :
    Ledger fds (x :: tr) s' := by
  -- whatever the kernel answers, no two mappings overlap
  have hapart : ∀ {ε α : Type} {p : Program Call.Answer ε α} {r : Except ε α} {k : Kernel},
      Ends kernel p s.kernel r k → Apart k := fun he =>
          he.preserves (fun _ _ _ _ => Apart.answers) h.apart
  cases hs with
  | @load path category P isWriting prefault page k he =>
    obtain ⟨hsize, hk⟩ :=
      ((ensures_load s.kernel path category P isWriting prefault).ends he).1 _ rfl
    refine quiet rfl (hk.fds.trans h.fds) ?_ (hapart he) h.sizes
    have := h.balance.gain hk
    rwa [Mapping.range, ← hsize] at this
  -- after the mapping the exception leaves it behind: it becomes a stray
  | @loadThrew path category P isWriting prefault e k he =>
    have hk := ((ensures_load s.kernel path category P isWriting prefault).ends he).2 _ rfl
    cases hleaves : e.afterMapping with
    | true =>
      rw [if_pos hleaves] at hk
      obtain ⟨addr, hk⟩ := hk
      exact leaving hleaves (hk.fds.trans h.fds) (h.balance.gain hk) (hapart he) h.sizes
    | false =>
      rw [if_neg (by simp [hleaves])] at hk
      exact quiet hleaves (hk.descriptors.trans h.fds) (h.balance.same hk) (hapart he) h.sizes
  | @destroy page k hp he =>
    have hmapped := h.mapped_page hp
    have hk := ((ensures_destroy (R := fun _ _ => True) (h.address_ne hmapped) hmapped).ends he).1
      _ rfl
    exact quiet rfl (hk.descriptors.trans h.fds) ((h.balance.move (owned_page hp)).lose hk)
      (hapart he) h.sizes
  | @warm path P isWriter addr k he =>
    have hk := ((ensures_warmPageIntoSlot s.kernel path (header_le P) isWriter).ends he).1 _ rfl
    exact h.warm hk (hapart he) (header_le P)
  | @warmThrew path P isWriter e k he =>
    have hk := ((ensures_warmPageIntoSlot s.kernel path (header_le P) isWriter).ends he).2 _ rfl
    exact quiet rfl (hk.descriptors.trans h.fds) (h.balance.same hk) (hapart he) h.sizes
  | @readerWarm path P timeoutMs addr k he =>
    have hk :=
      ((ensures_readerWarm (R := fun _ _ => True) s.kernel path (header_le P) timeoutMs).ends he).1
      _ rfl
    exact h.warm hk (hapart he) (header_le P)
  | @readerWarmNone path P timeoutMs k he =>
    have hk :=
      ((ensures_readerWarm (R := fun _ _ => True) s.kernel path (header_le P) timeoutMs).ends he).1
      _ rfl
    have hk : Same s.kernel k := hk
    exact quiet rfl (hk.descriptors.trans h.fds) (h.balance.same hk) (hapart he) h.sizes
  | @rotate id category prefault addr size page k hw he =>
    have hmapped := h.mapped_warmed hw
    obtain ⟨hk, haddr⟩ :=
      ((ensures_loadFromAddress (h.headerAt hw) (h.address_ne hmapped)).ends he).1 _ rfl
    exact h.adopt hw hk haddr (hsized size page rfl)
  -- the buffer was taken out of the ring, and no page has taken it over
  | @rotateThrew id category prefault addr size e k hw he =>
    have hmapped := h.mapped_warmed hw
    have hk : k = s.kernel :=
      ((ensures_loadFromAddress (h.headerAt hw) (h.address_ne hmapped)).ends he).2 _ rfl
    subst hk
    exact leaving rfl h.fds (h.balance.move (owned_warmed hw)) h.apart (h.sizes_erase _)
  | @take id category addr size page k hw he =>
    have hmapped := h.mapped_warmed hw
    obtain ⟨hk, haddr⟩ :=
      ((ensures_takeWarmed (R := fun _ _ => True) (h.sizes _ hw) (h.address_ne hmapped)
      hmapped).ends he).1 _ rfl
    exact h.adopt hw hk haddr (hsized size page rfl)
  -- the reader releases the page that it cannot use
  | @takeNone id category addr size k hw he =>
    have hmapped := h.mapped_warmed hw
    have hk := ((ensures_takeWarmed (R := fun _ _ => True) (h.sizes _ hw) (h.address_ne hmapped)
      hmapped).ends he).1 _ rfl
    exact h.drop hw hk (hapart he)
  | @release addr size k hw he =>
    have hmapped := h.mapped_warmed hw
    have hk := ((ensures_release (R := fun _ _ => True) (h.address_ne hmapped) hmapped).ends he).1
      _ rfl
    exact h.drop hw hk (hapart he)

end Ledger

/-- **A run keeps the ledger.** -/
theorem Run.ledger {fds : List Nat} {tr : List Outcome} {s : Process} (h : Run fds tr s)
    (hsized : Sized tr) :
    Ledger fds tr s := by
  induction h with
  | start => exact .start fds
  | step _ hs ih =>
    refine (ih fun size page hx => hsized size page (List.mem_cons_of_mem _ hx)).step hs
      fun size page hx => ?_
    exact hsized size page (hx ▸ List.mem_cons_self)

/-- **No call is out of order**, whatever the process does next. -/
structure InOrder (s : Process) : Prop where
  load : ∀ path category P isWriting prefault,
    ¬ GoesWrong kernel (load path category P isWriting prefault) s.kernel
  destroy : ∀ page ∈ s.pages, ¬ GoesWrong kernel
    (destroy page : Program Call.Answer Empty Unit) s.kernel
  warm : ∀ path (P : PageSize) isWriter, ¬ GoesWrong kernel
    (warmPageIntoSlot path P.bytes isWriter) s.kernel
  readerWarm : ∀ path (P : PageSize) timeoutMs,
    ¬ GoesWrong kernel (readerWarm path P.bytes timeoutMs : Program Call.Answer Empty (Option Nat))
      s.kernel
  rotate : ∀ addr size, (addr, size) ∈ s.warmed → ∀ id category prefault,
    ¬ GoesWrong kernel (loadFromAddress id category addr prefault) s.kernel
  take : ∀ addr size, (addr, size) ∈ s.warmed → ∀ id category,
    ¬ GoesWrong kernel (takeWarmed id category addr size : Program Call.Answer Empty (Option Page))
      s.kernel
  release : ∀ addr size, (addr, size) ∈ s.warmed →
    ¬ GoesWrong kernel (release addr size : Program Call.Answer Empty Unit) s.kernel

theorem Ledger.inOrder {fds : List Nat} {tr : List Outcome} {s : Process}
    (h : Ledger fds tr s) : InOrder s where
  load path category P isWriting prefault :=
    (ensures_load s.kernel path category P isWriting prefault).not_goesWrong
  destroy _ hp :=
    (ensures_destroy (R := fun _ _ => True) (h.address_ne (h.mapped_page hp))
      (h.mapped_page hp)).not_goesWrong
  warm path P isWriter :=
    (ensures_warmPageIntoSlot s.kernel path (header_le P) isWriter).not_goesWrong
  readerWarm path P timeoutMs :=
    (ensures_readerWarm (R := fun _ _ => True) s.kernel path (header_le P) timeoutMs).not_goesWrong
  rotate _ _ hw _ _ _ :=
    (ensures_loadFromAddress (h.headerAt hw) (h.address_ne (h.mapped_warmed hw))).not_goesWrong
  take _ _ hw _ _ :=
    (ensures_takeWarmed (R := fun _ _ => True) (h.sizes _ hw) (h.address_ne (h.mapped_warmed hw))
      (h.mapped_warmed hw)).not_goesWrong
  release _ _ hw :=
    (ensures_release (R := fun _ _ => True) (h.address_ne (h.mapped_warmed hw))
      (h.mapped_warmed hw)).not_goesWrong

/-- **Descriptors and mappings are accounted for**, in every run of a process that loads,
warms, hands on and destroys pages, whatever the kernel answers.  After each step the
descriptors are those from before; the mappings lie apart, and each belongs to one page
or one warmed slot, except for one left behind by each `Page::load` that has rejected a
header, by each `rotatePage` that has rejected a warmed page and by each `munmap` that
has failed.  No call names a descriptor that is closed or memory that is not mapped, now
or next.

The header of a warmed page that is handed on has the size that was mapped:
`loadFromAddress` releases the page by it and does not check it. -/
theorem mappings_accounted (fds : List Nat) (tr : List Outcome) (s : Process) (h : Run fds tr s)
    (hsized : Sized tr) :
    s.kernel.fds = fds ∧ s.kernel.maps.Pairwise Mapping.Apart ∧
      (∃ stray : List (Nat × Nat), (s.kernel.maps.map Mapping.range).Perm (s.owned ++ stray) ∧
        stray.length = tr.countP Outcome.leaves + s.kernel.refused) ∧ InOrder s := by
  have hl := h.ledger hsized
  exact ⟨hl.fds, hl.apart.pairwise, hl.balance, hl.inOrder⟩

/-- A writer maps a page, and when it lets it go `munmap` fails; the next page file is of
another version.  Two mappings stay, and nobody holds them. -/
theorem mappings_accounted_stray :
    ∃ (tr : List Outcome) (s : Process), Run [] tr s ∧ s.owned = [] ∧ s.kernel.fds = [] ∧
      ∃ stray : List (Nat × Nat), (s.kernel.maps.map Mapping.range).Perm (s.owned ++ stray) ∧
        stray.length = 2 := by
  let low : Mapping := ⟨4096, pageSizeDefault.bytes, true⟩
  let high : Mapping := ⟨268435456, pageSizeDefault.bytes, true⟩
  let page : Page := ⟨4096, pageSizeDefault.bytes, false, .log⟩
  have hload : Ends kernel (load "1.journal" .log pageSizeDefault true false) ⟨[], [], 0⟩
      (.ok page) ⟨[], [low], 0⟩ := by
    refine .call (c := Call.stat _) (x := some pageSizeDefault.bytes) rfl ?_
    have hopen : kernel.answers ⟨[], [], 0⟩ (.open "1.journal" true true) (.ok 3) ⟨[3], [], 0⟩ :=
      ⟨by simp, rfl⟩
    refine .call hopen ?_
    have hmmap : kernel.answers ⟨[3], [], 0⟩ (.mmap 3 pageSizeDefault.bytes true false) (.ok 4096)
        ⟨[3], [low], 0⟩ := ⟨by decide, fun m hm => (by cases hm), rfl⟩
    refine .call hmmap ?_
    refine .call (c := Call.close 3) (x := ()) rfl ?_
    refine .call (c := Call.readField 4096 PageField.lastFramePosition) (x := (64 : Nat)) rfl ?_
    refine .call (c := Call.readField 4096 PageField.version) (x := (2 : Nat)) rfl ?_
    refine .call (c := Call.readField 4096 PageField.pageHeaderLength) (x := (64 : Nat)) rfl ?_
    refine .call (c := Call.readField 4096 PageField.pageSize) (x := pageSizeDefault.bytes) rfl ?_
    refine .call (c := Call.readField 4096 PageField.lastFramePosition) (x := (64 : Nat)) rfl ?_
    exact .done _ _
  have hdestroy : Ends kernel (destroy page : Program Call.Answer Empty Unit) ⟨[], [low], 0⟩
      (.ok ()) ⟨[], [low], 1⟩ := by
    refine .call (c := Call.msync 4096 _ false) (x := none) rfl ?_
    refine .call (c := Call.munmap 4096 _) (x := some 12) rfl ?_
    exact .done _ _
  have hreject : Ends kernel (load "2.journal" .log pageSizeDefault true false) ⟨[], [low], 1⟩
      (.error (.version "2.journal" 7)) ⟨[], [high, low], 1⟩ := by
    refine .call (c := Call.stat _) (x := some pageSizeDefault.bytes) rfl ?_
    have hopen : kernel.answers ⟨[], [low], 1⟩ (.open "2.journal" true true) (.ok 3)
        ⟨[3], [low], 1⟩ := ⟨by simp, rfl⟩
    refine .call hopen ?_
    have hmmap : kernel.answers ⟨[3], [low], 1⟩ (.mmap 3 pageSizeDefault.bytes true false)
        (.ok 268435456) ⟨[3], [high, low], 1⟩ := by
      refine ⟨by decide, fun m hm => ?_, rfl⟩
      obtain rfl := List.mem_singleton.mp hm
      exact Or.inr (by decide)
    refine .call hmmap ?_
    refine .call (c := Call.close 3) (x := ()) rfl ?_
    refine .call (c := Call.readField 268435456 PageField.lastFramePosition)
      (x := (64 : Nat)) rfl ?_
    refine .call (c := Call.readField 268435456 PageField.version) (x := (7 : Nat)) rfl ?_
    refine .call (c := Call.readField 268435456 PageField.version) (x := (7 : Nat)) rfl ?_
    exact .throw _ _
  have hrun : Run [] [.loadThrew (.version "2.journal" 7), .done, .done]
      ⟨⟨[], [high, low], 1⟩, [], []⟩ := by
    have hpage : Run [] [.done] ⟨⟨[], [low], 0⟩, [page], []⟩ := .step .start (.load hload)
    have hgone := hpage.step (.destroy List.mem_cons_self hdestroy)
    rw [List.erase_cons_head] at hgone
    exact hgone.step (.loadThrew hreject)
  obtain ⟨hfds, -, hstray, -⟩ := mappings_accounted [] _ _ hrun fun size page hx => (by
    rcases List.mem_cons.mp hx with hx | hx
    · cases hx
    · rcases List.mem_cons.mp hx with hx | hx
      · cases hx
      · cases List.mem_singleton.mp hx)
  exact ⟨_, _, hrun, rfl, hfds, hstray⟩

end Revoq.PageMappings
