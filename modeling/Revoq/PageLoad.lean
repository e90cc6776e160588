import Revoq.PageFile

/-! # Mapping a page nobody has written frames to

A page ahead of the writer is in one of few states: its file is absent, or it
was created and perhaps allocated, or its header is initialised; in every case
its frame area is what `b` says (`Ahead`).  `Page.loadCode` run by a process that
maps it writable keeps the page in such a state after every single store, and
ends with an initialised header (`LoadAt`, `LoadAt.step`): the last header field
it stores is the one that makes the header count as initialised.

Others may work on the same page until the loading process has opened the file,
as long as they too keep it `Ahead` (`LoadAt.stable`).
-/
namespace Revoq
open ByteImage StmtMachine

variable {P : PageSize} {b : Image} {d d' : Disk} {r : LoadRegs} {p : Nat}

/-! ## The header of a page without frames -/

/-- The header is not initialised yet, or it is and points at the first frame. -/
def HeaderFresh (P : PageSize) (m : Image) (size : Nat) : Prop :=
  lastFramePosition m = 0 ∨
    HeaderOk P m ∧ lastFramePosition m = pageHeaderSize ∧ P.bytes ≤ size

theorem HeaderFresh.mono {m : Image} {size size' : Nat} (h : HeaderFresh P m size)
    (hle : size ≤ size') : HeaderFresh P m size' :=
  h.imp_right fun ⟨h1, h2, h3⟩ => ⟨h1, h2, Nat.le_trans h3 hle⟩

/-- The frame area is `b`. -/
abbrev AreaIs (P : PageSize) (b m : Image) : Prop := Set.EqOn m b (Set.Ico pageHeaderSize P.bytes)

/-- A page no frame has been published on; an absent file counts as a zero one. -/
structure Ahead (P : PageSize) (b : Image) (d : Disk) (p : Nat) : Prop where
  absent : d.size p = none → AreaIs P b blank
  area : (d.size p).isSome → AreaIs P b (d.image p)
  header : ∀ size, d.size p = some size → HeaderFresh P (d.image p) size

theorem Ahead.of_same (h : Ahead P b d p) (hs : d.SameFile d' p) : Ahead P b d' p :=
  ⟨fun e => h.absent (hs.1 ▸ e), fun e => hs.2 ▸ h.area (hs.1 ▸ e),
    fun size e => hs.2 ▸ h.header size (hs.1 ▸ e)⟩

theorem Disk.SameFile.refl (d : Disk) (p : Nat) : d.SameFile d p := ⟨rfl, rfl⟩

theorem Disk.SameFile.trans {d'' : Disk} (h : d.SameFile d' p) (h' : d'.SameFile d'' p) :
    d.SameFile d'' p := ⟨h'.1.trans h.1, h'.2.trans h.2⟩

theorem Disk.SameFile.symm (h : d.SameFile d' p) : d'.SameFile d p := ⟨h.1.symm, h.2.symm⟩

/-- The file keeps its bytes, and does not shrink. -/
structure Disk.Grows (d d' : Disk) (p : Nat) : Prop where
  image : d'.image p = d.image p
  absent : d.size p = none → d'.size p = none
  size : ∀ n, d.size p = some n → ∃ n', n ≤ n' ∧ d'.size p = some n'

theorem Disk.SameFile.grows (h : d.SameFile d' p) : d.Grows d' p :=
  ⟨h.2, fun e => h.1.trans e, fun n e => ⟨n, Nat.le_refl n, h.1.trans e⟩⟩

theorem Disk.Grows.trans {d'' : Disk} (h : d.Grows d' p) (h' : d'.Grows d'' p) : d.Grows d'' p := by
  refine ⟨h'.image.trans h.image, fun e => h'.absent (h.absent e), fun n e => ?_⟩
  obtain ⟨n₁, hle₁, e₁⟩ := h.size n e
  obtain ⟨n₂, hle₂, e₂⟩ := h'.size n₁ e₁
  exact ⟨n₂, Nat.le_trans hle₁ hle₂, e₂⟩

/-- A page that only gets a longer file stays `Ahead`. -/
theorem Ahead.grows (h : Ahead P b d p) (hs : d.Grows d' p) : Ahead P b d' p := by
  cases hsize : d.size p with
  | none => exact h.of_same ⟨(hs.absent hsize).trans hsize.symm, hs.image⟩
  | some size =>
    obtain ⟨size', hle, hsize'⟩ := hs.size size hsize
    refine ⟨fun e => ?_, fun _ => hs.image ▸ h.area (by rw [hsize]; rfl), fun n e => ?_⟩
    · rw [hsize'] at e
      cases e
    · rw [hsize'] at e
      cases e
      exact hs.image ▸ (h.header size hsize).mono hle

/-! ## Header stores -/

/-- A header store: offset, width and value. -/
abbrev HeaderPut := Nat × Nat × Nat

/-- The image after a header store. -/
def HeaderPut.apply (q : HeaderPut) (m : Image) : Image := store m q.1 q.2.1 q.2.2

/-- The header stores of `Page.initHeader`. -/
def initPuts (P : PageSize) : List HeaderPut :=
  [(0, 64, 0), (0, 4, 2), (4, 4, 64), (8, 4, P.bytes), (12, 4, 32), (16, 8, 64)]

theorem initHeader_eq (P : PageSize) :
    Page.initHeader P = (initPuts P).map fun q => LoadStmt.put q.1 q.2.1 q.2.2 := rfl

/-- The stores `qs` stay inside the header and are about to initialise it: until
the last of them the header does not count as initialised, and after it every
field is set. -/
def Pending (P : PageSize) : List HeaderPut → Image → Prop
  | [], m => HeaderOk P m ∧ lastFramePosition m = pageHeaderSize
  | q :: qs, m => lastFramePosition m = 0 ∧ q.1 + q.2.1 ≤ pageHeaderSize ∧ Pending P qs (q.apply m)

theorem Pending.fresh {qs : List HeaderPut} {m : Image} (h : Pending P qs m) {size : Nat}
    (hs : P.bytes ≤ size) : HeaderFresh P m size := by
  cases qs with
  | nil => exact Or.inr ⟨h.1, h.2, hs⟩
  | cons q qs => exact Or.inl h.1

theorem pending_initPuts {m : Image} (h : lastFramePosition m = 0) : Pending P (initPuts P) m := by
  have hP : P.bytes < 256 ^ 4 := Nat.lt_of_le_of_lt P.narrow (by decide)
  refine ⟨h, by decide, ?_, by decide, ?_, by decide, ?_, show 8 + 4 ≤ 64 by decide, ?_, by decide,
    ?_, by decide, ⟨?_, ?_, ?_, ?_⟩, ?_⟩
  all_goals
    simp only [HeaderPut.apply, lastFramePosition, firstFrameAddress, Field.get,
      PageField.lastFramePosition, PageField.version, PageField.pageHeaderLength,
      PageField.pageSize, PageField.frameHeaderLength, Nat.zero_add]
    simp (disch := omega) only [load_store_disjoint, load_store_self_of_lt, load_store_zero]
    try rfl

theorem HeaderPut.apply_area {q : HeaderPut} {m : Image} (hq : q.1 + q.2.1 ≤ pageHeaderSize)
    (h : AreaIs P b m) : AreaIs P b (q.apply m) := fun _ hx =>
  (store_apply_of_notMem (Or.inr (Nat.le_trans hq hx.1))).trans (h hx)

/-! ## The load, position by position -/

/-- What is known once the file is open: it exists and is still `Ahead`, and a
file that was missing at `stat` was all zero. -/
structure Opened (P : PageSize) (b : Image) (d : Disk) (r : LoadRegs) (size : Nat) : Prop where
  sized : d.size r.page = some size
  area : AreaIs P b (d.image r.page)
  header : HeaderFresh P (d.image r.page) size
  fresh : r.fileExists = false → AreaIs P b blank
  opened : r.opened = true

/-- **Where a load of an `Ahead` page stands**, by the statements left. -/
inductive LoadAt (P : PageSize) (b : Image) : List LoadStmt → Disk → LoadRegs → Prop where
  | stat {d : Disk} {r : LoadRegs} (ahead : Ahead P b d r.page) (closed : r.opened = false) :
      LoadAt P b (Page.loadCode .succeeds) d r
  | opening {d : Disk} {r : LoadRegs} (ahead : Ahead P b d r.page) (closed : r.opened = false)
      (fresh : r.fileExists = false → AreaIs P b blank)
      (found : r.fileExists = true →
        ∃ size, d.size r.page = some size ∧ (r.stSize = P.bytes → P.bytes ≤ size)) :
      LoadAt P b [.open false, .allocate false, .map false, .populate, .checkNew, .validate] d r
  | allocate {d : Disk} {r : LoadRegs} {n : Nat} (file : Opened P b d r n)
      (found : r.fileExists = true → r.stSize = P.bytes → P.bytes ≤ n) :
      LoadAt P b [.allocate false, .map false, .populate, .checkNew, .validate] d r
  | map {d : Disk} {r : LoadRegs} {n : Nat} (file : Opened P b d r n) (full : P.bytes ≤ n) :
      LoadAt P b [.map false, .populate, .checkNew, .validate] d r
  | populate {d : Disk} {r : LoadRegs} {n : Nat} (file : Opened P b d r n) (full : P.bytes ≤ n) :
      LoadAt P b [.populate, .checkNew, .validate] d r
  | checkNew {d : Disk} {r : LoadRegs} {n : Nat} (file : Opened P b d r n) (full : P.bytes ≤ n) :
      LoadAt P b [.checkNew, .validate] d r
  | init {d : Disk} {r : LoadRegs} {n : Nat} (qs : List HeaderPut)
      (file : Opened P b d r n) (full : P.bytes ≤ n)
      (pending : Pending P qs (d.image r.page)) :
      LoadAt P b (qs.map (fun q => .put q.1 q.2.1 q.2.2) ++ [.validate]) d r
  | done {d : Disk} {r : LoadRegs} {n : Nat} (file : Opened P b d r n) (full : P.bytes ≤ n)
      (ok : HeaderOk P (d.image r.page))
      (last : lastFramePosition (d.image r.page) = pageHeaderSize) :
      LoadAt P b [] d r

theorem Opened.ahead {size : Nat} (h : Opened P b d r size) : Ahead P b d r.page where
  absent := fun e => by rw [h.sized] at e; cases e
  area := fun _ => h.area
  header := fun size' e => by
    rw [h.sized] at e
    cases e
    exact h.header

/-- **A page being loaded is `Ahead` after every statement.** -/
theorem LoadAt.ahead {code : List LoadStmt} (h : LoadAt P b code d r) : Ahead P b d r.page := by
  cases h with
  | stat ahead _ => exact ahead
  | opening ahead _ _ _ => exact ahead
  | allocate file _ | map file _ | populate file _ | checkNew file _ | init _ file _ _
  | done file _ _ _ => exact file.ahead

/-- A load survives what others do, if they leave the bytes of an opened file alone, and
keep one that is not yet opened `Ahead`, without shrinking it. -/
theorem LoadAt.stable {code : List LoadStmt} (h : LoadAt P b code d r)
    (same : r.opened = true → d'.image r.page = d.image r.page)
    (ahead : r.opened = false → Ahead P b d r.page → Ahead P b d' r.page)
    (grow : ∀ size, d.size r.page = some size → ∃ size', size ≤ size' ∧
      d'.size r.page = some size') :
    LoadAt P b code d' r := by
  have keep : ∀ {size}, Opened P b d r size → ∃ size', size ≤ size' ∧ Opened P b d' r size' := by
    intro size file
    have himage := same file.opened
    obtain ⟨size', hle, hsize⟩ := grow size file.sized
    exact ⟨size', hle, hsize, himage.symm ▸ file.area, himage.symm ▸ file.header.mono hle,
      file.fresh, file.opened⟩
  cases h with
  | stat hah closed => exact .stat (ahead closed hah) closed
  | opening hah closed fresh found =>
    refine .opening (ahead closed hah) closed fresh ?_
    intro hf
    obtain ⟨size, hs, hle⟩ := found hf
    obtain ⟨size', hle', hs'⟩ := grow size hs
    exact ⟨size', hs', fun hst => Nat.le_trans (hle hst) hle'⟩
  | allocate file found =>
    obtain ⟨size', hle, file'⟩ := keep file
    exact .allocate file' fun hf hst => Nat.le_trans (found hf hst) hle
  | map file full =>
    obtain ⟨size', hle, file'⟩ := keep file
    exact .map file' (Nat.le_trans full hle)
  | populate file full =>
    obtain ⟨size', hle, file'⟩ := keep file
    exact .populate file' (Nat.le_trans full hle)
  | checkNew file full =>
    obtain ⟨size', hle, file'⟩ := keep file
    exact .checkNew file' (Nat.le_trans full hle)
  | init qs file full pending =>
    obtain ⟨size', hle, file'⟩ := keep file
    exact .init qs file' (Nat.le_trans full hle) ((same file.opened).symm ▸ pending)
  | done file full ok last =>
    obtain ⟨size', hle, file'⟩ := keep file
    have himage := same file.opened
    exact .done file' (Nat.le_trans full hle) (himage.symm ▸ ok) (himage.symm ▸ last)

theorem PageSize.pos (P : PageSize) : 0 < P.bytes := Nat.lt_of_lt_of_le (by decide) P.roomy

theorem headerFresh_blank (size : Nat) : HeaderFresh P blank size := Or.inl (load_blank ..)

theorem AreaIs.zeroFill {m : Image} (h : AreaIs P b blank) : AreaIs P b (store m 0 P.bytes 0) := by
  intro x hx
  rw [store_zero_apply (Nat.zero_le x) (by rw [Nat.zero_add]; exact hx.2)]
  exact h hx

theorem headerFresh_zeroFill {m : Image} {size : Nat} :
    HeaderFresh P (store m 0 P.bytes 0) size := by
  refine Or.inl (load_store_zero (Nat.zero_le _) ?_)
  have := P.roomy
  simp only [PageField.lastFramePosition]
  omega

theorem headerValid_of {m : Image} (h : HeaderOk P m) (hl : lastFramePosition m < P.bytes) :
    Page.headerValid P m = true := by
  have h2 : PageField.pageHeaderLength.get m 0 = pageHeaderSize := h.headerLength
  simp [Page.headerValid, h.version, h2, h.pageSize, hl]

theorem firstFrameAddress_of_valid {m : Image} (h : Page.headerValid P m = true) :
    firstFrameAddress m = pageHeaderSize := by
  simp only [Page.headerValid, Bool.and_eq_true, decide_eq_true_eq] at h
  exact h.1.1.2

theorem pageHeaderSize_lt (P : PageSize) : pageHeaderSize < P.bytes :=
  Nat.lt_of_lt_of_le (by decide) P.roomy

/-- Once the file is open, `opened` stays set. -/
theorem Opened.not_closed {size : Nat} (h : Opened P b d r size) (hc : r.opened = false) :
    d' = d ∧ r.opened = false := by
  rw [h.opened] at hc
  cases hc

/-- **One statement of a load of an `Ahead` page by a writable mapping**: it goes
on, touches no other page, and keeps the load's position.  Before the file is
opened it touches nothing. -/
theorem LoadAt.step {s : LoadStmt} {code : List LoadStmt} (h : LoadAt P b (s :: code) d r)
    (hm : r.master = true) :
    ∃ d' r' push, s.exec P (d, r) = .next (d', r') push ∧ LoadAt P b (push ++ code) d' r' ∧
      r'.page = r.page ∧ r'.master = true ∧ (∀ q, q ≠ r.page → d.SameFile d' q) ∧
      (r'.opened = false → d' = d ∧ r.opened = false) := by
  have other : ∀ a k v q, q ≠ r.page → d.SameFile (d.write r.page a k v) q :=
    fun a k v q hq => ⟨rfl, d.write_image_of_ne a k v hq⟩
  generalize hcode : s :: code = whole at h
  cases h with
  | stat ahead closed =>
    cases hcode
    refine ⟨_, _, _, rfl, .opening ahead closed ?_ ?_, rfl, hm, fun q _ => .refl d q,
      fun _ => ⟨rfl, closed⟩⟩
    · intro hf
      refine ahead.absent ?_
      simpa using hf
    · intro hf
      obtain ⟨size, hs⟩ := Option.isSome_iff_exists.mp hf
      exact ⟨size, hs, fun e => by simp only [hs, Option.getD_some] at e; omega⟩
  -- `O_CREAT` makes an absent file empty and leaves a present one as it is
  | opening ahead closed fresh found =>
    cases hcode
    refine ⟨d.create r.page, { r with opened := true }, [], rfl, ?_, rfl, hm,
      fun q hq => ⟨d.create_size_of_ne hq, d.create_image_of_ne hq⟩, fun h => by cases h⟩
    cases hs : d.size r.page with
    | none =>
      refine .allocate (n := 0) ⟨Disk.create_size_self_of_none hs, ?_, ?_, fresh, rfl⟩ ?_
      · rw [Disk.create_image_self_of_none hs]
        exact ahead.absent hs
      · rw [Disk.create_image_self_of_none hs]
        exact headerFresh_blank 0
      · intro hf
        obtain ⟨size, hs', -⟩ := found hf
        rw [hs] at hs'
        cases hs'
    | some size =>
      rw [Disk.create_of_isSome (by rw [hs]; rfl)]
      refine .allocate (n := size) ⟨hs, ahead.area (by rw [hs]; rfl), ahead.header size hs, fresh,
        rfl⟩ ?_
      intro hf
      obtain ⟨size', hs', hle⟩ := found hf
      rw [hs] at hs'
      cases hs'
      exact hle
  -- a new file, or one of another size: `fallocate` leaves it with a page at least
  | @allocate _ _ size file found =>
    cases hcode
    by_cases hc : (r.master && (!r.fileExists || decide (r.stSize ≠ P.bytes))) = true
    · refine ⟨d.allocate r.page P.bytes, r,
        [], by simp only [LoadStmt.exec]; rw [if_pos hc]; rfl, ?_, rfl, hm,
        fun q hq => ⟨d.allocate_size_of_ne P.bytes hq, rfl⟩, file.not_closed⟩
      refine .map (n := max P.bytes size) ⟨?_, file.area, file.header.mono (Nat.le_max_right ..),
        file.fresh, file.opened⟩ (Nat.le_max_left ..)
      rw [Disk.allocate_size_self, file.sized]
      rfl
    · refine ⟨d, r, [], by simp only [LoadStmt.exec]; rw [if_neg hc], .map file ?_, rfl, hm,
        fun q _ => .refl d q, file.not_closed⟩
      rw [hm] at hc
      cases hf : r.fileExists with
      | false => simp [hf] at hc
      | true =>
        refine found hf ?_
        simpa [hf] using hc
  | map file full =>
    cases hcode
    exact ⟨d, r, [], rfl, .populate file full, rfl, hm, fun q _ => .refl d q, file.not_closed⟩
  -- only a new file is zeroed, and that one has no header yet
  | @populate _ _ size file full =>
    cases hcode
    by_cases hc : (r.prefault && !r.fileExists) = true
    · have hfe : r.fileExists = false := by simp_all
      refine ⟨d.write r.page 0 P.bytes 0, r, [], by simp only [LoadStmt.exec]; rw [if_pos hc],
        .checkNew (n := size) ⟨file.sized, ?_, ?_, file.fresh, file.opened⟩ full, rfl, hm,
        other _ _ _, file.not_closed⟩
      · rw [Disk.write_image_self]
        exact (file.fresh hfe).zeroFill
      · rw [Disk.write_image_self]
        exact headerFresh_zeroFill
    · exact ⟨d, r, [], by simp only [LoadStmt.exec]; rw [if_neg hc], .checkNew file full, rfl, hm,
        fun q _ => .refl d q, file.not_closed⟩
  -- an image without a header gets the stores of `initHeader`
  | @checkNew _ _ size file full =>
    cases hcode
    have hpos : ¬ (d.size r.page).getD 0 = 0 := by
      rw [file.sized]
      exact fun e => absurd full (by simp only [Option.getD_some] at e; have := P.pos; omega)
    refine ⟨d, r, _, by simp only [LoadStmt.exec]; rw [if_neg hpos], ?_, rfl, hm,
      fun q _ => .refl d q, file.not_closed⟩
    rcases file.header with h0 | ⟨hok, hlast, -⟩
    · rw [if_pos h0, initHeader_eq]
      exact .init _ file full (pending_initPuts h0)
    · rw [if_neg (by rw [hlast]; decide)]
      exact .init [] file full ⟨hok, hlast⟩
  -- one store of the header, or the check behind the last of them
  | @init _ _ size qs file full pending =>
    cases qs with
    | nil =>
      cases hcode
      have hv := headerValid_of pending.1 (by rw [pending.2]; exact pageHeaderSize_lt P)
      exact ⟨d, r, [], by simp only [LoadStmt.exec]; rw [if_pos hv],
        .done file full pending.1 pending.2, rfl, hm, fun q _ => .refl d q, file.not_closed⟩
    | cons q qs =>
      cases hcode
      have himg : (d.write r.page q.1 q.2.1 q.2.2).image r.page = q.apply (d.image r.page) :=
        Disk.write_image_self ..
      obtain ⟨-, hq, hrest⟩ := pending
      refine ⟨d.write r.page q.1 q.2.1 q.2.2, r, [],
        by simp only [LoadStmt.exec]; rw [if_pos hm],
        .init qs (n := size) ⟨file.sized, ?_, ?_, file.fresh, file.opened⟩ full ?_, rfl, hm,
        other _ _ _, file.not_closed⟩
      · rw [himg]
        exact HeaderPut.apply_area hq file.area
      · rw [himg]
        exact hrest.fresh full
      · rw [himg]
        exact hrest
  | done => cases hcode

/-- Bounds the statements a load has left. -/
def LoadStmt.weight : LoadStmt → Nat
  | .checkNew => 8
  | _ => 1

theorem LoadStmt.weight_pos (s : LoadStmt) : 0 < s.weight := by cases s <;> simp [weight]

/-- A statement puts less in front of the rest than it was itself. -/
theorem LoadStmt.exec_weight {s : LoadStmt} {x y : Disk × LoadRegs} {push : List LoadStmt}
    (h : s.exec P x = .next y push) : (push.map LoadStmt.weight).sum < s.weight := by
  have hpush : push = [] ∨ s = .checkNew ∧ push = Page.initHeader P := by
    obtain ⟨d, r⟩ := x
    cases s <;> simp only [exec] at h <;> (repeat' split at h) <;> cases h <;> simp
  rcases hpush with rfl | ⟨rfl, rfl⟩
  · exact s.weight_pos
  · simp [Page.initHeader, weight]

/-- A load keeps the way it maps the page. -/
theorem LoadStmt.exec_mode {s : LoadStmt} {d' : Disk} {r' : LoadRegs} {push : List LoadStmt}
    (h : s.exec P (d, r) = .next (d', r') push) :
    r'.isWriting = r.isWriting ∧ r'.prefault = r.prefault := by
  cases s <;> simp only [exec] at h <;> (repeat' split at h) <;> cases h <;> exact ⟨rfl, rfl⟩

end Revoq
