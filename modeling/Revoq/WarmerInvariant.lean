import Revoq.WarmerThread

/-! # What the writer and its warmer keep true

The writer never opens the file of a page the warmer is about to initialise (`Timely`).
Then between any two steps of the two threads `Tandem.Inv` holds: a page file ahead of the
writer is complete and has no frame yet, or the warmer is at work on it and the ring does
not offer it.

With it every step of the warmer is one of those a session tolerates (`Stable`).
-/
namespace Revoq
open ByteImage StmtMachine

/-! ## A page the warmer makes -/

/-- The stores `qs` finish a page: until they are made the header does not count or is
complete, and behind it there are zeros. -/
def InitRest (P : PageSize) : List HeaderPut → Image → Prop
  | [], m => HeaderOk P m ∧ lastFramePosition m = pageHeaderSize ∧ AreaIs P blank m
  | q :: qs, m => (lastFramePosition m = 0 ∨ HeaderOk P m ∧ lastFramePosition m = pageHeaderSize) ∧
      AreaIs P blank m ∧ InitRest P qs (q.apply m)

theorem Pending.initRest {P : PageSize} {fields : List HeaderPut} {m : Image}
    (h : Pending P fields m) (harea : AreaIs P blank m) :
    InitRest P (fields ++ [(64, P.bytes - 64, 0)]) m := by
  induction fields generalizing m with
  | nil =>
    have hbehind : HeaderPut.apply (64, P.bytes - 64, 0) m = m := by
      refine store_zero_eq_self fun x h1 (h2 : x < 64 + (P.bytes - 64)) => harea ⟨h1, ?_⟩
      have := P.roomy
      omega
    refine ⟨.inr h, harea, ?_⟩
    rw [hbehind]
    exact ⟨h.1, h.2, harea⟩
  | cons q qs ih => exact ⟨.inl h.1, harea, ih h.2.2 (HeaderPut.apply_area h.2.1 harea)⟩

theorem initRest_warmPuts (P : PageSize) : InitRest P (warmPuts P) blank := by
  have hclear : HeaderPut.apply (0, 64, 0) blank = blank := store_zero_eq_self fun _ _ _ => rfl
  have hpending : Pending P ((initPuts P).tail) blank := by
    have h := (pending_initPuts (P := P) (m := blank) (load_blank ..)).2.2
    rwa [hclear] at h
  exact hpending.initRest fun _ _ => rfl

/-- **Where the warmer stands with a page whose file it did not find.** -/
inductive NewAt (P : PageSize) (d : Disk) (r : LoadRegs) : List WarmStmt → Prop where
  | stat (absent : d.size r.page = none) : NewAt P d r (mmapCode.map WarmStmt.mmap ++ [.initNew])
  | opens (absent : d.size r.page = none) (missing : r.fileExists = false) :
      NewAt P d r [.mmap (.open false), .mmap (.allocate false), .mmap (.map false),
        .mmap .populate, .initNew]
  | allocate {n : Nat} (size : d.size r.page = some n) (image : d.image r.page = blank)
      (missing : r.fileExists = false) :
      NewAt P d r [.mmap (.allocate false), .mmap (.map false), .mmap .populate, .initNew]
  | map {n : Nat} (size : d.size r.page = some n) (full : P.bytes ≤ n)
      (image : d.image r.page = blank) :
      NewAt P d r [.mmap (.map false), .mmap .populate, .initNew]
  | populate {n : Nat} (size : d.size r.page = some n) (full : P.bytes ≤ n)
      (image : d.image r.page = blank) :
      NewAt P d r [.mmap .populate, .initNew]
  | init {n : Nat} (size : d.size r.page = some n) (full : P.bytes ≤ n)
      (image : d.image r.page = blank) :
      NewAt P d r [.initNew]
  | puts {n : Nat} {q : HeaderPut} {qs : List HeaderPut} (size : d.size r.page = some n)
      (full : P.bytes ≤ n) (rest : InitRest P (q :: qs) (d.image r.page)) :
      NewAt P d r ((q :: qs).map WarmStmt.put)

section
variable {P : PageSize} {d d' : Disk} {r r' : WarmRegs} {s : WarmStmt} {code push : List WarmStmt}

theorem NewAt.same {r : LoadRegs} (h : NewAt P d r code) (hs : d.SameFile d' r.page) :
    NewAt P d' r code := by
  obtain ⟨hsize, himage⟩ := hs
  cases h with
  | stat absent => exact .stat (hsize.trans absent)
  | opens absent missing => exact .opens (hsize.trans absent) missing
  | allocate size image missing => exact .allocate (hsize.trans size) (himage.trans image) missing
  | map size full image => exact .map (hsize.trans size) full (himage.trans image)
  | populate size full image => exact .populate (hsize.trans size) full (himage.trans image)
  | init size full image => exact .init (hsize.trans size) full (himage.trans image)
  | puts size full rest => exact .puts (hsize.trans size) full (himage.symm ▸ rest)

theorem NewAt.initialises {r : LoadRegs} (h : NewAt P d r code) :
    .checkFile ∉ code ∧ code ≠ [] := by
  cases h with
  | puts => simp
  | _ => simp [mmapCode]

theorem ahead_absent {p : Nat} (h : d.size p = none) : Ahead P blank d p := by
  refine ⟨fun _ _ _ => rfl, fun e => ?_, fun n e => ?_⟩
  · rw [h] at e
    cases e
  · rw [h] at e
    cases e

theorem ahead_present {p n : Nat} (h : d.size p = some n) (harea : AreaIs P blank (d.image p))
    (hheader : HeaderFresh P (d.image p) n) : Ahead P blank d p := by
  refine ⟨fun e => ?_, fun _ => harea, fun n' e => ?_⟩
  · rw [h] at e
    cases e
  · rw [h] at e
    cases e
    exact hheader

/-- The page is one nobody has published a frame on. -/
theorem NewAt.ahead {r : LoadRegs} (h : NewAt P d r code) : Ahead P blank d r.page := by
  have hblank : ∀ {n}, d.size r.page = some n → d.image r.page = blank →
      Ahead P blank d r.page := by
    intro n hn hi
    exact ahead_present hn (by rw [hi]; exact fun _ _ => rfl)
      (by rw [hi]; exact headerFresh_blank n)
  cases h with
  | stat absent | opens absent => exact ahead_absent absent
  | allocate size image | map size _ image | populate size _ image
  | init size _ image => exact hblank size image
  | puts size full rest =>
    refine ahead_present size rest.2.1 ?_
    rcases rest.1 with h0 | ⟨hok, h64⟩
    · exact .inl h0
    · exact .inr ⟨hok, h64, full⟩

/-- A page nobody has published a frame on, with its header in place. -/
theorem Loaded.ahead {p : Nat} (h : Loaded P blank d p) : Ahead P blank d p := by
  obtain ⟨⟨n, hsize, full⟩, hok⟩ := h.ready
  exact ahead_present hsize h.area (.inr ⟨hok, h.last, full⟩)

/-- The page is finished. -/
theorem InitRest.loaded {p n : Nat} (hsize : d.size p = some n) (full : P.bytes ≤ n)
    (h : InitRest P [] (d.image p)) : Loaded P blank d p :=
  ⟨⟨⟨n, hsize, full⟩, h.1⟩, h.2.1, h.2.2⟩

/-- A statement of `warmPageIntoSlot` works on its own page. -/
structure WarmStep (d : Disk) (r : WarmRegs) (d' : Disk) (r' : WarmRegs) : Prop where
  page : r'.load.page = r.load.page
  isWriting : r'.load.isWriting = r.load.isWriting
  others : ∀ q, q ≠ r.load.page → d.SameFile d' q
  grow : ∀ q n, d.size q = some n → ∃ n', n ≤ n' ∧ d'.size q = some n'

theorem WarmStmt.exec_mmap {a : LoadStmt}
    (he : WarmStmt.exec P (.mmap a) (d, r) = .next (d', r') push) :
    ∃ l push', a.exec P (d, r.load) = .next (d', l) push' ∧ r' = { r with load := l } ∧
      push = push'.map WarmStmt.mmap := by
  simp only [WarmStmt.exec] at he
  split at he
  · rename_i d₁ l push' ha
    cases he
    exact ⟨l, push', ha, rfl, rfl⟩
  · cases he
  · cases he

theorem WarmStmt.exec_step (he : s.exec P (d, r) = .next (d', r') push) : WarmStep d r d' r' := by
  cases s with
  | checkFile | initNew =>
    cases he
    exact ⟨rfl, rfl, fun q _ => .refl d q, fun q n h => ⟨n, Nat.le_refl n, h⟩⟩
  | mmap a =>
    obtain ⟨l, push', ha, rfl, -⟩ := WarmStmt.exec_mmap he
    obtain ⟨hpage, -, hothers⟩ := LoadStmt.exec_elsewhere ha
    exact ⟨hpage, (LoadStmt.exec_mode ha).1, hothers, fun q n h => LoadStmt.exec_grows ha h⟩
  | put q =>
    cases he
    exact ⟨rfl, rfl, fun p hp => ⟨rfl, d.write_image_of_ne _ _ _ hp⟩,
      fun q n h => ⟨n, Nat.le_refl n, h⟩⟩

/-- **One statement on a page whose file was not found.** -/
theorem NewAt.step (h : NewAt P d r.load (s :: code)) (hnew : r.fileExisted = false)
    (hw : r.load.isWriting = true) (he : s.exec P (d, r) = .next (d', r') push) :
    r'.fileExisted = false ∧
      (NewAt P d' r'.load (push ++ code) ∨ push ++ code = [] ∧ Loaded P blank d' r'.load.page) := by
  generalize hcode : s :: code = all at h
  cases h with
  | stat absent =>
    cases hcode
    simp only [WarmStmt.exec, LoadStmt.exec, absent] at he
    cases he
    exact ⟨hnew, .inl (.opens absent rfl)⟩
  | opens absent missing =>
    cases hcode
    cases he
    exact ⟨hnew, .inl
      (.allocate (Disk.create_size_self_of_none absent) (Disk.create_image_self_of_none absent)
      missing)⟩
  | @allocate n size image missing =>
    cases hcode
    have hmaster : r.load.master = true := by rw [LoadRegs.master, hw]; rfl
    simp only [WarmStmt.exec, LoadStmt.exec, hmaster, missing] at he
    cases he
    refine ⟨hnew, .inl (.map (n := max P.bytes n) ?_ (Nat.le_max_left ..) image)⟩
    show (d.allocate r.load.page P.bytes).size r.load.page = _
    rw [Disk.allocate_size_self, size]
    rfl
  | map size full image =>
    cases hcode
    cases he
    exact ⟨hnew, .inl (.populate size full image)⟩
  | populate size full image =>
    cases hcode
    simp only [WarmStmt.exec, LoadStmt.exec] at he
    split at he
    · rename_i d₁ l push' hd
      cases he
      split at hd <;> cases hd
      · refine ⟨hnew, .inl (.init size full ?_)⟩
        show (d.write r.load.page 0 P.bytes 0).image r.load.page = blank
        rw [Disk.write_image_self, image]
        exact store_zero_eq_self fun _ _ _ => rfl
      · exact ⟨hnew, .inl (.init size full image)⟩
    · cases he
    · cases he
  | init size full image =>
    cases hcode
    simp only [WarmStmt.exec, hnew] at he
    cases he
    refine ⟨hnew, .inl ?_⟩
    exact @NewAt.puts P d r.load _ _ (warmPuts P).tail size full
      (by rw [image]; exact initRest_warmPuts P)
  | @puts n q qs size full rest =>
    cases hcode
    cases he
    refine ⟨hnew, ?_⟩
    have himage : (d.write r.load.page q.1 q.2.1 q.2.2).image r.load.page =
        q.apply (d.image r.load.page) :=
      Disk.write_image_self ..
    have hrest : InitRest P qs ((d.write r.load.page q.1 q.2.1 q.2.2).image r.load.page) := by
      rw [himage]
      exact rest.2.2
    cases qs with
    | nil => exact .inr ⟨rfl, hrest.loaded size full⟩
    | cons q' qs => exact .inl (.puts size full hrest)

/-- The warmer has found the file of its page. -/
structure FoundAt (d : Disk) (r : WarmRegs) (code : List WarmStmt) : Prop where
  file : (d.size r.load.page).isSome
  existed : r.fileExisted = true
  left : code <:+ mmapCode.map WarmStmt.mmap ++ [.initNew]
  seen : .mmap .stat ∈ code ∨ r.load.fileExists = true

/-- **One statement on a page whose file was found**: the file may only get longer. -/
theorem FoundAt.step (h : FoundAt d r (s :: code)) (he : s.exec P (d, r) = .next (d', r') push) :
    d'.image r.load.page = d.image r.load.page ∧ FoundAt d' r' (push ++ code) := by
  have hstep := WarmStmt.exec_step he
  obtain ⟨hfile, hexisted, hleft, hseen⟩ := h
  have hfile' : (d'.size r'.load.page).isSome := by
    obtain ⟨n, hn⟩ := Option.isSome_iff_exists.mp hfile
    obtain ⟨n', -, hn'⟩ := hstep.grow _ n hn
    rw [hstep.page, hn']
    rfl
  have htail : code <:+ mmapCode.map WarmStmt.mmap ++ [.initNew] :=
    (List.suffix_cons s code).trans hleft
  have hcases := hleft
  simp only [mmapCode, List.map_cons, List.map_nil, List.cons_append, List.nil_append,
    List.suffix_cons_iff, List.suffix_nil, List.cons.injEq, or_false, reduceCtorEq] at hcases
  rcases hcases with ⟨rfl, rfl⟩ | ⟨rfl, rfl⟩ | ⟨rfl, rfl⟩ | ⟨rfl, rfl⟩ | ⟨rfl, rfl⟩ | ⟨rfl, rfl⟩
  · cases he
    exact ⟨rfl, hfile', hexisted, htail, .inr hfile⟩
  -- from here on `stat` has seen the file
  all_goals have hexists : r.load.fileExists = true := hseen.resolve_left (by simp)
  · simp only [WarmStmt.exec, LoadStmt.exec, Disk.create_of_isSome hfile] at he
    cases he
    exact ⟨rfl, hfile', hexisted, htail, .inr hexists⟩
  · simp only [WarmStmt.exec] at he
    split at he
    · rename_i d₁ l push' ha
      cases he
      simp only [LoadStmt.exec] at ha
      (repeat' split at ha) <;> cases ha <;> exact ⟨rfl, hfile', hexisted, htail, .inr hexists⟩
    · cases he
    · cases he
  · cases he
    exact ⟨rfl, hfile', hexisted, htail, .inr hexists⟩
  · simp only [WarmStmt.exec, LoadStmt.exec, hexists, Bool.not_true, Bool.and_false] at he
    cases he
    exact ⟨rfl, hfile', hexisted, htail, .inr hexists⟩
  · simp only [WarmStmt.exec, hexisted] at he
    cases he
    exact ⟨rfl, hfile', hexisted, htail, .inr hexists⟩

end

/-! ## What holds between two steps -/

/-- What the warmer knows of the page it maps.  `n` is the highest page the writer has opened. -/
inductive WarmAt (P : PageSize) (n : Nat) (d : Disk) (g : PageWarmer) (r : WarmRegs) :
    List WarmStmt → Prop where
  | check : WarmAt P n d g r warmCode
  | found {code : List WarmStmt} (file : FoundAt d r code) : WarmAt P n d g r code
  | missing {code : List WarmStmt} (ahead : n < r.load.page) (new : r.fileExisted = false)
      (alone : ∀ k, (g.ring k).pageId ≠ r.load.page) (file : NewAt P d r.load code) :
      WarmAt P n d g r code
  | done (file : (d.size r.load.page).isSome) : WarmAt P n d g r []

/-- What the warmer knows, by its place in the loop. -/
def Warming.Knows (P : PageSize) (n : Nat) (d : Disk) (g : PageWarmer) : Warming → Prop
  | .boot | .snapshot | .count .. | .cleanup .. | .expire .. => True
  | .lookup _ i _ | .claim _ i => 0 < i
  | .warm c i idx code r =>
      (g.ring idx).pageId = -2 ∧ 0 < i ∧ r.load.page = c + i ∧ r.load.isWriting = true ∧
      WarmAt P n d g r code
  | .fill c i idx left => (g.ring idx).pageId = -2 ∧ (d.size (c + i)).isSome ∧
      (.address ∈ left ∨ (g.ring idx).address = some (c + i))
  | .publish c i idx =>
      (g.ring idx).pageId = -2 ∧ (d.size (c + i)).isSome ∧ (g.ring idx).address = some (c + i)
  | .release _ idx => (g.ring idx).pageId = -1

namespace Tandem

/-- The highest page the writer has opened. -/
def front (S : Tandem) : Nat := frontier S.world.writer S.locals

/-- **What holds between any two steps**, once the constructor has found the directory empty. -/
structure Inv (P : PageSize) (S : Tandem) : Prop where
  hand : ∃ h, handed S.world.warmer.isSome h S.code = true ∧ h.Agrees S.world.writer S.locals
  pages : OnPages S.world.writer S.locals
  files : ∀ p, 0 < p → p ≤ S.front → (S.world.disk.size p).isSome
  above : ∀ p, S.front < p → (S.world.disk.size p).isSome →
    Loaded P blank S.world.disk p ∨ S.thread.place.Initialises p
  waits : S.world.warmer = none → S.thread.place = .boot
  offers : ∀ g, S.world.warmer = some g → g.Offers S.world.disk
  knows : ∀ g, S.world.warmer = some g → S.thread.place.Knows P S.front S.world.disk g

variable {P : PageSize} {S S' : Tandem} {g g' : PageWarmer} {t' : WarmerThread}

/-- The warmer initialises a page only while it maps it, and the ring does not offer it then. -/
theorem alone_of_initialises {n p : Nat} {d : Disk} {x : Warming} (h : x.Knows P n d g)
    (hi : x.Initialises p) :
    n < p ∧ ∀ k, (g.ring k).pageId ≠ p := by
  cases x with
  | warm c i idx code r =>
    obtain ⟨rfl, hnew, hcheck, hcode⟩ := hi
    obtain ⟨-, -, -, -, hat⟩ := h
    cases hat with
    | check => exact absurd List.mem_cons_self hcheck
    | found file => rw [file.existed] at hnew; cases hnew
    | missing ahead _ alone => exact ⟨ahead, alone⟩
    | done => exact absurd rfl hcode
  | _ => exact hi.elim

/-- The pages the ring offers are ready for the writer. -/
theorem Inv.ringReady (h : Inv P S) : RingReady P (ctxOf P .empty) S.front S.world := by
  intro g hg idx p hp hlt
  obtain ⟨haddr, hfile⟩ := h.offers g hg idx p hp
  refine ⟨haddr, ?_⟩
  rcases h.above p hlt hfile with hl | hi
  · exact hl
  · exact absurd hp ((alone_of_initialises (h.knows g hg) hi).2 idx)

/-- What a step of the warmer may do to the files. -/
structure FilesStep (P : PageSize) (n : Nat) (d d' : Disk) : Prop where
  zero : d.SameFile d' 0
  same : ∀ p, p ≤ n → d.Grows d' p
  ahead : ∀ p, n < p → Ahead P blank d p → Ahead P blank d' p
  grow : ∀ p size, d.size p = some size → ∃ size', size ≤ size' ∧ d'.size p = some size'

theorem FilesStep.refl (P : PageSize) (n : Nat) (d : Disk) : FilesStep P n d d :=
  ⟨.refl d 0, fun p _ => (Disk.SameFile.refl d p).grows, fun _ _ h => h,
    fun _ n h => ⟨n, Nat.le_refl n, h⟩⟩

theorem FilesStep.isSome {n p : Nat} {d d' : Disk} (h : FilesStep P n d d')
    (hp : (d.size p).isSome) :
    (d'.size p).isSome := by
  obtain ⟨size, hsize⟩ := Option.isSome_iff_exists.mp hp
  obtain ⟨size', -, hsize'⟩ := h.grow p size hsize
  rw [hsize']
  rfl

/-- **A step of the warmer is one a session tolerates.** -/
theorem Inv.stable (h : Inv P S') (hfiles : FilesStep P S.front S.world.disk S'.world.disk)
    (hwriter : S'.world.writer = S.world.writer) (hlocals : S'.locals = S.locals)
    (hlog : S'.world.log = S.world.log) (hwarmer : S'.world.warmer.isSome = S.world.warmer.isSome) :
    Stable P (ctxOf P .empty) (S.world, S.locals) (S'.world, S'.locals) where
  writer := hwriter
  regs := hlocals
  log := hlog
  warmer := hwarmer
  below p hp := by
    obtain rfl : p = 0 := Nat.lt_one_iff.mp hp
    exact hfiles.zero
  same := hfiles.same
  ahead := hfiles.ahead
  grow := hfiles.grow
  ring _ := by
    have hready := h.ringReady
    rwa [front, hwriter, hlocals] at hready

/-- A step of the warmer that works on the ring. -/
theorem Inv.ringOnly (h : Inv P S) (hg : S.world.warmer = some g)
    (hno : ∀ p, ¬ S.thread.place.Initialises p) (hoffers : g'.Offers S.world.disk)
    (hknows : t'.place.Knows P S.front S.world.disk g')
    (hS : S' = { S with world := { S.world with warmer := some g' }, thread := t' }) :
    Inv P S' ∧ Stable P (ctxOf P .empty) (S.world, S.locals) (S'.world, S'.locals) := by
  subst hS
  have hsome : S.world.warmer.isSome = true := by rw [hg]; rfl
  have hinv : Inv P { S with world := { S.world with warmer := some g' }, thread := t' } :=
    { hand := by
        obtain ⟨x, hx, hat⟩ := h.hand
        rw [hsome] at hx
        exact ⟨x, hx, hat⟩
      pages := h.pages
      files := h.files
      above := fun p hp hs => .inl ((h.above p hp hs).resolve_right (hno p))
      waits := fun hn => by cases hn
      offers := fun g₁ hg₁ => by
        cases hg₁
        exact hoffers
      knows := fun g₁ hg₁ => by
        cases hg₁
        exact hknows }
  exact ⟨hinv, hinv.stable (.refl P _ _) rfl rfl rfl hsome.symm⟩

/-! ## One step of the warmer -/

@[simp] theorem setSlot_self (g : PageWarmer) (idx : Fin ringSize) (f : PageSlot → PageSlot) :
    (g.setSlot idx f).ring idx = f (g.ring idx) := Function.update_self ..

theorem setSlot_of_ne (g : PageWarmer) {idx k : Fin ringSize}
    (f : PageSlot → PageSlot) (h : k ≠ idx) :
    (g.setSlot idx f).ring k = g.ring k := Function.update_of_ne h ..

theorem offers_setSlot {d : Disk} {idx : Fin ringSize} {f : PageSlot → PageSlot} (h : g.Offers d)
    (hf : ∀ p : Nat, (f (g.ring idx)).pageId = p → (f (g.ring idx)).address = some p ∧
      (d.size p).isSome) :
    (g.setSlot idx f).Offers d := by
  intro k p hp
  by_cases hk : k = idx
  · subst hk
    rw [setSlot_self] at hp ⊢
    exact hf p hp
  · rw [setSlot_of_ne g f hk] at hp ⊢
    exact h k p hp

theorem knows_turn {n : Nat} {d : Disk} (g' : PageWarmer) (c i : Nat) :
    (g.turn c (i + 1)).Knows P n d g' := by
  unfold PageWarmer.turn
  split
  · exact Nat.succ_pos i
  · trivial

/-- A slot that is empty or being warmed offers no page. -/
theorem offers_emptied {d : Disk} {idx : Fin ringSize} {f : PageSlot → PageSlot} (h : g.Offers d)
    (hf : (f (g.ring idx)).pageId = -1 ∨ (f (g.ring idx)).pageId = -2) :
    (g.setSlot idx f).Offers d :=
  offers_setSlot h fun p hp => by omega

/-- A step of the warmer on the ring. -/
theorem Inv.warmer_ring (h : Inv P S)
    (hplace : ∀ c i idx s code r, S.thread.place ≠ .warm c i idx (s :: code) r)
    (he : S.next P .warmer = some S') :
    Inv P S' ∧ Stable P (ctxOf P .empty) (S.world, S.locals) (S'.world, S'.locals) := by
  obtain ⟨⟨w, t⟩, hw, rfl⟩ := Option.map_eq_some_iff.mp he
  simp only [warmerStep] at hw
  cases hg : S.world.warmer with
  | none => rw [hg] at hw; cases hw
  | some g =>
    rw [hg] at hw
    simp only at hw
    have hoffers := h.offers g hg
    have hknows := h.knows g hg
    -- most steps move the warmer on and leave the ring as it is
    have hsame : ∀ {t'}, (∀ p, ¬ S.thread.place.Initialises p) →
        t'.place.Knows P S.front S.world.disk g →
        Inv P { S with thread := t' } ∧ Stable P (ctxOf P .empty) (S.world, S.locals)
          (S.world, S.locals) :=
      fun hno hk => h.ringOnly hg hno hoffers hk (by rw [← hg])
    cases hp : S.thread.place with
    | boot =>
      rw [hp] at hw hknows
      cases hw
      exact hsame (by rw [hp]; exact fun _ => id) (by split <;> trivial)
    | snapshot =>
      rw [hp] at hw hknows
      cases hw
      refine hsame (by rw [hp]; exact fun _ => id) ?_
      split
      · exact knows_turn g _ 0
      · trivial
    | lookup c i j =>
      rw [hp] at hw hknows
      have hno : ∀ p, ¬ S.thread.place.Initialises p := by rw [hp]; exact fun _ => id
      simp only at hw
      split at hw <;> cases hw
      · refine hsame hno ?_
        split
        · exact knows_turn g c i
        · exact hknows
      · exact hsame hno hknows
    -- the claim empties a slot: nothing is offered there until `publish`
    | claim c i =>
      rw [hp] at hw hknows
      have hno : ∀ p, ¬ S.thread.place.Initialises p := by rw [hp]; exact fun _ => id
      simp only at hw
      split at hw <;> cases hw
      · refine h.ringOnly hg hno (offers_emptied hoffers (.inr rfl)) ?_ rfl
        exact ⟨by rw [setSlot_self], hknows, rfl, rfl, .check⟩
      · exact hsame hno (knows_turn g c i)
    | warm c i idx code r =>
      cases code with
      | cons s code => exact (hplace _ _ _ _ _ _ hp).elim
      | nil =>
        rw [hp] at hw hknows
        cases hw
        refine hsame (by rw [hp]; exact fun _ hi => hi.2.2.2 rfl) ?_
        obtain ⟨hslot, hi, hpage, -, hat⟩ := hknows
        refine ⟨hslot, ?_, .inl List.mem_cons_self⟩
        rw [← hpage]
        -- the load has ended: either the file was found, or it is made up by now
        generalize hcode : ([] : List WarmStmt) = code at hat
        cases hat with
        | check => cases hcode
        | found file => exact file.file
        | missing _ _ _ file => exact absurd hcode.symm file.initialises.2
        | done file => exact file
    -- `publish` needs an address: it is stored, or its store is still to come
    | fill c i idx left =>
      rw [hp] at hw hknows
      have hno : ∀ p, ¬ S.thread.place.Initialises p := by rw [hp]; exact fun _ => id
      obtain ⟨hslot, hfile, haddr⟩ := hknows
      cases left with
      | nil =>
        cases hw
        exact hsame hno ⟨hslot, hfile, haddr.resolve_left List.not_mem_nil⟩
      | cons x left =>
        cases hw
        have hslot' : (x.apply P (c + i) S.thread.localSeq (g.ring idx)).pageId = -2 := by
          cases x <;> exact hslot
        refine h.ringOnly hg hno (offers_emptied hoffers (.inr hslot')) ?_ rfl
        refine ⟨by rw [setSlot_self]; exact hslot', hfile, ?_⟩
        rw [setSlot_self]
        cases x with
        | address => exact .inr rfl
        | size | isOwned | sequence =>
          exact haddr.imp_left fun hm => (List.mem_cons.mp hm).resolve_left (by simp)
    -- the only step after which a slot offers a page
    | publish c i idx =>
      rw [hp] at hw hknows
      have hno : ∀ p, ¬ S.thread.place.Initialises p := by rw [hp]; exact fun _ => id
      obtain ⟨hslot, hfile, haddr⟩ := hknows
      cases hw
      refine h.ringOnly hg hno (offers_setSlot hoffers fun p hpage => ?_) ?_ rfl
      · obtain rfl : c + i = p := Int.ofNat_inj.mp hpage
        exact ⟨haddr, hfile⟩
      · trivial
    | count c i =>
      rw [hp] at hw hknows
      cases hw
      refine h.ringOnly hg (by rw [hp]; exact fun _ => id) ?_ ?_ rfl
      · exact hoffers
      · exact knows_turn _ c i
    | cleanup c j =>
      rw [hp] at hw hknows
      have hno : ∀ p, ¬ S.thread.place.Initialises p := by rw [hp]; exact fun _ => id
      simp only at hw
      split at hw <;> cases hw
      · refine hsame hno ?_
        split <;> trivial
      · exact hsame hno trivial
    | expire c idx q =>
      rw [hp] at hw hknows
      have hno : ∀ p, ¬ S.thread.place.Initialises p := by rw [hp]; exact fun _ => id
      simp only at hw
      split at hw <;> cases hw
      · refine h.ringOnly hg hno (offers_emptied hoffers (.inl rfl)) ?_ rfl
        show (_ : PageSlot).pageId = -1
        rw [setSlot_self]
      · exact hsame hno trivial
    | release c idx =>
      rw [hp] at hw hknows
      have hno : ∀ p, ¬ S.thread.place.Initialises p := by rw [hp]; exact fun _ => id
      cases hw
      by_cases howned : (g.ring idx).isOwned = true ∧ (g.ring idx).address.isSome = true
      · rw [if_pos howned]
        refine h.ringOnly hg hno ?_ ?_ rfl
        · exact offers_emptied hoffers (.inl hknows)
        · trivial
      · rw [if_neg howned]
        exact hsame hno trivial

/-- A step of the warmer that works on its page. -/
theorem Inv.onPage {d' : Disk} (h : Inv P S) (hg : S.world.warmer = some g)
    (hfiles : FilesStep P S.front S.world.disk d')
    (habove : ∀ p, S.front < p → (d'.size p).isSome → Loaded P blank d' p ∨ t'.place.Initialises p)
    (hknows : t'.place.Knows P S.front d' g)
    (hS : S' = { S with world := { S.world with disk := d', warmer := some g }, thread := t' }) :
    Inv P S' ∧ Stable P (ctxOf P .empty) (S.world, S.locals) (S'.world, S'.locals) := by
  rw [← hg] at hS
  subst hS
  have hinv : Inv P { S with world := { S.world with disk := d' }, thread := t' } :=
    { hand := h.hand
      pages := h.pages
      files := fun p h0 hp => hfiles.isSome (h.files p h0 hp)
      above := habove
      waits := fun hn => by
        rw [hg] at hn
        cases hn
      offers := fun g₁ hg₁ idx p hp =>
        ⟨(h.offers g₁ hg₁ idx p hp).1, hfiles.isSome (h.offers g₁ hg₁ idx p hp).2⟩
      knows := fun g₁ hg₁ => by
        cases hg.symm.trans hg₁
        exact hknows }
  exact ⟨hinv, hinv.stable hfiles rfl rfl rfl rfl⟩

section
variable {n : Nat} {d d' : Disk} {r r' : WarmRegs}

theorem filesStep_of_ahead (hstep : WarmStep d r d' r') (hn : n < r.load.page)
    (ha : Ahead P blank d' r.load.page) : FilesStep P n d d' := by
  refine ⟨hstep.others 0 (by omega), fun p hp => (hstep.others p (by omega)).grows,
    fun p _ h => ?_, hstep.grow⟩
  by_cases hp : p = r.load.page
  · exact hp ▸ ha
  · exact h.of_same (hstep.others p hp)

theorem grows_of_image (hstep : WarmStep d r d' r') (hfile : (d.size r.load.page).isSome)
    (himage : d'.image r.load.page = d.image r.load.page) (p : Nat) : d.Grows d' p := by
  by_cases hp : p = r.load.page
  · subst hp
    refine ⟨himage, fun hn => ?_, hstep.grow _⟩
    rw [hn] at hfile
    cases hfile
  · exact (hstep.others p hp).grows

end

/-- The warmer looks whether the file of its page exists. -/
theorem Inv.warmer_check {c i : Nat} {idx : Fin ringSize} {r : WarmRegs} (h : Inv P S)
    (hg : S.world.warmer = some g) (hp : S.thread.place = .warm c i idx warmCode r)
    (hS : S' = { S with
      world := { S.world with warmer := some g }
      thread := { S.thread with
        place := .warm c i idx (mmapCode.map WarmStmt.mmap ++ [.initNew])
          ⟨r.load, (S.world.disk.size r.load.page).isSome⟩ } }) :
    Inv P S' ∧ Stable P (ctxOf P .empty) (S.world, S.locals) (S'.world, S'.locals) := by
  have hno : ∀ p, ¬ S.thread.place.Initialises p := by
    rw [hp]
    exact fun p hi => hi.2.2.1 List.mem_cons_self
  have hknows := h.knows g hg
  rw [hp] at hknows
  obtain ⟨hslot, hpos, hpage, hw, -⟩ := hknows
  refine h.ringOnly hg hno (h.offers g hg) ?_ hS
  refine ⟨hslot, hpos, hpage, hw, ?_⟩
  cases hfile : S.world.disk.size r.load.page with
  | some n =>
    have hsome : (S.world.disk.size r.load.page).isSome := by rw [hfile]; rfl
    exact .found ⟨hsome, rfl, List.suffix_refl _, .inl List.mem_cons_self⟩
  | none =>
    -- the writer has opened no such page, and the ring offers none
    refine .missing ?_ rfl (fun k hk => ?_) (.stat hfile)
    · refine Nat.lt_of_not_le fun hle => ?_
      have := h.files r.load.page (by omega) hle
      rw [hfile] at this
      cases this
    · have := (h.offers g hg k _ hk).2
      rw [hfile] at this
      cases this

/-- **A step of the warmer.** -/
theorem Inv.warmer (h : Inv P S) (he : S.next P .warmer = some S') :
    Inv P S' ∧ Stable P (ctxOf P .empty) (S.world, S.locals) (S'.world, S'.locals) := by
  by_cases hplace : ∃ c i idx s code r, S.thread.place = .warm c i idx (s :: code) r
  case neg => exact h.warmer_ring (fun c i idx s code r hp => hplace ⟨c, i, idx, s, code, r, hp⟩) he
  obtain ⟨c, i, idx, s, code, r, hp⟩ := hplace
  obtain ⟨⟨w, t⟩, hw, rfl⟩ := Option.map_eq_some_iff.mp he
  simp only [warmerStep] at hw
  cases hg : S.world.warmer with
  | none => rw [hg] at hw; cases hw
  | some g =>
    rw [hg, hp] at hw
    simp only at hw
    split at hw <;> cases hw
    rename_i d' r' push hexec
    have hstep := WarmStmt.exec_step hexec
    have hknows := h.knows g hg
    rw [hp] at hknows
    obtain ⟨hslot, hpos, hpage, hwriting, hat⟩ := hknows
    have hpage' : r'.load.page = c + i := hstep.page.trans hpage
    have hwriting' : r'.load.isWriting = true := hstep.isWriting.trans hwriting
    generalize hcode : s :: code = all at hat
    cases hat with
    | check =>
      cases hcode
      cases hexec
      exact h.warmer_check hg hp rfl
    -- the file was there: no statement of the load stores into it
    | found file =>
      subst hcode
      obtain ⟨himage, hfound⟩ := file.step hexec
      have hgrows := grows_of_image hstep file.file himage
      refine h.onPage hg ⟨hstep.others 0 (by omega), fun p _ => hgrows p,
        fun p _ ha => ha.grows (hgrows p), hstep.grow⟩ ?_ ?_ rfl
      · intro p hlt hs
        have hs' : (S.world.disk.size p).isSome := by
          by_cases hpp : p = r.load.page
          · exact hpp ▸ file.file
          · rwa [(hstep.others p hpp).1] at hs
        refine .inl (((h.above p hlt hs').resolve_right ?_).grows (hgrows p))
        rw [hp]
        intro hi
        exact Bool.false_ne_true (hi.2.1.symm.trans file.existed)
      · exact ⟨hslot, hpos, hpage', hwriting', .found hfound⟩
    -- a new file: its page stays ahead of the writer until the load is done
    | missing hahead hnew halone file =>
      subst hcode
      obtain ⟨hnew', hafter⟩ := file.step hnew hwriting hexec
      have hready : Ahead P blank d' r.load.page := by
        rw [← hstep.page]
        rcases hafter with hn | ⟨-, hl⟩
        · exact hn.ahead
        · exact hl.ahead
      refine h.onPage hg (filesStep_of_ahead hstep hahead hready) ?_ ?_ rfl
      · intro p hlt hs
        by_cases hpp : p = r.load.page
        · subst hpp
          rcases hafter with hn | ⟨-, hl⟩
          · exact .inr ⟨hstep.page, hnew', hn.initialises⟩
          · exact .inl (hstep.page ▸ hl)
        · rw [(hstep.others p hpp).1] at hs
          refine .inl (((h.above p hlt hs).resolve_right ?_).of_same (hstep.others p hpp))
          rw [hp]
          exact fun hi => hpp hi.1.symm
      · refine ⟨hslot, hpos, hpage', hwriting', ?_⟩
        rcases hafter with hn | ⟨hnil, hl⟩
        · exact .missing (hstep.page ▸ hahead) hnew' (by rw [hstep.page]; exact halone) hn
        · rw [hnil]
          obtain ⟨⟨size, hsize, -⟩, -⟩ := hl.ready
          exact .done (by rw [hsize]; rfl)
    | done => cases hcode

/-! ## One statement of the writer -/

theorem ringFollows_slot {k : Fin ringSize} (h : RingFollows (some g) (some g'))
    (hk : (g.ring k).pageId < 0) :
    g'.ring k = g.ring k := by
  rcases h k with h1 | ⟨h1, -⟩
  · exact h1
  · omega

/-- The ring offers no page it did not offer before. -/
theorem ringFollows_page {k : Fin ringSize} {p : Nat} (h : RingFollows (some g) (some g'))
    (hp : (g'.ring k).pageId = p) : g'.ring k = g.ring k := by
  rcases h k with h1 | ⟨-, h1⟩
  · exact h1
  · omega

/-- What the warmer knows stays true, unless the page it initialises is opened. -/
theorem knows_follows {n n' : Nat} {d d' : Disk} {x : Warming} (h : x.Knows P n d g)
    (hring : RingFollows (some g) (some g')) (hsizes : ∀ q, (d.size q).isSome → (d'.size q).isSome)
    (hnew : ∀ p, x.Initialises p → n' < p ∧ d.SameFile d' p) : x.Knows P n' d' g' := by
  cases x with
  | boot | snapshot | count | cleanup | expire => trivial
  | lookup | claim => exact h
  | warm c i idx code r =>
    obtain ⟨hslot, hpos, hpage, hw, hat⟩ := h
    have hkept := ringFollows_slot hring (k := idx) (by omega)
    refine ⟨by rw [hkept]; exact hslot, hpos, hpage, hw, ?_⟩
    cases hat with
    | check => exact .check
    | found file => exact .found ⟨hsizes _ file.file, file.existed, file.left, file.seen⟩
    | missing ahead new alone file =>
      obtain ⟨hlt, hsame⟩ := hnew r.load.page ⟨rfl, new, file.initialises⟩
      refine .missing hlt new (fun k hk => alone k ?_) (file.same hsame)
      rw [← ringFollows_page hring hk]
      exact hk
    | done file => exact .done (hsizes _ file)
  | fill c i idx left =>
    obtain ⟨hslot, hfile, haddr⟩ := h
    have hkept := ringFollows_slot hring (k := idx) (by omega)
    exact ⟨by rw [hkept]; exact hslot, hsizes _ hfile, by rw [hkept]; exact haddr⟩
  | publish c i idx =>
    obtain ⟨hslot, hfile, haddr⟩ := h
    have hkept := ringFollows_slot hring (k := idx) (by omega)
    exact ⟨by rw [hkept]; exact hslot, hsizes _ hfile, by rw [hkept]; exact haddr⟩
  | release c idx =>
    have hslot : (g.ring idx).pageId = -1 := h
    show (g'.ring idx).pageId = -1
    rw [ringFollows_slot hring (by omega)]
    exact hslot

theorem opensNext_cons (i : Stmt) (is : List Stmt) : opensNext (i :: is) = opensNext [i] := by
  cases i with
  | load a => cases a <;> rfl
  | _ => rfl

/-- A statement of the writer does not open the page the warmer initialises. -/
theorem Inv.not_opened {i : Stmt} {is : List Stmt} {w' : World} {l' : Local} {p : Nat} (h : Inv P S)
    (hcode : S.code = i :: is) (htimely : S.Timely .writer)
    (hstep : WriterStep i S.world S.locals w' l') (hp : S.thread.place.Initialises p) :
    frontier w'.writer l' < p := by
  cases hg : S.world.warmer with
  | none =>
    rw [h.waits hg] at hp
    exact hp.elim
  | some g =>
    obtain ⟨hlt, halone⟩ := alone_of_initialises (h.knows g hg) hp
    have hlt' : frontier S.world.writer S.locals < p := hlt
    rcases hstep.jump with hj | ⟨hj, -, ⟨hopens, hpage⟩ | ⟨g₁, idx, hg₁, hidx⟩⟩
    · omega
    · refine Nat.lt_of_le_of_ne (by omega) fun heq => ?_
      refine htimely ?_ (by rw [hpage, heq]; exact hp)
      rw [hcode, opensNext_cons]
      exact hopens
    · cases hg.symm.trans hg₁
      refine Nat.lt_of_le_of_ne (by omega) fun heq => halone idx ?_
      rw [hidx, heq]

/-- **A step of the writer.** -/
theorem Inv.writer (h : Inv P S) (htimely : S.Timely .writer)
    (he : S.next P .writer = some S') : Inv P S' := by
  simp only [next] at he
  split at he
  · cases he
  · rename_i i is hcode
    split at he <;> cases he
    rename_i w' l' push hexec
    obtain ⟨x, hx, hat⟩ := h.hand
    rw [hcode] at hx
    obtain ⟨hhand, hpages, hstep⟩ := Stmt.exec_hand hx hat h.pages h.offers hexec
    have hfront : frontier S.world.writer S.locals ≤ frontier w'.writer l' := by
      rcases hstep.jump with hj | ⟨hj, -⟩ <;> omega
    refine ⟨hhand, hpages, fun p h0 hp => ?_, fun p hp hs => ?_, fun hnone => ?_,
      fun g' hg' idx p hp => ?_, fun g' hg' => ?_⟩
    · have hp' : p ≤ frontier w'.writer l' := hp
      rcases Nat.lt_or_ge (frontier S.world.writer S.locals) p with hlt | hge
      · rcases hstep.jump with hj | ⟨hj, hsize, -⟩
        · omega
        · obtain rfl : p = frontier w'.writer l' := by omega
          exact hsize
      · exact hstep.sizes p (h.files p h0 hge)
    · have hsame := hstep.above p hp
      refine (h.above p (Nat.lt_of_le_of_lt hfront hp) ?_).imp_left fun hl => hl.of_same hsame
      rw [← hsame.1]
      exact hs
    · refine h.waits ?_
      have hring := hstep.ring
      cases hg : S.world.warmer with
      | none => rfl
      | some g =>
        rw [hg, show w'.warmer = none from hnone] at hring
        exact hring.elim
    · have hring := hstep.ring
      rw [show w'.warmer = some g' from hg'] at hring
      cases hg : S.world.warmer with
      | none =>
        rw [hg] at hring
        have := hring idx
        omega
      | some g =>
        rw [hg] at hring
        have hkept := ringFollows_page hring hp
        rw [hkept] at hp ⊢
        obtain ⟨haddr, hfile⟩ := h.offers g hg idx p hp
        exact ⟨haddr, hstep.sizes p hfile⟩
    · have hring := hstep.ring
      rw [show w'.warmer = some g' from hg'] at hring
      cases hg : S.world.warmer with
      | none =>
        show S.thread.place.Knows ..
        rw [h.waits hg]
        trivial
      | some g =>
        rw [hg] at hring
        refine knows_follows (h.knows g hg) hring hstep.sizes fun p hp => ?_
        have hlt := h.not_opened hcode htimely hstep hp
        exact ⟨hlt, hstep.above p hlt⟩

end Tandem

end Revoq
