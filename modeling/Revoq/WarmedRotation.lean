import Revoq.Reader

/-! # Two ways to a new page

`rotatePage` takes its next page from the warmer's ring, or else from `Page::load`.
`warmPageIntoSlot` and `Page::load` both map the file and initialise a new page, but
by different tests: the warmer asks whether the file existed, the load whether
`last_frame_position` is 0.  They part on a file that exists and has no header yet,
as a process leaves it that died between the two.
-/
namespace Revoq
open ByteImage StmtMachine

/-! ## `warmPageIntoSlot` -/

/-- The statements of `MmapBuffer::loadMmapBuffer`, when no system call fails. -/
def mmapCode : List LoadStmt := [.stat, .open false, .allocate false, .map false, .populate]

/-- The arguments and locals of `warmPageIntoSlot`. -/
structure WarmRegs where
  load : LoadRegs
  fileExisted : Bool
deriving DecidableEq

/-- The statements of `warmPageIntoSlot` by a writer's warmer, up to the slot. -/
inductive WarmStmt where
  /-- `std::filesystem::exists(page_file)`. -/
  | checkFile
  /-- A statement of `loadMmapBuffer`. -/
  | mmap (s : LoadStmt)
  /-- `if (is_writer_ && !file_existed)`. -/
  | initNew
  /-- A store through the mapping. -/
  | put (q : HeaderPut)
deriving DecidableEq

/-- The stores that initialise a new page: the header fields, and zeros behind it. -/
def warmPuts (P : PageSize) : List HeaderPut :=
  [(PageField.version.offset, PageField.version.width, journalPageVersion),
    (PageField.pageHeaderLength.offset, PageField.pageHeaderLength.width, pageHeaderSize),
    (PageField.pageSize.offset, PageField.pageSize.width, P.bytes),
    (PageField.frameHeaderLength.offset, PageField.frameHeaderLength.width, frameHeaderSize),
    (PageField.lastFramePosition.offset, PageField.lastFramePosition.width, pageHeaderSize),
    (pageHeaderSize, P.bytes - pageHeaderSize, 0)]

/-- One statement of `warmPageIntoSlot`. -/
def WarmStmt.exec (P : PageSize) : WarmStmt → Disk × WarmRegs → Outcome (Disk × WarmRegs) WarmStmt
  | .checkFile, (d, r) => .next (d, { r with fileExisted := (d.size r.load.page).isSome }) []
  | .mmap s, (d, r) =>
      match s.exec P (d, r.load) with
      | .next (d, l) push => .next (d, { r with load := l }) (push.map WarmStmt.mmap)
      | .throw (d, l) => .throw (d, { r with load := l })
      | .fault (d, l) => .fault (d, { r with load := l })
  | .initNew, (d, r) => .next (d, r) (if r.fileExisted then [] else (warmPuts P).map WarmStmt.put)
  | .put q, (d, r) => .next (d.write r.load.page q.1 q.2.1 q.2.2, r) []

/-- The statements of `warmPageIntoSlot`, in order. -/
def warmCode : List WarmStmt := .checkFile :: mmapCode.map WarmStmt.mmap ++ [.initNew]

/-- `warmPageIntoSlot(p)` by a thread that is not interrupted; it has at most 13
statements. -/
def warmPageIntoSlot (P : PageSize) (p : Nat) (d : Disk) : Option Disk :=
  (run (WarmStmt.exec P) 13 warmCode (d, ⟨⟨p, true, true, false, 0, false⟩, false⟩)).ended.map
    fun s => s.1

/-- The checks of `Page::loadFromAddress`. -/
def loadFromAddress (m : Image) : Bool :=
  decide (PageField.version.get m 0 = journalPageVersion) &&
    decide (firstFrameAddress m = pageHeaderSize)

theorem exec_loadFromAddress (P : PageSize) (w : World) (l : Local) :
    Stmt.exec P .loadFromAddress (w, l) =
      if loadFromAddress (w.disk.image l.load.page) then .next (w, l) [] else .throw (w, l) := by
  simp only [Stmt.exec, loadFromAddress, Bool.and_eq_true, decide_eq_true_eq]

/-! ## The two rotations -/

/-- A rotation that finds the page warmed: the directory, and the first frame's
address.  There is no result if it throws. -/
def rotateWarmed (P : PageSize) (p : Nat) (d : Disk) : Option (Disk × Nat) :=
  (warmPageIntoSlot P p d).bind fun d =>
    if loadFromAddress (d.image p) then some (d, firstFrameAddress (d.image p)) else none

/-- A rotation that loads the page itself. -/
def rotateLoaded (P : PageSize) (prefault : Bool) (p : Nat) (d : Disk) : Option (Disk × Nat) :=
  (Page.load P true prefault p d).ended.map fun s => (s.1, firstFrameAddress (s.1.image p))

/-- Both rotations succeed or both throw, and they leave the same page file and the
same first frame. -/
structure SameRotation (p : Nat) (a b : Option (Disk × Nat)) : Prop where
  both : a.isSome = b.isSome
  page : ∀ x ∈ a, ∀ y ∈ b, x.1.SameFile y.1 p
  first : ∀ x ∈ a, ∀ y ∈ b, x.2 = y.2

/-- What an earlier process may have left of a page without frames: nothing; a file of
whatever size with no header yet; or an initialised header. -/
def Leftover (P : PageSize) (d : Disk) (p : Nat) : Prop :=
  (d.size p).isSome → lastFramePosition (d.image p) = 0 ∨
    HeaderOk P (d.image p) ∧ lastFramePosition (d.image p) = pageHeaderSize

/-! ## Mapping the file -/

section
variable {P : PageSize} {d d' : Disk} {p : Nat} {prefault : Bool}

/-- The file after `loadMmapBuffer` by a writer: full-size, with the contents it had. -/
structure MappedFrom (P : PageSize) (d : Disk) (p : Nat) (d' : Disk) : Prop where
  size : d'.size p = some (max P.bytes ((d.size p).getD 0))
  image : d'.image p = areaOf d p

theorem store_zero_eq_self {m : Image} {a k : Nat} (h : ∀ x, a ≤ x → x < a + k → m x = 0) :
    store m a k 0 = m := by
  funext x
  by_cases hx : a ≤ x ∧ x < a + k
  · rw [store_zero_apply hx.1 hx.2, h x hx.1 hx.2]
  · exact store_apply_of_notMem (by omega)

/-- `loadMmapBuffer` by a writer. -/
theorem mmap_straight (P : PageSize) (prefault : Bool) (p : Nat) (d : Disk) :
    ∃ d' r, MappedFrom P d p d' ∧ r.page = p ∧ r.isWriting = true ∧
      Straight (LoadStmt.exec P) mmapCode (d, ⟨p, true, prefault, false, 0, false⟩) (d', r) := by
  cases hs : d.size p with
  | none =>
    have himage : areaOf d p = blank := by rw [areaOf, hs]; rfl
    have hstat : LoadStmt.exec P .stat (d, ⟨p, true, prefault, false, 0, false⟩) =
        .next (d, ⟨p, true, prefault, false, 0, false⟩) [] := by simp [LoadStmt.exec, hs]
    refine ⟨if prefault then ((d.create p).allocate p P.bytes).write p 0 P.bytes 0
      else (d.create p).allocate p P.bytes, ⟨p, true, prefault, false, 0, true⟩, ⟨?_, ?_⟩, rfl, rfl,
      .cons hstat (.cons rfl (.cons rfl (.cons rfl (.cons ?_ .nil))))⟩
    · cases prefault <;> simp [Disk.create_size_self_of_none hs, hs]
    · rw [himage]
      cases prefault with
      | false => exact Disk.create_image_self_of_none hs
      | true =>
        rw [if_pos rfl, Disk.write_image_self, Disk.allocate_image,
          Disk.create_image_self_of_none hs]
        exact store_zero_eq_self fun _ _ _ => rfl
    · cases prefault <;> rfl
  | some size =>
    have himage : areaOf d p = d.image p := by rw [areaOf, hs]; rfl
    have hcreate : d.create p = d := Disk.create_of_isSome (by rw [hs]; rfl)
    have hstat : LoadStmt.exec P .stat (d, ⟨p, true, prefault, false, 0, false⟩) =
        .next (d, ⟨p, true, prefault, true, size, false⟩) [] := by simp [LoadStmt.exec, hs]
    have hopen : LoadStmt.exec P (.open false) (d, ⟨p, true, prefault, true, size, false⟩) =
        .next (d, ⟨p, true, prefault, true, size, true⟩) [] := by simp [LoadStmt.exec, hcreate]
    have halloc : LoadStmt.exec P (.allocate false) (d, ⟨p, true, prefault, true, size, true⟩) =
        .next (if size = P.bytes then d else d.allocate p P.bytes,
          ⟨p, true, prefault, true, size, true⟩) [] := by
      by_cases heq : size = P.bytes <;> simp [LoadStmt.exec, LoadRegs.master, heq]
    refine ⟨if size = P.bytes then d else d.allocate p P.bytes,
      ⟨p, true, prefault, true, size, true⟩, ⟨?_, ?_⟩, rfl, rfl,
      .cons hstat (.cons hopen (.cons halloc (.cons rfl
        (.cons (by simp [LoadStmt.exec]) .nil))))⟩
    · split
      · rename_i heq
        rw [hs, heq]
        simp
      · rw [Disk.allocate_size_self, hs]
        rfl
    · rw [himage]
      split <;> rfl

/-! ## Stores through the mapping -/

/-- The directory after the stores `qs` to a page. -/
def Disk.writeAll (d : Disk) (p : Nat) (qs : List HeaderPut) : Disk :=
  qs.foldl (fun d q => d.write p q.1 q.2.1 q.2.2) d

/-- A page after the stores. -/
def imageAfter (qs : List HeaderPut) (m : Image) : Image := qs.foldl (fun m q => q.apply m) m

theorem writeAll_size (qs : List HeaderPut) : (d.writeAll p qs).size = d.size := by
  induction qs generalizing d with
  | nil => rfl
  | cons q qs ih => exact ih

theorem writeAll_image (qs : List HeaderPut) :
    (d.writeAll p qs).image p = imageAfter qs (d.image p) := by
  induction qs generalizing d with
  | nil => rfl
  | cons q qs ih =>
    refine ih.trans ?_
    rw [Disk.write_image_self]
    rfl

theorem load_puts_straight (qs : List HeaderPut) {r : LoadRegs} (hr : r.master = true) :
    Straight (LoadStmt.exec P) (qs.map fun q => .put q.1 q.2.1 q.2.2) (d, r)
      (d.writeAll r.page qs, r) := by
  induction qs generalizing d with
  | nil => exact .nil
  | cons q qs ih => exact .cons (by simp [LoadStmt.exec, hr]) ih

theorem warm_puts_straight (qs : List HeaderPut) {r : WarmRegs} :
    Straight (WarmStmt.exec P) (qs.map WarmStmt.put) (d, r) (d.writeAll r.load.page qs, r) := by
  induction qs generalizing d with
  | nil => exact .nil
  | cons q qs ih => exact .cons rfl ih

theorem straight_mmap {code : List LoadStmt} {s t : Disk × LoadRegs}
    (h : Straight (LoadStmt.exec P) code s t) (existed : Bool) :
    Straight (WarmStmt.exec P) (code.map WarmStmt.mmap) (s.1, ⟨s.2, existed⟩)
      (t.1, ⟨t.2, existed⟩) := by
  induction h with
  | nil => exact .nil
  | @cons i is s s' t h _ ih =>
    obtain ⟨d, r⟩ := s
    obtain ⟨d', r'⟩ := s'
    refine .cons ?_ ih
    simp only [WarmStmt.exec, h]
    rfl

theorem imageAfter_area {b m : Image} (qs : List HeaderPut)
    (hqs : ∀ q ∈ qs, q.1 + q.2.1 ≤ pageHeaderSize) (h : AreaIs P b m) :
    AreaIs P b (imageAfter qs m) := by
  induction qs generalizing m with
  | nil => exact h
  | cons q qs ih =>
    exact ih (fun x hx => hqs x (List.mem_cons_of_mem _ hx))
      (HeaderPut.apply_area (hqs q List.mem_cons_self) h)

theorem Pending.imageAfter {qs : List HeaderPut} {m : Image} (h : Pending P qs m) :
    HeaderOk P (imageAfter qs m) ∧ lastFramePosition (Revoq.imageAfter qs m) = pageHeaderSize := by
  induction qs generalizing m with
  | nil => exact h
  | cons q qs ih => exact ih h.2.2

/-- On a blank page the stores of the two paths come to the same: one clears the header
first and the other the frame area last. -/
theorem imageAfter_blank (P : PageSize) :
    imageAfter (warmPuts P) blank = imageAfter (initPuts P) blank := by
  obtain ⟨fields, hinit, hwarm⟩ : ∃ fields, initPuts P = (0, 64, 0) :: fields ∧
      warmPuts P = fields ++ [(64, P.bytes - 64, 0)] := ⟨_, rfl, rfl⟩
  have hfields : ∀ q ∈ fields, q.1 + q.2.1 ≤ pageHeaderSize := by
    obtain rfl : fields = (initPuts P).tail := by rw [hinit]; rfl
    intro q hq
    simp only [initPuts, List.tail_cons, List.mem_cons, List.not_mem_nil, or_false] at hq
    rcases hq with rfl | rfl | rfl | rfl | rfl <;> simp [pageHeaderSize]
  have hclear : HeaderPut.apply (0, 64, 0) blank = blank := store_zero_eq_self fun _ _ _ => rfl
  have harea : AreaIs P blank (imageAfter fields blank) :=
    imageAfter_area fields hfields fun _ _ => rfl
  have hbehind : HeaderPut.apply (64, P.bytes - 64, 0)
      (imageAfter fields blank) = imageAfter fields blank := by
    refine store_zero_eq_self fun x h1 (h2 : x < 64 + (P.bytes - 64)) => harea ⟨h1, ?_⟩
    have := P.roomy
    omega
  have hinit' : imageAfter (initPuts P) blank = imageAfter fields
      (HeaderPut.apply (0, 64, 0) blank) := by
    rw [hinit]
    rfl
  rw [hinit', hclear, hwarm, imageAfter, List.foldl_append]
  exact hbehind

/-! ## What each path does -/

/-- The result of `loadMmapBuffer` inside `Page::load`. -/
theorem load_mapped (P : PageSize) (prefault : Bool) (p : Nat) (d : Disk) :
    ∃ d₁ r, MappedFrom P d p d₁ ∧ r.page = p ∧ r.isWriting = true ∧
      Page.load P true prefault p d = run (LoadStmt.exec P) 7
        ((if lastFramePosition (areaOf d p) = 0 then Page.initHeader P else []) ++ [.validate])
        (d₁, r) := by
  obtain ⟨d₁, r, hm, rfl, hw, hst⟩ := mmap_straight P prefault p d
  refine ⟨d₁, r, hm, rfl, hw, ?_⟩
  have hpos : ¬ (d₁.size r.page).getD 0 = 0 := by
    have := P.pos
    rw [hm.size, Option.getD_some]
    omega
  have hcheck : LoadStmt.exec P .checkNew (d₁, r) =
      .next (d₁, r) (if lastFramePosition (areaOf d r.page) = 0 then
        Page.initHeader P else []) := by
    simp only [LoadStmt.exec, if_neg hpos, hm.image]
  have hrun : Page.load P true prefault r.page d = run (LoadStmt.exec P) 8
      [.checkNew, .validate] (d₁, r) :=
    hst.run_append 8 [.checkNew, .validate]
  rw [hrun, run, hcheck]

theorem run_validate {r : LoadRegs} (h : HeaderOk P (d.image r.page))
    (hl : lastFramePosition (d.image r.page) = pageHeaderSize) (n : Nat) :
    run (LoadStmt.exec P) (n + 1) [.validate] (d, r) = .next (d, r) [] := by
  have hv := headerValid_of h (by rw [hl]; exact pageHeaderSize_lt P)
  have hexec : LoadStmt.exec P .validate (d, r) = .next (d, r) [] := by
    simp only [LoadStmt.exec, if_pos hv]
  rw [run, hexec]
  cases n <;> rfl

/-- A load initialises a page that has no header yet. -/
theorem rotateLoaded_new (h0 : lastFramePosition (areaOf d p) = 0) :
    ∃ d', rotateLoaded P prefault p d = some (d', pageHeaderSize) ∧
      d'.size p = some (max P.bytes ((d.size p).getD 0)) ∧
      d'.image p = imageAfter (initPuts P) (areaOf d p) := by
  obtain ⟨d₁, r, hm, rfl, hw, hload⟩ := load_mapped P prefault p d
  have himage : (d₁.writeAll r.page (initPuts P)).image r.page = imageAfter (initPuts P)
      (areaOf d r.page) := by
    rw [writeAll_image, hm.image]
  obtain ⟨hok, hlast⟩ := (pending_initPuts (P := P) h0).imageAfter
  rw [← himage] at hok hlast
  have hrun : Page.load P true prefault r.page d = .next
      (d₁.writeAll r.page (initPuts P), r) [] := by
    rw [hload, if_pos h0]
    have hmaster : r.master = true := by rw [LoadRegs.master, hw, Bool.true_or]
    exact ((load_puts_straight (initPuts P) hmaster).run_append 1 [.validate]).trans
      (run_validate hok hlast 0)
  refine ⟨_, ?_, by rw [writeAll_size, hm.size], himage⟩
  rw [rotateLoaded, hrun]
  show some (_, firstFrameAddress _) = _
  rw [hok.headerLength]

/-- A load takes an initialised page as it is. -/
theorem rotateLoaded_ready (hok : HeaderOk P (areaOf d p))
    (hlast : lastFramePosition (areaOf d p) = pageHeaderSize) :
    ∃ d', rotateLoaded P prefault p d = some (d', pageHeaderSize) ∧
      d'.size p = some (max P.bytes ((d.size p).getD 0)) ∧ d'.image p = areaOf d p := by
  obtain ⟨d₁, r, hm, rfl, hw, hload⟩ := load_mapped P prefault p d
  rw [← hm.image] at hok hlast
  have hrun : Page.load P true prefault r.page d = .next (d₁, r) [] := by
    rw [hload, ← hm.image, if_neg (by rw [hlast]; decide)]
    exact run_validate hok hlast 6
  refine ⟨d₁, ?_, hm.size, hm.image⟩
  rw [rotateLoaded, hrun]
  show some (_, firstFrameAddress _) = _
  rw [hok.headerLength]

/-- **What a warm-up leaves**: a file that existed as it was, only full-size, and a new
one initialised. -/
theorem warmPageIntoSlot_spec (P : PageSize) (p : Nat) (d : Disk) :
    ∃ d', warmPageIntoSlot P p d = some d' ∧ d'.size p = some (max P.bytes ((d.size p).getD 0)) ∧
      d'.image p = if (d.size p).isSome then d.image p else imageAfter (warmPuts P) blank := by
  obtain ⟨d₁, r, hm, rfl, -, hst⟩ := mmap_straight P true p d
  have hrun : run (WarmStmt.exec P) 13 warmCode
      (d, ⟨⟨r.page, true, true, false, 0, false⟩, false⟩) =
      run (WarmStmt.exec P) 6 (if (d.size r.page).isSome then [] else (warmPuts P).map WarmStmt.put)
        (d₁, ⟨r, (d.size r.page).isSome⟩) := by
    refine ((straight_mmap hst (d.size r.page).isSome).run_append 7 [.initNew]).trans ?_
    rw [run, WarmStmt.exec]
    simp only [List.append_nil]
  by_cases hs : (d.size r.page).isSome
  · rw [if_pos hs] at hrun ⊢
    refine ⟨d₁, ?_, hm.size, ?_⟩
    · rw [warmPageIntoSlot, hrun]
      rfl
    · rw [hm.image, areaOf, if_pos hs]
  · rw [if_neg hs] at hrun ⊢
    have hput :=
      (warm_puts_straight (P := P) (d := d₁) (warmPuts P)
      (r := ⟨r, (d.size r.page).isSome⟩)).run_append
      0 []
    rw [List.append_nil] at hput
    refine ⟨d₁.writeAll r.page (warmPuts P), ?_, by rw [writeAll_size, hm.size], ?_⟩
    · rw [warmPageIntoSlot, hrun]
      rw [show 6 = (List.map WarmStmt.put (warmPuts P)).length + 0 from rfl, hput]
      rfl
    · rw [writeAll_image, hm.image, areaOf, if_neg hs]

/-! ## Where they agree -/

/-- A warmed page with an initialised header is adopted as it is. -/
theorem rotateWarmed_of_ok {d' : Disk} (h : warmPageIntoSlot P p d = some d')
    (hok : HeaderOk P (d'.image p)) :
    rotateWarmed P p d = some (d', pageHeaderSize) := by
  have hcheck : loadFromAddress (d'.image p) = true := by
    rw [loadFromAddress, hok.version, hok.headerLength]
    rfl
  rw [rotateWarmed, h, Option.bind_some, if_pos hcheck, hok.headerLength]

/-- The two rotations agree when they end with the same page. -/
theorem SameRotation.intro {d₁ d₂ : Disk} {n : Nat} (h1 : rotateWarmed P p d = some (d₁, n))
    (h2 : rotateLoaded P prefault p d = some (d₂, n)) (hs : d₁.SameFile d₂ p) :
    SameRotation p (rotateWarmed P p d) (rotateLoaded P prefault p d) := by
  rw [h1, h2]
  constructor
  · rfl
  · intro x hx y hy
    cases hx
    cases hy
    exact hs
  · intro x hx y hy
    cases hx
    cases hy
    rfl

/-- **A new file** is initialised by both. -/
theorem sameRotation_absent (hs : d.size p = none) :
    SameRotation p (rotateWarmed P p d) (rotateLoaded P prefault p d) := by
  have harea : areaOf d p = blank := by rw [areaOf, hs]; rfl
  obtain ⟨d₁, hwarm, hsize₁, himage₁⟩ := warmPageIntoSlot_spec P p d
  obtain ⟨d₂, hload, hsize₂, himage₂⟩ := @rotateLoaded_new P d p prefault
    (by rw [harea]; exact load_blank ..)
  rw [hs, if_neg (by simp), imageAfter_blank] at himage₁
  rw [harea] at himage₂
  have hok : HeaderOk P (d₁.image p) := by
    rw [himage₁]
    exact (pending_initPuts (load_blank ..)).imageAfter.1
  exact .intro (rotateWarmed_of_ok hwarm hok) hload
    ⟨hsize₂.trans hsize₁.symm, himage₂.trans himage₁.symm⟩

/-- **An initialised page** is taken as it is by both. -/
theorem sameRotation_ready (hs : (d.size p).isSome) (hok : HeaderOk P (d.image p))
    (hlast : lastFramePosition (d.image p) = pageHeaderSize) :
    SameRotation p (rotateWarmed P p d) (rotateLoaded P prefault p d) := by
  have harea : areaOf d p = d.image p := if_pos hs
  obtain ⟨d₁, hwarm, hsize₁, himage₁⟩ := warmPageIntoSlot_spec P p d
  obtain ⟨d₂, hload, hsize₂, himage₂⟩ := @rotateLoaded_ready P d p prefault
    (harea.symm ▸ hok) (harea.symm ▸ hlast)
  rw [if_pos hs] at himage₁
  rw [harea] at himage₂
  exact .intro (rotateWarmed_of_ok hwarm (himage₁.symm ▸ hok)) hload
    ⟨hsize₂.trans hsize₁.symm, himage₂.trans himage₁.symm⟩

/-- **A file without a header** is initialised by the load only. -/
theorem not_sameRotation (hs : (d.size p).isSome) (h0 : lastFramePosition (d.image p) = 0) :
    ¬ SameRotation p (rotateWarmed P p d) (rotateLoaded P prefault p d) := by
  have harea : areaOf d p = d.image p := if_pos hs
  obtain ⟨d₁, hwarm, -, himage₁⟩ := warmPageIntoSlot_spec P p d
  obtain ⟨d₂, hload, -, himage₂⟩ := @rotateLoaded_new P d p prefault
    (harea.symm ▸ h0)
  rw [if_pos hs] at himage₁
  intro hsame
  have hsome := hsame.both
  rw [hload, Option.isSome_some] at hsome
  obtain ⟨x, hx⟩ := Option.isSome_iff_exists.mp hsome
  -- the warmed page is the one found, and still has no header
  have hx₁ : x.1 = d₁ := by
    rw [rotateWarmed, hwarm, Option.bind_some] at hx
    split at hx
    · cases hx
      rfl
    · cases hx
  have hpage := (hsame.page x hx _ hload).2
  have hlast := (pending_initPuts (P := P) (harea.symm ▸ h0)).imageAfter.2
  rw [← himage₂, hpage, hx₁, himage₁, h0] at hlast
  exact absurd hlast (by decide)

end

/-- **Warmed and loaded pages.**  Whatever an earlier process left of the next page,
both rotations do the same exactly if the file is absent or its header is
initialised. -/
theorem warmed_rotation_agrees (P : PageSize) (prefault : Bool) (p : Nat) (d : Disk)
    (h : Leftover P d p) :
    SameRotation p (rotateWarmed P p d) (rotateLoaded P prefault p d) ↔
      d.size p = none ∨ lastFramePosition (d.image p) ≠ 0 := by
  cases hs : d.size p with
  | none => exact ⟨fun _ => Or.inl rfl, fun _ => sameRotation_absent hs⟩
  | some size =>
    have hsome : (d.size p).isSome := by rw [hs]; rfl
    rcases h hsome with h0 | ⟨hok, hlast⟩
    · constructor
      · exact fun hsame => absurd hsame (not_sameRotation hsome h0)
      · rintro (hnone | hne)
        · cases hnone
        · exact absurd h0 hne
    · constructor
      · intro _
        right
        rw [hlast]
        decide
      · exact fun _ => sameRotation_ready hsome hok hlast

/-- In a clean directory they do the same. -/
theorem warmed_rotation_agrees_clean :
    SameRotation 2 (rotateWarmed pageSizeDefault 2 .empty)
      (rotateLoaded pageSizeDefault false 2 .empty) :=
  (warmed_rotation_agrees _ false 2 .empty fun h => by cases h).mpr (Or.inl rfl)

/-- After a process died between allocation and header initialisation they do not. -/
theorem warmed_rotation_differs :
    Leftover pageSizeDefault ((Disk.empty.create 2).allocate 2 pageSizeDefault.bytes) 2 ∧
      ¬ SameRotation 2
        (rotateWarmed pageSizeDefault 2 ((Disk.empty.create 2).allocate 2 pageSizeDefault.bytes))
        (rotateLoaded pageSizeDefault false 2
          ((Disk.empty.create 2).allocate 2 pageSizeDefault.bytes)) := by
  have h0 : lastFramePosition (((Disk.empty.create 2).allocate 2 pageSizeDefault.bytes).image 2) =
      0 :=
    load_blank ..
  exact ⟨fun _ => Or.inl h0, not_sameRotation rfl h0⟩

end Revoq
