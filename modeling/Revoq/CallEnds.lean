import Revoq.WriterRun

/-! # Calls, left alone

What a write does to the writer that makes it, for any payload size, any state
the writer can be in between two calls, and any answer of the operating system.
Nothing interferes here: a call is evaluated to the way it `Ends`.
-/
namespace Revoq
open ByteImage StmtMachine

variable {P : PageSize}

/-! ## Loading the next page -/

/-- The file of page `p` is one that a writer's `Page::load` accepts, with these
answers of the operating system. -/
structure Loadable (P : PageSize) (d : Disk) (env : LoadEnv) (p : Nat) : Prop where
  opens : env.openFails = false
  allocates : d.size p ≠ some P.bytes → env.allocateFails = false
  maps : env.mapFails = false
  header : d.size p = none ∨ lastFramePosition (d.image p) = 0 ∨
    Page.headerValid P (d.image p) = true

instance (d : Disk) (env : LoadEnv) (p : Nat) : Decidable (Loadable P d env p) :=
  decidable_of_iff (env.openFails = false ∧ (d.size p ≠ some P.bytes → env.allocateFails = false) ∧
    env.mapFails = false ∧
    (d.size p = none ∨ lastFramePosition (d.image p) = 0 ∨ Page.headerValid P (d.image p) = true))
    ⟨fun ⟨h1, h2, h3, h4⟩ => ⟨h1, h2, h3, h4⟩, fun h => ⟨h.opens, h.allocates, h.maps, h.header⟩⟩

/-- The result of a load, once the page is mapped and, if it was missing, zeroed. -/
def LoadEnds (P : PageSize) (code : List LoadStmt) (x : Disk × LoadRegs) (ok : Prop) : Prop :=
  (ok → ∃ d' r', Ends (LoadStmt.exec P) code x (.returns (d', r')) ∧ r'.page = x.2.page ∧
    firstFrameAddress (d'.image x.2.page) = pageHeaderSize) ∧
  (¬ ok → ∃ y, Ends (LoadStmt.exec P) code x (.throws y))

/-- Stores that initialise a header, up to the check. -/
theorem ends_init {qs : List HeaderPut} {d : Disk} {r : LoadRegs} (hr : r.master = true)
    (h : Pending P qs (d.image r.page)) :
    ∃ d', Ends (LoadStmt.exec P) (qs.map (fun q => .put q.1 q.2.1 q.2.2) ++ [.validate]) (d, r)
      (.returns (d', r)) ∧ firstFrameAddress (d'.image r.page) = pageHeaderSize := by
  induction qs generalizing d with
  | nil =>
    have hv := headerValid_of h.1 (by rw [h.2]; exact pageHeaderSize_lt P)
    exact ⟨d, .cons (by simp only [LoadStmt.exec]; rw [if_pos hv]) .nil, h.1.headerLength⟩
  | cons q qs ih =>
    obtain ⟨-, -, hrest⟩ := h
    obtain ⟨d', hd, hf⟩ := ih (d := d.write r.page q.1 q.2.1 q.2.2) (by
      rw [Disk.write_image_self]
      exact hrest)
    exact ⟨d', .cons (by simp only [LoadStmt.exec]; rw [if_pos hr]) hd, hf⟩

/-- The header check, on a file with room. -/
theorem ends_checkNew {d : Disk} {r : LoadRegs} (hr : r.master = true)
    (hsize : (d.size r.page).getD 0 ≠ 0) :
    LoadEnds P [.checkNew, .validate] (d, r)
      (lastFramePosition (d.image r.page) = 0 ∨ Page.headerValid P (d.image r.page) = true) := by
  by_cases h0 : lastFramePosition (d.image r.page) = 0
  · refine ⟨fun _ => ?_, fun h => absurd (Or.inl h0) h⟩
    obtain ⟨d', hd, hf⟩ := ends_init (P := P) hr (pending_initPuts h0)
    refine ⟨d', r, .next ?_ hd, rfl, hf⟩
    simp only [LoadStmt.exec]
    rw [if_neg hsize, if_pos h0, initHeader_eq]
  · have hcheck : LoadStmt.checkNew.exec P (d, r) = .next (d, r) [] := by
      simp only [LoadStmt.exec]
      rw [if_neg hsize, if_neg h0]
    refine ⟨fun h => ?_, fun h => ?_⟩
    · have hv := h.resolve_left h0
      exact ⟨d, r, .cons hcheck (.cons (by simp only [LoadStmt.exec]; rw [if_pos hv]) .nil), rfl,
        firstFrameAddress_of_valid hv⟩
    · refine ⟨(d, r), .cons hcheck (.throw ?_)⟩
      simp only [LoadStmt.exec]
      rw [if_neg fun hv => h (Or.inr hv)]

/-- Statements in front of a load that go on. -/
theorem LoadEnds.cons {i : LoadStmt} {is : List LoadStmt} {x y : Disk × LoadRegs} {ok : Prop}
    (h : i.exec P x = .next y []) (hpage : y.2.page = x.2.page) (rest : LoadEnds P is y ok) :
    LoadEnds P (i :: is) x ok := by
  refine ⟨fun hok => ?_, fun hno => ?_⟩
  · obtain ⟨d', r', he, hp, hf⟩ := rest.1 hok
    exact ⟨d', r', .cons h he, hp.trans hpage, hpage ▸ hf⟩
  · obtain ⟨z, he⟩ := rest.2 hno
    exact ⟨z, .cons h he⟩

theorem LoadEnds.of_throw {i : LoadStmt} {is : List LoadStmt} {x y : Disk × LoadRegs} {ok : Prop}
    (h : i.exec P x = .throw y) (hno : ¬ ok) : LoadEnds P (i :: is) x ok :=
  ⟨fun hok => absurd hok hno, fun _ => ⟨y, .throw h⟩⟩

theorem LoadEnds.congr {is : List LoadStmt} {x : Disk × LoadRegs} {ok ok' : Prop} (h : ok ↔ ok')
    (he : LoadEnds P is x ok) : LoadEnds P is x ok' :=
  ⟨fun hok => he.1 (h.mpr hok), fun hno => he.2 fun hok => hno (h.mp hok)⟩

/-- From the mapping on, when a file that was missing has been created zeroed. -/
theorem ends_map {d : Disk} {r : LoadRegs} {fails : Bool} (hr : r.master = true)
    (hsize : (d.size r.page).getD 0 ≠ 0)
    (hnew : r.fileExists = false → lastFramePosition (d.image r.page) = 0) :
    LoadEnds P [.map fails, .populate, .checkNew, .validate] (d, r) (fails = false ∧
      (lastFramePosition (d.image r.page) = 0 ∨ Page.headerValid P (d.image r.page) = true)) := by
  cases fails with
  | true => exact .of_throw rfl fun h => by cases h.1
  | false =>
    refine .cons rfl rfl ?_
    by_cases hz : (r.prefault && !r.fileExists) = true
    · have hfile : r.fileExists = false := by
        rw [Bool.and_eq_true, Bool.not_eq_true'] at hz
        exact hz.2
      have h0 : lastFramePosition ((d.write r.page 0 P.bytes 0).image r.page) = 0 := by
        rw [Disk.write_image_self]
        have := P.roomy
        exact load_store_zero (Nat.zero_le _) (by simp only [PageField.lastFramePosition]; omega)
      refine .cons (y := (d.write r.page 0 P.bytes 0, r))
        (by simp only [LoadStmt.exec]; rw [if_pos hz])
        rfl (.congr ?_ (ends_checkNew hr hsize))
      exact ⟨fun _ => ⟨rfl, Or.inl (hnew hfile)⟩, fun _ => Or.inl h0⟩
    · refine .cons (y := (d, r)) (by simp only [LoadStmt.exec]; rw [if_neg hz]) rfl
        (.congr ?_ (ends_checkNew hr hsize))
      exact ⟨fun h => ⟨rfl, h⟩, fun h => h.2⟩

/-- From the allocation on, when `stat` saw the file as it is in `d`. -/
theorem ends_allocate {d : Disk} {r : LoadRegs} {env : LoadEnv} (hr : r.master = true)
    (hopen : env.openFails = false) (hfile : r.fileExists = (d.size r.page).isSome)
    (hst : r.stSize = (d.size r.page).getD 0) :
    LoadEnds P [.allocate env.allocateFails, .map env.mapFails, .populate, .checkNew, .validate]
      (d.create r.page, r) (Loadable P d env r.page) := by
  have hpos := P.pos
  have hexec : ∀ d', (LoadStmt.allocate env.allocateFails).exec P (d', r) =
      if d.size r.page = some P.bytes then .next (d', r) []
      else if env.allocateFails then .throw (d', r)
      else .next (d'.allocate r.page P.bytes, r) [] := by
    intro d'
    simp only [LoadStmt.exec, hr, hfile, hst]
    cases hs : d.size r.page with
    | none => simp
    | some n => by_cases hn : n = P.bytes <;> simp [hn]
  by_cases hfull : d.size r.page = some P.bytes
  · rw [Disk.create_of_isSome (by rw [hfull]; rfl)]
    refine .cons ((hexec d).trans (if_pos hfull)) rfl (.congr ?_ (ends_map hr ?_ ?_))
    · refine ⟨fun h => ⟨hopen, fun hn => absurd hfull hn, h.1, Or.inr h.2⟩,
        fun h => ⟨h.maps, h.header.resolve_left ?_⟩⟩
      rw [hfull]
      exact Option.some_ne_none _
    · rw [hfull, Option.getD_some]
      omega
    · rw [hfile, hfull]
      exact fun e => by cases e
  by_cases hfail : env.allocateFails = true
  · refine .of_throw (y := (d.create r.page, r)) ((hexec _).trans ?_) fun h => ?_
    · rw [if_neg hfull, if_pos hfail]
    · rw [h.allocates hfull] at hfail
      cases hfail
  refine .cons (y := ((d.create r.page).allocate r.page P.bytes, r)) ((hexec _).trans ?_) rfl ?_
  · rw [if_neg hfull, if_neg hfail]
  rw [Bool.not_eq_true] at hfail
  cases hs : d.size r.page with
  | none =>
    have h0 : lastFramePosition (((d.create r.page).allocate r.page P.bytes).image r.page) = 0 := by
      rw [Disk.allocate_image, Disk.create_image_self_of_none hs]
      exact load_blank ..
    refine .congr ?_ (ends_map hr ?_ fun _ => h0)
    · exact ⟨fun h => ⟨hopen, fun _ => hfail, h.1, Or.inl hs⟩, fun h => ⟨h.maps, Or.inl h0⟩⟩
    · rw [Disk.allocate_size_self, Disk.create_size_self_of_none hs, Option.map_some,
        Option.getD_some]
      omega
  | some n =>
    rw [Disk.create_of_isSome (by rw [hs]; rfl)]
    refine .congr ?_ (ends_map hr ?_ ?_)
    · refine ⟨fun h => ⟨hopen, fun _ => hfail, h.1, Or.inr h.2⟩,
        fun h => ⟨h.maps, h.header.resolve_left ?_⟩⟩
      rw [hs]
      exact Option.some_ne_none _
    · rw [Disk.allocate_size_self, hs, Option.map_some, Option.getD_some]
      omega
    · rw [hfile, hs]
      exact fun e => by cases e

/-- **A writer's `Page::load`** returns a page whose first frame stands behind the
header, or throws. -/
theorem ends_load {d : Disk} {r : LoadRegs} (env : LoadEnv) (hr : r.master = true) :
    LoadEnds P (Page.loadCode env) (d, r) (Loadable P d env r.page) := by
  refine .cons rfl rfl ?_
  cases hopen : env.openFails with
  | true => exact .of_throw rfl fun h => by rw [h.opens] at hopen; cases hopen
  | false =>
    have := ends_allocate (P := P) (d := d) (r := ⟨r.page, r.isWriting, r.prefault,
      (d.size r.page).isSome, (d.size r.page).getD 0, true⟩) hr hopen rfl rfl
    exact .cons rfl rfl this

theorem ends_lift_load {code : List LoadStmt} {x : Disk × LoadRegs} {r : Result (Disk × LoadRegs)}
    (h : Ends (LoadStmt.exec P) code x r) (w : World) (l : Local) :
    Ends (Stmt.exec P) (code.map Stmt.load) ({ w with disk := x.1 }, { l with load := x.2 })
      (r.map fun y => ({ w with disk := y.1 }, { l with load := y.2 })) := by
  induction h with
  | nil => exact .nil
  | @next i is push x y r e _ ih =>
    have he : (Stmt.load i).exec P ({ w with disk := x.1 }, { l with load := x.2 }) =
        .next ({ w with disk := y.1 }, { l with load := y.2 }) (push.map Stmt.load) := by
      simp only [Stmt.exec, e]
    refine .next he ?_
    rw [← List.map_append]
    exact ih
  | throw e => exact .throw (by simp only [Stmt.exec, e])
  | fault e => exact .fault (by simp only [Stmt.exec, e])

/-! ## Frame stores -/

/-- Only bytes behind the header's first words have changed, and history. -/
structure Kept (s s' : World × Local) : Prop where
  writer : s'.1.writer = s.1.writer
  frameHeader : s'.2.frameHeader = s.2.frameHeader
  reference : s'.2.reference = s.2.reference
  load : s'.2.load = s.2.load
  first : ∀ q, firstFrameAddress (s'.1.disk.image q) = firstFrameAddress (s.1.disk.image q)

theorem Kept.refl (s : World × Local) : Kept s s := ⟨rfl, rfl, rfl, rfl, fun _ => rfl⟩

theorem Kept.trans {s s' s'' : World × Local} (h : Kept s s') (h' : Kept s' s'') : Kept s s'' :=
  ⟨h'.writer.trans h.writer, h'.frameHeader.trans h.frameHeader, h'.reference.trans h.reference,
    h'.load.trans h.load, fun q => (h'.first q).trans (h.first q)⟩

theorem firstFrameAddress_write {d : Disk} {p a k v : Nat} (h : 8 ≤ a) (q : Nat) :
    firstFrameAddress ((d.write p a k v).image q) = firstFrameAddress (d.image q) := by
  by_cases hq : q = p
  · subst hq
    rw [Disk.write_image_self]
    exact load_store_disjoint (Or.inl (by simp only [PageField.pageHeaderLength]; omega))
  · rw [Disk.write_image_of_ne d a k v hq]

/-- The frame a statement stores into, if that is all it does. -/
def Stmt.target (l : Local) : Stmt → Option Slot
  | .put .. | .putSeq | .putByte .. => some l.frameHeader
  | .fillByte .. => some l.reference
  | _ => none

theorem Stmt.exec_target {i : Stmt} {s : World × Local} {t : Slot} (h : i.target s.2 = some t)
    (ht : pageHeaderSize ≤ t.offset) : ∃ s', i.exec P s = .next s' [] ∧ Kept s s' := by
  obtain ⟨w, l⟩ := s
  have ht' : ∀ n, 8 ≤ t.offset + n := fun n =>
    Nat.le_trans (Nat.le_trans (by decide) ht) (Nat.le_add_right ..)
  cases i with
  | put | putSeq | putByte | fillByte =>
    cases h
    exact ⟨_, rfl, rfl, rfl, rfl, rfl, fun q => firstFrameAddress_write (ht' _) q⟩
  | _ => cases h

/-- Stores into a frame. -/
theorem ends_stores {c : List Stmt} {s : World × Local}
    (h : ∀ i ∈ c, ∃ t, i.target s.2 = some t ∧ pageHeaderSize ≤ t.offset) :
    ∃ s', Ends (Stmt.exec P) c s (.returns s') ∧ Kept s s' := by
  induction c generalizing s with
  | nil => exact ⟨s, .nil, .refl s⟩
  | cons i is ih =>
    obtain ⟨t, ht, hle⟩ := h i List.mem_cons_self
    obtain ⟨s₁, he, hk⟩ := Stmt.exec_target (P := P) ht hle
    obtain ⟨s₂, hs₂, hk₂⟩ := ih (s := s₁) (by
      intro j hj
      obtain ⟨t, ht, hle⟩ := h j (List.mem_cons_of_mem i hj)
      refine ⟨t, ?_, hle⟩
      rw [← ht]
      cases j <;> simp only [Stmt.target, hk.frameHeader, hk.reference])
    exact ⟨s₂, .cons he hs₂, hk.trans hk₂⟩

/-- The state once a sequence number is taken. -/
def tookSeq (s : World × Local) : World × Local :=
  ({ s.1 with writer := { s.1.writer with currentSequence := s.1.writer.currentSequence + 1 } },
    s.2)

theorem ends_fillHeader {h : FrameHeader} {s : World × Local}
    (hs : pageHeaderSize ≤ s.2.frameHeader.offset) :
    ∃ s', Ends (Stmt.exec P) (fillHeader h) s (.returns s') ∧ Kept (tookSeq s) s' := by
  obtain ⟨s₁, h₁, k₁⟩ := ends_stores (P := P) (s := s) (c := newFrameHeader ++
    [.put FrameField.genTime h.genTime.toUInt64.toNat, .put FrameField.eventTime 0,
      .put FrameField.msgType h.msgType.toNat, .put FrameField.flags h.flags.toNat]) (by
    intro i hi
    simp only [newFrameHeader, List.cons_append, List.nil_append, List.mem_cons, List.not_mem_nil,
      or_false] at hi
    refine ⟨s.2.frameHeader, ?_, hs⟩
    rcases hi with rfl | rfl | rfl | rfl | rfl | rfl | rfl | rfl | rfl | rfl <;> rfl)
  obtain ⟨w₁, l₁⟩ := s₁
  have hseq : Stmt.nextSeq.exec P (w₁, l₁) = .next (tookSeq (w₁, { l₁ with
    meant := { l₁.meant with sequence := w₁.writer.currentSequence } })) [] := rfl
  have hfh : l₁.frameHeader = s.2.frameHeader := k₁.frameHeader
  obtain ⟨s₂, h₂, k₂⟩ := Stmt.exec_target (P := P) (i := .putSeq) (s := tookSeq (w₁, { l₁ with
    meant := { l₁.meant with sequence := w₁.writer.currentSequence } })) rfl (hfh ▸ hs)
  have hw : w₁.writer = s.1.writer := k₁.writer
  refine ⟨s₂, h₁.append (.cons hseq (.cons h₂ .nil)), .trans ?_ k₂⟩
  refine ⟨?_, k₁.frameHeader, k₁.reference, k₁.load, k₁.first⟩
  rw [tookSeq, tookSeq, hw]

/-! ## Publishing -/

/-- A frame was published at `t`, with a length word of `n`. -/
structure Published (t : Slot) (n : Nat) (s : World × Local) : Prop where
  entry : ∃ e, s.1.log.getLast? = some e ∧ e.slot = t
  length : getFrameLength (s.1.disk.image t.page) t.offset = n

theorem exec_setLastFramePosition {w : World} {l : Local}
    (h : l.frameHeader.page = w.writer.currentPage) :
    Stmt.setLastFramePosition.exec P (w, l) = .next ({ w with
      disk := w.disk.write w.writer.currentPage PageField.lastFramePosition.offset
        PageField.lastFramePosition.width l.frameHeader.offset }, l) [] := if_pos h

theorem ends_publish {n : Nat} {s : World × Local}
    (hpage : s.2.frameHeader.page = s.1.writer.currentPage)
    (hs : pageHeaderSize ≤ s.2.frameHeader.offset) :
    ∃ s', Ends (Stmt.exec P) [.publish n, .setLastFramePosition] s (.returns s') ∧ Kept s s' ∧
      Published s.2.frameHeader (narrow32 (totalSize n)) s' := by
  obtain ⟨w, l⟩ := s
  simp only at hpage hs
  have hlt : narrow32 (totalSize n) < 256 ^ 4 := Nat.mod_lt _ (by decide)
  refine ⟨_, .cons rfl (.cons (exec_setLastFramePosition hpage) .nil),
    ⟨rfl, rfl, rfl, rfl, fun q => ?_⟩, ⟨⟨_, List.getLast?_concat, rfl⟩, ?_⟩⟩
  · exact (firstFrameAddress_write (by decide) q).trans (firstFrameAddress_write
      (Nat.le_trans (Nat.le_trans (by decide) hs) (Nat.le_add_right ..)) q)
  · simp only [pageHeaderSize] at hs
    simp only [getFrameLength, Field.get, World.store, hpage, Disk.write_image_self,
      FrameField.length, Nat.add_zero, PageField.lastFramePosition]
    rw [load_store_disjoint (Or.inr (by omega)), load_store_self_of_lt hlt]

/-! ## Rotating -/

/-- `getWarmedPage`: the mapping in the first of the slots, from the `k`-th last
on, that holds the page. -/
def PageWarmer.warmed (g : PageWarmer) (pageId start : Nat) : Nat → Option Nat
  | 0 => none
  | k + 1 =>
      let slot := g.ring (PageWarmer.slotIndex (start + (ringSize - (k + 1))))
      if slot.pageId = pageId then slot.address else g.warmed pageId start k

/-- **`rotatePage` gets its next page**: the warmed one is valid, or there is none
and the page file loads. -/
def NextPage (P : PageSize) (w : World) (env : LoadEnv) : Prop :=
  match w.warmer.bind fun g => g.warmed (w.writer.currentPageId + 1) g.readIndex ringSize with
  | some p => PageField.version.get (w.disk.image p) 0 = journalPageVersion ∧
      firstFrameAddress (w.disk.image p) = pageHeaderSize
  | none => Loadable P w.disk env (w.writer.currentPageId + 1)

/-- The page it gets. -/
def nextPageOf (w : World) : Nat :=
  (w.warmer.bind fun g => g.warmed (w.writer.currentPageId + 1) g.readIndex ringSize).getD
    (w.writer.currentPageId + 1)

/-- How a part of `rotatePage` ends that gets a page, if `ok` and else throws; it
leaves the writer's fields alone. -/
def FetchEnds (P : PageSize) (code : List Stmt) (s : World × Local) (page : Nat)
    (ok : Prop) : Prop :=
  (ok → ∃ s', Ends (Stmt.exec P) code s (.returns s') ∧ s'.1.writer = s.1.writer ∧
    firstFrameAddress (s'.1.disk.image s'.2.load.page) = pageHeaderSize ∧ s'.2.load.page = page) ∧
  (¬ ok → ∃ s', Ends (Stmt.exec P) code s (.throws s') ∧ s'.1.writer = s.1.writer)

theorem fetch_load {w : World} {l : Local} (env : LoadEnv) (hl : l.load.master = true) :
    FetchEnds P ((Page.loadCode env).map Stmt.load) (w, l) l.load.page
      (Loadable P w.disk env l.load.page) := by
  obtain ⟨hok, hno⟩ := ends_load (P := P) (d := w.disk) env hl
  refine ⟨fun h => ?_, fun h => ?_⟩
  · obtain ⟨d', r', he, hp, hf⟩ := hok h
    refine ⟨_, ends_lift_load he w l, rfl, ?_, hp⟩
    rw [← hf, ← hp]
  · obtain ⟨y, he⟩ := hno h
    exact ⟨_, ends_lift_load he w l, rfl⟩

theorem FetchEnds.next {i : Stmt} {s t : World × Local} {push : List Stmt} {page : Nat} {ok : Prop}
    (h : i.exec P s = .next t push) (hw : t.1.writer = s.1.writer)
    (rest : FetchEnds P push t page ok) : FetchEnds P [i] s page ok := by
  refine ⟨fun hok => ?_, fun hno => ?_⟩
  · obtain ⟨s', he, hs, hf⟩ := rest.1 hok
    exact ⟨s', .next h (by rwa [List.append_nil]), hs.trans hw, hf⟩
  · obtain ⟨s', he, hs⟩ := rest.2 hno
    exact ⟨s', .next h (by rwa [List.append_nil]), hs.trans hw⟩

/-- The ring is searched, and the page loaded if it is not there. -/
theorem fetch_probe {w : World} {l : Local} (env : LoadEnv) {g : PageWarmer} (start : Nat)
    (hg : w.warmer = some g) (hl : l.load.master = true) (hp : l.load.page = l.newPageId) :
    ∀ k, k ≤ ringSize → FetchEnds P [.probe env start (ringSize - k)] (w, l)
      ((g.warmed l.newPageId start k).getD l.newPageId)
      (match g.warmed l.newPageId start k with
        | some p => PageField.version.get (w.disk.image p) 0 = journalPageVersion ∧
            firstFrameAddress (w.disk.image p) = pageHeaderSize
        | none => Loadable P w.disk env l.newPageId) := by
  intro k
  induction k with
  | zero =>
    intro _
    refine .next (by simp [Stmt.exec, hg]; rfl) rfl ?_
    rw [← hp]
    exact fetch_load env hl
  | succ k ih =>
    intro hk
    have hlt : ¬ ringSize - (k + 1) ≥ ringSize := by omega
    by_cases hs : (g.ring (PageWarmer.slotIndex (start + (ringSize - (k + 1))))).pageId =
      l.newPageId
    · refine .next (t := (w, l)) (by simp only [Stmt.exec, hg]; rw [if_neg hlt, if_pos hs]) rfl ?_
      simp only [PageWarmer.warmed, if_pos hs]
      cases ha : (g.ring (PageWarmer.slotIndex (start + (ringSize - (k + 1))))).address with
      | none =>
        refine .next (t := ({ w with warmer := some (g.claim _) }, l))
          (by simp only [Stmt.exec, hg, if_pos hs, ha]; rfl) rfl ?_
        rw [← hp]
        exact fetch_load env hl
      | some p =>
        refine .next (t := ({ w with warmer := some (g.claim _) },
          { l with load := { l.load with page := p, opened := true } }))
          (by simp only [Stmt.exec, hg, if_pos hs, ha]; rfl) rfl ?_
        exact ⟨fun h => ⟨_, .cons (if_pos h) .nil, rfl, h.2, rfl⟩,
          fun h => ⟨_, .throw (if_neg h), rfl⟩⟩
    · refine .next (t := (w, l)) (by simp only [Stmt.exec, hg]; rw [if_neg hlt, if_neg hs]) rfl ?_
      simp only [PageWarmer.warmed, if_neg hs]
      have hnext : ringSize - (k + 1) + 1 = ringSize - k := by omega
      rw [hnext]
      exact ih (by omega)

theorem fetch_nextPage {w : World} {l : Local} (env : LoadEnv) (hl : l.load.master = true)
    (hp : l.load.page = l.newPageId) :
    FetchEnds P [.nextPage env] (w, l)
      ((w.warmer.bind fun g => g.warmed l.newPageId g.readIndex ringSize).getD l.newPageId)
      (match w.warmer.bind fun g => g.warmed l.newPageId g.readIndex ringSize with
        | some p => PageField.version.get (w.disk.image p) 0 = journalPageVersion ∧
            firstFrameAddress (w.disk.image p) = pageHeaderSize
        | none => Loadable P w.disk env l.newPageId) := by
  cases hg : w.warmer with
  | none =>
    refine .next (by simp only [Stmt.exec, hg]; rfl) rfl ?_
    rw [← hp]
    exact fetch_load env hl
  | some g =>
    refine .next (t := (w, l))
      (by simp only [Stmt.exec, hg]; rfl) rfl ?_
    obtain ⟨hok, hno⟩ := fetch_probe (P := P) env g.readIndex hg hl hp ringSize (Nat.le_refl _)
    rw [Nat.sub_self] at hok hno
    refine ⟨fun h => ?_, fun h => ?_⟩
    · obtain ⟨s', he, hs, hf⟩ := hok h
      exact ⟨_, he.append (.cons rfl .nil), hs, hf⟩
    · obtain ⟨s', he, hs⟩ := hno h
      exact ⟨s', he.append_throws, hs⟩

/-- What a rotation leaves of the writer: a page id is taken, and if the page was
obtained, the writer stands at its first frame. -/
structure Rotated (s s' : World × Local) : Prop where
  pageId : s'.1.writer.currentPageId = s.1.writer.currentPageId + 1
  page : s'.1.writer.currentPage = nextPageOf s.1
  cursor : s'.1.writer.currentFrameAddress = pageHeaderSize
  openFrame : s'.1.writer.openFrameHeader = s.1.writer.openFrameHeader
  writing : s'.1.writer.writing = s.1.writer.writing

theorem ends_rotatePage {s : World × Local} (now : Int64) (env : LoadEnv)
    (hcur : pageHeaderSize ≤ s.1.writer.currentFrameAddress) :
    (NextPage P s.1 env → ∃ s', Ends (Stmt.exec P) (rotatePage now env) s
      (.returns s') ∧ Rotated s s') ∧
    (¬ NextPage P s.1 env → ∃ s', Ends (Stmt.exec P) (rotatePage now env) s (.throws s') ∧
      s'.1.writer = { s.1.writer with currentPageId := s.1.writer.currentPageId + 1 }) := by
  obtain ⟨w, l⟩ := s
  obtain ⟨hok, hno⟩ := fetch_nextPage (P := P) env
    (w := { w with writer := { w.writer with currentPageId := w.writer.currentPageId + 1 } })
    (l := { l with
      newPageId := w.writer.currentPageId + 1
      load := ⟨w.writer.currentPageId + 1, true, w.writer.prefault, false, 0, false⟩ }) rfl rfl
  refine ⟨fun h => ?_, fun h => ?_⟩
  · obtain ⟨⟨w₁, l₁⟩, h₁, hw₁, hf₁, hp₁⟩ := hok h
    have hw₁ : w₁.writer = { w.writer with currentPageId := w.writer.currentPageId + 1 } := hw₁
    obtain ⟨s₂, h₂, k₂⟩ := ends_fillHeader (P := P) (h := pageEndHeader now) (s := (w₁, { l₁ with
      frameHeader := ⟨w₁.writer.currentPage, w₁.writer.currentFrameAddress⟩
      meant := ⟨pageEndHeader now, []⟩ })) (by rw [hw₁]; exact hcur)
    obtain ⟨s₃, h₃, k₃, -⟩ := ends_publish (P := P) (n := 0) (s := s₂) (by
      rw [k₂.frameHeader, k₂.writer]; rfl) (by rw [k₂.frameHeader, hw₁]; exact hcur)
    have hfirst : firstFrameAddress (s₃.1.disk.image s₃.2.load.page) = pageHeaderSize := by
      rw [k₃.first, k₂.first, k₃.load, k₂.load]
      exact hf₁
    refine ⟨_, .cons rfl (h₁.append (.cons rfl (h₂.append (h₃.append (.cons rfl .nil))))), ?_⟩
    have hw₃ : s₃.1.writer = (tookSeq (w₁, l₁)).1.writer := k₃.writer.trans k₂.writer
    have hpage : s₃.2.load.page = nextPageOf w := by
      rw [k₃.load, k₂.load]
      exact hp₁
    refine ⟨?_, hpage, hfirst, ?_, ?_⟩ <;> simp only [hw₃, tookSeq, hw₁]
  · obtain ⟨s₁, h₁, hw₁⟩ := hno h
    exact ⟨s₁, .cons rfl (h₁.append_throws), hw₁⟩

/-! ## One write -/

/-- The border test of `openFrame` asks for a rotation. -/
def Crosses (P : PageSize) (j : JournalWriter) (n : Nat) : Prop :=
  j.currentFrameAddress + strideOf n > P.bytes - frameAlignment

/-- A frame has been started at the cursor. -/
structure Started (s s' : World × Local) : Prop where
  frame : s'.2.frameHeader = ⟨s'.1.writer.currentPage, s'.1.writer.currentFrameAddress⟩
  openFrame : s'.1.writer.openFrameHeader = s.1.writer.openFrameHeader
  writing : s'.1.writer.writing = s.1.writer.writing

theorem ends_openFrame_here {s : World × Local} {h : FrameHeader}
    (hcur : pageHeaderSize ≤ s.1.writer.currentFrameAddress) :
    ∃ s', Ends (Stmt.exec P) (.takeCursor h :: fillHeader h ++ [.put FrameField.length 0]) s
      (.returns s') ∧ Started s s' ∧
      s'.1.writer.currentFrameAddress = s.1.writer.currentFrameAddress ∧
      s'.1.writer.currentPage = s.1.writer.currentPage := by
  obtain ⟨w, l⟩ := s
  obtain ⟨s₁, h₁, k₁⟩ := ends_fillHeader (P := P) (h := h) (s := (w, { l with
    frameHeader := ⟨w.writer.currentPage, w.writer.currentFrameAddress⟩, meant := ⟨h, []⟩ })) hcur
  obtain ⟨s₂, h₂, k₂⟩ := Stmt.exec_target (P := P) (i := .put FrameField.length 0) (s := s₁) rfl
    (by rw [k₁.frameHeader]; exact hcur)
  have hw : s₂.1.writer = (tookSeq (w, l)).1.writer := k₂.writer.trans k₁.writer
  have hf : s₂.2.frameHeader = ⟨w.writer.currentPage, w.writer.currentFrameAddress⟩ :=
    k₂.frameHeader.trans k₁.frameHeader
  refine ⟨s₂, .cons rfl (h₁.append (.cons h₂ .nil)), ⟨?_, ?_, ?_⟩, ?_, ?_⟩ <;>
    simp only [hf, hw, tookSeq]

/-- The page `openFrame` starts a frame on. -/
structure LandedOn (P : PageSize) (w : World) (n page : Nat) : Prop where
  crossed : Crosses P w.writer n → page = nextPageOf w
  stayed : ¬ Crosses P w.writer n → page = w.writer.currentPage

theorem ends_openFrame {s : World × Local} (h : FrameHeader) (n : Nat) (now : Int64) (env : LoadEnv)
    (hcur : pageHeaderSize ≤ s.1.writer.currentFrameAddress) :
    ((Crosses P s.1.writer n → NextPage P s.1 env) →
      ∃ s', Ends (Stmt.exec P) (openFrame h n now env) s (.returns s') ∧ Started s s' ∧
        ((Crosses P s.1.writer n ∧ s'.1.writer.currentFrameAddress = pageHeaderSize) ∨
          (¬ Crosses P s.1.writer n ∧
            s'.1.writer.currentFrameAddress = s.1.writer.currentFrameAddress)) ∧
        LandedOn P s.1 n s'.1.writer.currentPage) ∧
    (¬ (Crosses P s.1.writer n → NextPage P s.1 env) →
      ∃ s', Ends (Stmt.exec P) (openFrame h n now env) s (.throws s') ∧
        s'.1.writer = { s.1.writer with currentPageId := s.1.writer.currentPageId + 1 }) := by
  obtain ⟨hok, hno⟩ := ends_rotatePage (P := P) (s := s) now env hcur
  by_cases hc : Crosses P s.1.writer n
  · have hb : (Stmt.border n now env).exec P s = .next s (rotatePage now env) := if_pos hc
    refine ⟨fun h' => ?_, fun h' => ?_⟩
    · obtain ⟨s₁, h₁, r₁⟩ := hok (h' hc)
      obtain ⟨s₂, h₂, t₂, c₂, p₂⟩ := ends_openFrame_here (P := P) (s := s₁) (h := h)
        (r₁.cursor ▸ Nat.le_refl _)
      exact ⟨s₂, .next hb (h₁.append h₂), ⟨t₂.frame, t₂.openFrame.trans r₁.openFrame,
        t₂.writing.trans r₁.writing⟩, Or.inl ⟨hc, c₂.trans r₁.cursor⟩,
        fun _ => p₂.trans r₁.page, fun hnc => absurd hc hnc⟩
    · obtain ⟨s₁, h₁, w₁⟩ := hno fun hn => h' fun _ => hn
      exact ⟨s₁, .next hb h₁.append_throws, w₁⟩
  · have hb : (Stmt.border n now env).exec P s = .next s [] := if_neg hc
    refine ⟨fun _ => ?_, fun h' => absurd (fun hc' => absurd hc' hc) h'⟩
    obtain ⟨s₂, h₂, t₂, c₂, p₂⟩ := ends_openFrame_here (P := P) (s := s) (h := h) hcur
    exact ⟨s₂, .cons hb h₂, t₂, Or.inr ⟨hc, c₂⟩, fun hc' => absurd hc' hc, fun _ => p₂⟩

/-- The state with the lock set to `b`. -/
def lockedTo (s : World × Local) (b : Bool) : World × Local :=
  ({ s.1 with writer := { s.1.writer with writing := b } }, s.2)

theorem ends_acquire {serialize : Bool} {s : World × Local}
    (h : serialize = true → s.1.writer.writing = false) :
    ∃ b, Ends (Stmt.exec P) (if serialize then [.acquire] else []) s (.returns (lockedTo s b)) := by
  cases serialize with
  | false => exact ⟨s.1.writer.writing, .nil⟩
  | true =>
    have hw : ¬ s.1.writer.writing = true := by rw [h rfl]; exact Bool.false_ne_true
    exact ⟨true, .cons (if_neg hw) .nil⟩

theorem ends_release (serialize : Bool) {s : World × Local} :
    ∃ b, Ends (Stmt.exec P) (if serialize then [.release] else []) s (.returns (lockedTo s b)) := by
  cases serialize with
  | false => exact ⟨s.1.writer.writing, .nil⟩
  | true => exact ⟨false, .cons rfl .nil⟩

/-- What a hook does to the frame it is given. -/
def hooked (h : Hook) (s : World × Local) : World × Local :=
  match h.eventTime with
  | none => s
  | some t => (s.1.store s.2.frameHeader FrameField.eventTime.offset FrameField.eventTime.width
      t.toUInt64.toNat, { s.2 with meant := { s.2.meant with eventTime := t } })

theorem exec_hook (h : Hook) (s : World × Local) :
    (Stmt.hook h).exec P s = if h.throws then
      .throw ((hooked h s).1, { (hooked h s).2 with opened := (hooked h s).2.meant })
    else .next (hooked h s) [] := by
  obtain ⟨w, l⟩ := s
  cases he : h.eventTime <;> simp only [Stmt.exec, hooked, he]

theorem hooked_fields (h : Hook) (s : World × Local) :
    (hooked h s).1.writer = s.1.writer ∧ (hooked h s).2.frameHeader = s.2.frameHeader := by
  unfold hooked
  split <;> exact ⟨rfl, rfl⟩

theorem hooked_kept (h : Hook) {s : World × Local} (hs : pageHeaderSize ≤ s.2.frameHeader.offset) :
    Kept s (hooked h s) := by
  unfold hooked
  split
  · exact .refl s
  · refine ⟨rfl, rfl, rfl, rfl, fun q => ?_⟩
    exact firstFrameAddress_write (Nat.le_trans (Nat.le_trans (by decide) hs) (Nat.le_add_right ..))
      q

theorem ends_closeFrame {s : World × Local} (n : Nat) {h : Hook} (hh : h.throws = false)
    (hpage : s.2.frameHeader.page = s.1.writer.currentPage)
    (hs : pageHeaderSize ≤ s.2.frameHeader.offset) :
    ∃ s', Ends (Stmt.exec P) (closeFrame n h) s (.returns s') ∧
      s'.1.writer = { s.1.writer with currentFrameAddress := s.2.frameHeader.offset + strideOf n } ∧
      Published s.2.frameHeader (narrow32 (totalSize n)) s' := by
  have h₁ := exec_hook (P := P) h s
  have k₁ := hooked_kept h hs
  rw [hh, if_neg Bool.false_ne_true] at h₁
  generalize hooked h s = s₁ at h₁ k₁
  obtain ⟨s₂, h₂, k₂, p₂⟩ := ends_publish (P := P) (n := n) (s := s₁)
    (by rw [k₁.frameHeader, k₁.writer]; exact hpage) (by rw [k₁.frameHeader]; exact hs)
  refine ⟨_, .cons h₁ (h₂.append (.cons rfl .nil)), ?_, ?_⟩
  · simp only [k₂.writer, k₁.writer, k₂.frameHeader, k₁.frameHeader]
  · rw [← k₁.frameHeader]
    exact ⟨p₂.entry, p₂.length⟩

/-- The frame at `t` is the last one published, with the length word the code
computes for `n`, and the cursor behind it. -/
structure WroteAt (t : Slot) (n : Nat) (s : World × Local) : Prop where
  published : Published t (narrow32 (totalSize n)) s
  page : t.page = s.1.writer.currentPage
  cursor : s.1.writer.currentFrameAddress = t.offset + strideOf n

/-- Where `openFrame` starts a frame: at the cursor, or on the next page. -/
def Landed (P : PageSize) (j : JournalWriter) (n offset : Nat) : Prop :=
  (Crosses P j n ∧ offset = pageHeaderSize) ∨ (¬ Crosses P j n ∧ offset = j.currentFrameAddress)

theorem Landed.low {j : JournalWriter} {n offset : Nat} (h : Landed P j n offset)
    (hcur : pageHeaderSize ≤ j.currentFrameAddress) : pageHeaderSize ≤ offset := by
  rcases h with ⟨-, h⟩ | ⟨-, h⟩ <;> omega

/-- What a call leaves of the writer that was thrown out of a rotation. -/
structure Failed (s s' : World × Local) : Prop where
  pageId : s'.1.writer.currentPageId = s.1.writer.currentPageId + 1
  page : s'.1.writer.currentPage = s.1.writer.currentPage
  cursor : s'.1.writer.currentFrameAddress = s.1.writer.currentFrameAddress
  sequence : s'.1.writer.currentSequence = s.1.writer.currentSequence
  openFrame : s'.1.writer.openFrameHeader = s.1.writer.openFrameHeader

section
variable {serialize : Bool} {s : World × Local} (h : FrameHeader) (n : Nat)
  (now : Int64) (env : LoadEnv)

/-- The lock and `openFrame`. -/
theorem ends_start (hfree : serialize = true → s.1.writer.writing = false)
    (hcur : pageHeaderSize ≤ s.1.writer.currentFrameAddress) :
    ((Crosses P s.1.writer n → NextPage P s.1 env) → ∃ s', Ends (Stmt.exec P)
      ((if serialize then [.acquire] else []) ++ openFrame h n now env) s (.returns s') ∧
      s'.2.frameHeader = ⟨s'.1.writer.currentPage, s'.1.writer.currentFrameAddress⟩ ∧
      s'.1.writer.openFrameHeader = s.1.writer.openFrameHeader ∧
      Landed P s.1.writer n s'.1.writer.currentFrameAddress ∧
      LandedOn P s.1 n s'.1.writer.currentPage) ∧
    (¬ (Crosses P s.1.writer n → NextPage P s.1 env) → ∃ s', Ends (Stmt.exec P)
      ((if serialize then [.acquire] else []) ++ openFrame h n now env) s (.throws s') ∧
      Failed s s') := by
  obtain ⟨b, hlock⟩ := ends_acquire (P := P) hfree
  obtain ⟨hok, hno⟩ := ends_openFrame (P := P) (s := lockedTo s b) h n now env hcur
  refine ⟨fun hn => ?_, fun hn => ?_⟩
  · obtain ⟨s', he, hs, hl, hp⟩ := hok hn
    exact ⟨s', hlock.append he, hs.frame, hs.openFrame, hl, hp.crossed, hp.stayed⟩
  · obtain ⟨s', he, hw⟩ := hno hn
    refine ⟨s', hlock.append he, ?_⟩
    constructor <;> rw [hw] <;> rfl

/-- `mark` and `writeBytes`: the lock, `openFrame`, payload stores, `closeFrame`. -/
theorem ends_publishing {c : List Stmt}
    (hstores : ∀ i ∈ c, ∀ l : Local, i.target l = some l.frameHeader)
    (hfree : serialize = true → s.1.writer.writing = false)
    (hcur : pageHeaderSize ≤ s.1.writer.currentFrameAddress) :
    ((Crosses P s.1.writer n → NextPage P s.1 env) → ∃ s' t, Ends (Stmt.exec P)
      ((if serialize then [.acquire] else []) ++ openFrame h n now env ++ c ++ closeFrame n {} ++
        (if serialize then [.release] else [])) s (.returns s') ∧
      WroteAt t n s' ∧ Landed P s.1.writer n t.offset ∧
      s'.1.writer.openFrameHeader = s.1.writer.openFrameHeader ∧ LandedOn P s.1 n t.page) ∧
    (¬ (Crosses P s.1.writer n → NextPage P s.1 env) → ∃ s', Ends (Stmt.exec P)
      ((if serialize then [.acquire] else []) ++ openFrame h n now env ++ c ++ closeFrame n {} ++
        (if serialize then [.release] else [])) s (.throws s') ∧ Failed s s') := by
  obtain ⟨hok, hno⟩ := ends_start (P := P) h n now env hfree hcur
  refine ⟨fun hn => ?_, fun hn => ?_⟩
  · obtain ⟨s₁, h₁, f₁, o₁, l₁, on₁⟩ := hok hn
    have hlow := l₁.low hcur
    obtain ⟨s₂, h₂, k₂⟩ := ends_stores (P := P) (c := c) (s := s₁)
      fun i hi => ⟨_, hstores i hi _, by rw [f₁]; exact hlow⟩
    have hf₂ : s₂.2.frameHeader = ⟨s₂.1.writer.currentPage, s₁.1.writer.currentFrameAddress⟩ := by
      rw [k₂.frameHeader, k₂.writer, f₁]
    obtain ⟨s₃, h₃, w₃, p₃⟩ := ends_closeFrame (P := P) (s := s₂) n (h := {}) rfl (by rw [hf₂])
      (by rw [hf₂]; exact hlow)
    obtain ⟨b, h₄⟩ := ends_release (P := P) serialize (s := s₃)
    refine ⟨_, s₂.2.frameHeader, ((h₁.append h₂).append h₃).append h₄,
      ⟨⟨p₃.entry, p₃.length⟩, ?_, ?_⟩, ?_, ?_, ?_⟩
    · simp only [lockedTo, w₃, hf₂]
    · simp only [lockedTo, w₃]
    · rw [hf₂]
      exact l₁
    · simp only [lockedTo, w₃, k₂.writer, o₁]
    · rw [hf₂, k₂.writer]
      exact on₁
  · obtain ⟨s₁, h₁, f₁⟩ := hno hn
    exact ⟨s₁, ((h₁.append_throws).append_throws).append_throws, f₁⟩

end

/-- `closeData` of a frame on the current page, when its hook does not throw. -/
theorem ends_closeData (serialize : Bool) {s : World × Local} {o : Slot} (n : Nat) {h : Hook}
    (hh : h.throws = false) (ho : s.1.writer.openFrameHeader = some o)
    (hpage : o.page = s.1.writer.currentPage) (hlow : pageHeaderSize ≤ o.offset) :
    ∃ s', Ends (Stmt.exec P) (.takeOpen :: closeFrame n h ++
        .clearOpen :: (if serialize then [.release] else [])) s (.returns s') ∧
      WroteAt o n s' ∧ s'.1.writer.openFrameHeader = none := by
  obtain ⟨w, l⟩ := s
  have htake : Stmt.takeOpen.exec P (w, l) = .next
      (w, { l with frameHeader := o, meant := l.opened }) [] := by
    simp only at ho
    simp only [Stmt.exec, ho]
  obtain ⟨s₁, h₁, w₁, p₁⟩ := ends_closeFrame (P := P)
    (s := (w, { l with frameHeader := o, meant := l.opened })) n hh hpage hlow
  obtain ⟨b, h₂⟩ := ends_release (P := P) serialize
    (s := ({ s₁.1 with writer := { s₁.1.writer with openFrameHeader := none } }, s₁.2))
  refine ⟨_, .cons htake (h₁.append (.cons rfl h₂)), ⟨⟨p₁.entry, p₁.length⟩, ?_, ?_⟩, rfl⟩
  · simp only [lockedTo, w₁]
    exact hpage
  · simp only [lockedTo, w₁]

/-- Stores through a reference do not throw. -/
theorem ends_fill (bytes : List UInt8) (s : World × Local) :
    ∃ s', Ends (Stmt.exec P) (bytes.mapIdx Stmt.fillByte) s (.returns s') := by
  generalize hc : bytes.mapIdx Stmt.fillByte = c
  have hmem : ∀ i ∈ c, ∃ k b, i = Stmt.fillByte k b := by
    subst hc
    intro i hi
    obtain ⟨k, hk, rfl⟩ := List.mem_mapIdx.mp hi
    exact ⟨_, _, rfl⟩
  clear hc
  induction c generalizing s with
  | nil => exact ⟨s, .nil⟩
  | cons i is ih =>
    obtain ⟨k, b, rfl⟩ := hmem i List.mem_cons_self
    obtain ⟨s', hs'⟩ := ih _ fun j hj => hmem j (List.mem_cons_of_mem _ hj)
    exact ⟨s', .cons rfl hs'⟩

/-- The statements of a write, with these answers of the operating system. -/
def Write.attempt (serialize : Bool) (env : LoadEnv) (w : Write) : List Stmt :=
  w.calls.flatMap (Call.code serialize w.now env)

theorem target_of_mem_mapIdx {bs : List UInt8} {f : Nat → UInt8 → Stmt} {t : Local → Slot}
    (hf : ∀ i b l, (f i b).target l = some (t l)) {i : Stmt} (hi : i ∈ bs.mapIdx f) (l : Local) :
    i.target l = some (t l) := by
  obtain ⟨k, hk, rfl⟩ := List.mem_mapIdx.mp hi
  exact hf ..

/-- **How a write ends**: published where `openFrame` found the cursor, however
long it is, or thrown out of a rotation that has taken a page id. -/
theorem ends_write (serialize : Bool) {s : World × Local} (w : Write) (env : LoadEnv)
    (hfree : serialize = true → s.1.writer.writing = false)
    (hcur : pageHeaderSize ≤ s.1.writer.currentFrameAddress) :
    ((Crosses P s.1.writer w.payload.length → NextPage P s.1 env) →
      ∃ s' t, Ends (Stmt.exec P) (w.attempt serialize env) s (.returns s') ∧
        WroteAt t w.payload.length s' ∧ Landed P s.1.writer w.payload.length t.offset ∧
        (s'.1.writer.openFrameHeader = none ∨
          s'.1.writer.openFrameHeader = s.1.writer.openFrameHeader) ∧
        LandedOn P s.1 w.payload.length t.page) ∧
    (¬ (Crosses P s.1.writer w.payload.length → NextPage P s.1 env) →
      ∃ s', Ends (Stmt.exec P) (w.attempt serialize env) s (.throws s') ∧ Failed s s') := by
  cases w with
  | data now timestamp msgType flags payload eventTime =>
    obtain ⟨hok, hno⟩ :=
      ends_start (P := P) (headerOf timestamp msgType flags) payload.length now env
      hfree hcur
    simp only [Write.attempt, Write.calls, Write.payload, Write.now, List.flatMap_cons,
      List.flatMap_nil, List.append_nil, Call.code, List.append_assoc]
    refine ⟨fun hn => ?_, fun hn => ?_⟩
    -- `openData`, the stores of the payload, `closeData`
    · obtain ⟨⟨w₁, l₁⟩, h₁, f₁, o₁, l₁', on₁⟩ := hok hn
      have hlow := l₁'.low hcur
      obtain ⟨s₂, h₂, k₂⟩ := ends_stores (P := P) (c := payload.mapIdx Stmt.fillByte)
        (s := ({ w₁ with writer := { w₁.writer with openFrameHeader := some l₁.frameHeader } },
          { l₁ with reference := l₁.frameHeader, opened := l₁.meant }))
        fun i hi => ⟨_, target_of_mem_mapIdx (t := Local.reference) (fun _ _ _ => rfl) hi _, by
          simp only at f₁
          simp only [f₁]
          exact hlow⟩
      obtain ⟨s₃, h₃, wrote, hnone⟩ := ends_closeData (P := P) serialize (s := s₂)
        (o := l₁.frameHeader)
        payload.length (h := { eventTime }) rfl (by rw [k₂.writer])
        (by rw [k₂.writer]; simp only at f₁; rw [f₁]) (by simp only at f₁; rw [f₁]; exact hlow)
      simp only at f₁
      refine ⟨s₃, l₁.frameHeader, ?_, wrote, by rw [f₁]; exact l₁',
        Or.inl hnone, by rw [f₁]; exact on₁⟩
      rw [← List.append_assoc]
      exact h₁.append (.cons rfl (h₂.append h₃))
    · obtain ⟨s₁, h₁, f₁⟩ := hno hn
      refine ⟨s₁, ?_, f₁⟩
      rw [← List.append_assoc]
      exact h₁.append_throws
  | bytes now timestamp msgType payload =>
    obtain ⟨hok, hno⟩ := ends_publishing (P := P) (headerOf timestamp msgType frameNormal)
      payload.length now env (fun i hi l => target_of_mem_mapIdx (f := Stmt.putByte)
        (t := Local.frameHeader) (fun _ _ _ => rfl) hi l) hfree hcur
    simp only [Write.attempt, Write.calls, Write.payload, Write.now, List.flatMap_cons,
      List.flatMap_nil, List.append_nil, Call.code]
    refine ⟨fun hn => ?_, hno⟩
    obtain ⟨s', t, he, hw, hl, ho, on⟩ := hok hn
    exact ⟨s', t, he, hw, hl, Or.inr ho, on⟩
  | mark now timestamp msgType =>
    obtain ⟨hok, hno⟩ := ends_publishing (P := P) (headerOf timestamp msgType frameNormal) 0 now env
      (c := []) (fun i hi => absurd hi List.not_mem_nil) hfree hcur
    simp only [Write.attempt, Write.calls, Write.payload, Write.now, List.flatMap_cons,
      List.flatMap_nil, List.append_nil, Call.code]
    simp only [List.append_nil] at hok hno
    refine ⟨fun hn => ?_, hno⟩
    obtain ⟨s', t, he, hw, hl, ho, on⟩ := hok hn
    exact ⟨s', t, he, hw, hl, Or.inr ho, on⟩

end Revoq
