import Revoq.Construct
import Revoq.LoadCourse

/-! # The course of a writer

What a writer without a warmer knows of its page and frame registers by the code it has
left, whatever others do to the directory meanwhile.  Between two rotations it is on its
current page; in a rotation it loads the next page, closes the current one and moves on
(`course`).  The course also bounds the frame positions: the border test brings the cursor
into the page, and a frame moves it on only once before the next test.

A page counts as taken from the moment the writer finds it with a header, or has made one
(`takenBy`).  `OnCourse.step` is the one result the others build on: whatever a writer does,
its taken pages keep their files and their headers.
-/
namespace Revoq
open ByteImage StmtMachine

/-- Statements that leave the cursor, the frame and the page alone. -/
def Stmt.neutral : Stmt → Bool
  | .acquire | .release | .put .. | .nextSeq | .putSeq | .putByte .. | .fillByte ..
  | .hook _ | .publish _
  | .setLastFramePosition | .clearOpen => true
  | _ => false

/-- Where a writer is in its course. -/
inductive Stage where
  /-- The constructor is about to get its first page. -/
  | start
  /-- On the current page. -/
  | rest
  /-- In a rotation, with the load of the next page in this part. -/
  | loading (part : LoadPart)

/-- The code goes on as a writer's does at this stage.  The flags say whether the cursor
and the frame in hand are known to be inside the page. -/
def course : Stage → Bool → Bool → List Stmt → Bool
  | .start, cursor, header, .bumpPage :: code | .rest, cursor, header, .bumpPage :: code =>
      course (.loading .fresh) cursor header code
  | .loading .fresh, cursor, header, .nextPage _ :: code =>
      course (.loading .done) cursor header code
  | .loading part, cursor, header, .load a :: code =>
      match part.after a with
      | some part' => course (.loading part') cursor header code
      | none => false
  | .loading .done, _, _, .swapPage :: code => course .rest true false code
  | .loading .done, cursor, _, .takeCursor _ :: code => course (.loading .done) cursor cursor code
  | .loading .done, cursor, header, i :: code =>
      i.neutral && course (.loading .done) cursor header code
  | .rest, _, _, [] => true
  | .rest, _, _, .border .. :: code => course .rest true false code
  | .rest, cursor, _, .takeCursor _ :: code => course .rest cursor cursor code
  | .rest, _, header, .moveCursor _ :: code => header && course .rest false header code
  | .rest, cursor, header, .setOpen :: code => header && course .rest cursor header code
  | .rest, cursor, _, .takeOpen :: code => course .rest cursor true code
  | .rest, cursor, header, i :: code => i.neutral && course .rest cursor header code
  | _, _, _, _ => false

section
variable {code push : List Stmt} {i : Stmt} {cursor header : Bool}

theorem course_neutral (hi : i.neutral = true) :
    course .rest cursor header (i :: code) = course .rest cursor header code ∧
      course (.loading .done) cursor header (i :: code) = course (.loading .done) cursor
        header code := by
  cases i <;> first | exact ⟨rfl, rfl⟩ | cases hi

theorem course_append_neutral (h : push.all Stmt.neutral = true) :
    course .rest cursor header (push ++ code) = course .rest cursor header code ∧
      course (.loading .done) cursor header (push ++ code) = course (.loading .done) cursor
        header code := by
  induction push with
  | nil => exact ⟨rfl, rfl⟩
  | cons i push ih =>
    rw [List.all_cons, Bool.and_eq_true] at h
    obtain ⟨hrest, hheld⟩ := @course_neutral (push ++ code) i cursor header h.1
    rw [List.cons_append, hrest, hheld]
    exact ih h.2

theorem course_fillHeader (h : FrameHeader) :
    course .rest cursor header (fillHeader h ++ code) = course .rest cursor header code ∧
      course (.loading .done) cursor header (fillHeader h ++ code) = course (.loading .done)
        cursor header code :=
  course_append_neutral rfl

theorem course_loadCode (env : LoadEnv) :
    course (.loading .fresh) cursor header ((Page.loadCode env).map Stmt.load ++ code) =
      course (.loading .done) cursor header code := rfl

theorem course_initHeader (P : PageSize) :
    course (.loading .puts) cursor header ((Page.initHeader P).map Stmt.load ++ code) =
      course (.loading .ready) cursor header code := by
  simp [Page.initHeader, course, LoadPart.after, PageField.version, PageField.pageHeaderLength,
    PageField.pageSize, PageField.frameHeaderLength, PageField.lastFramePosition, pageHeaderSize]

theorem course_rotatePage (now : Int64) (env : LoadEnv) :
    course .rest cursor header (rotatePage now env ++ code) = course .rest true false code := by
  have hseal : course (.loading .done) cursor header (sealPage now ++ code) =
      course .rest true false code := by
    rw [sealPage, List.append_assoc, List.cons_append]
    show course (.loading .done) cursor cursor (fillHeader (pageEndHeader now) ++ _) = _
    rw [(course_fillHeader _).2]
    rfl
  exact hseal

theorem course_openFrame (h : FrameHeader) (n : Nat) (now : Int64) (env : LoadEnv) :
    course .rest cursor header (openFrame h n now env ++ code) = course .rest true true code := by
  rw [openFrame, List.append_assoc, List.cons_append, List.cons_append]
  show course .rest true true (fillHeader h ++ _) = _
  rw [(course_fillHeader h).1]
  rfl

theorem all_neutral_mapIdx {bytes : List UInt8} {f : Nat → UInt8 → Stmt}
    (hf : ∀ i b, (f i b).neutral = true) :
    (bytes.mapIdx f).all Stmt.neutral = true := by
  rw [List.all_eq_true]
  intro x hx
  obtain ⟨i, hi, rfl⟩ := List.mem_mapIdx.mp hx
  exact hf _ _

theorem course_lock (serialize : Bool) :
    course .rest cursor header ((if serialize then [.acquire] else []) ++ code) =
      course .rest cursor header code ∧
      course .rest cursor header ((if serialize then [.release] else []) ++ code) =
        course .rest cursor header code := by
  cases serialize <;> exact ⟨rfl, rfl⟩

/-- **Every call starts and ends at rest**, whatever the caller did before. -/
theorem Call.code_course (c : Call) (serialize : Bool) (now : Int64) (env : LoadEnv) :
    course .rest false false (c.code serialize now env) = true := by
  cases c with
  | openData timestamp msgType size flags =>
    show course .rest false false
        (((if serialize then [.acquire] else []) ++ openFrame _ size now env) ++ _) = true
    rw [List.append_assoc, (course_lock serialize).1, course_openFrame]
    rfl
  | fill bytes =>
    have h := @course_append_neutral [] (bytes.mapIdx Stmt.fillByte) false false
      (all_neutral_mapIdx fun _ _ => rfl)
    rw [List.append_nil] at h
    exact h.1
  | closeData size h => cases serialize <;> rfl
  | mark timestamp msgType =>
    show course .rest false false
        ((((if serialize then [.acquire] else []) ++ openFrame _ 0 now env) ++
      closeFrame 0 {}) ++ (if serialize then [.release] else [])) = true
    rw [List.append_assoc, List.append_assoc, (course_lock serialize).1, course_openFrame]
    cases serialize <;> rfl
  | writeBytes timestamp msgType data =>
    show course .rest false false
        (((((if serialize then [.acquire] else []) ++ openFrame _ data.length now env) ++
      data.mapIdx Stmt.putByte) ++ closeFrame data.length {}) ++
        (if serialize then [.release] else [])) = true
    rw [List.append_assoc, List.append_assoc, List.append_assoc, (course_lock serialize).1,
      course_openFrame, (course_append_neutral (all_neutral_mapIdx fun _ _ => rfl)).1]
    cases serialize <;> rfl

theorem Call.handler_course (c : Call) (serialize : Bool) :
    course .rest false false (c.handler serialize) = true := by
  cases c <;> cases serialize <;> rfl

theorem loadInitialPage_course (env : LoadEnv) :
    course .start false false (loadInitialPage env) = true := rfl

end

/-! ## What the course tells about the registers -/

/-- Where the cursor and the frames in hand may be.  Page 0 is no page. -/
structure Positions (j : JournalWriter) (l : Local) (cursor header : Bool) : Prop where
  cursor_low : j.currentPage ≠ 0 → 64 ≤ j.currentFrameAddress
  cursor_high : j.currentFrameAddress < 2 ^ 33
  header_low : l.frameHeader.page ≠ 0 → 64 ≤ l.frameHeader.offset
  header_high : l.frameHeader.offset < 2 ^ 33
  reference : l.reference.page ≠ 0 → 64 ≤ l.reference.offset
  opened : ∀ s, j.openFrameHeader = some s → 64 ≤ s.offset ∧ s.offset ≤ 2 ^ 31
  cursorIn : cursor = true → 64 ≤ j.currentFrameAddress ∧ j.currentFrameAddress ≤ 2 ^ 31
  headerIn : header = true → 64 ≤ l.frameHeader.offset ∧ l.frameHeader.offset ≤ 2 ^ 31

/-- The page registers, by stage. -/
def Stage.Agrees (taken : List Nat) (d : Disk) (j : JournalWriter) (l : Local) : Stage → Prop
  | .start => True
  | .rest => j.currentPage ≠ 0
  | .loading .ready => l.load.page ∈ taken
  | .loading .done => l.load.page ∈ taken ∧ firstFrameAddress (d.image l.load.page) = pageHeaderSize
  | .loading part => l.load.page ≠ 0 ∧ part.Knows taken d l.load

/-- The constructor's search for earlier pages, by its next statement. -/
def Stmt.Searches (taken : List Nat) (d : Disk) (l : Local) : Stmt → Prop
  | .findLastWrittenPage _ | .scan .. => True
  | .scanLoad _ page code | .seqLoad page code =>
      l.load.page = page ∧ page ≠ 0 ∧ OnLoad taken d l.load code
  | .findLastSequenceNumber _ page => page ≠ 0
  | _ => False

/-- A writer without a warmer in the middle of its code. -/
inductive OnCourse (taken : List Nat) (w : World) (l : Local) : List Stmt → Prop where
  | search {i : Stmt} {code : List Stmt} (search : i.Searches taken w.disk l)
      (next : course .start false false code = true) (pos : Positions w.writer l false false) :
      OnCourse taken w l (i :: code)
  | at {code : List Stmt} (st : Stage) (cursor header : Bool)
      (next : course st cursor header code = true) (agrees : st.Agrees taken w.disk w.writer l)
      (pos : Positions w.writer l cursor header) :
      OnCourse taken w l code

/-- The load of the next page has come to its header. -/
def Stage.isReady : Stage → Bool
  | .loading .ready => true
  | _ => false

/-- A header is checked next: the page that is being loaded has one. -/
def checksNext : List Stmt → Bool
  | .load .validate :: _ | .scanLoad _ _ (.validate :: _) :: _
  | .seqLoad _ (.validate :: _) :: _ => true
  | _ => false

/-- The taken pages once `code` is next. -/
def takenBy (taken : List Nat) (code : List Stmt) (l : Local) : List Nat :=
  if checksNext code then l.load.page :: taken else taken

/-- What a writer keeps of a page it has taken. -/
structure PageKept (d d' : Disk) (p : Nat) : Prop where
  size : (d.size p).isSome → (d'.size p).isSome
  first : firstFrameAddress (d'.image p) = firstFrameAddress (d.image p)
  last : lastFramePosition (d.image p) ≠ 0 → lastFramePosition (d'.image p) ≠ 0

theorem PageKept.of_same {d d' : Disk} {p : Nat} (hsize : (d.size p).isSome → (d'.size p).isSome)
    (himage : d'.image p = d.image p) : PageKept d d' p :=
  ⟨hsize, by rw [himage], by rw [himage]; exact id⟩

theorem PageKept.refl (d : Disk) (p : Nat) : PageKept d d p := .of_same id rfl

/-- A store outside the page header. -/
theorem PageKept.write_frame {d : Disk} {p q a k v : Nat} (h : q = p → 64 ≤ a) :
    PageKept d (d.write q a k v) p := by
  by_cases hq : p = q
  · subst hq
    have ha := h rfl
    refine ⟨id, ?_, ?_⟩
    · rw [Disk.write_image_self]
      exact load_store_disjoint (Or.inl (by show 4 + 4 ≤ a; omega))
    · rw [Disk.write_image_self, lastFramePosition_store (by omega)]
      exact id
  · exact .of_same id (d.write_image_of_ne a k v hq)

/-- A store of `last_frame_position`. -/
theorem PageKept.write_last {d : Disk} {p q v : Nat} (h : q = p → 64 ≤ v) (hv : v < 2 ^ 33) :
    PageKept d (d.write q 16 8 v) p := by
  by_cases hq : p = q
  · subst hq
    have ha := h rfl
    refine ⟨id, ?_, fun _ => ?_⟩
    · rw [Disk.write_image_self]
      exact load_store_disjoint (Or.inl (by show 0 + 4 + 4 ≤ 16; decide))
    · rw [Disk.write_image_self]
      have hself : lastFramePosition (store (d.image p) 16 8 v) = v :=
        load_store_self_of_lt (Nat.lt_trans hv (by decide))
      omega
  · exact .of_same id (d.write_image_of_ne 16 8 v hq)

/-- What one statement of a writer does to the taken pages and to itself. -/
structure Advance (taken : List Nat) (w : World) (w' : World) (l' : Local)
    (code' : List Stmt) : Prop where
  kept : ∀ p ∈ taken, PageKept w.disk w'.disk p
  sizes : ∀ q, (w.disk.size q).isSome → (w'.disk.size q).isSome
  page : w.writer.currentPage ≠ 0 → w'.writer.currentPage ≠ 0
  warmer : w'.warmer = none
  secure : Secure (takenBy taken code' l') w'.disk
  goes : OnCourse (takenBy taken code' l') w' l' code'

theorem Secure.kept {taken : List Nat} {d d' : Disk} (h : Secure taken d)
    (hk : ∀ p ∈ taken, PageKept d d' p) :
    Secure taken d' := fun p hp =>
  ⟨(h p hp).1, (hk p hp).size (h p hp).2.1, (hk p hp).last (h p hp).2.2⟩

theorem Secure.cons {taken : List Nat} {d : Disk} {p : Nat} (h : Secure taken d) (hp : p ≠ 0)
    (hsize : (d.size p).isSome) (hlast : lastFramePosition (d.image p) ≠ 0) :
    Secure (p :: taken) d :=
  List.forall_mem_cons.mpr ⟨⟨hp, hsize, hlast⟩, h⟩

/-! ## Statements on the current page -/

section
variable {P : PageSize} {w w' : World} {l l' : Local} {i : Stmt} {code push : List Stmt}
  {taken : List Nat} {cursor header : Bool}

/-- Code whose first statement checks a header belongs to a load that is `ready`. -/
theorem checksNext_of_course {st : Stage} (hc : course st cursor header code = true) :
    checksNext code = st.isReady := by
  cases code with
  | nil => rcases st with _ | _ | _ | _ | _ | _ | _ | _ | _ <;> first | rfl | cases hc
  | cons i code =>
    cases i with
    | load a => cases a <;> rcases st with _ | _ | _ | _ | _ | _ | _ | _ | _ <;>
        first | rfl | cases hc
    | _ => rcases st with _ | _ | _ | _ | _ | _ | _ | _ | _ <;> first | rfl | cases hc

theorem takenBy_of_course {st : Stage} (hc : course st cursor header code = true)
    (hst : st.isReady = false) :
    takenBy taken code l = taken := by
  rw [takenBy, checksNext_of_course hc, hst]
  rfl

/-- A statement that leads to another place on the course, and takes no page. -/
theorem Advance.quiet {st : Stage} (hs : Secure taken w.disk)
    (hc : course st cursor header code = true) (hst : st.isReady = false)
    (hkept : ∀ p ∈ taken, PageKept w.disk w'.disk p)
    (hsizes : ∀ q, (w.disk.size q).isSome → (w'.disk.size q).isSome)
    (hpage : w.writer.currentPage ≠ 0 → w'.writer.currentPage ≠ 0) (hwarmer : w'.warmer = none)
    (hagrees : st.Agrees taken w'.disk w'.writer l') (hpos : Positions w'.writer l' cursor header) :
    Advance taken w w' l' code := by
  have htaken : takenBy taken code l' = taken := takenBy_of_course hc hst
  refine ⟨hkept, hsizes, hpage, hwarmer, ?_, ?_⟩
  · rw [htaken]
    exact hs.kept hkept
  · rw [htaken]
    exact .at st _ _ hc hagrees hpos

/-- Such a statement that does not touch the directory. -/
theorem Advance.move {st : Stage} (hs : Secure taken w.disk)
    (hc : course st cursor header code = true) (hst : st.isReady = false) (hdisk : w'.disk = w.disk)
    (hpage : w.writer.currentPage ≠ 0 → w'.writer.currentPage ≠ 0) (hwarmer : w'.warmer = none)
    (hagrees : st.Agrees taken w'.disk w'.writer l') (hpos : Positions w'.writer l' cursor header) :
    Advance taken w w' l' code :=
  .quiet hs hc hst (fun p _ => by rw [hdisk]; exact .refl _ p)
    (fun q h => by rw [hdisk]; exact h) hpage hwarmer
    hagrees hpos

/-- What a neutral statement may do. -/
structure NeutralStep (w : World) (l : Local) (w' : World) (l' : Local) : Prop where
  pageId : w'.writer.currentPageId = w.writer.currentPageId
  page : w'.writer.currentPage = w.writer.currentPage
  cursor : w'.writer.currentFrameAddress = w.writer.currentFrameAddress
  opened : ∀ s, w'.writer.openFrameHeader = some s → w.writer.openFrameHeader = some s
  header : l'.frameHeader = l.frameHeader
  reference : l'.reference = l.reference
  load : l'.load = l.load
  newPageId : l'.newPageId = l.newPageId
  warmer : w'.warmer = w.warmer
  disk : w'.disk = w.disk ∨
    (∃ s a k v, (s = l.frameHeader ∨ s = l.reference) ∧
      w'.disk = w.disk.write s.page (s.offset + a) k v) ∨
    l.frameHeader.page = w.writer.currentPage ∧
      w'.disk = w.disk.write w.writer.currentPage 16 8 l.frameHeader.offset

theorem Stmt.exec_neutral (hi : i.neutral = true) (he : i.exec P (w, l) = .next (w', l') push) :
    NeutralStep w l w' l' ∧ push.all Stmt.neutral = true := by
  cases i with
  | border | bumpPage | nextPage | probe | claimSlot | loadFromAddress | updateCurrentPage
  | load | takeCursor
  | setOpen | takeOpen | moveCursor | swapPage | findLastWrittenPage | scan | scanLoad
  | findLastSequenceNumber
  | seqLoad | startWarmer => cases hi
  | acquire =>
    simp only [Stmt.exec] at he
    split at he <;> cases he <;>
      exact ⟨⟨rfl, rfl, rfl, fun _ h => h, rfl, rfl, rfl, rfl, rfl, .inl rfl⟩, rfl⟩
  | release | nextSeq =>
    cases he
    exact ⟨⟨rfl, rfl, rfl, fun _ h => h, rfl, rfl, rfl, rfl, rfl, .inl rfl⟩, rfl⟩
  | clearOpen =>
    cases he
    exact ⟨⟨rfl, rfl, rfl, fun _ h => (by cases h), rfl, rfl, rfl, rfl, rfl, .inl rfl⟩, rfl⟩
  | put | putSeq | putByte | publish =>
    cases he
    exact ⟨⟨rfl, rfl, rfl, fun _ h => h, rfl, rfl, rfl, rfl, rfl,
      .inr (.inl ⟨_, _, _, _, .inl rfl, rfl⟩)⟩, rfl⟩
  | fillByte =>
    cases he
    exact ⟨⟨rfl, rfl, rfl, fun _ h => h, rfl, rfl, rfl, rfl, rfl,
      .inr (.inl ⟨_, _, _, _, .inr rfl, rfl⟩)⟩, rfl⟩
  | hook x =>
    cases ht : x.eventTime with
    | none =>
      simp only [Stmt.exec, ht] at he
      split at he
      · cases he
      · cases he
        exact ⟨⟨rfl, rfl, rfl, fun _ h => h, rfl, rfl, rfl, rfl, rfl, .inl rfl⟩, rfl⟩
    | some t =>
      simp only [Stmt.exec, ht] at he
      split at he
      · cases he
      · cases he
        exact ⟨⟨rfl, rfl, rfl, fun _ h => h, rfl, rfl, rfl, rfl, rfl,
          .inr (.inl ⟨_, _, _, _, .inl rfl, rfl⟩)⟩, rfl⟩
  | setLastFramePosition =>
    simp only [Stmt.exec] at he
    split at he
    · rename_i hpage
      cases he
      exact ⟨⟨rfl, rfl, rfl, fun _ h => h, rfl, rfl, rfl, rfl, rfl, .inr (.inr ⟨hpage, rfl⟩)⟩, rfl⟩
    · cases he

theorem NeutralStep.positions (h : NeutralStep w l w' l')
    (hp : Positions w.writer l cursor header) :
    Positions w'.writer l' cursor header where
  cursor_low := by rw [h.page, h.cursor]; exact hp.cursor_low
  cursor_high := by rw [h.cursor]; exact hp.cursor_high
  header_low := by rw [h.header]; exact hp.header_low
  header_high := by rw [h.header]; exact hp.header_high
  reference := by rw [h.reference]; exact hp.reference
  opened s hs := hp.opened s (h.opened s hs)
  cursorIn := by rw [h.cursor]; exact hp.cursorIn
  headerIn := by rw [h.header]; exact hp.headerIn

theorem NeutralStep.kept (h : NeutralStep w l w' l')
    (hp : Positions w.writer l cursor header) {p : Nat} (hpage : p ≠ 0) :
    PageKept w.disk w'.disk p := by
  rcases h.disk with hd | ⟨s, a, k, v, hs, hd⟩ | ⟨hsame, hd⟩
  · rw [hd]
    exact .refl _ p
  · rw [hd]
    refine .write_frame fun hq => ?_
    rcases hs with rfl | rfl
    · have := hp.header_low (by rw [hq]; exact hpage)
      omega
    · have := hp.reference (by rw [hq]; exact hpage)
      omega
  · rw [hd]
    refine .write_last (fun hq => hp.header_low ?_) hp.header_high
    rw [hsame, hq]
    exact hpage

theorem NeutralStep.sizes (h : NeutralStep w l w' l') (q : Nat) :
    w'.disk.size q = w.disk.size q := by
  rcases h.disk with hd | ⟨s, a, k, v, hs, hd⟩ | ⟨hsame, hd⟩ <;> rw [hd] <;> rfl

theorem strideOf_lt (n : Nat) : strideOf n < 2 ^ 32 := Nat.mod_lt _ (by decide)

/-- The load of the next page begins. -/
theorem advance_bumpPage (hw : w.warmer = none) (hs : Secure taken w.disk)
    (hc : course (.loading .fresh) cursor header code = true)
    (hpos : Positions w.writer l cursor header)
    (he : Stmt.exec P .bumpPage (w, l) = .next (w', l') push) :
    Advance taken w w' l' (push ++ code) := by
  cases he
  refine .move hs hc rfl rfl id hw ⟨Nat.succ_ne_zero _, trivial⟩ ?_
  exact ⟨hpos.cursor_low, hpos.cursor_high, hpos.header_low, hpos.header_high,
    hpos.reference, hpos.opened, hpos.cursorIn, hpos.headerIn⟩

/-- The statements of a writer at rest. -/
theorem advance_rest (hw : w.warmer = none) (hs : Secure taken w.disk)
    (hc : course .rest cursor header (i :: code) = true) (hat : w.writer.currentPage ≠ 0)
    (hpos : Positions w.writer l cursor header) (he : i.exec P (w, l) = .next (w', l') push) :
    Advance taken w w' l' (push ++ code) := by
  by_cases hi : i.neutral = true
  · obtain ⟨hstep, hpush⟩ := Stmt.exec_neutral hi he
    rw [(course_neutral hi).1] at hc
    have hc' : course .rest cursor header (push ++ code) = true := by
      rw [(course_append_neutral hpush).1]; exact hc
    refine .quiet hs hc' rfl (fun p hp => hstep.kept hpos (hs p hp).1)
      (fun q h => by rw [hstep.sizes]; exact h)
      (fun h => by rw [hstep.page]; exact h) (by rw [hstep.warmer, hw]) ?_ (hstep.positions hpos)
    show w'.writer.currentPage ≠ 0
    rw [hstep.page]
    exact hat
  · cases i with
    -- the frame does not fit and `rotatePage` comes first, or the cursor has room for it
    | border n now env =>
      simp only [Stmt.exec] at he
      split at he
      · cases he
        have hc' : course .rest cursor header (rotatePage now env ++ code) = true := by
          rw [course_rotatePage]
          exact hc
        exact .move hs hc' rfl rfl id hw hat hpos
      · rename_i hroom
        cases he
        have hc' : course .rest true false code = true := hc
        have hP := P.narrow
        refine .move hs hc' rfl rfl id hw hat
          { hpos with
            cursorIn := fun _ => ⟨hpos.cursor_low hat, by omega⟩,
            headerIn := fun h => (by cases h) }
    | bumpPage => exact advance_bumpPage hw hs hc hpos he
    | takeCursor x =>
      cases he
      have hc' : course .rest cursor cursor code = true := hc
      exact .move hs hc' rfl rfl id hw hat
        { hpos with
          header_low := hpos.cursor_low
          header_high := hpos.cursor_high
          headerIn := hpos.cursorIn }
    -- the stride fits into 32 bits, so the cursor stays below 2^33
    | moveCursor n =>
      cases he
      obtain ⟨hheader, hc'⟩ : header = true ∧ course .rest false header code = true :=
        Bool.and_eq_true_iff.mp hc
      have hin := hpos.headerIn hheader
      have hstride := strideOf_lt n
      refine .move hs hc' rfl rfl id hw hat ?_
      exact ⟨fun _ => Nat.le_add_right_of_le hin.1, by show _ + _ < _; omega, hpos.header_low,
        hpos.header_high, hpos.reference, hpos.opened, fun h => (by cases h), hpos.headerIn⟩
    | setOpen =>
      cases he
      obtain ⟨hheader, hc'⟩ : header = true ∧ course .rest cursor header code = true :=
        Bool.and_eq_true_iff.mp hc
      refine .move hs hc' rfl rfl id hw hat ?_
      refine ⟨hpos.cursor_low, hpos.cursor_high, hpos.header_low, hpos.header_high,
        hpos.header_low, ?_, hpos.cursorIn, hpos.headerIn⟩
      intro s hs
      cases hs
      exact hpos.headerIn hheader
    -- `closeFrame` goes back to the page where the frame was opened
    | takeOpen =>
      simp only [Stmt.exec] at he
      split at he
      · cases he
      · rename_i s hopen
        cases he
        have hc' : course .rest cursor true code = true := hc
        have hin := hpos.opened s hopen
        exact .move hs hc' rfl rfl id hw hat
          { hpos with
            header_low := fun _ => hin.1
            header_high := by show s.offset < 2 ^ 33; omega
            headerIn := fun _ => hin }
    | load a => cases a <;> cases hc
    | _ => first | cases hc | exact absurd rfl hi

/-- The statements of a writer that holds the next page. -/
theorem advance_held (hw : w.warmer = none) (hs : Secure taken w.disk)
    (hc : course (.loading .done) cursor header (i :: code) = true) (htaken : l.load.page ∈ taken)
    (hfirst : firstFrameAddress (w.disk.image l.load.page) = pageHeaderSize)
    (hpos : Positions w.writer l cursor header) (he : i.exec P (w, l) = .next (w', l') push) :
    Advance taken w w' l' (push ++ code) := by
  by_cases hi : i.neutral = true
  · obtain ⟨hstep, hpush⟩ := Stmt.exec_neutral hi he
    rw [(course_neutral hi).2] at hc
    have hc' : course (.loading .done) cursor header (push ++ code) = true := by
      rw [(course_append_neutral hpush).2]; exact hc
    refine .quiet hs hc' rfl (fun p hp => hstep.kept hpos (hs p hp).1)
      (fun q h => by rw [hstep.sizes]; exact h)
      (fun h => by rw [hstep.page]; exact h) (by rw [hstep.warmer, hw]) ?_ (hstep.positions hpos)
    show l'.load.page ∈ taken ∧ firstFrameAddress (w'.disk.image l'.load.page) = pageHeaderSize
    rw [hstep.load]
    exact ⟨htaken, (hstep.kept hpos (hs _ htaken).1).first.trans hfirst⟩
  · cases i with
    | takeCursor x =>
      cases he
      have hc' : course (.loading .done) cursor cursor code = true := hc
      exact .move hs hc' rfl rfl id hw ⟨htaken, hfirst⟩
        { hpos with
          header_low := hpos.cursor_low
          header_high := hpos.cursor_high
          headerIn := hpos.cursorIn }
    | swapPage =>
      cases he
      have hc' : course .rest true false code = true := hc
      have hpage : l.load.page ≠ 0 := (hs _ htaken).1
      refine .move hs hc' rfl rfl (fun _ => hpage) hw hpage ?_
      exact ⟨fun _ => hfirst.ge, by show firstFrameAddress _ < _; rw [hfirst]; decide,
        hpos.header_low, hpos.header_high, hpos.reference, hpos.opened,
          fun _ => ⟨hfirst.ge, by show firstFrameAddress _ ≤ _; rw [hfirst]; decide⟩,
        fun h => (by cases h)⟩
    | load a => cases a <;> cases hc
    | _ => first | cases hc | exact absurd rfl hi

/-! ## Statements of a load -/

theorem LoadStep.kept {d d' : Disk} {r r' : LoadRegs} {part : LoadPart} {push : List LoadStmt}
    (h : LoadStep P taken d r part d' r' push) : ∀ p ∈ taken, PageKept d d' p := fun p hp =>
  .of_same (h.sizes p) (h.images p hp)

/-- The taken pages once a load of `page` is in this part. -/
def takenAt (taken : List Nat) (part : LoadPart) (page : Nat) : List Nat :=
  if part = .ready then page :: taken else taken

theorem takenBy_eq {part : LoadPart} (h : checksNext code = decide (part = .ready)) :
    takenBy taken code l = takenAt taken part l.load.page := by
  rw [takenBy, takenAt, h]
  by_cases hpart : part = .ready <;> simp [hpart]

theorem checksNext_of_loads {part : LoadPart} {ls : List LoadStmt}
    (h : loads part ls = true) (env : LoadEnv) (page : Nat) :
    checksNext (.scanLoad env page ls :: code) = decide (part = .ready) ∧
      checksNext (.seqLoad page ls :: code) = decide (part = .ready) := by
  cases ls with
  | nil =>
    rw [of_decide_eq_true h]
    exact ⟨rfl, rfl⟩
  | cons a ls => cases a <;> cases part <;> first | exact ⟨rfl, rfl⟩ | cases h

theorem LoadPart.eq_ready_of_after {part : LoadPart} {a : LoadStmt}
    (h : part.after a = some .done) :
    part = .ready := by
  cases part <;> cases a <;> simp only [LoadPart.after] at h ⊢ <;> (try split at h) <;> cases h

/-- Where a load gets with one statement. -/
structure LoadGoes (P : PageSize) (taken : List Nat) (part : LoadPart)
    (push : List LoadStmt) (d' : Disk) (r' : LoadRegs) (part' : LoadPart) : Prop where
  loads : ∀ {code}, loads part code = true → Revoq.loads part' (push ++ code) = true
  course : ∀ {cursor header code}, course (.loading part) cursor header code = true →
    Revoq.course (.loading part') cursor header (push.map Stmt.load ++ code) = true
  secure : Secure (takenAt taken part' r'.page) d'
  knows : part'.Knows (takenAt taken part' r'.page) d' r'
  done : part' = .done → part = .done ∧ firstFrameAddress (d'.image r'.page) = pageHeaderSize

theorem LoadStep.next {d d' : Disk} {r r' : LoadRegs} {part : LoadPart} {push : List LoadStmt}
    (h : LoadStep P taken d r part d' r' push) (hs : Secure taken d) (hpage : r.page ≠ 0) :
    ∃ part', LoadGoes P taken part push d' r' part' := by
  have hs' : Secure taken d' := hs.kept h.kept
  rcases h.goes with ⟨rfl, hknows, hready, hdone⟩ | ⟨rfl, rfl, hknows⟩
  · refine ⟨part, id, id, ?_, ?_, fun hd => ⟨hd, h.page ▸ hdone hd⟩⟩
    · by_cases hpart : part = .ready
      · obtain ⟨hsize, hlast⟩ := hready hpart
        rw [takenAt, if_pos hpart, h.page]
        exact hs'.cons hpage hsize hlast
      · rw [takenAt, if_neg hpart]
        exact hs'
    · by_cases hpart : part = .ready
      · rw [hpart]
        trivial
      · rw [takenAt, if_neg hpart]
        exact hknows
  · refine ⟨.puts, ?_, ?_, hs', hknows, fun hd => by cases hd⟩
    · intro code hc
      rw [initHeader_loads]
      exact hc
    · intro cursor header code hc
      rw [course_initHeader]
      exact hc

theorem Stage.Agrees.load {part : LoadPart} {j : JournalWriter} {d : Disk} (hs : Secure taken d)
    (h : (Stage.loading part).Agrees taken d j l) :
    l.load.page ≠ 0 ∧ part.Knows taken d l.load := by
  cases part with
  | fresh | found | opened | filled | puts => exact h
  | ready => exact ⟨(hs _ h).1, trivial⟩
  | done => exact ⟨(hs _ h.1).1, trivial⟩

theorem Stage.agrees_load {part : LoadPart} {j : JournalWriter} {d : Disk} (hpage : l.load.page ≠ 0)
    (hknows : part.Knows taken d l.load) (hready : part = .ready → l.load.page ∈ taken)
    (hdone : part = .done → l.load.page ∈ taken ∧ firstFrameAddress (d.image l.load.page) =
      pageHeaderSize) :
    (Stage.loading part).Agrees taken d j l := by
  cases part with
  | fresh | found | opened | filled | puts => exact ⟨hpage, hknows⟩
  | ready => exact hready rfl
  | done => exact hdone rfl

theorem Stmt.exec_load {a : LoadStmt} (he : Stmt.exec P (.load a) (w, l) = .next (w', l') push) :
    ∃ d r push', a.exec P (w.disk, l.load) = .next (d, r) push' ∧ w' = { w with disk := d } ∧
      l' = { l with load := r } ∧ push = push'.map Stmt.load := by
  simp only [Stmt.exec] at he
  split at he
  · rename_i d r push' ha
    cases he
    exact ⟨d, r, push', ha, rfl, rfl, rfl⟩
  · cases he
  · cases he

theorem Positions.load (h : Positions w.writer l cursor header) (r : LoadRegs) :
    Positions w.writer { l with load := r } cursor header :=
  ⟨h.cursor_low, h.cursor_high, h.header_low, h.header_high, h.reference, h.opened,
    h.cursorIn, h.headerIn⟩

/-- The load of the next page. -/
theorem advance_load {a : LoadStmt} {part : LoadPart} (hw : w.warmer = none)
    (hs : Secure taken w.disk) (hc : course (.loading part) cursor header (.load a :: code) = true)
    (hat : (Stage.loading part).Agrees taken w.disk w.writer l)
    (hpos : Positions w.writer l cursor header)
    (he : Stmt.exec P (.load a) (w, l) = .next (w', l') push) :
    Advance taken w w' l' (push ++ code) := by
  obtain ⟨d, r, push', ha, rfl, rfl, rfl⟩ := Stmt.exec_load he
  obtain ⟨hpage, hknows⟩ := hat.load hs
  obtain ⟨part₁, hafter, hc₁⟩ : ∃ part₁, part.after a = some part₁ ∧
      course (.loading part₁) cursor header code = true := by
    simp only [course] at hc
    split at hc
    · exact ⟨_, ‹_›, hc⟩
    · cases hc
  have hstep := LoadStmt.exec_course hs hafter hknows ha
  obtain ⟨part₂, hgoes⟩ := hstep.next hs hpage
  have hc₂ := hgoes.course hc₁
  have htaken : takenBy taken (push'.map Stmt.load ++ code)
      { l with load := r } = takenAt taken part₂ r.page := by
    refine takenBy_eq ?_
    rw [checksNext_of_course hc₂]
    cases part₂ <;> rfl
  refine ⟨hstep.kept, hstep.sizes, id, hw, ?_, ?_⟩
  · rw [htaken]
    exact hgoes.secure
  · rw [htaken]
    refine .at (.loading part₂) _ _ hc₂ (Stage.agrees_load ?_ hgoes.knows ?_ ?_) (hpos.load r)
    · show r.page ≠ 0
      rw [hstep.page]
      exact hpage
    · rintro rfl
      exact List.mem_cons_self
    · intro hdone
      obtain ⟨rfl, hfirst⟩ := hgoes.done hdone
      obtain rfl : part = .ready := LoadPart.eq_ready_of_after hafter
      subst hdone
      refine ⟨?_, hfirst⟩
      show r.page ∈ taken
      rw [hstep.page]
      exact hat

theorem advance_nextPage {env : LoadEnv} (hw : w.warmer = none) (hs : Secure taken w.disk)
    (hc : course (.loading .fresh) cursor header (.nextPage env :: code) = true)
    (hat : (Stage.loading .fresh).Agrees taken w.disk w.writer l)
    (hpos : Positions w.writer l cursor header)
    (he : Stmt.exec P (.nextPage env) (w, l) = .next (w', l') push) :
    Advance taken w w' l' (push ++ code) := by
  simp only [Stmt.exec, hw] at he
  cases he
  have hc' : course (.loading .fresh) cursor header
      ((Page.loadCode env).map Stmt.load ++ code) = true := by
    rw [course_loadCode]
    exact hc
  exact .move hs hc' rfl rfl id hw hat hpos

/-! ## The search of the constructor -/

/-- A statement of the search that leads to the next one. -/
theorem Advance.search {j : Stmt} (hs : Secure taken w.disk) (hw : w'.warmer = none)
    (hdisk : w'.disk = w.disk) (hpage : w'.writer.currentPage = w.writer.currentPage)
    (hquiet : checksNext (j :: code) = false) (hj : j.Searches taken w'.disk l')
    (hc : course .start false false code = true) (hpos : Positions w'.writer l' false false) :
    Advance taken w w' l' (j :: code) := by
  have htaken : takenBy taken (j :: code) l' = taken := by
    rw [takenBy, hquiet]
    rfl
  refine ⟨fun p _ => by rw [hdisk]; exact .refl _ p, fun q h => by rw [hdisk]; exact h,
    fun h => by rw [hpage]; exact h, hw, ?_, ?_⟩
  · rw [htaken, hdisk]
    exact hs
  · rw [htaken]
    exact .search hj hc hpos

/-- A load of the search goes on. -/
theorem Advance.searchLoad {a : LoadStmt} {ls push' : List LoadStmt} {d : Disk} {r : LoadRegs}
    {page : Nat} {j : Stmt}
    (hj : (∃ env, j = .scanLoad env page (push' ++ ls)) ∨ j = .seqLoad page (push' ++ ls))
    (hw : w.warmer = none) (hs : Secure taken w.disk)
    (hi : Stmt.Searches taken w.disk l (.seqLoad page (a :: ls)))
    (hc : course .start false false code = true) (hpos : Positions w.writer l false false)
    (ha : a.exec P (w.disk, l.load) = .next (d, r) push') :
    Advance taken w { w with disk := d } { l with load := r } (j :: code) := by
  obtain ⟨hpage, hne, part, hl, hk⟩ := hi
  obtain ⟨part₁, hafter, hl₁⟩ := loads_cons hl
  have hstep := LoadStmt.exec_course hs hafter hk ha
  obtain ⟨part₂, hgoes⟩ := hstep.next hs (by rw [hpage]; exact hne)
  have hl₂ := hgoes.loads hl₁
  have htaken : takenBy taken (j :: code) { l with load := r } = takenAt taken part₂ r.page := by
    refine takenBy_eq ?_
    rcases hj with ⟨env, rfl⟩ | rfl
    · exact (checksNext_of_loads hl₂ env page).1
    · exact (checksNext_of_loads hl₂ .succeeds page).2
  have hsearch : Stmt.Searches (takenAt taken part₂ r.page) d { l with load := r }
    (.seqLoad page (push' ++ ls)) :=
    ⟨hstep.page.trans hpage, hne, part₂, hl₂, hgoes.knows⟩
  refine ⟨hstep.kept, hstep.sizes, id, hw, ?_, ?_⟩
  · rw [htaken]
    exact hgoes.secure
  · rw [htaken]
    rcases hj with ⟨env, rfl⟩ | rfl
    · exact .search hsearch hc (hpos.load r)
    · exact .search hsearch hc (hpos.load r)

/-- The statements of the search. -/
theorem advance_search (hw : w.warmer = none) (hs : Secure taken w.disk)
    (hi : i.Searches taken w.disk l) (hc : course .start false false code = true)
    (hpos : Positions w.writer l false false) (he : i.exec P (w, l) = .next (w', l') push) :
    Advance taken w w' l' (push ++ code) := by
  -- the search ends and the first page comes next
  have hends : ∀ {w' : World}, w'.warmer = none → w'.disk = w.disk →
      w'.writer.currentPage = w.writer.currentPage →
      Positions w'.writer l false false → Advance taken w w' l code := fun hw' hd hp hpos' =>
    .move hs hc rfl hd (fun h => by rw [hp]; exact h) hw' trivial hpos'
  cases i with
  | findLastWrittenPage env =>
    simp only [Stmt.exec] at he
    split at he <;> cases he
    · exact hends hw rfl rfl hpos
    · exact .search hs hw rfl rfl rfl trivial hc hpos
  | scan env page =>
    cases page with
    | zero =>
      cases he
      exact hends hw rfl rfl hpos
    | succ page =>
      cases he
      exact .search hs hw rfl rfl rfl ⟨rfl, Nat.succ_ne_zero page, .start env⟩ hc (hpos.load _)
  | scanLoad env page ls =>
    cases ls with
    | nil =>
      simp only [Stmt.exec] at he
      split at he <;> cases he
      · exact .search hs hw rfl rfl rfl hi.2.1 hc hpos
      · exact .search hs hw rfl rfl rfl trivial hc hpos
    | cons a ls =>
      simp only [Stmt.exec] at he
      split at he
      · cases he
        exact .searchLoad (.inl ⟨env, rfl⟩) hw hs hi hc hpos ‹_›
      · rename_i d r ha
        cases he
        cases LoadStmt.exec_throw ha
        exact .search hs hw rfl rfl rfl trivial hc hpos
      · cases he
  | findLastSequenceNumber env page =>
    cases he
    refine .search hs hw rfl rfl rfl ⟨rfl, hi, .start env⟩ hc ?_
    exact ⟨hpos.cursor_low, hpos.cursor_high, hpos.header_low, hpos.header_high,
      hpos.reference, hpos.opened, hpos.cursorIn, hpos.headerIn⟩
  | seqLoad page ls =>
    have hpos' : ∀ n, Positions { w.writer with currentSequence := n } l false false := fun n =>
      ⟨hpos.cursor_low, hpos.cursor_high, hpos.header_low, hpos.header_high,
        hpos.reference, hpos.opened, hpos.cursorIn, hpos.headerIn⟩
    cases ls with
    | nil =>
      cases he
      exact hends hw rfl rfl (hpos' _)
    | cons a ls =>
      simp only [Stmt.exec] at he
      split at he
      · cases he
        exact .searchLoad (.inr rfl) hw hs hi hc hpos ‹_›
      · rename_i d r ha
        cases he
        cases LoadStmt.exec_throw ha
        exact hends hw rfl rfl (hpos' _)
      · cases he
  | _ => exact hi.elim

/-! ## Whole courses -/

/-- **One statement of a writer** that goes on. -/
theorem OnCourse.step (hw : w.warmer = none) (hs : Secure taken w.disk)
    (h : OnCourse taken w l (i :: code)) (he : i.exec P (w, l) = .next (w', l') push) :
    Advance taken w w' l' (push ++ code) := by
  cases h with
  | search hi hc hpos => exact advance_search hw hs hi hc hpos he
  | «at» st cursor header hc hat hpos =>
    cases st with
    | start =>
      cases i with
      | bumpPage => exact advance_bumpPage hw hs hc hpos he
      | _ => cases hc
    | rest => exact advance_rest hw hs hc hat hpos he
    | loading part =>
      cases i with
      | load a => exact advance_load hw hs hc hat hpos he
      | nextPage env =>
        cases part with
        | fresh => exact advance_nextPage hw hs hc hat hpos he
        | _ => cases hc
      | _ =>
        cases part with
        | done => exact advance_held hw hs hc hat.1 hat.2 hpos he
        | _ => cases hc

/-- The statement leaves the call, by an exception or because the process dies.  A hook may have
stored the event time before it throws. -/
structure Stopped (w : World) (l : Local) (w' : World) (l' : Local) : Prop where
  writer : w'.writer = w.writer
  warmer : w'.warmer = w.warmer
  header : l'.frameHeader = l.frameHeader
  reference : l'.reference = l.reference
  disk : w'.disk = w.disk ∨
    ∃ a k v, w'.disk = w.disk.write l.frameHeader.page (l.frameHeader.offset + a) k v

theorem Stmt.exec_stops
    (he : i.exec P (w, l) = .throw (w', l') ∨ i.exec P (w, l) = .fault (w', l')) :
    Stopped w l w' l' := by
  have hsame : Stopped w l w l := ⟨rfl, rfl, rfl, rfl, .inl rfl⟩
  cases i with
  | load a =>
    simp only [Stmt.exec] at he
    split at he
    · rcases he with he | he <;> cases he
    · rename_i ha
      cases LoadStmt.exec_throw ha
      rcases he with he | he <;> cases he
      exact ⟨rfl, rfl, rfl, rfl, .inl rfl⟩
    · rename_i ha
      cases LoadStmt.exec_fault ha
      rcases he with he | he <;> cases he
      exact ⟨rfl, rfl, rfl, rfl, .inl rfl⟩
  | scanLoad env page ls | seqLoad page ls =>
    cases ls with
    | nil =>
      simp only [Stmt.exec] at he
      (try split at he) <;> rcases he with he | he <;> cases he
    | cons a ls =>
      simp only [Stmt.exec] at he
      split at he
      · rcases he with he | he <;> cases he
      · rcases he with he | he <;> cases he
      · rename_i ha
        cases LoadStmt.exec_fault ha
        rcases he with he | he <;> cases he
        exact ⟨rfl, rfl, rfl, rfl, .inl rfl⟩
  | hook x =>
    cases ht : x.eventTime with
    | none =>
      simp only [Stmt.exec, ht] at he
      split at he <;> rcases he with he | he <;> cases he
      exact ⟨rfl, rfl, rfl, rfl, .inl rfl⟩
    | some t =>
      simp only [Stmt.exec, ht] at he
      split at he <;> rcases he with he | he <;> cases he
      exact ⟨rfl, rfl, rfl, rfl, .inr ⟨_, _, _, rfl⟩⟩
  | scan env page => (cases page; all_goals (rcases he with he | he <;> cases he))
  | _ =>
    simp only [Stmt.exec] at he
    (repeat' split at he) <;> rcases he with he | he <;> cases he <;> exact hsame

theorem Positions.forget (h : Positions w.writer l cursor header) :
    Positions w.writer l false false :=
  { h with cursorIn := fun h => (by cases h), headerIn := fun h => (by cases h) }

theorem OnCourse.positions (h : OnCourse taken w l code) : Positions w.writer l false false := by
  cases h with
  | search _ _ hpos => exact hpos
  | «at» _ _ _ _ _ hpos => exact hpos.forget

theorem Stopped.kept (h : Stopped w l w' l') (hpos : Positions w.writer l false false)
    {p : Nat} (hp : p ≠ 0) :
    PageKept w.disk w'.disk p := by
  rcases h.disk with hd | ⟨a, k, v, hd⟩ <;> rw [hd]
  · exact .refl _ p
  · refine .write_frame fun hq => ?_
    have := hpos.header_low (by rw [hq]; exact hp)
    omega

theorem Stopped.sizes (h : Stopped w l w' l') (q : Nat) : w'.disk.size q = w.disk.size q := by
  rcases h.disk with hd | ⟨a, k, v, hd⟩
  · rw [hd]
  · rw [hd]
    rfl

/-- After an exception the writer is at rest on its page. -/
theorem Stopped.rest (h : Stopped w l w' l') (hpage : w.writer.currentPage ≠ 0)
    (hpos : Positions w.writer l false false) (hc : course .rest false false code = true) :
    OnCourse taken w' l' code := by
  refine .at .rest false false hc (by show w'.writer.currentPage ≠ 0; rw [h.writer]; exact hpage) ?_
  rw [h.writer]
  exact { hpos with
    header_low := by rw [h.header]; exact hpos.header_low
    header_high := by rw [h.header]; exact hpos.header_high
    reference := by rw [h.reference]; exact hpos.reference
    headerIn := fun h => (by cases h) }

/-- A writer between two calls is on its page. -/
theorem OnCourse.page_of_nil (h : OnCourse taken w l []) : w.writer.currentPage ≠ 0 := by
  cases h with
  | «at» st cursor header hc hat hpos =>
    cases st with
    | rest => exact hat
    | start => cases hc
    | loading part => cases part <;> cases hc

/-- A writer goes on where it was if others leave the taken pages alone and delete no file. -/
theorem OnCourse.stable {d : Disk} (h : OnCourse taken w l code)
    (himages : ∀ p ∈ taken, d.image p = w.disk.image p)
    (hsizes : ∀ q, (w.disk.size q).isSome → (d.size q).isSome) :
    OnCourse taken { w with disk := d } l code := by
  cases h with
  | @search i code hi hc hpos =>
    refine .search ?_ hc hpos
    cases i with
    | scanLoad env page ls | seqLoad page ls => exact ⟨hi.1, hi.2.1, hi.2.2.mono (hsizes _)⟩
    | _ => exact hi
  | «at» st cursor header hc hat hpos =>
    refine .at st cursor header hc ?_ hpos
    cases st with
    | start | rest => exact hat
    | loading part =>
      cases part with
      | ready => exact hat
      | done => exact ⟨hat.1, by rw [himages _ hat.1]; exact hat.2⟩
      | fresh | found | opened | filled | puts => exact ⟨hat.1, hat.2.mono (hsizes _)⟩

end

end Revoq
