import Revoq.Restart
import Revoq.WarmedRotation
import Revoq.WriterCourse

/-! # The writer's warmer thread

`warmupLoop` of `PageWarmer.h` beside the writer, on one directory and one ring.  The
warmer takes a snapshot of the writer's page and looks at the pages behind it: one that is
not in the ring is mapped into an empty slot, `warmPageIntoSlot` initialises it if its file
did not exist, and the slot is published.

Each look at a slot, each claim, the test for the file, each statement of `loadMmapBuffer`,
each store into the page and each store into a slot is one step.  The writer takes a slot
in one step.  `running_` and the destructor only end the loop, and are left out.
-/
namespace Revoq
open ByteImage StmtMachine

/-! ## The thread -/

/-- The stores of `warmPageIntoSlot` into a slot, up to the one that publishes it. -/
inductive SlotStore where
  | address
  | size
  | isOwned
  | sequence
deriving DecidableEq

/-- Where the warmer is in `warmupLoop`: `c` is the snapshot of `current_page_`, `i` the
distance and `j` or `idx` the slot it works on. -/
inductive Warming where
  /-- Waiting for the writer's first page. -/
  | boot
  | snapshot
  | lookup (c i j : Nat)
  | claim (c i : Nat)
  | warm (c i : Nat) (idx : Fin ringSize) (code : List WarmStmt) (regs : WarmRegs)
  | fill (c i : Nat) (idx : Fin ringSize) (left : List SlotStore)
  | publish (c i : Nat) (idx : Fin ringSize)
  | count (c i : Nat)
  | cleanup (c j : Nat)
  | expire (c : Nat) (idx : Fin ringSize) (slotPageId : Int)
  | release (c : Nat) (idx : Fin ringSize)
deriving DecidableEq

/-- The warmer thread. -/
structure WarmerThread where
  place : Warming := .boot
  localSeq : Nat := 1
deriving DecidableEq

/-- Changes a slot. -/
def PageWarmer.setSlot (g : PageWarmer) (idx : Fin ringSize)
    (f : PageSlot → PageSlot) : PageWarmer :=
  { g with ring := Function.update g.ring idx (f (g.ring idx)) }

/-- The `for` loop over the distances, at distance `i`. -/
def PageWarmer.turn (g : PageWarmer) (c i : Nat) : Warming :=
  if i ≤ g.warmupDistance then .lookup c i 0 else .cleanup c 0

/-- The store into the slot of page `p`. -/
def SlotStore.apply (P : PageSize) (p seq : Nat) : SlotStore → PageSlot → PageSlot
  | .address, x => { x with address := some p }
  | .size, x => { x with size := P.bytes }
  | .isOwned, x => { x with isOwned := true }
  | .sequence, x => { x with sequence := seq }

/-- The warmer's next step, when no system call fails. -/
def warmerStep (P : PageSize) (w : World) (t : WarmerThread) : Option (World × WarmerThread) :=
  match w.warmer with
  | none => none
  | some g =>
    match t.place with
    | .boot => some (w, { t with place := if 0 ≤ g.currentPage then .snapshot else .boot })
    | .snapshot =>
        some (w, { t with
          place := if 0 ≤ g.currentPage then g.turn g.currentPage.toNat 1 else .snapshot })
    -- `isPageInRing`
    | .lookup c i j =>
        if h : j < ringSize then
          some (w, { t with
            place := if (g.ring ⟨j, h⟩).pageId = (c + i : Nat) then g.turn c (i + 1)
              else .lookup c i (j + 1) })
        else some (w, { t with place := .claim c i })
    | .claim c i =>
        let idx := PageWarmer.slotIndex g.writeIndex
        if (g.ring idx).pageId = -1 then
          some ({ w with warmer := some (g.setSlot idx ({ · with pageId := -2 })) },
            { t with
              place := .warm c i idx warmCode ⟨⟨c + i, true, true, false, 0, false⟩, false⟩ })
        else some (w, { t with place := g.turn c (i + 1) })
    -- `warmPageIntoSlot`
    | .warm c i idx [] _ =>
        some (w, { t with place := .fill c i idx [.address, .size, .isOwned, .sequence] })
    | .warm c i idx (s :: code) r =>
        match s.exec P (w.disk, r) with
        | .next (d, r) push =>
            some ({ w with disk := d }, { t with place := .warm c i idx (push ++ code) r })
        | .throw _ | .fault _ => none
    | .fill c i idx (x :: left) =>
        some ({ w with warmer := some (g.setSlot idx (x.apply P (c + i) t.localSeq)) },
          { t with place := .fill c i idx left })
    | .fill c i idx [] => some (w, ⟨.publish c i idx, t.localSeq + 1⟩)
    | .publish c i idx =>
        some ({ w with warmer := some (g.setSlot idx ({ · with pageId := (c + i : Nat) })) },
          { t with place := .count c i })
    | .count c i =>
        some ({ w with warmer := some { g with writeIndex := g.writeIndex + 1 } },
          { t with place := g.turn c (i + 1) })
    -- `cleanupOldPages`
    | .cleanup c j =>
        if h : j < ringSize then
          let q := (g.ring ⟨j, h⟩).pageId
          some (w, { t with
            place := if 0 ≤ q ∧ q < c - (ringSize : Int) then .expire c ⟨j, h⟩ q
              else .cleanup c (j + 1) })
        else some (w, { t with place := .snapshot })
    | .expire c idx q =>
        if (g.ring idx).pageId = q then
          some ({ w with warmer := some (g.setSlot idx ({ · with pageId := -1 })) },
            { t with place := .release c idx })
        else some (w, { t with place := .cleanup c (idx + 1) })
    | .release c idx =>
        let x := g.ring idx
        some (if x.isOwned ∧ x.address.isSome then
            { w with warmer := some (g.setSlot idx ({ · with address := none, isOwned := false })) }
          else w, { t with place := .cleanup c (idx + 1) })

/-- **The warmer initialises `p`**: it found no file, and has not stored all of the page yet. -/
def Warming.Initialises (p : Nat) : Warming → Prop
  | .warm _ _ _ code r => r.load.page = p ∧ r.fileExisted = false ∧ .checkFile ∉ code ∧ code ≠ []
  | _ => False

instance (p : Nat) : (x : Warming) → Decidable (x.Initialises p)
  | .warm .. => inferInstanceAs (Decidable (_ ∧ _))
  | .boot | .snapshot | .lookup .. | .claim .. | .fill .. | .publish .. | .count ..
  | .cleanup .. | .expire ..
  | .release .. => .isFalse id

/-! ## The two threads -/

/-- The writer's session and its warmer. -/
structure Tandem where
  code : List Stmt
  world : World
  locals : Local
  thread : WarmerThread := {}

/-- The writer's next statement opens a page's file. -/
def opensNext : List Stmt → Bool
  | .load (.open _) :: _ => true
  | _ => false

/-- Who moves. -/
inductive Mover where
  | writer
  | warmer
deriving DecidableEq

namespace Tandem

/-- A session that is about to be constructed in an empty directory. -/
def start (j : Job) : Tandem := ⟨j.code, (j.start .empty).1, (j.start .empty).2, {}⟩

/-- The state after a step; there is none if it cannot be made or fails. -/
def next (P : PageSize) (S : Tandem) : Mover → Option Tandem
  | .writer =>
      match S.code with
      | [] => none
      | i :: is =>
        match i.exec P (S.world, S.locals) with
        | .next (w, l) push => some { S with code := push ++ is, world := w, locals := l }
        | .throw _ | .fault _ => none
  | .warmer => (warmerStep P S.world S.thread).map fun x => { S with world := x.1, thread := x.2 }

/-- The state after a run. -/
def play (P : PageSize) (S : Tandem) (ms : List Mover) : Option Tandem := ms.foldlM (next P) S

/-- The writer does not open the file of a page that the warmer initialises. -/
def Timely (S : Tandem) : Mover → Prop
  | .writer => opensNext S.code = true → ¬ S.thread.place.Initialises S.locals.load.page
  | .warmer => True

instance (S : Tandem) : (m : Mover) → Decidable (S.Timely m)
  | .writer => inferInstanceAs (Decidable (_ → _))
  | .warmer => .isTrue trivial

/-- Every step of the run is timely. -/
def TimelyRun (P : PageSize) : Tandem → List Mover → Prop
  | _, [] => True
  | S, m :: ms => S.Timely m ∧ ∀ S' ∈ S.next P m, TimelyRun P S' ms

end Tandem

/-! ## The page the writer has in hand -/

/-- How far the writer has the next page. -/
inductive Hand where
  /-- It works on the current page. -/
  | rest
  /-- It has taken the id of the next page. -/
  | bumped
  /-- It has opened the next page. -/
  | opened
deriving DecidableEq

/-- What is in hand after a statement, and what the statement brings with it. -/
def Hand.after : Hand → Stmt → Option Hand
  | .rest, .bumpPage => some .bumped
  | .bumped, .load .stat => some .bumped
  | .bumped, .load (.open _) | .bumped, .nextPage _ | .bumped, .probe ..
  | .bumped, .claimSlot .. => some .opened
  | .opened, .load .stat | .opened, .load (.open _) => none
  | .opened, .load _ | .opened, .loadFromAddress => some .opened
  | .opened, .swapPage | .rest, .border .. => some .rest
  | h, .acquire | h, .release | h, .takeCursor _ | h, .put .. | h, .nextSeq | h, .putSeq
  | h, .putByte .. | h, .setOpen
  | h, .fillByte .. | h, .takeOpen | h, .hook _ | h, .publish _ | h, .setLastFramePosition
  | h, .moveCursor _
  | h, .clearOpen | h, .updateCurrentPage => some h
  | _, _ => none

/-- The code goes on as a writer's does with this in hand, and starts a warmer at most once. -/
def handed : Bool → Hand → List Stmt → Bool
  | _, h, [] => decide (h = .rest)
  | started, h, .startWarmer _ :: code => !started && handed true h code
  | started, h, i :: code =>
      match h.after i with
      | some h' => handed started h' code
      | none => false

/-- The page registers, by what is in hand. -/
def Hand.Agrees (j : JournalWriter) (l : Local) : Hand → Prop
  | .rest => l.load.opened = false ∧ j.currentPageId = j.currentPage
  | .bumped => l.load.opened = false ∧ j.currentPageId = j.currentPage + 1 ∧
      l.load.page = j.currentPageId ∧
      l.newPageId = j.currentPageId
  | .opened => l.load.opened = true ∧ j.currentPageId = j.currentPage + 1 ∧
      l.load.page = j.currentPageId

/-- No frame in hand is on a page behind the current one. -/
structure OnPages (j : JournalWriter) (l : Local) : Prop where
  header : l.frameHeader.page ≤ j.currentPage
  reference : l.reference.page ≤ j.currentPage
  opened : ∀ s, j.openFrameHeader = some s → s.page ≤ j.currentPage

section
variable {b : Bool} {h : Hand} {code push : List Stmt} {i : Stmt}

theorem handed_cons {h' : Hand} (hi : h.after i = some h') :
    handed b h (i :: code) = handed b h' code := by
  cases i with
  | startWarmer => cases h <;> cases hi
  | _ => rw [handed, hi]; intro n hn; cases hn

theorem handed_append (hpush : ∀ i ∈ push, h.after i = some h) :
    handed b h (push ++ code) = handed b h code := by
  induction push with
  | nil => rfl
  | cons i push ih =>
    rw [List.cons_append, handed_cons (hpush i List.mem_cons_self)]
    exact ih fun x hx => hpush x (List.mem_cons_of_mem i hx)

theorem handed_bytes {f : Nat → UInt8 → Stmt} (hf : ∀ i b, h.after (f i b) = some h)
    (bytes : List UInt8) :
    handed b h (bytes.mapIdx f ++ code) = handed b h code := by
  refine handed_append fun x hx => ?_
  obtain ⟨i, hi, rfl⟩ := List.mem_mapIdx.mp hx
  exact hf _ _

theorem handed_call (c : Call) (now : Int64) (env : LoadEnv) :
    handed b .rest (c.code false now env ++ code) = handed b .rest code := by
  cases c with
  | openData | closeData | mark => rfl
  | fill bytes => exact handed_bytes (fun _ _ => rfl) bytes
  | writeBytes timestamp msgType data =>
    show handed b .rest (((openFrame _ data.length now env ++ data.mapIdx Stmt.putByte) ++
      closeFrame data.length {}) ++ [] ++ code) = _
    rw [List.append_nil, List.append_assoc, List.append_assoc]
    show handed b .rest (data.mapIdx Stmt.putByte ++ (closeFrame data.length {} ++ code)) = _
    rw [handed_bytes fun _ _ => rfl]
    rfl

theorem handed_write (x : Write) : handed b .rest (x.code false ++ code) = handed b .rest code := by
  unfold Write.code
  generalize x.calls = cs
  induction cs with
  | nil => rfl
  | cons c cs ih => rw [List.flatMap_cons, List.append_assoc, handed_call, ih]

theorem handed_writes (ws : List Write) :
    handed b .rest (ws.flatMap (Write.code false)) = true := by
  induction ws with
  | nil => rfl
  | cons x ws ih => rw [List.flatMap_cons, handed_write, ih]

theorem handed_job (j : Job) : handed false .rest (j.code.drop 1) = true := by
  rw [Job.code_eq]
  show handed false .rest (loadInitialPage .succeeds ++ j.work) = true
  show handed false .rest j.work = true
  unfold Job.work
  split
  · exact handed_writes j.writes
  · show handed true .rest (j.writes.flatMap (Write.code false)) = true
    exact handed_writes j.writes

end

/-! ## One statement of the writer -/

/-- What the writer may do to the warmer: start it, or take pages from its ring. -/
def RingFollows : Option PageWarmer → Option PageWarmer → Prop
  | none, none => True
  | none, some g' => ∀ idx, (g'.ring idx).pageId = -1
  | some g, some g' => ∀ idx, g'.ring idx = g.ring idx ∨ 0 ≤ (g.ring idx).pageId ∧
      (g'.ring idx).pageId = -1
  | some _, none => False

theorem RingFollows.refl (o : Option PageWarmer) : RingFollows o o := by
  cases o with
  | none => trivial
  | some g => exact fun idx => .inl rfl

/-- Every page the ring offers is mapped at its address, and has a file. -/
def PageWarmer.Offers (g : PageWarmer) (d : Disk) : Prop :=
  ∀ idx (p : Nat), (g.ring idx).pageId = p → (g.ring idx).address = some p ∧ (d.size p).isSome

/-- What a statement does to the files and the ring: files behind the pages the writer has
opened stay as they are, and it opens the next page only by `open` or from the ring. -/
structure WriterStep (i : Stmt) (w : World) (l : Local) (w' : World) (l' : Local) : Prop where
  above : ∀ p, frontier w'.writer l' < p → w.disk.SameFile w'.disk p
  sizes : ∀ q, (w.disk.size q).isSome → (w'.disk.size q).isSome
  ring : RingFollows w.warmer w'.warmer
  jump : frontier w'.writer l' = frontier w.writer l ∨
    frontier w'.writer l' = frontier w.writer l + 1 ∧
      (w'.disk.size (frontier w'.writer l')).isSome ∧
      (opensNext [i] = true ∧ l.load.page = frontier w'.writer l' ∨
        ∃ g idx, w.warmer = some g ∧ (g.ring idx).pageId = (frontier w'.writer l' : Nat))

section
variable {P : PageSize} {w w' : World} {l l' : Local} {i : Stmt} {code push : List Stmt} {h : Hand}

theorem Hand.Agrees.frontier_eq (hat : h.Agrees w.writer l) :
    frontier w.writer l = if h = .opened then w.writer.currentPage + 1
      else w.writer.currentPage := by
  cases h with
  | rest | bumped => exact frontier_of_closed hat.1
  | opened =>
    obtain ⟨ho, hid, hp⟩ := hat
    simp only [frontier, ho, if_true, hp, hid]
    exact Nat.max_eq_right (Nat.le_succ _)

theorem Hand.Agrees.currentPage_le (hat : h.Agrees w.writer l) :
    w.writer.currentPage ≤ frontier w.writer l := by
  rw [hat.frontier_eq]
  split <;> omega

/-- A statement that leaves the page registers alone, and stores to a page the writer has. -/
theorem WriterStep.store {s : Slot} {a k v : Nat} (hs : s.page ≤ frontier w.writer l)
    (hf : frontier w'.writer l' = frontier w.writer l) (hd : w'.disk = w.disk.write s.page a k v)
    (hw : w'.warmer = w.warmer) : WriterStep i w l w' l' := by
  refine ⟨fun p hp => ?_, fun q hq => by rw [hd]; exact hq, by rw [hw]; exact .refl _, .inl hf⟩
  rw [hd]
  exact ⟨rfl, w.disk.write_image_of_ne a k v (by omega)⟩

/-- A statement that does not touch the files. -/
theorem WriterStep.same (hf : frontier w'.writer l' = frontier w.writer l) (hd : w'.disk = w.disk)
    (hw : RingFollows w.warmer w'.warmer) : WriterStep i w l w' l' :=
  ⟨fun p _ => by rw [hd]; exact .refl _ p, fun q hq => by rw [hd]; exact hq, hw, .inl hf⟩

/-- Where a statement leads the writer. -/
structure HandGoes (i : Stmt) (w : World) (l : Local) (w' : World) (l' : Local)
    (code' : List Stmt) : Prop where
  hand : ∃ h, handed w'.warmer.isSome h code' = true ∧ h.Agrees w'.writer l'
  pages : OnPages w'.writer l'
  step : WriterStep i w l w' l'

theorem Hand.after_neutral (hi : i.neutral = true) : h.after i = some h := by
  cases i <;> first | (cases h <;> rfl) | cases hi

theorem Hand.Agrees.congr (hat : h.Agrees w.writer l)
    (hid : w'.writer.currentPageId = w.writer.currentPageId)
    (hpage : w'.writer.currentPage = w.writer.currentPage) (hload : l'.load = l.load)
    (hnew : l'.newPageId = l.newPageId) : h.Agrees w'.writer l' := by
  cases h with
  | rest => exact ⟨by rw [hload]; exact hat.1, by rw [hid, hpage]; exact hat.2⟩
  | bumped =>
    obtain ⟨h1, h2, h3, h4⟩ := hat
    exact ⟨by rw [hload]; exact h1, by rw [hid, hpage]; exact h2, by rw [hload, hid]; exact h3,
      by rw [hnew, hid]; exact h4⟩
  | opened =>
    obtain ⟨h1, h2, h3⟩ := hat
    exact ⟨by rw [hload]; exact h1, by rw [hid, hpage]; exact h2, by rw [hload, hid]; exact h3⟩

theorem frontier_congr (hpage : w'.writer.currentPage = w.writer.currentPage)
    (hload : l'.load = l.load) :
    frontier w'.writer l' = frontier w.writer l := by
  rw [frontier, frontier, hpage, hload]

/-- Statements on the current page. -/
theorem HandGoes.neutral (hi : i.neutral = true) (hc : handed w.warmer.isSome h (i :: code) = true)
    (hat : h.Agrees w.writer l) (hpages : OnPages w.writer l)
    (he : i.exec P (w, l) = .next (w', l') push) :
    HandGoes i w l w' l' (push ++ code) := by
  obtain ⟨hstep, hpush⟩ := Stmt.exec_neutral hi he
  have hcur := hat.currentPage_le
  have hf := frontier_congr hstep.page hstep.load
  refine ⟨⟨h, ?_, hat.congr hstep.pageId hstep.page hstep.load hstep.newPageId⟩, ?_, ?_⟩
  · rw [hstep.warmer, handed_append fun x hx => Hand.after_neutral (List.all_eq_true.mp hpush x hx)]
    rwa [handed_cons (Hand.after_neutral hi)] at hc
  · exact ⟨by rw [hstep.header, hstep.page]; exact hpages.header,
      by rw [hstep.reference, hstep.page]; exact hpages.reference,
      fun s hs => by rw [hstep.page]; exact hpages.opened s (hstep.opened s hs)⟩
  · rcases hstep.disk with hd | ⟨s, a, k, v, hs, hd⟩ | ⟨-, hd⟩
    · exact .same hf hd (by rw [hstep.warmer]; exact .refl _)
    · refine .store (s := s) ?_ hf hd hstep.warmer
      have hheader := hpages.header
      have hreference := hpages.reference
      rcases hs with rfl | rfl <;> omega
    · exact .store (s := ⟨w.writer.currentPage, 0⟩) hcur hf hd hstep.warmer

/-- A statement that goes on with the same page in hand, and touches no file. -/
theorem HandGoes.same {k : Hand} (hc : handed w'.warmer.isSome k code = true)
    (hat : k.Agrees w'.writer l') (hpages : OnPages w'.writer l')
    (hf : frontier w'.writer l' = frontier w.writer l) (hd : w'.disk = w.disk)
    (hw : RingFollows w.warmer w'.warmer) : HandGoes i w l w' l' code :=
  ⟨⟨k, hc, hat⟩, hpages, .same hf hd hw⟩

theorem ringFollows_claim {g : PageWarmer} {idx : Fin ringSize} (hidx : 0 ≤ (g.ring idx).pageId) :
    RingFollows (some g) (some (g.claim idx)) := by
  intro k
  by_cases hk : k = idx
  · subst hk
    exact .inr ⟨hidx, PageWarmer.claim_pageId_self ..⟩
  · exact .inl (g.claim_ring_of_ne hk)

/-- The writer opens the page it has taken the id of. -/
theorem frontier_opens {r : LoadRegs} (hat : Hand.bumped.Agrees w.writer l)
    (hr : r.page = w.writer.currentPageId) (ho : r.opened = true) :
    frontier w.writer { l with load := r } = frontier w.writer l + 1 ∧
      frontier w.writer { l with load := r } = w.writer.currentPageId := by
  obtain ⟨hclosed, hid, -, -⟩ := hat
  have h1 : frontier w.writer l = w.writer.currentPage := frontier_of_closed hclosed
  have h2 : frontier w.writer { l with load := r } = max w.writer.currentPage r.page := by
    simp [frontier, ho]
  omega

/-- A look at the ring, or the load that follows when it has nothing. -/
theorem HandGoes.look (hc : handed w.warmer.isSome .opened code = true)
    (hat : Hand.bumped.Agrees w.writer l) (hpages : OnPages w.writer l)
    (hpush : (∃ env, push = (Page.loadCode env).map Stmt.load) ∨
      (∃ env start k, push = [.probe env start k]) ∨
      (∃ env start k, push = [.claimSlot env start k]) ∨
      ∃ env start k, push = [.probe env start k, .updateCurrentPage]) :
    HandGoes i w l w l (push ++ code) := by
  refine .same (k := .bumped) ?_ hat hpages rfl rfl (.refl _)
  rcases hpush with ⟨env, rfl⟩ | ⟨env, start, k, rfl⟩ | ⟨env, start, k, rfl⟩
    | ⟨env, start, k, rfl⟩ <;> exact hc

/-- The writer takes a slot of the ring. -/
theorem HandGoes.claimSlot {env : LoadEnv} {start k : Nat}
    (hc : handed w.warmer.isSome .opened code = true) (hat : Hand.bumped.Agrees w.writer l)
    (hpages : OnPages w.writer l) (hring : ∀ g, w.warmer = some g → g.Offers w.disk)
    (he : Stmt.exec P (.claimSlot env start k) (w, l) = .next (w', l') push) :
    HandGoes (.claimSlot env start k) w l w' l' (push ++ code) := by
  simp only [Stmt.exec] at he
  split at he
  · cases he
  · rename_i g hg
    split at he
    · rename_i hslot
      obtain ⟨haddr, hfile⟩ := hring g hg _ _ hslot
      rw [haddr] at he
      cases he
      obtain ⟨-, hid, -, hnew⟩ := id hat
      obtain ⟨hf, hfid⟩ :=
        frontier_opens (r := { l.load with page := l.newPageId, opened := true }) hat hnew rfl
      have hsome : w.warmer.isSome = true := by rw [hg]; rfl
      rw [hsome] at hc
      refine ⟨⟨.opened, hc, rfl, hid, hnew⟩, ⟨hpages.header, hpages.reference, hpages.opened⟩, ?_⟩
      refine ⟨fun p _ => .refl _ p, fun q hq => hq, ?_,
        .inr ⟨hf, ?_, .inr ⟨g, PageWarmer.slotIndex (start + k), hg, ?_⟩⟩⟩
      · rw [hg]
        exact ringFollows_claim (by rw [hslot]; exact Int.natCast_nonneg _)
      · rw [hnew] at hfile
        exact hfid ▸ hfile
      · rw [hslot]
        exact congrArg _ (hnew.trans hfid.symm)
    · cases he
      exact .look hc hat hpages (.inr (.inl ⟨_, _, _, rfl⟩))

/-- A statement of the load of the next page. -/
theorem HandGoes.load {a : LoadStmt} (hc : handed w.warmer.isSome h (.load a :: code) = true)
    (hat : h.Agrees w.writer l) (hpages : OnPages w.writer l)
    (he : Stmt.exec P (.load a) (w, l) = .next (w', l') push) :
    HandGoes (.load a) w l w' l' (push ++ code) := by
  obtain ⟨d, r, push', ha, rfl, rfl, rfl⟩ := Stmt.exec_load he
  have hpages' : OnPages w.writer { l with load := r } :=
    ⟨hpages.header, hpages.reference, hpages.opened⟩
  have hsizes := LoadStmt.exec_sizes ha
  cases h with
  | rest => cases a <;> cases hc
  | bumped =>
    obtain ⟨hclosed, hid, hpage, hnew⟩ := id hat
    cases a with
    | stat =>
      cases ha
      refine .same (k := .bumped) hc ⟨hclosed, hid, hpage, hnew⟩ hpages' ?_ rfl (.refl _)
      simp [frontier, hclosed]
    | «open» fails =>
      simp only [LoadStmt.exec] at ha
      split at ha <;> cases ha
      obtain ⟨hf, hfid⟩ := frontier_opens (r := { l.load with opened := true }) hat hpage rfl
      refine ⟨⟨.opened, hc, rfl, hid, hpage⟩, hpages', fun p hp => ?_, hsizes, .refl _,
        .inr ⟨hf, ?_, .inl ⟨rfl, ?_⟩⟩⟩
      · have hne : p ≠ l.load.page := by
          have : frontier w.writer { l with load := { l.load with opened := true } } < p := hp
          omega
        exact ⟨w.disk.create_size_of_ne hne, w.disk.create_image_of_ne hne⟩
      · have : frontier w.writer { l with load := { l.load with opened := true } } =
          l.load.page := by omega
        show ((w.disk.create l.load.page).size _).isSome = true
        rw [this]
        exact w.disk.create_isSome _
      · exact hpage.trans hfid.symm
    | _ => cases hc
  | opened =>
    obtain ⟨hopen, hid, hpage⟩ := id hat
    obtain ⟨hpage', hopen', hothers⟩ := LoadStmt.exec_elsewhere ha
    have hat' : Hand.opened.Agrees w.writer { l with load := r } :=
      ⟨hopen' hopen, hid, hpage'.trans hpage⟩
    have hf : frontier w.writer { l with load := r } = frontier w.writer l := by
      rw [hat.frontier_eq]
      exact hat'.frontier_eq (w := w)
    refine ⟨⟨.opened, ?_, hat'⟩, hpages', fun p hp => hothers p ?_, hsizes, .refl _, .inl hf⟩
    · cases a with
      | stat | «open» => cases hc
      | checkNew =>
        simp only [LoadStmt.exec] at ha
        split at ha <;> cases ha
        split
        · exact hc
        · exact hc
      | _ =>
        have hpush : push' = [] := by
          simp only [LoadStmt.exec] at ha
          (repeat' split at ha) <;> cases ha <;> rfl
        rw [hpush]
        exact hc
    · have hp' : frontier w.writer { l with load := r } < p := hp
      have := hat.frontier_eq
      rw [if_pos rfl] at this
      omega

/-- **One statement of the writer.** -/
theorem Stmt.exec_hand (hc : handed w.warmer.isSome h (i :: code) = true)
    (hat : h.Agrees w.writer l) (hpages : OnPages w.writer l)
    (hring : ∀ g, w.warmer = some g → g.Offers w.disk)
    (he : i.exec P (w, l) = .next (w', l') push) :
    HandGoes i w l w' l' (push ++ code) := by
  by_cases hi : i.neutral = true
  · exact .neutral hi hc hat hpages he
  have hcur := hat.currentPage_le
  cases i with
  | load a => exact .load hc hat hpages he
  | border n now env =>
    cases h with
    | rest =>
      simp only [Stmt.exec] at he
      split at he <;> cases he
      · exact .same (k := .rest) hc hat hpages rfl rfl (.refl _)
      · exact .same (k := .rest) hc hat hpages rfl rfl (.refl _)
    | bumped | opened => cases hc
  -- the id runs one ahead of the page that is still open
  | bumpPage =>
    cases h with
    | rest =>
      cases he
      obtain ⟨hclosed, hid⟩ := hat
      refine .same (k := .bumped) hc ⟨rfl, ?_, rfl, rfl⟩
        ⟨hpages.header, hpages.reference, hpages.opened⟩ ?_ rfl (.refl _)
      · show w.writer.currentPageId + 1 = w.writer.currentPage + 1
        rw [hid]
      · simp [frontier, hclosed]
    | bumped | opened => cases hc
  | nextPage env =>
    cases h with
    | bumped =>
      simp only [Stmt.exec] at he
      split at he <;> cases he
      · exact .look hc hat hpages (.inl ⟨env, rfl⟩)
      · exact .look hc hat hpages (.inr (.inr (.inr ⟨_, _, _, rfl⟩)))
    | rest | opened => cases hc
  -- the next slot, the claim of this one, or the fallback
  | probe env start k =>
    cases h with
    | bumped =>
      simp only [Stmt.exec] at he
      split at he
      · cases he
      · (repeat' split at he) <;> cases he
        · exact .look hc hat hpages (.inl ⟨env, rfl⟩)
        · exact .look hc hat hpages (.inr (.inr (.inl ⟨_, _, _, rfl⟩)))
        · exact .look hc hat hpages (.inr (.inl ⟨_, _, _, rfl⟩))
    | rest | opened => cases hc
  | claimSlot env start k =>
    cases h with
    | bumped => exact .claimSlot hc hat hpages hring he
    | rest | opened => cases hc
  | loadFromAddress =>
    cases h with
    | opened =>
      simp only [Stmt.exec] at he
      split at he <;> cases he
      exact .same (k := .opened) hc hat hpages rfl rfl (.refl _)
    | rest | bumped => cases hc
  | updateCurrentPage =>
    cases he
    refine .same (k := h) ?_ (hat.congr rfl rfl rfl rfl) hpages rfl rfl ?_
    · rw [Option.isSome_map]
      cases h <;> exact hc
    · cases w.warmer with
      | none => trivial
      | some g => exact fun idx => .inl rfl
  | takeCursor x =>
    cases he
    refine .same (k := h) ?_ (hat.congr rfl rfl rfl rfl)
      ⟨Nat.le_refl _, hpages.reference, hpages.opened⟩ rfl rfl (.refl _)
    cases h <;> exact hc
  | moveCursor n =>
    cases he
    refine .same (k := h) ?_ (hat.congr rfl rfl rfl rfl)
      ⟨hpages.header, hpages.reference, hpages.opened⟩ rfl rfl (.refl _)
    cases h <;> exact hc
  | setOpen =>
    cases he
    refine .same (k := h) ?_ (hat.congr rfl rfl rfl rfl) ⟨hpages.header, hpages.header, ?_⟩
      rfl rfl (.refl _)
    · cases h <;> exact hc
    · intro s hs
      cases hs
      exact hpages.header
  | takeOpen =>
    simp only [Stmt.exec] at he
    split at he
    · cases he
    · rename_i s hs
      cases he
      refine .same (k := h) ?_ (hat.congr rfl rfl rfl rfl)
        ⟨hpages.opened s hs, hpages.reference, hpages.opened⟩ rfl rfl (.refl _)
      cases h <;> exact hc
  -- the page in hand becomes the current one, so the frontier stays
  | swapPage =>
    cases h with
    | opened =>
      cases he
      have hf := hat.frontier_eq
      rw [if_pos rfl] at hf
      obtain ⟨hopen, hid, hpage⟩ := hat
      have hle : ∀ {q}, q ≤ w.writer.currentPage → q ≤ l.load.page := fun hq => by omega
      refine .same (k := .rest) hc ⟨rfl, hpage.symm⟩
        ⟨hle hpages.header, hle hpages.reference, fun s hs => hle (hpages.opened s hs)⟩
        ?_ rfl (.refl _)
      rw [hf, frontier_of_closed rfl]
      show l.load.page = _
      omega
    | rest | bumped => cases hc
  -- a ring that has just been started offers nothing
  | startWarmer n =>
    obtain ⟨hnone, hc'⟩ : (!w.warmer.isSome) = true ∧ handed true h code = true :=
      Bool.and_eq_true_iff.mp hc
    have hw : w.warmer = none := by
      cases hwarm : w.warmer with
      | none => rfl
      | some g => rw [hwarm] at hnone; cases hnone
    simp only [Stmt.exec] at he
    split at he <;> cases he
    refine .same (k := h) hc' (hat.congr rfl rfl rfl rfl) hpages rfl rfl ?_
    rw [hw]
    exact fun idx => rfl
  | findLastWrittenPage | scan | scanLoad | findLastSequenceNumber | seqLoad => cases h <;> cases hc
  | _ => exact absurd rfl hi

end

end Revoq
