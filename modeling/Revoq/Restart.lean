import Revoq.Layout

/-! # Sessions on a journal that exists already

A session is a writer's life in one process: it is constructed on whatever
directory it finds, makes its writes, and ends by destruction or by a crash after
any statement.  Destruction unmaps the pages and stores nothing, so a destructed
session is one that has no statement left.

Once the constructor has started a warmer, others may work on the pages ahead of
the session (`Stable`).  `Job.At` follows a session from its first statement to its
last one; what it keeps of the journal it found is read off there.
-/
namespace Revoq
open ByteImage StmtMachine

/-- What a session is asked for: the options of its writer, and its writes. -/
structure Job where
  prefault : Bool
  warmupPages : Nat
  writes : List Write

namespace Job

/-- The constructor takes the options, and the writes fit. -/
structure Ok (P : PageSize) (j : Job) : Prop where
  warmup : j.warmupPages ≤ ringSize
  writes : ∀ w ∈ j.writes, w.Ok P

instance (P : PageSize) (j : Job) : Decidable (j.Ok P) :=
  decidable_of_iff (j.warmupPages ≤ ringSize ∧ ∀ w ∈ j.writes, w.Ok P)
    ⟨fun ⟨h1, h2⟩ => ⟨h1, h2⟩, fun h => ⟨h.warmup, h.writes⟩⟩

/-- The process when it enters the constructor, in the directory `d`. -/
def start (j : Job) (d : Disk) : World × Local := (⟨d, .new j.prefault, [], none⟩, {})

/-- The statements of the session. -/
def code (j : Job) : List Stmt :=
  construct .succeeds j.warmupPages ++ j.writes.flatMap (Write.code false)

/-- What is left when the first page is in place. -/
def work (j : Job) : List Stmt :=
  (if j.warmupPages = 0 then [] else [.startWarmer j.warmupPages, .updateCurrentPage]) ++
    j.writes.flatMap (Write.code false)

theorem code_eq (j : Job) : j.code = construct .succeeds 0 ++ j.work := by
  simp only [code, work, construct, if_true, List.append_nil, List.append_assoc]

/-- One statement of the session, or what a warmer that was started does meanwhile. -/
inductive Step (P : PageSize) (C : Ctx) :
    List Stmt × (World × Local) → List Stmt × (World × Local) → Prop where
  | own {c c' : List Stmt × (World × Local)}
      (h : StmtMachine.Step (Stmt.exec P) c c') : Step P C c c'
  | warm {code : List Stmt} {s s' : World × Local} (started : s.1.warmer.isSome)
      (h : Stable P C s s') :
      Step P C (code, s) (code, s')

/-- The session, constructed in `d`, gets to a point. -/
def Reaches (P : PageSize) (d : Disk) (j : Job) : List Stmt × (World × Local) → Prop :=
  Relation.ReflTransGen (Step P (ctxOf P d)) (j.code, j.start d)

/-- The frames the session is to commit. -/
def plan (P : PageSize) (d : Disk) (j : Job) (thread : Nat) : List Entry :=
  journal P thread ⟨lastWritten d + 1, pageHeaderSize⟩ (nextSequence P d) j.writes

/-- **Where a session stands**: in the constructor, or at work. -/
inductive At (P : PageSize) (d : Disk) (j : Job) : List Stmt → World × Local → Prop where
  | constructing {i : Stmt} {is : List Stmt} {s : World × Local}
      (h : CtorAt P d j.prefault (i :: is) s) : At P d j (i :: is ++ j.work) s
  | working {thread : Nat} {code : List Stmt} {s : World × Local}
      (h : Safe P (ctxOf P d) (j.plan P d thread) (fun s => ∃ tail,
        Idle P (ctxOf P d) tail (j.plan P d thread) s) code s) : At P d j code s

end Job

/-! ## From the constructor to the writes -/

section
variable {P : PageSize} {C : Ctx} {full log : List Entry} {tail : Slot} {s : World × Local}
variable {Q : World × Local → Prop} {rest : List Stmt}

/-- A statement that only touches the warmer, and offers nothing new in its ring. -/
theorem Idle.warmer_step (hi : Idle P C tail log s) {i : Stmt} {f : World → Option PageWarmer}
    (hexec : ∀ w l, i.exec P (w, l) = .next ({ w with warmer := f w }, l) [])
    (hring : ∀ w n, RingReady P C n w → RingReady P C n { w with warmer := f w })
    (hfull : log <+: full)
    (next : ∀ s', Idle P C tail log s' → s'.2.thread = s.2.thread → Safe P C full Q rest s') :
    Safe P C full Q (i :: rest) s := by
  refine Safely.single (A := fun t => Idle P C tail log t ∧ t.2.thread = s.2.thread)
    (fun _ t h hs => ⟨h.1.stable hs, by rw [hs.regs]; exact h.2⟩)
    (fun _ h => h.1.state.cut hfull) ?_ ⟨hi, rfl⟩
  rintro ⟨w, l⟩ ⟨hw, hth⟩
  refine ⟨_, [], hexec w l,
    next _ ⟨⟨hw.state.live, hw.state.log, rfl, rfl, hw.state.extra, ?_⟩, hw.cursor, hw.closed⟩ hth⟩
  exact hring w _ hw.state.ring

/-- The rest of the constructor: a new warmer has nothing to offer yet. -/
theorem Idle.startWarmer (hi : Idle P C tail log s) {n : Nat} (hn : n ≤ ringSize)
    (hfull : log <+: full)
    (next : ∀ s', Idle P C tail log s' → s'.2.thread = s.2.thread → Safe P C full Q rest s') :
    Safe P C full Q (.startWarmer n :: .updateCurrentPage :: rest) s := by
  refine hi.warmer_step (f := fun _ => some { warmupDistance := min n (ringSize / 2) }) ?_ ?_ hfull
    fun s₁ h₁ hth₁ => h₁.warmer_step
      (f := fun w => w.warmer.map fun g => { g with currentPage := w.writer.currentPageId })
      (fun _ _ => rfl) ?_ hfull fun s₂ h₂ hth₂ => next s₂ h₂ (hth₂.trans hth₁)
  · intro w l
    simp only [Stmt.exec, if_neg (Nat.not_lt.mpr hn)]
  · intro w k _ g hg i p hp
    cases hg
    cases hp
  · intro w k hr g hg i p hp hlt
    obtain ⟨g', hg', rfl⟩ := Option.map_eq_some_iff.mp hg
    exact hr g' hg' i p hp hlt

end

/-! ## Along a session -/

section
variable {P : PageSize} {d : Disk} {j : Job} {code : List Stmt} {s : World × Local}
variable {c c' : List Stmt × (World × Local)}

/-- While the constructor runs, nothing is committed and there is no warmer. -/
theorem CtorAt.fresh {pre : Bool} {i : Stmt} {is : List Stmt} (h : CtorAt P d pre (i :: is) s) :
    Fresh P d s.1 := by
  generalize hcode : i :: is = code at h
  cases h with
  | done => cases hcode
  | enter fresh | scan fresh | scanAhead fresh | scanUsed fresh | findSequence fresh | seqLoad fresh
  | bump fresh | load fresh => exact fresh

theorem Job.At.enter (hmap : Mapped P d) : Job.At P d j j.code (j.start d) := by
  rw [Job.code_eq]
  exact @Job.At.constructing P d j (.findLastWrittenPage .succeeds)
    (loadInitialPage .succeeds) (j.start d)
    (.enter (w := (j.start d).1) ⟨.refl hmap, rfl, rfl⟩ rfl rfl)

/-- The constructor has put the first page in place. -/
theorem Job.work_safe (hj : j.Ok P) {pre : Bool} (h : CtorAt P d pre [] s) :
    Safe P (ctxOf P d) (j.plan P d s.2.thread)
      (fun s' => ∃ tail, Idle P (ctxOf P d) tail (j.plan P d s.2.thread) s') j.work s := by
  have hi : Idle P (ctxOf P d) ⟨lastWritten d + 1, pageHeaderSize⟩ [] s := by
    generalize hcode : ([] : List Stmt) = code at h
    cases h with
    | done idle => exact idle
    | load => simp at hcode
    | _ => cases hcode
  have hwrites : ∀ t, Idle P (ctxOf P d) ⟨lastWritten d + 1, pageHeaderSize⟩ [] t →
      t.2.thread = s.2.thread →
      Safe P (ctxOf P d) (j.plan P d s.2.thread) (fun s' => ∃ tail,
        Idle P (ctxOf P d) tail (j.plan P d s.2.thread) s')
          (j.writes.flatMap (Write.code false)) t := by
    intro t ht hth
    have hplan : journal P t.2.thread ⟨lastWritten d + 1, pageHeaderSize⟩
        ((ctxOf P d).seq + UInt64.ofNat ([] : List Entry).length) j.writes =
        j.plan P d s.2.thread := by
      rw [hth, List.length_nil, show UInt64.ofNat 0 = 0 from rfl, UInt64.add_zero]
      rfl
    exact (ht.safe hj.writes hplan).mono (fun _ h => h) fun _ h => ⟨_, h⟩
  unfold Job.work
  split
  · exact hwrites s hi rfl
  · exact hi.startWarmer hj.warmup List.nil_prefix hwrites

/-- **One step of a session keeps its place.** -/
theorem Job.At.step (hmap : Mapped P d) (hj : j.Ok P) (h : Job.At P d j c.1 c.2)
    (hs : Job.Step P (ctxOf P d) c c') : Job.At P d j c'.1 c'.2 := by
  generalize hcode : c.1 = code at h
  generalize hstate : c.2 = s at h
  obtain rfl : c = (code, s) := Prod.ext hcode hstate
  cases h with
  | @constructing i is s h =>
    cases hs with
    | own hs =>
      cases hs with
      | @next _ _ push _ _ hexec =>
        rcases h.step hmap with ⟨s', push', hexec', hat, -⟩ | ⟨-, hfault, -⟩
        · cases hexec.symm.trans hexec'
          show Job.At P d j (push ++ (is ++ j.work)) _
          rw [← List.append_assoc]
          generalize push ++ is = code at hat
          cases code with
          | nil => exact .working (Job.work_safe hj hat)
          | cons i is => exact .constructing hat
        · cases hexec.symm.trans hfault
    | warm started =>
      rw [h.fresh.warmer] at started
      cases started
  | working h =>
    cases hs with
    | own hs => exact .working (h.step Stable.refl hs)
    | warm _ hs => exact .working (h.rely Stable.trans hs)

theorem Job.Reaches.at (hmap : Mapped P d) (hj : j.Ok P) (h : j.Reaches P d c) :
    Job.At P d j c.1 c.2 := by
  unfold Job.Reaches at h
  induction h with
  | refl => exact .enter hmap
  | tail _ hs ih => exact ih.step hmap hj hs

/-- What is on disk at any point of a session. -/
theorem Job.At.state (h : Job.At P d j code s) :
    s.1.log = [] ∧ Between P d s.1.disk ∨
      ∃ thread tail, s.1.log <+: j.plan P d thread ∧ Live P (ctxOf P d) s.1.disk s.1.log tail := by
  cases h with
  | constructing h => exact Or.inl ⟨h.fresh.log, h.between⟩
  | working h =>
    obtain ⟨hpre, tail, hlive⟩ := h.inv (.refl _)
    exact Or.inr ⟨_, tail, hpre, hlive⟩

/-- **A session keeps the pages up to the last written one.** -/
theorem Job.At.kept (h : Job.At P d j code s) {p : Nat} (hp : p ≤ lastWritten d) :
    d.SameFile s.1.disk p := by
  rcases h.state with ⟨-, hb⟩ | ⟨_, _, -, hlive⟩
  · exact hb.below p hp
  · exact hlive.below p (Nat.lt_succ_of_le hp)

theorem Ahead.mapped {b : Image} {p : Nat} (h : Ahead P b d p) (hs : (d.size p).isSome) :
    lastFramePosition (d.image p) = 0 ∨ InUse P d p := by
  obtain ⟨size, hs⟩ := Option.isSome_iff_exists.mp hs
  rcases h.header size hs with h0 | ⟨hok, h64, hle⟩
  · exact Or.inl h0
  · exact Or.inr ⟨⟨⟨size, hs, hle⟩, hok⟩, Nat.le_of_eq
      h64.symm, by rw [h64]; exact pageHeaderSize_lt P⟩

theorem Mapped.of_same (hmap : Mapped P d) {d' : Disk} {p : Nat} (hs : d.SameFile d' p)
    (hp : (d'.size p).isSome) :
    lastFramePosition (d'.image p) = 0 ∨ InUse P d' p := by
  rw [hs.1] at hp
  rw [hs.2]
  exact (hmap p hp).imp_right fun hu => hu.of_same hs

/-- **Whenever a session ends, the next one finds what it expects.** -/
theorem Job.At.mapped (hmap : Mapped P d) (h : Job.At P d j code s) : Mapped P s.1.disk := by
  intro p hp
  rcases h.state with ⟨-, hb⟩ | ⟨_, tail, -, hlive⟩
  · rcases Nat.lt_or_ge (lastWritten d) p with hlt | hge
    · exact (hb.above p hlt).mapped hp
    · exact hmap.of_same (hb.below p hge) hp
  · rcases Nat.lt_or_ge p (ctxOf P d).first with hlt | hge
    · exact hmap.of_same (hlive.below p hlt) hp
    · rcases Nat.lt_or_ge tail.page p with hlt | hle
      · exact (hlive.ahead p hlt).mapped hp
      · exact Or.inr (hlive.inUse hge hle)

/-- A session that has come to its end has committed its plan. -/
theorem Job.At.ended (h : Job.At P d j [] s) :
    ∃ thread tail, s.1.log = j.plan P d thread ∧ Idle P (ctxOf P d) tail s.1.log s := by
  generalize hcode : ([] : List Stmt) = code at h
  cases h with
  | constructing h => cases hcode
  | @working thread _ _ h =>
    subst hcode
    obtain ⟨tail, hi⟩ := h.post Stable.refl
    have hlog := hi.state.log
    exact ⟨thread, tail, hlog, hlog.symm ▸ hi⟩

/-- A session whose constructor does not meet an unusable page runs to its end. -/
theorem Job.returns (hmap : Mapped P d) (hj : j.Ok P)
    (hok : j.prefault = true ∨ ∀ p, 0 < p → p ≤ d.top → InUse P d p) :
    ∃ s, j.Reaches P d ([], s) := by
  have hstart : CtorAt P d j.prefault (construct .succeeds 0) (j.start d) :=
    .enter (w := (j.start d).1) ⟨.refl hmap, rfl, rfl⟩ rfl rfl
  obtain ⟨s₀, hctor, hat⟩ := hstart.returns hmap hok
  obtain ⟨s, hwork, -⟩ := (Job.work_safe hj hat).terminates Stable.refl
  have hrun : Runs (Stmt.exec P) (j.code, j.start d) ([], s) := by
    rw [Job.code_eq]
    exact Relation.ReflTransGen.trans (hctor.append _) hwork
  exact ⟨s, Relation.ReflTransGen.mono (fun _ _ h => Job.Step.own h) _ _ hrun⟩

end

/-- A session with a `mark` and a `writeBytes`. -/
def twoWrites : Job := ⟨true, 0, [.mark 5 1 7, .bytes 5 3 9 [4]]⟩

/-- Its frames, in an empty directory. -/
theorem twoWrites_plan (thread : Nat) :
    twoWrites.plan pageSizeDefault .empty thread =
      [⟨⟨1, 64⟩, (Write.mark 5 1 7).request.frame 0, thread⟩,
        ⟨⟨1, 128⟩, (Write.bytes 5 3 9 [4]).request.frame 1, thread⟩] := by
  have hend : endOf ⟨1, pageHeaderSize⟩ (place pageSizeDefault thread ⟨1, pageHeaderSize⟩ 0
      (Write.mark 5 1 7).request) = ⟨1, 128⟩ := by
    show Slot.after ⟨1, 64⟩ ((Write.mark 5 1 7).request.frame 0) = ⟨1, 128⟩
    decide
  show journal pageSizeDefault thread ⟨1, pageHeaderSize⟩ 0 [.mark 5 1 7, .bytes 5 3 9 [4]] = _
  rw [journal_cons, hend]
  rfl

/-! ## A session without a warmer -/

/-- No statement of the constructor's search for earlier pages, and none that starts a
warmer. -/
def Stmt.afterSearch : Stmt → Bool
  | .findLastWrittenPage _ | .scan .. | .scanLoad .. | .findLastSequenceNumber .. | .seqLoad ..
  | .startWarmer _ => false
  | _ => true

/-- **No page file is ahead**: the writer only makes the one it has already counted. -/
structure NoneAhead (s : World × Local) : Prop where
  warmer : s.1.warmer = none
  top : s.1.disk.top ≤ s.1.writer.currentPageId
  load : s.2.load.page ≤ s.1.writer.currentPageId

theorem Disk.create_top (d : Disk) (p : Nat) : (d.create p).top ≤ max d.top p := by
  unfold Disk.create
  split
  · exact Nat.le_max_left ..
  · exact Nat.le_refl _

theorem LoadStmt.exec_top {P : PageSize} {i : LoadStmt} {d d' : Disk} {r r' : LoadRegs}
    {push : List LoadStmt} (h : i.exec P (d, r) = .next (d', r') push) :
    d'.top ≤ max d.top r.page ∧ r'.page = r.page := by
  cases i with
  | «open» fails =>
    simp only [LoadStmt.exec] at h
    split at h
    · cases h
    · cases h
      exact ⟨Disk.create_top d r.page, rfl⟩
  | _ =>
    simp only [LoadStmt.exec] at h
    (repeat' split at h) <;> cases h <;> exact ⟨Nat.le_max_left .., rfl⟩

section
variable {P : PageSize} {i : Stmt} {s s' : World × Local} {push : List Stmt}

/-- One statement keeps to the pages that are counted. -/
theorem NoneAhead.exec (h : NoneAhead s) (hi : i.afterSearch = true)
    (he : i.exec P s = .next s' push) :
    NoneAhead s' ∧ push.all Stmt.afterSearch = true := by
  obtain ⟨w, l⟩ := s
  obtain ⟨hwarm, htop, hload⟩ := h
  simp only at hwarm htop hload
  have hloads : ∀ code : List LoadStmt, (code.map Stmt.load).all Stmt.afterSearch = true := by
    intro code
    rw [List.all_map]
    exact List.all_eq_true.mpr fun _ _ => rfl
  cases i with
  | findLastWrittenPage | scan | scanLoad | findLastSequenceNumber | seqLoad
  | startWarmer => cases hi
  | load y =>
    simp only [Stmt.exec] at he
    split at he
    · rename_i d r push' hy
      cases he
      obtain ⟨h1, h2⟩ := LoadStmt.exec_top hy
      have h2' : r.page ≤ w.writer.currentPageId := by rw [h2]; exact hload
      exact ⟨⟨hwarm, Nat.le_trans h1 (Nat.max_le.mpr ⟨htop, hload⟩), h2'⟩, hloads _⟩
    · cases he
    · cases he
  | bumpPage =>
    cases he
    exact ⟨⟨hwarm, Nat.le_succ_of_le htop, Nat.le_refl _⟩, rfl⟩
  -- without a warmer there is no ring to look into: the page is loaded
  | nextPage env =>
    simp only [Stmt.exec, hwarm] at he
    cases he
    exact ⟨⟨hwarm, htop, hload⟩, hloads _⟩
  | probe | claimSlot =>
    simp only [Stmt.exec, hwarm] at he
    cases he
  | updateCurrentPage =>
    cases he
    exact ⟨⟨by rw [hwarm]; rfl, htop, hload⟩, rfl⟩
  | hook h' =>
    cases h'.eventTime <;> simp only [Stmt.exec] at he <;> (repeat' split at he) <;> cases he <;>
      exact ⟨⟨hwarm, htop, hload⟩, rfl⟩
  | _ =>
    simp only [Stmt.exec] at he
    (repeat' split at he) <;> cases he <;> exact ⟨⟨hwarm, htop, hload⟩, rfl⟩

end

theorem Call.afterSearch (c : Call) (now : Int64) :
    (c.code false now .succeeds).all Stmt.afterSearch = true := by
  have hbytes : ∀ (f : Nat → UInt8 → Stmt) (bytes : List UInt8),
      (∀ i b, (f i b).afterSearch = true) →
      (bytes.mapIdx f).all Stmt.afterSearch = true := by
    intro f bytes hf
    refine List.all_eq_true.mpr fun x hx => ?_
    obtain ⟨i, hi, rfl⟩ := List.mem_mapIdx.mp hx
    exact hf ..
  cases c with
  | fill bytes => exact hbytes _ _ fun _ _ => rfl
  | writeBytes timestamp msgType data =>
    simp only [Call.code, List.all_append, hbytes Stmt.putByte data fun _ _ => rfl]
    rfl
  | openData | closeData | mark => rfl

/-- **A session without a warmer leaves no page file ahead of its last page.** -/
theorem Job.Reaches.noneAhead {P : PageSize} {j : Job} (hj : j.warmupPages = 0)
    {c : List Stmt × (World × Local)} (h : j.Reaches P .empty c) :
    c = (j.code, j.start .empty) ∨ NoneAhead c.2 ∧ c.1.all Stmt.afterSearch = true := by
  unfold Job.Reaches at h
  induction h with
  | refl => exact Or.inl rfl
  | @tail b c' _ hs ih =>
    right
    rcases ih with rfl | ⟨hn, hall⟩
    · -- the search for earlier pages finds none
      have hcode : j.code = .findLastWrittenPage .succeeds ::
          (loadInitialPage .succeeds ++ j.writes.flatMap (Write.code false)) := by
        simp only [Job.code, construct, hj, if_true, List.append_nil, List.cons_append]
      rw [hcode] at hs
      cases hs with
      | own hs =>
        obtain ⟨hexec⟩ := hs
        cases hexec
        refine ⟨⟨rfl, Nat.le_refl 0, Nat.le_refl 0⟩, ?_⟩
        rw [List.nil_append, List.all_append, List.all_flatMap]
        refine (Bool.and_eq_true ..).mpr ⟨rfl, List.all_eq_true.mpr fun w _ => ?_⟩
        rw [Write.code, List.all_flatMap]
        exact List.all_eq_true.mpr fun x _ => x.afterSearch w.now
      | warm started => cases started
    · cases hs with
      | own hs =>
        obtain ⟨hexec⟩ := hs
        rw [List.all_cons, Bool.and_eq_true] at hall
        obtain ⟨hn', hpush⟩ := hn.exec hall.1 hexec
        exact ⟨hn', by rw [List.all_append, hpush, hall.2]; rfl⟩
      | warm started =>
        rw [hn.warmer] at started
        cases started

end Revoq
