import Mathlib.Data.List.Induction
import Revoq.WriterCourse

/-! # Readers beside a writer

One writer and any number of readers work on the pages of a directory, statement by
statement, in any order.  A reader changes a page only while it loads one: `Page::load` is
the writer's own, and a `prefault` reader maps the page writable.

A load zero-fills the file if it was missing at `stat`, and initialises the header if there
was none at `checkNew`.  In between, the writer may create the page, initialise it and fill
it.  So a reader that is `overtaken` by the writer on its page destroys what the writer has
put there; all other readers leave the writer's pages alone (`Safe.next`).
-/
namespace Revoq
open ByteImage StmtMachine

/-! ## A writer and its readers -/

/-- Where the writer is in its life. -/
inductive Phase where
  | constructing
  | open
  /-- The constructor has thrown, or the process has died. -/
  | gone
deriving DecidableEq

/-- A reader, with what is left of the `Page::load` it is in. -/
structure Loader where
  regs : LoadRegs := ⟨0, false, false, false, 0, false⟩
  code : List LoadStmt := []

/-- The reader's load is on its course. -/
structure Loader.Loads (x : Loader) (taken : List Nat) (d : Disk) : Prop where
  load : OnLoad taken d x.regs x.code
  reads : x.regs.isWriting = false

theorem Loader.Loads.mono {x : Loader} {taken : List Nat} {d d' : Disk} (h : x.Loads taken d)
    (hs : ∀ q, (d.size q).isSome → (d'.size q).isSome) : x.Loads taken d' :=
  ⟨h.load.mono (hs _), h.reads⟩

/-- A writer and its readers. -/
structure Crowd (ι : Type) where
  world : World
  locals : Local
  /-- What is left of the constructor, the running call or its exception handler. -/
  code : List Stmt
  /-- The last call the writer entered. -/
  call : Call := .fill []
  serialize : Bool
  phase : Phase := .constructing
  readers : ι → Loader := fun _ => {}
  /-- The pages whose header the writer has initialised or found initialised, a history
  variable. -/
  initialised : List Nat := []

/-- What can happen next. -/
inductive Crowd.Event (ι : Type) where
  /-- The writer executes its next statement, or its constructor returns. -/
  | write
  /-- The writer's user makes a call. -/
  | call (c : Call) (now : Int64) (env : LoadEnv)
  /-- A reader starts to load a page. -/
  | join (k : ι) (page : Nat) (prefault : Bool) (env : LoadEnv)
  /-- A reader executes its next statement. -/
  | read (k : ι)

namespace Crowd
variable {ι : Type}

/-- A writer whose constructor is entered, and readers that have not joined. -/
def start (d : Disk) (prefault serialize : Bool) (env : LoadEnv) : Crowd ι where
  world := ⟨d, JournalWriter.new prefault, [], none⟩
  locals := {}
  code := construct env 0
  serialize := serialize

/-- The step of an event is a reader's. -/
def Event.isReader : Event ι → Bool
  | .join .. | .read _ => true
  | .write | .call .. => false

/-- Every page the writer has initialised has the bytes it had, and its file is no shorter. -/
def Untouched (S S' : Crowd ι) : Prop :=
  ∀ p ∈ S.initialised, S'.world.disk.image p = S.world.disk.image p ∧
    ∀ n, S.world.disk.size p = some n → ∃ n', n ≤ n' ∧ S'.world.disk.size p = some n'

/-- The writer is on its course, the readers' loads on theirs. -/
structure Safe (S : Crowd ι) : Prop where
  secure : Secure S.initialised S.world.disk
  warmer : S.world.warmer = none
  page : S.phase = .open → S.world.writer.currentPage ≠ 0
  goes : S.phase ≠ .gone → OnCourse S.initialised S.world S.locals S.code
  readers : ∀ k, (S.readers k).Loads S.initialised S.world.disk

theorem Untouched.refl (S : Crowd ι) : Untouched S S :=
  fun _ _ => ⟨rfl, fun n hn => ⟨n, Nat.le_refl n, hn⟩⟩

theorem safe_start (d : Disk) (prefault serialize : Bool) (env : LoadEnv) :
    Safe (start d prefault serialize env : Crowd ι) where
  secure := fun _ h => (by cases h)
  warmer := rfl
  page := fun h => by cases h
  goes := fun _ => by
    refine .search trivial (loadInitialPage_course env) ?_
    exact ⟨fun h => absurd rfl h, Nat.two_pow_pos 33, fun h => absurd rfl h, Nat.two_pow_pos 33,
      fun h => absurd rfl h, fun s h => (by cases h), fun h => (by cases h), fun h => (by cases h)⟩
  readers := fun _ => ⟨.nil, rfl⟩

variable [DecidableEq ι]

/-- The state after an event; there is none if it cannot happen. -/
def next (P : PageSize) (S : Crowd ι) : Event ι → Option (Crowd ι)
  | .write =>
      match S.phase, S.code with
      | .gone, _ | .open, [] => none
      | .constructing, [] => some { S with phase := .open }
      | _, i :: is =>
        match i.exec P (S.world, S.locals) with
        | .next (w, l) push =>
            some { S with
              world := w
              locals := l
              code := push ++ is
              initialised := takenBy S.initialised (push ++ is) l }
        | .throw (w, l) =>
            if S.phase = .open then
              some { S with world := w, locals := l, code := S.call.handler S.serialize }
            else some { S with world := w, locals := l, code := [], phase := .gone }
        | .fault (w, l) => some { S with world := w, locals := l, code := [], phase := .gone }
  | .call c now env =>
      match S.phase, S.code with
      | .open, [] => some { S with code := c.code S.serialize now env, call := c }
      | _, _ => none
  | .join k page prefault env =>
      match (S.readers k).code with
      | [] =>
        some { S with
          readers := Function.update S.readers k
            ⟨⟨page, false, prefault, false, 0, false⟩, Page.loadCode env⟩ }
      | _ :: _ => none
  | .read k =>
      match (S.readers k).code with
      | [] => none
      | a :: code =>
        match a.exec P (S.world.disk, (S.readers k).regs) with
        | .next (d, r) push =>
            some { S with
              world := { S.world with disk := d }
              readers := Function.update S.readers k ⟨r, push ++ code⟩ }
        -- the exception leaves `Page::load`; another process may take the place of one that died
        | .throw (d, r) | .fault (d, r) =>
            some { S with
              world := { S.world with disk := d }
              readers := Function.update S.readers k ⟨r, []⟩ }

/-- The state after a run. -/
def play (P : PageSize) (S : Crowd ι) (es : List (Event ι)) : Option (Crowd ι) :=
  es.foldlM (next P) S

/-- The event overtakes no reader: if the writer completes the header of a page with it, then no
reader of that page is in a load that stores to the page when it goes on. -/
def Timely (P : PageSize) (S : Crowd ι) (e : Event ι) : Prop :=
  ∀ S', S.next P e = some S' → ∀ k, (S.readers k).regs.page ∈ S'.initialised →
    (S.readers k).regs.page ∉ S.initialised →
    overtaken (S.readers k).regs (S.readers k).code = false

/-! ## What holds along a run -/

variable {P : PageSize} {S S' T : Crowd ι} {e : Event ι}

/-- What an event of the writer does with a statement. -/
theorem next_write (h : S.next P .write = some S') :
    S.phase = .constructing ∧ S.code = [] ∧ S' = { S with phase := .open } ∨
    ∃ i is, S.phase ≠ .gone ∧ S.code = i :: is ∧
      ((∃ w l push, i.exec P (S.world, S.locals) = .next (w, l) push ∧
          S' = { S with
            world := w
            locals := l
            code := push ++ is
            initialised := takenBy S.initialised (push ++ is) l }) ∨
        ∃ w l, (i.exec P (S.world, S.locals) = .throw (w, l) ∨
          i.exec P (S.world, S.locals) = .fault (w, l)) ∧
          (S.phase = .open ∧ S' = { S with
            world := w, locals := l, code := S.call.handler S.serialize } ∨
            S' = { S with world := w, locals := l, code := [], phase := .gone })) := by
  simp only [next] at h
  split at h
  · cases h
  · cases h
  · rename_i hphase hcode
    exact .inl ⟨hphase, hcode, (Option.some.inj h).symm⟩
  · rename_i i is hcode hgone
    refine .inr ⟨i, is, hgone, hcode, ?_⟩
    split at h
    · rename_i w l push he
      exact .inl ⟨w, l, push, he, (Option.some.inj h).symm⟩
    · rename_i w l he
      refine .inr ⟨w, l, .inl he, ?_⟩
      split at h
      · rename_i hopen
        exact .inl ⟨hopen, (Option.some.inj h).symm⟩
      · exact .inr (Option.some.inj h).symm
    · rename_i w l he
      exact .inr ⟨w, l, .inr he, .inr (Option.some.inj h).symm⟩

/-- What an event of a reader does with a statement. -/
theorem next_read {k : ι} (h : S.next P (.read k) = some S') :
    ∃ a code, (S.readers k).code = a :: code ∧
      ((∃ d r push, a.exec P (S.world.disk, (S.readers k).regs) = .next (d, r) push ∧
          S' = { S with
            world := { S.world with disk := d }
            readers := Function.update S.readers k ⟨r, push ++ code⟩ }) ∨
        S' = { S with readers := Function.update S.readers k ⟨(S.readers k).regs, []⟩ }) := by
  simp only [next] at h
  split at h
  · cases h
  · rename_i a code hcode
    refine ⟨a, code, hcode, ?_⟩
    split at h
    · rename_i d r push he
      exact .inl ⟨d, r, push, he, (Option.some.inj h).symm⟩
    · rename_i d r he
      cases LoadStmt.exec_throw he
      exact .inr (Option.some.inj h).symm
    · rename_i d r he
      cases LoadStmt.exec_fault he
      exact .inr (Option.some.inj h).symm

/-- An event of the writer. -/
theorem Safe.next_write (h : Safe S) (ht : Timely P S .write)
    (he : S.next P .write = some S') : Safe S' := by
  rcases Crowd.next_write he with ⟨hphase, hcode, rfl⟩ | ⟨i, is, hgone, hcode, hstep⟩
  · have hgoes := h.goes (by rw [hphase]; decide)
    rw [hcode] at hgoes
    exact { h with
      page := fun _ => hgoes.page_of_nil
      goes := fun _ => h.goes (by rw [hphase]; decide) }
  · have hgoes := h.goes hgone
    rw [hcode] at hgoes
    rcases hstep with ⟨w, l, push, hexec, rfl⟩ | ⟨w, l, hexec, hstop⟩
    · have hadv := hgoes.step h.warmer h.secure hexec
      exact
        { secure := hadv.secure
          warmer := hadv.warmer
          page := fun hopen => hadv.page (h.page hopen)
          goes := fun _ => hadv.goes
          readers := fun k =>
            ⟨((h.readers k).load.mono (hadv.sizes _)).take (h.readers k).reads (ht _ he k),
              (h.readers k).reads⟩ }
    · have hstopped := Stmt.exec_stops hexec
      have hpos := hgoes.positions
      have hsecure : Secure S.initialised w.disk :=
        h.secure.kept fun p hp => hstopped.kept hpos (h.secure p hp).1
      have hwarmer : w.warmer = none := hstopped.warmer.trans h.warmer
      have hreaders : ∀ k, (S.readers k).Loads S.initialised w.disk := fun k =>
        (h.readers k).mono fun q hq => by rw [hstopped.sizes]; exact hq
      rcases hstop with ⟨hopen, rfl⟩ | rfl
      · have hpage := h.page hopen
        exact
          { secure := hsecure
            warmer := hwarmer
            page := fun _ => by show w.writer.currentPage ≠ 0; rw [hstopped.writer]; exact hpage
            goes := fun _ => hstopped.rest hpage hpos (Call.handler_course ..)
            readers := hreaders }
      · exact
          { secure := hsecure
            warmer := hwarmer
            page := fun hopen => by cases hopen
            goes := fun hno => absurd rfl hno
            readers := hreaders }

/-- **An event of a reader leaves the writer's pages alone.** -/
theorem Safe.next_read {k : ι} (h : Safe S) (he : S.next P (.read k) = some S') :
    Safe S' ∧ Untouched S S' := by
  obtain ⟨a, code, hcode, ⟨d, r, push, hexec, rfl⟩ | rfl⟩ := Crowd.next_read he
  · have hload := (h.readers k).load
    rw [hcode] at hload
    obtain ⟨himages, hsizes, hgoes⟩ := hload.step h.secure hexec
    have hkept : ∀ p ∈ S.initialised, PageKept S.world.disk d p :=
      fun p hp => .of_same (hsizes p) (himages p hp)
    have hr : r.isWriting = false := (LoadStmt.exec_mode hexec).1.trans (h.readers k).reads
    refine ⟨⟨h.secure.kept hkept, h.warmer, h.page, fun hgone =>
      (h.goes hgone).stable himages hsizes, ?_⟩, fun p hp =>
        ⟨himages p hp, fun n hn => LoadStmt.exec_grows hexec hn⟩⟩
    exact (Function.forall_update_iff S.readers fun _ x => x.Loads S.initialised d).mpr
      ⟨⟨hgoes, hr⟩, fun j _ => (h.readers j).mono hsizes⟩
  · refine ⟨{ h with readers := ?_ }, .refl S⟩
    exact (Function.forall_update_iff S.readers fun _ x => x.Loads S.initialised S.world.disk).mpr
      ⟨⟨.nil, (h.readers k).reads⟩, fun j _ => h.readers j⟩

/-- **One event.**  Only the writer's may overtake a reader. -/
theorem Safe.next (h : Safe S) (ht : Timely P S e) (he : S.next P e = some S') : Safe S' := by
  cases e with
  | write => exact h.next_write ht he
  | call c now env =>
    simp only [Crowd.next] at he
    split at he
    · rename_i hopen hcode
      cases he
      have hgoes := h.goes (by rw [hopen]; decide)
      exact { h with
        goes := fun _ => .at .rest false false (Call.code_course ..)
          (h.page hopen) hgoes.positions }
    · cases he
  | join k page prefault env =>
    simp only [Crowd.next] at he
    split at he
    · cases he
      refine { h with readers := ?_ }
      exact (Function.forall_update_iff S.readers fun _ x => x.Loads S.initialised S.world.disk).mpr
        ⟨⟨.start env, rfl⟩, fun j _ => h.readers j⟩
    · cases he
  | read k => exact (h.next_read he).1

theorem Safe.untouched (h : Safe S) (hr : e.isReader = true) (he : S.next P e = some S') :
    Untouched S S' := by
  cases e with
  | write | call => cases hr
  | join k page prefault env =>
    simp only [Crowd.next] at he
    split at he
    · cases he
      exact .refl S
    · cases he
  | read k => exact (h.next_read he).2

theorem play_concat {es : List (Event ι)} (h : play P S (es ++ [e]) = some S') :
    ∃ T, play P S es = some T ∧ T.next P e = some S' := by
  simp only [play, List.foldlM_append, List.foldlM_cons, List.foldlM_nil, bind_pure] at h
  exact Option.bind_eq_some_iff.mp h

/-- **A run that overtakes no reader is safe.** -/
theorem Safe.play {es : List (Event ι)} (h : Safe S)
    (ht : ∀ fs e T, fs ++ [e] <+: es → Crowd.play P S fs = some T → Timely P T e)
    (he : Crowd.play P S es = some S') : Safe S' := by
  induction es using List.reverseRecOn generalizing S' with
  | nil =>
    cases he
    exact h
  | append_singleton fs e ih =>
    obtain ⟨T, hT, hnext⟩ := play_concat he
    have hs := ih (fun gs e' T' hpre => ht gs e' T' (hpre.trans (List.prefix_append ..))) hT
    exact hs.next (ht fs e T (List.prefix_refl _) hT) hnext

/-- The event is not the start of a `prefault` reader. -/
def Event.isLazy : Event ι → Bool
  | .join _ _ prefault _ => !prefault
  | .write | .call .. | .read _ => true

/-- Without `prefault` nothing but the writer maps a page writable. -/
theorem next_lazy (h : ∀ k, (S.readers k).regs.prefault = false) (hl : e.isLazy = true)
    (he : S.next P e = some S') : ∀ k, (S'.readers k).regs.prefault = false := by
  cases e with
  | write =>
    rcases next_write he with ⟨-, -, rfl⟩
      | ⟨i, is, -, -, ⟨w, l, push, -, rfl⟩ | ⟨w, l, -, ⟨-, rfl⟩ | rfl⟩⟩ <;> exact h
  | call c now env =>
    simp only [Crowd.next] at he
    split at he
    · cases he
      exact h
    · cases he
  | join k page prefault env =>
    simp only [Crowd.next] at he
    split at he
    · cases he
      refine (Function.forall_update_iff S.readers fun _ x => x.regs.prefault = false).mpr
        ⟨?_, fun j _ => h j⟩
      exact (Bool.not_eq_true' _).mp hl
    · cases he
  | read k =>
    obtain ⟨a, code, -, ⟨d, r, push, hexec, rfl⟩ | rfl⟩ := next_read he
    · refine (Function.forall_update_iff S.readers fun _ x => x.regs.prefault = false).mpr
        ⟨?_, fun j _ => h j⟩
      exact (LoadStmt.exec_mode hexec).2.trans (h k)
    · exact (Function.forall_update_iff S.readers fun _ x => x.regs.prefault = false).mpr
        ⟨h k, fun j _ => h j⟩

/-- **Readers without `prefault` are never overtaken.** -/
theorem timely_of_lazy {d : Disk} {prefault serialize : Bool} {env : LoadEnv} {es : List (Event ι)}
    (hl : ∀ e ∈ es, e.isLazy = true) (fs : List (Event ι)) (e : Event ι) (hpre : fs ++ [e] <+: es)
    (hS : play P (start d prefault serialize env) fs = some S) : Timely P S e := by
  have hlazy : ∀ k, (S.readers k).regs.prefault = false := by
    have hfs : ∀ e' ∈ fs, e'.isLazy = true :=
      fun e' h => hl e' (hpre.subset (List.mem_append_left _ h))
    clear hpre
    induction fs using List.reverseRecOn generalizing S with
    | nil =>
      cases hS
      exact fun _ => rfl
    | append_singleton gs e' ih =>
      obtain ⟨T, hT, hnext⟩ := play_concat hS
      exact next_lazy (ih hT fun x hx => hfs x (List.mem_append_left _ hx))
        (hfs e' (List.mem_append_right _ List.mem_cons_self)) hnext
  intro S' _ k _ _
  rw [overtaken, hlazy k]
  rfl

end Crowd

/-! ## The result -/

/-- **Readers are passive unless they are overtaken.**  In a run from any directory, of a writer
with any calls and of any number of readers, in which the writer never completes a page's header
while a reader of that page is in a load that stores to it when it goes on, no step of a reader
changes a page after the writer has initialised its header. -/
theorem readers_passive {ι : Type} [DecidableEq ι] (P : PageSize) (d : Disk)
    (prefault serialize : Bool) (env : LoadEnv) (es : List (Crowd.Event ι))
    (ht : ∀ fs e S, fs ++ [e] <+: es → Crowd.play P (.start d prefault serialize env) fs = some S →
      Crowd.Timely P S e) :
    ∀ fs e S S', fs ++ [e] <+: es → Crowd.play P (.start d prefault serialize env) fs = some S →
      S.next P e = some S' → e.isReader = true → S.Untouched S' := by
  intro fs e S S' hpre hS hnext hr
  have hfs : fs <+: es := (List.prefix_append ..).trans hpre
  have hsafe : S.Safe := (Crowd.safe_start d prefault serialize env).play
    (fun gs e' T hg => ht gs e' T (hg.trans hfs)) hS
  exact hsafe.untouched hr hnext

/-- A writer gets its first page in an empty directory and marks, while a reader loads that page: it
has looked for the file before there was one, and goes on when the mark is there. -/
def lateReader (prefault : Bool) : List (Crowd.Event Unit) :=
  .join () 1 prefault .succeeds :: .read () :: List.replicate 17 .write ++
    .call (.mark 5 7) 6 .succeeds :: List.replicate 19 .write ++ List.replicate 3 (.read ())

/-- What an observer sees of the first page: the initialised pages, `last_frame_position`
and the length of the first frame. -/
def Crowd.observe (S : Crowd Unit) : List Nat × Nat × Nat :=
  (S.initialised, lastFramePosition (S.world.disk.image 1),
    getFrameLength (S.world.disk.image 1) pageHeaderSize)

/-- What the next step of the late reader does. -/
def Crowd.lateStep (prefault : Bool) : Option ((List Nat × Nat × Nat) × (List Nat × Nat × Nat)) :=
  (play pageSizeDefault (.start .empty false false .succeeds) (lateReader prefault)).bind fun S =>
    (S.next pageSizeDefault (.read ())).map fun S' => (S.observe, S'.observe)

theorem Crowd.exists_of_lateStep {prefault : Bool} {before after : List Nat × Nat × Nat}
    (h : lateStep prefault = some (before, after)) :
    ∃ S S', play pageSizeDefault (.start .empty false false .succeeds)
      (lateReader prefault) = some S ∧
      S.next pageSizeDefault (.read ()) = some S' ∧ S.observe = before ∧ S'.observe = after := by
  obtain ⟨S, hS, h⟩ := Option.bind_eq_some_iff.mp h
  obtain ⟨S', hS', h⟩ := Option.map_eq_some_iff.mp h
  exact ⟨S, S', hS, hS', congrArg Prod.fst h, congrArg Prod.snd h⟩

/-- A late reader without `prefault` leaves the mark alone. -/
theorem readers_passive_lazy :
    ∃ S S', Crowd.play pageSizeDefault (.start .empty false false .succeeds)
      (lateReader false) = some S ∧
      S.next pageSizeDefault (.read ()) = some S' ∧ S.observe = ([1], 64, 32) ∧ S.Untouched S' := by
  obtain ⟨S, S', hS, hS', hbefore, -⟩ := @Crowd.exists_of_lateStep false ([1], 64, 32) ([1], 64, 32)
    (by decide +kernel)
  refine ⟨S, S', hS, hS', hbefore, ?_⟩
  have hl : ∀ e ∈ lateReader false ++ [.read ()], e.isLazy = true :=
    List.all_eq_true.mp (by decide +kernel)
  exact readers_passive pageSizeDefault .empty false false .succeeds
    (lateReader false ++ [.read ()])
    (fun fs e S hpre => Crowd.timely_of_lazy hl fs e hpre) _ _ S S' (List.prefix_refl _) hS hS' rfl

/-- The zero-fill of a late reader with `prefault` erases the mark and the header. -/
theorem late_reader_erases :
    ∃ S S', Crowd.play pageSizeDefault (.start .empty false false .succeeds)
      (lateReader true) = some S ∧
      S.next pageSizeDefault (.read ()) = some S' ∧ S.observe = ([1], 64, 32) ∧
        S'.observe = ([1], 0, 0) ∧
      ¬ S.Untouched S' := by
  obtain ⟨S, S', hS, hS', hbefore, hafter⟩ :=
    @Crowd.exists_of_lateStep true ([1], 64, 32) ([1], 0, 0) (by decide +kernel)
  refine ⟨S, S', hS, hS', hbefore, hafter, fun hno => ?_⟩
  obtain ⟨htaken, hlast, -⟩ : S.initialised = [1] ∧
      lastFramePosition (S.world.disk.image 1) = 64 ∧ _ := by
    simpa [Crowd.observe] using hbefore
  have hsame := (hno 1 (by rw [htaken]; exact List.mem_cons_self)).1
  have hzero : lastFramePosition (S'.world.disk.image 1) = 0 := congrArg (fun x => x.2.1) hafter
  rw [hsame, hlast] at hzero
  cases hzero

end Revoq
