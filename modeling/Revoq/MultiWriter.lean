import Mathlib.Algebra.BigOperators.Fin
import Revoq.LockDiscipline

/-! # Several threads, one journal

Any number of threads run programs of writes on one `MultiWriterPolicy` writer,
and every statement of theirs interleaves with every other.  Since each write
takes the lock first and gives it back last, the writes happen one after the
other: what the journal ends up with is `layOut` of the writes in the order in
which they got the lock.
-/
namespace Revoq
open ByteImage StmtMachine

/-! ## The system -/

/-- Threads with their programs under way. -/
structure Multi (n : Nat) where
  world : World
  code : Fin n → List Stmt
  locals : Fin n → Local

namespace Multi
variable {n : Nat}

/-- The constructor has returned, and each thread is about to run its program. -/
def start (programs : Fin n → List Write) (w : World) : Multi n where
  world := w
  code := fun t => (programs t).flatMap (Write.code true)
  locals := fun t => { thread := t }

/-- Thread `t` executes a statement. -/
inductive Step (P : PageSize) (t : Fin n) : Multi n → Multi n → Prop where
  | step {S : Multi n} {i : Stmt} {c push : List Stmt} {w : World} {l : Local}
      (code : S.code t = i :: c) (exec : i.exec P (S.world, S.locals t) = .next (w, l) push) :
      Step P t S ⟨w, Function.update S.code t (push ++ c), Function.update S.locals t l⟩

/-- Some interleaving leads from one state to the other. -/
abbrev Reaches (P : PageSize) : Multi n → Multi n → Prop :=
  Relation.ReflTransGen fun S S' => ∃ t, Step P t S S'

/-- The code stands between an `acquire` and its `release`. -/
def inside : List Stmt → Bool
  | [] | .acquire :: _ => false
  | .release :: _ => true
  | _ :: is => inside is

/-- Every thread has ended. -/
def Done (S : Multi n) : Prop := ∀ t, S.code t = []

/-- **What several threads make of one journal.** -/
structure Serialised (P : PageSize) (programs : Fin n → List Write) (S : Multi n) : Prop where
  /-- At most one thread is between its `acquire` and its `release`. -/
  exclusive : ∀ t u, inside (S.code t) = true → inside (S.code u) = true → t = u
  /-- Meanwhile no other thread changes anything, so no open slot is overwritten. -/
  undisturbed : ∀ t u S', inside (S.code t) = true → Step P u S S' → u ≠ t → S'.world = S.world
  /-- No call fails. -/
  progress : ∀ t i is, S.code t = i :: is → ∃ s push, i.exec P (S.world, S.locals t) = .next s push
  /-- The threads can end from here. -/
  finishes : ∃ T, Reaches P S T ∧ T.Done
  /-- In the end the journal has every thread's frames, in its order. -/
  frames : S.Done → ∀ t, dataOf (S.world.log.filter fun e => e.thread = t.val) =
    (programs t).map fun w => w.request.frame 0
  /-- And nobody else's. -/
  threads : S.Done → ∀ e ∈ S.world.log, e.thread < n
  /-- The log is what stands on disk, with gap-free sequence numbers. -/
  layout : S.Done → Layout P S.world

end Multi

/-! ## Writes under the lock -/

/-- A write takes the lock, does what it would do alone, and gives the lock back. -/
theorem Write.code_true (w : Write) : w.code true = .acquire :: (w.code false ++ [.release]) := by
  cases w <;> simp [Write.code, Write.calls, Call.code, List.append_assoc]

theorem not_inside_writes (ws : List Write) :
    Multi.inside (ws.flatMap (Write.code true)) = false := by
  cases ws with
  | nil => rfl
  | cons w ws =>
    rw [List.flatMap_cons, Write.code_true]
    rfl

/-- The part of a write under the lock does not touch the lock. -/
theorem lock_notMem_code (w : Write) : .acquire ∉ w.code false ∧ .release ∉ w.code false := by
  cases w <;> simp [Write.code, Write.calls, Call.code, openFrame, closeFrame,
    fillHeader, newFrameHeader]

section
variable {P : PageSize} {C : Ctx} {tail : Slot} {log : List Entry} {w : World} {l l' : Local}

/-- Between two calls any thread may take over. -/
theorem Idle.switch (h : Idle P C tail log (w, l)) (hl : l'.load.opened = false) :
    Idle P C tail log (w, l') := by
  refine ⟨⟨h.state.live, h.state.log, rfl, rfl, h.state.extra, ?_⟩, h.cursor, hl⟩
  have := h.state.ring
  rwa [frontier_of_closed h.closed, ← frontier_of_closed (j := w.writer) hl] at this

/-- The lock is not part of what `Idle` speaks of. -/
theorem Idle.lock (h : Idle P C tail log (w, l)) (b : Bool) :
    Idle P C tail log ({ w with writer := { w.writer with writing := b } }, l) :=
  ⟨⟨h.state.live, h.state.log, rfl, rfl, h.state.extra, h.state.ring⟩,
    ⟨h.cursor.page, h.cursor.pageId, h.cursor.address, h.cursor.sequence⟩, h.closed⟩

end

/-! ## One write after the other -/

namespace Multi
variable {n : Nat} {P : PageSize} {programs : Fin n → List Write}

/-- The journal that writes leave which got the lock in this order. -/
def logOf (P : PageSize) (hist : List (Fin n × Write)) : List Entry :=
  layOut P ⟨1, pageHeaderSize⟩ 0 (hist.map fun x => (x.1.val, x.2.request))

/-- The writer between two calls, after these writes. -/
def After (P : PageSize) (hist : List (Fin n × Write)) (s : World × Local) : Prop :=
  Idle P (ctxOf P .empty) (endOf ⟨1, pageHeaderSize⟩ (logOf P hist)) (logOf P hist) s

/-- A thread that is not inside a write. -/
structure Waiting (S : Multi n) (t : Fin n) (rest : List Write) : Prop where
  code : S.code t = rest.flatMap (Write.code true)
  closed : (S.locals t).load.opened = false
  thread : (S.locals t).thread = t

/-- The lock is free, the writes `hist` are made and `rest` are left. -/
structure Free (P : PageSize) (programs : Fin n → List Write) (hist : List (Fin n × Write))
    (rest : Fin n → List Write) (S : Multi n) : Prop where
  programs : ∀ t, programs t = (hist.filter fun x => x.1 = t).map Prod.snd ++ rest t
  unlocked : S.world.writer.writing = false
  idle : ∃ l, After P hist (S.world, l)
  waiting : ∀ t, Waiting S t (rest t)

/-- Thread `t` has the lock and `c` left of its write `w`. -/
structure Held (P : PageSize) (programs : Fin n → List Write) (hist : List (Fin n × Write))
    (rest : Fin n → List Write) (t : Fin n) (w : Write) (c : List Stmt) (S : Multi n) : Prop where
  programs : ∀ u, programs u =
    ((hist ++ [(t, w)]).filter fun x => x.1 = u).map Prod.snd ++ rest u
  locked : S.world.writer.writing = true
  waiting : ∀ u, u ≠ t → Waiting S u (rest u)
  code : S.code t = c ++ .release :: (rest t).flatMap (Write.code true)
  quiet : .acquire ∉ c ∧ .release ∉ c
  safe : Safe P (ctxOf P .empty) (logOf P (hist ++ [(t, w)]))
    (fun s => After P (hist ++ [(t, w)]) s ∧ s.2.thread = t) c (S.world, S.locals t)

/-- **Where several threads stand.** -/
inductive Serial (P : PageSize) (programs : Fin n → List Write) (S : Multi n) : Prop where
  | free (hist : List (Fin n × Write)) (rest : Fin n → List Write) (h : Free P programs hist rest S)
  | held (hist : List (Fin n × Write)) (rest : Fin n → List Write) (t : Fin n) (w : Write)
      (c : List Stmt) (h : Held P programs hist rest t w c S)

variable {S S' : Multi n} {hist : List (Fin n × Write)} {rest : Fin n → List Write} {t u : Fin n}
variable {w : Write} {c : List Stmt}

theorem Waiting.of_ne {ws : List Write} (h : Waiting S u ws) (hu : u ≠ t) (x : World)
    (is : List Stmt) (l : Local) :
    Waiting ⟨x, Function.update S.code t is, Function.update S.locals t l⟩ u ws := by
  refine ⟨?_, ?_, ?_⟩
  · simp only [Function.update_of_ne hu]
    exact h.code
  · simp only [Function.update_of_ne hu]
    exact h.closed
  · simp only [Function.update_of_ne hu]
    exact h.thread

/-- A write of the programs is one the journal can take. -/
theorem ok_of_rest (hok : ∀ t, ∀ w ∈ programs t, w.Ok P) (h : Free P programs hist rest S) :
    ∀ w ∈ rest t, w.Ok P := fun w hw => hok t w (h.programs t ▸ List.mem_append_right _ hw)

/-- The write that gets the free lock runs undisturbed. -/
theorem Free.acquire (hok : ∀ t, ∀ w ∈ programs t, w.Ok P) (h : Free P programs hist rest S)
    {ws : List Write} (hr : rest t = w :: ws) :
    Held P programs hist (Function.update rest t ws) t w (w.code false)
      ⟨{ S.world with writer := { S.world.writer with writing := true } },
        Function.update S.code t (w.code false ++ .release :: ws.flatMap (Write.code true)),
        Function.update S.locals t (S.locals t)⟩ := by
  obtain ⟨l, hidle⟩ := h.idle
  have hw : w.Ok P := ok_of_rest hok h w (hr ▸ List.mem_cons_self)
  refine ⟨fun u => ?_, rfl, fun u hu => ?_, ?_, lock_notMem_code w, ?_⟩
  · rw [h.programs u, List.filter_append, List.map_append]
    by_cases hu : u = t
    · subst hu
      rw [hr, Function.update_self, List.filter_cons_of_pos (by simp), List.append_assoc]
      rfl
    · rw [Function.update_of_ne hu, List.filter_cons_of_neg (by simpa using Ne.symm hu)]
      simp
  · rw [Function.update_of_ne hu]
    exact (h.waiting u).of_ne hu _ _ _
  · simp only [Function.update_self]
  · simp only [Function.update_self]
    have hi := (hidle.switch (h.waiting t).closed).lock true
    have hlog : logOf P (hist ++ [(t, w)]) = logOf P hist ++ place P (S.locals t).thread
        (endOf ⟨1, pageHeaderSize⟩ (logOf P hist))
        ((ctxOf P .empty).seq + UInt64.ofNat (logOf P hist).length) w.request := by
      rw [logOf, List.map_append, (h.waiting t).thread]
      exact layOut_concat ..
    rw [← List.append_nil (w.code false)]
    refine hi.write hw rfl (hlog ▸ List.prefix_refl _) fun s' hi' _ hth => ?_
    rw [← endOf_append, ← hlog] at hi'
    have hpost : ∀ s'', Stable P (ctxOf P .empty) s' s'' →
        After P (hist ++ [(t, w)]) s'' ∧ s''.2.thread = t :=
      fun s'' hs => ⟨hi'.stable hs, by rw [hs.regs, hth, (h.waiting t).thread]⟩
    exact .nil (fun s'' hs => (hpost s'' hs).1.state.cut (List.prefix_refl _)) hpost

/-- The write that has ended gives the lock back. -/
theorem Held.release (h : Held P programs hist rest t w [] S) :
    Free P programs (hist ++ [(t, w)]) rest
      ⟨{ S.world with writer := { S.world.writer with writing := false } },
        Function.update S.code t ((rest t).flatMap (Write.code true)),
        Function.update S.locals t (S.locals t)⟩ := by
  obtain ⟨hi, hth⟩ := h.safe.post Stable.refl
  refine ⟨h.programs, rfl, ⟨_, hi.lock false⟩, fun u => ?_⟩
  by_cases hu : u = t
  · subst hu
    refine ⟨?_, ?_, ?_⟩ <;> simp only [Function.update_self]
    · exact hi.closed
    · exact hth
  · exact (h.waiting u hu).of_ne hu _ _ _

/-- The write that has the lock executes a statement. -/
theorem Held.step {i : Stmt} {push : List Stmt} {x : World} {l : Local}
    (h : Held P programs hist rest t w (i :: c) S)
    (he : i.exec P (S.world, S.locals t) = .next (x, l) push) :
    Held P programs hist rest t w (push ++ c)
      ⟨x, Function.update S.code t (push ++ c ++ .release :: (rest t).flatMap (Write.code true)),
        Function.update S.locals t l⟩ := by
  have hne : i ≠ .acquire := fun e => h.quiet.1 (e ▸ List.mem_cons_self)
  have hne' : i ≠ .release := fun e => h.quiet.2 (e ▸ List.mem_cons_self)
  obtain ⟨hsame, hrel, hacq⟩ := Stmt.exec_lock he
  refine ⟨h.programs, (hsame hne hne').trans h.locked, fun u hu =>
    (h.waiting u hu).of_ne hu _ _ _, ?_, ⟨fun hm => ?_, fun hm => ?_⟩, ?_⟩
  · simp only [Function.update_self]
  · rcases List.mem_append.mp hm with hm | hm
    · exact hne (hacq hm)
    · exact h.quiet.1 (List.mem_cons_of_mem i hm)
  · rcases List.mem_append.mp hm with hm | hm
    · exact hrel hm
    · exact h.quiet.2 (List.mem_cons_of_mem i hm)
  · simp only [Function.update_self]
    exact h.safe.step Stable.refl (.next he)

/-- What a thread outside a write can do while the lock is taken: try again. -/
theorem Waiting.spin {ws : List Write} (h : Waiting S u ws) (hw : S.world.writer.writing = true)
    (hs : Step P u S S') : S' = S := by
  cases hs with
  | @step i is push x l code exec =>
    cases ws with
    | nil =>
      rw [h.code] at code
      cases code
    | cons w ws =>
      have hc := h.code
      rw [List.flatMap_cons, Write.code_true, List.cons_append] at hc
      rw [hc] at code
      obtain ⟨rfl, rfl⟩ := List.cons.inj code
      cases exec.symm.trans (if_pos hw : Stmt.acquire.exec P (S.world, S.locals u) = _)
      have h1 : Function.update S.code u ([.acquire] ++ (w.code false ++ [.release] ++
          ws.flatMap (Write.code true))) = S.code := by
        rw [List.singleton_append, ← hc, Function.update_eq_self]
      rw [h1, Function.update_eq_self]

/-- **One step of some thread.** -/
theorem Serial.step (hok : ∀ t, ∀ w ∈ programs t, w.Ok P) (h : Serial P programs S)
    (hs : Step P u S S') : Serial P programs S' := by
  cases h with
  | free hist rest h =>
    cases hs with
    | @step i is push x l code exec =>
      have hc := (h.waiting u).code
      -- the lock is free: the statement can only be the exchange that takes it
      cases hr : rest u with
      | nil =>
        rw [hr] at hc
        rw [hc] at code
        cases code
      | cons w ws =>
        rw [hr, List.flatMap_cons, Write.code_true, List.cons_append] at hc
        rw [hc] at code
        obtain ⟨rfl, rfl⟩ := List.cons.inj code
        have hw : ¬ S.world.writer.writing = true := by rw [h.unlocked]; exact Bool.false_ne_true
        cases exec.symm.trans (if_neg hw : Stmt.acquire.exec P (S.world, S.locals u) = _)
        have hheld := h.acquire hok hr
        rw [List.nil_append, List.append_assoc]
        exact .held _ _ _ _ _ hheld
  | held hist rest t w c h =>
    -- the holder goes on with its write; every other thread spins
    by_cases hu : u = t
    · subst hu
      cases hs with
      | @step i is push x l code exec =>
        rw [h.code] at code
        cases c with
        | nil =>
          obtain ⟨rfl, rfl⟩ := List.cons.inj code
          cases exec
          exact .free _ _ h.release
        | cons j c =>
          rw [List.cons_append] at code
          obtain ⟨rfl, rfl⟩ := List.cons.inj code
          have := h.step exec
          rw [← List.append_assoc]
          exact .held _ _ _ _ _ this
    · rw [(h.waiting u hu).spin h.locked hs]
      exact .held hist rest t w c h

/-- **Every interleaving.** -/
theorem Serial.reaches (hok : ∀ t, ∀ w ∈ programs t, w.Ok P) (h : Serial P programs S)
    (hs : Reaches P S S') : Serial P programs S' := by
  induction hs with
  | refl => exact h
  | tail _ hs ih =>
    obtain ⟨u, hu⟩ := hs
    exact ih.step hok hu

theorem serial_start {s₀ : World × Local}
    (h₀ : Idle P (ctxOf P .empty) ⟨1, pageHeaderSize⟩ [] s₀) (hw : s₀.1.writer.writing = false) :
    Serial P programs (start programs s₀.1) :=
  .free [] programs ⟨fun _ => rfl, hw, ⟨s₀.2, h₀⟩, fun _ => ⟨rfl, rfl, rfl⟩⟩

/-! ## Ending -/

/-- A thread that runs while the others pause. -/
theorem reaches_of_runs {d : List Stmt × (World × Local)} {is : List Stmt}
    (h : Runs (Stmt.exec P) (c, (S.world, S.locals t)) d) (hc : S.code t = c ++ is) :
    Reaches P S ⟨d.2.1, Function.update S.code t (d.1 ++ is),
      Function.update S.locals t d.2.2⟩ := by
  induction h with
  | refl =>
    rw [← hc, Function.update_eq_self, Function.update_eq_self]
  | tail _ hs ih =>
    cases hs with
    | @next i js push s s' he =>
      refine ih.tail ⟨t, ?_⟩
      have := Step.step (P := P) (t := t) (i := i) (c := js ++ is)
        (S := ⟨s.1, Function.update S.code t (i :: js ++ is), Function.update S.locals t s.2⟩)
        (by simp only [Function.update_self]; rfl) (by simp only [Function.update_self]; exact he)
      simpa only [Function.update_idem, List.append_assoc] using this

/-- The write that has the lock ends. -/
theorem Held.ends (h : Held P programs hist rest t w c S) :
    ∃ T, Reaches P S T ∧ Free P programs (hist ++ [(t, w)]) rest T := by
  obtain ⟨⟨x, l⟩, hrun, hi, hth⟩ := h.safe.terminates Stable.refl
  have hreach := reaches_of_runs hrun h.code
  have hrel := Step.step (P := P) (t := t) (i := .release)
    (S := ⟨x, Function.update S.code t (.release :: (rest t).flatMap (Write.code true)),
      Function.update S.locals t l⟩) (Function.update_self ..) rfl
  refine ⟨_, hreach.tail ⟨t, hrel⟩, h.programs, rfl, ⟨l, hi.lock false⟩, fun u => ?_⟩
  by_cases hu : u = t
  · subst hu
    refine ⟨?_, ?_, ?_⟩ <;> simp only [Function.update_self]
    · rfl
    · exact hi.closed
    · exact hth
  · exact ((h.waiting u hu).of_ne hu _ _ _).of_ne hu _ _ _

/-- All threads can end, once the lock is free. -/
theorem Free.finishes (hok : ∀ t, ∀ w ∈ programs t, w.Ok P) (h : Free P programs hist rest S) :
    ∃ T, Reaches P S T ∧ T.Done := by
  induction hk : ∑ t, (rest t).length generalizing hist rest S with
  | zero =>
    refine ⟨S, .refl, fun t => ?_⟩
    have := Finset.sum_eq_zero_iff.mp hk t (Finset.mem_univ t)
    rw [(h.waiting t).code, List.eq_nil_of_length_eq_zero this]
    rfl
  | succ k ih =>
    obtain ⟨t, -, ht⟩ := Finset.exists_ne_zero_of_sum_ne_zero (by rw [hk]; exact Nat.succ_ne_zero k)
    obtain ⟨w, ws, hr⟩ := List.exists_cons_of_length_pos (Nat.pos_of_ne_zero ht)
    have hheld := h.acquire hok hr
    obtain ⟨T, hT, hfree⟩ := hheld.ends
    have hlen : ∀ u, (Function.update rest t ws u).length =
        Function.update (fun u => (rest u).length) t ws.length u := by
      intro u
      by_cases hu : u = t
      · subst hu
        simp
      · simp [Function.update_of_ne hu]
    have hsum : ∑ u, (Function.update rest t ws u).length = k := by
      simp only [hlen]
      rw [Finset.sum_update_of_mem (Finset.mem_univ t)]
      rw [← Finset.add_sum_erase _ _ (Finset.mem_univ t),
        hr, ← Finset.sdiff_singleton_eq_erase] at hk
      rw [List.length_cons] at hk
      omega
    obtain ⟨T', hT', hdone⟩ := ih hfree hsum
    refine ⟨T', .head ⟨t, ?_⟩ (hT.trans hT'), hdone⟩
    have hc := (h.waiting t).code
    rw [hr, List.flatMap_cons, Write.code_true, List.cons_append, List.append_assoc] at hc
    have hexec : Stmt.acquire.exec P (S.world, S.locals t) = .next
        ({ S.world with writer := { S.world.writer with writing := true } }, S.locals t) [] :=
      if_neg (by rw [h.unlocked]; exact Bool.false_ne_true)
    have hstep := Step.step hc hexec
    exact hstep

theorem Serial.finishes (hok : ∀ t, ∀ w ∈ programs t, w.Ok P) (h : Serial P programs S) :
    ∃ T, Reaches P S T ∧ T.Done := by
  cases h with
  | free hist rest h => exact h.finishes hok
  | held hist rest t w c h =>
    obtain ⟨T, hT, hfree⟩ := h.ends
    obtain ⟨T', hT', hdone⟩ := hfree.finishes hok
    exact ⟨T', hT.trans hT', hdone⟩

/-- Nothing is left once every thread has ended. -/
theorem Serial.done (h : Serial P programs S) (hd : S.Done) :
    ∃ hist, (∃ l, After P hist (S.world, l)) ∧
      ∀ t, programs t = (hist.filter fun x => x.1 = t).map Prod.snd := by
  cases h with
  | free hist rest h =>
    refine ⟨hist, h.idle, fun t => ?_⟩
    have hc := (h.waiting t).code
    rw [hd t] at hc
    cases hr : rest t with
    | nil => rw [h.programs t, hr, List.append_nil]
    | cons w ws =>
      rw [hr, List.flatMap_cons, Write.code_true] at hc
      cases hc
  | held hist rest t w c h =>
    have hc := h.code
    rw [hd t] at hc
    simp at hc

/-! ## The result -/

theorem Serial.inside_iff (h : Serial P programs S) (ht : inside (S.code t) = true) :
    ∃ hist rest w c, Held P programs hist rest t w c S := by
  cases h with
  | free hist rest h =>
    rw [(h.waiting t).code, not_inside_writes] at ht
    cases ht
  | held hist rest u w c h =>
    by_cases hu : t = u
    · subst hu
      exact ⟨hist, rest, w, c, h⟩
    · rw [(h.waiting t hu).code, not_inside_writes] at ht
      cases ht

theorem Waiting.progress {ws : List Write} (h : Waiting S u ws) {i : Stmt} {is : List Stmt}
    (hc : S.code u = i :: is) : ∃ s push, i.exec P (S.world, S.locals u) = .next s push := by
  rw [h.code] at hc
  cases ws with
  | nil => cases hc
  | cons w ws =>
    rw [List.flatMap_cons, Write.code_true, List.cons_append] at hc
    obtain ⟨rfl, -⟩ := List.cons.inj hc
    simp only [Stmt.exec]
    split <;> exact ⟨_, _, rfl⟩

theorem Serial.progress (h : Serial P programs S) {i : Stmt} {is : List Stmt}
    (hc : S.code t = i :: is) : ∃ s push, i.exec P (S.world, S.locals t) = .next s push := by
  cases h with
  | free hist rest h => exact (h.waiting t).progress hc
  | held hist rest u w c h =>
    by_cases hu : t = u
    · subst hu
      rw [h.code] at hc
      cases c with
      | nil =>
        obtain ⟨rfl, -⟩ := List.cons.inj hc
        exact ⟨_, _, rfl⟩
      | cons j c =>
        obtain ⟨rfl, -⟩ := List.cons.inj hc
        exact h.safe.progress Stable.refl
    · exact (h.waiting t hu).progress hc

theorem Serial.serialised (hok : ∀ t, ∀ w ∈ programs t, w.Ok P) (h : Serial P programs S) :
    Serialised P programs S := by
  refine ⟨fun t u ht hu => ?_, fun t u S' ht hs hne => ?_, fun t i is hc => ?_, h.finishes hok,
    fun hd t => ?_, fun hd e he => ?_, fun hd => ?_⟩
  · obtain ⟨hist, rest, w, c, hheld⟩ := h.inside_iff ht
    by_contra hne
    rw [(hheld.waiting u (Ne.symm hne)).code, not_inside_writes] at hu
    cases hu
  · obtain ⟨hist, rest, w, c, hheld⟩ := h.inside_iff ht
    rw [(hheld.waiting u hne).spin hheld.locked hs]
  · exact h.progress hc
  · obtain ⟨hist, ⟨l, hi⟩, hprog⟩ := h.done hd
    have hlog : S.world.log = logOf P hist := hi.state.log
    rw [hlog, logOf, dataOf_thread_layOut, hprog t]
    · rw [List.filter_map, List.map_map, List.map_map]
      simp only [Function.comp_def, Fin.val_inj]
    · intro r hr
      obtain ⟨⟨u, w⟩, hx, rfl⟩ := List.mem_map.mp hr
      refine (hok u w ?_).isData
      rw [hprog u]
      exact List.mem_map.mpr ⟨(u, w), List.mem_filter.mpr ⟨hx, by simp⟩, rfl⟩
  · obtain ⟨hist, ⟨l, hi⟩, -⟩ := h.done hd
    have hlog : S.world.log = logOf P hist := hi.state.log
    rw [hlog] at he
    obtain ⟨r, hr, hth, -⟩ := mem_layOut he
    obtain ⟨x, -, rfl⟩ := List.mem_map.mp hr
    rw [hth]
    exact x.1.isLt
  · obtain ⟨hist, ⟨l, hi⟩, -⟩ := h.done hd
    have hlog : S.world.log = logOf P hist := hi.state.log
    have hi' : Idle P (ctxOf P .empty) (endOf ⟨1, pageHeaderSize⟩ (logOf P hist)) S.world.log
        (S.world, l) := by
      rw [hlog]
      exact hi
    exact Idle.layout (s := (S.world, l)) hi'

/-- Once all have ended, each has its frames in the journal, in its order. -/
theorem Serial.written (hok : ∀ t, ∀ w ∈ programs t, w.Ok P) (h : Serial P programs S)
    (hd : S.Done) (t : Fin n) :
    ((programs t).map fun w => w.request.frame 0).Sublist (dataOf S.world.log) := by
  rw [← (h.serialised hok).frames hd t]
  exact (List.filter_sublist.filter _).map _

end Multi

/-- **Several threads serialise.**  Any number of threads run any programs of writes
on a writer constructed in an empty directory.  In every state that some
interleaving of their statements leads to, at most one is inside its write and
nobody disturbs it, no call fails and all can end; and once they have, the journal
holds each thread's frames in that thread's order, numbered without a gap. -/
theorem multi_writer_serialised (P : PageSize) (prefault : Bool) {n : Nat}
    (programs : Fin n → List Write) (hok : ∀ t, ∀ w ∈ programs t, w.Ok P) (s₀ : World × Local)
    (h₀ : Runs (Stmt.exec P) (construct .succeeds 0, fresh prefault) ([], s₀)) (S : Multi n)
    (hS : Multi.Reaches P (.start programs s₀.1) S) : Multi.Serialised P programs S := by
  obtain ⟨s, hs, hi⟩ := construct_returns P prefault
  cases Runs.final_unique h₀ hs
  have hw :=
    (runs_lock hs (by simp [construct, loadInitialPage]) (by simp [construct, loadInitialPage])).1
  exact ((Multi.serial_start hi hw).reaches hok hS).serialised hok

/-- Two threads with a write each, in a run in which both have had the lock. -/
theorem multi_writer_two :
    ∃ s₀ S, Runs (Stmt.exec pageSizeDefault) (construct .succeeds 0, fresh true) ([], s₀) ∧
      Multi.Reaches pageSizeDefault (.start ![[.mark 5 1 7], [.bytes 5 3 9 [4]]] s₀.1) S ∧
      S.Done ∧
      (∀ t : Fin 2, ((dataOf (S.world.log.filter fun e => e.thread = t.val)).map
        fun f => (f.msgType, f.payload)) = ![[(7, [])], [(9, [4])]] t) ∧
      Multi.Serialised pageSizeDefault ![[.mark 5 1 7], [.bytes 5 3 9 [4]]] S := by
  obtain ⟨s₀, h₀, -⟩ := construct_returns pageSizeDefault true
  have all := fun S hS => multi_writer_serialised pageSizeDefault true
    ![[.mark 5 1 7], [.bytes 5 3 9 [4]]] (by decide) s₀ h₀ S hS
  obtain ⟨S, hS, hdone⟩ := (all _ .refl).finishes
  refine ⟨s₀, S, h₀, hS, hdone, fun t => ?_, all S hS⟩
  rw [(all S hS).frames hdone t]
  revert t
  exact Fin.forall_fin_two.mpr ⟨rfl, rfl⟩

end Revoq
