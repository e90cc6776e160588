import Revoq.Binding
import Revoq.Crew

/-! # Reading from Python beside a live journal

`read` and `__next__` of the Python `JournalReader` in `revoq_py.cpp`, on a reader that has
joined one journal.  A call looks at the journal several times over (`is_data_available`
in a loop until a deadline, once more behind the loop, then `tryCurrentFrame`), copies the
frame, and advances; others may write between any two of these.

Whether the deadline is over is told by the clock, so it is an argument of the step.
`timeout_ms` counts only in that it is zero or not.
-/
namespace Revoq
open ByteImage StmtMachine SharedLog

namespace PyReader

/-- The calls. -/
inductive Call where
  /-- `read`; `timed` if `timeout_ms` is not zero. -/
  | read (timed : Bool)
  /-- `__next__`. -/
  | next
deriving DecidableEq

/-- How a call ends: it returns a snapshot or `None`, or does not return. -/
inductive Outcome where
  | frame (snap : FrameSnap)
  | nothing
  | stopIteration
  /-- The move behind the frame raised, or the interpreter died in it. -/
  | halted (how : Halt)
deriving DecidableEq

/-- Where a call is. -/
inductive Place where
  | idle
  /-- `if (!r.isDataAvailable()) return py::none()`. -/
  | poll
  /-- `while (!r.isDataAvailable())`. -/
  | spin
  /-- `if (now() >= deadline) break`. -/
  | clock
  /-- `ready = r.isDataAvailable()`. -/
  | settle
  /-- `if (!r.isDataAvailable()) throw py::stop_iteration()`. -/
  | test
  /-- `tryCurrentFrame` of `snap_and_advance`. -/
  | look
  /-- `FrameSnap::from(*current)`. -/
  | copy (current : FrameView)
  | advance (current : FrameView) (snap : FrameSnap)
deriving DecidableEq

/-- The first statement of a call. -/
def Call.enter : Call → Place
  | .read true => .spin
  | .read false => .poll
  | .next => .test

/-- `isDataAvailable` of a reader with one journal. -/
def isDataAvailable (r : Reader) (d : Disk) : Bool :=
  hasData (r.current d).frameLength (r.current d).msgType

/-- The next statement of a call; `late` if the deadline is over. -/
def step (P : PageSize) (late : Bool) (d : Disk) (r : Reader) :
    Place → Disk × Reader × Place × Option Outcome
  | .idle => (d, r, .idle, none)
  | .poll => if isDataAvailable r d then (d, r, .look, none) else (d, r, .idle, some .nothing)
  | .spin => (d, r, if isDataAvailable r d then .settle else .clock, none)
  | .clock => (d, r, if late then .settle else .spin, none)
  | .settle => if isDataAvailable r d then (d, r, .look, none) else (d, r, .idle, some .nothing)
  | .test => if isDataAvailable r d then (d, r, .look, none) else (d, r, .idle, some .stopIteration)
  | .look =>
      match r.tryCurrentFrame d with
      | none => (d, r, .idle, some .stopIteration)
      | some v => (d, r, .copy v, none)
  -- `getDataLength` loads the length once more
  | .copy v => (d, r, .advance v (.from (r.frame (r.current d) d)), none)
  | .advance v snap =>
      match r.advance P v d with
      | .error how => (d, r, .idle, some (.halted how))
      | .ok (d', r') => (d', r', .idle, some (.frame snap))

/-- How many more statements a call has, once its deadline is over. -/
def Place.left : Place → Nat
  | .idle => 0
  | .advance .. => 1
  | .copy _ => 2
  | .look => 3
  | .poll | .settle | .test => 4
  | .clock => 5
  | .spin => 6

end PyReader

/-- A journal that is being written, and a Python reader. -/
structure PyReader (σ : Type) where
  feed : σ
  reader : Reader
  call : PyReader.Call := .next
  place : PyReader.Place := .idle

namespace PyReader
variable {σ : Type}

/-- The reader's next statement. -/
def after (F : Feed σ) (P : PageSize) (late : Bool) (S : PyReader σ) :
    PyReader σ × Option Outcome :=
  let x := step P late (F.world S.feed).disk S.reader S.place
  ({ S with feed := F.put S.feed x.1, reader := x.2.1, place := x.2.2.1 }, x.2.2.2)

/-- **One step**: of the writing side, of Python, which enters a call, or of that call. -/
inductive Step (F : Feed σ) (P : PageSize) :
    PyReader σ → List (Call × Outcome) → PyReader σ → Prop where
  | write {S : PyReader σ} {s : σ} (h : F.next S.feed s) : Step F P S [] { S with feed := s }
  | enter {S : PyReader σ} (c : Call) (h : S.place = .idle) :
      Step F P S [] { S with call := c, place := c.enter }
  | own {S : PyReader σ} (late : Bool) (h : S.place ≠ .idle) :
      Step F P S ((S.after F P late).2.toList.map fun o => (S.call, o)) (S.after F P late).1

/-- The snapshots that were returned. -/
def frames (es : List (Call × Outcome)) : List FrameSnap :=
  es.filterMap fun e => match e.2 with
    | .frame snap => some snap
    | .nothing | .stopIteration | .halted _ => none

/-- **What a Python reader can rely on.** -/
structure ReadsInTurn (F : Feed σ) (P : PageSize) (es : List (Call × Outcome))
    (S : PyReader σ) : Prop where
  /-- The snapshots returned are those of the first frames committed, each once. -/
  frames : frames es =
    ((F.world S.feed).log.take (frames es).length).map fun e => .from e.frame
  /-- No call fails, and `read` does not end an iteration. -/
  quiet : ∀ c o, (c, o) ∈ es →
    (∀ how, o ≠ .halted how) ∧ ∀ timed, c = .read timed → o ≠ .stopIteration
  /-- A call that returns no frame has returned all that are committed. -/
  dry : ∀ late o, S.place ≠ .idle → (S.after F P late).2 = some o → (∀ snap, o ≠ .frame snap) →
    (PyReader.frames es).length = (F.world S.feed).log.length
  /-- A call ends: it has one statement less to go, unless the clock sends it round again. -/
  ends : ∀ late, S.place ≠ .idle → (S.place = .clock → late = true) →
    (S.after F P late).1.place.left < S.place.left

/-! ## One step -/

section
variable {F : Feed σ} {P : PageSize} {I : σ → Prop} {S S' : PyReader σ}
  {es fs : List (Call × Outcome)}
variable {r : Reader} {d : Disk} {log log' : List Entry} {n : Nat} {c : Call}
  {p : Place} {o : Outcome}

theorem isDataAvailable_eq (r : Reader) (d : Disk) :
    isDataAvailable r d = (r.tryCurrentFrame d).isSome := by
  rw [isDataAvailable, Reader.tryCurrentFrame]
  split
  · rename_i h
    rw [h]
    rfl
  · rename_i h
    exact Bool.eq_false_iff.mpr h

theorem current_of_shown {v : FrameView} (h : r.tryCurrentFrame d = some v) : r.current d = v := by
  rw [Reader.tryCurrentFrame] at h
  split at h
  · exact Option.some.inj h
  · cases h

/-- Each statement of a call brings its end nearer, but for the clock before the deadline. -/
theorem step_left {late : Bool} (hidle : p ≠ .idle) (hclock : p = .clock → late = true) :
    (step P late d r p).2.2.1.left < p.left := by
  cases p with
  | idle => exact absurd rfl hidle
  | clock =>
    rw [hclock rfl]
    exact Nat.lt_succ_self 4
  | spin =>
    simp only [step]
    split <;> decide
  | copy => exact Nat.lt_succ_self 1
  | poll | settle | test | look | advance =>
    simp only [step]
    split <;> simp [Place.left]

/-- A call is over when it has an outcome. -/
theorem step_idle_iff {late : Bool} (hidle : p ≠ .idle) :
    (step P late d r p).2.2.1 = .idle ↔ (step P late d r p).2.2.2.isSome := by
  cases p with
  | idle => exact absurd rfl hidle
  | copy => exact ⟨nofun, nofun⟩
  | clock => exact ⟨fun h => (by simp only [step] at h; split at h <;> cases h), nofun⟩
  | spin => exact ⟨fun h => (by simp only [step] at h; split at h <;> cases h), nofun⟩
  | poll | settle | test | look | advance =>
    simp only [step]
    split <;> simp

/-- What a call knows of the log at a place, with `n` frames returned so far. -/
def Place.Knows (c : Call) (log : List Entry) (n : Nat) : Place → Prop
  | .test => c = .next
  | .look => n < log.length
  | .copy v => ∃ e, log[n]? = some e ∧ v = viewOf e.frame
  | .advance v snap => ∃ e, log[n]? = some e ∧ v = viewOf e.frame ∧ snap = .from e.frame
  | .idle | .poll | .spin | .clock | .settle => True

theorem Place.Knows.mono (h : p.Knows c log n) (hlog : log <+: log') : p.Knows c log' n := by
  have hget : ∀ {e}, log[n]? = some e → log'[n]? = some e := by
    intro e he
    obtain ⟨ext, rfl⟩ := hlog
    rw [List.getElem?_append_left (List.getElem?_eq_some_iff.mp he).1]
    exact he
  cases p with
  | look => exact Nat.lt_of_lt_of_le h hlog.length_le
  | copy v =>
    obtain ⟨e, he, hv⟩ := h
    exact ⟨e, hget he, hv⟩
  | advance v snap =>
    obtain ⟨e, he, hv⟩ := h
    exact ⟨e, hget he, hv⟩
  | test => exact h
  | _ => trivial

/-- **Where a Python reader stands.** -/
structure Stands (F : Feed σ) (I : σ → Prop) (es : List (Call × Outcome))
    (S : PyReader σ) : Prop where
  feed : I S.feed
  taken : frames es = ((F.world S.feed).log.take (frames es).length).map fun e => .from e.frame
  reads : Reads (F.world S.feed).log S.reader none
    (((F.world S.feed).log.take (frames es).length).map Entry.frame)
  place : S.place.Knows S.call (F.world S.feed).log (frames es).length
  quiet : ∀ c o, (c, o) ∈ es →
    (∀ how, o ≠ .halted how) ∧ ∀ timed, c = .read timed → o ≠ .stopIteration

theorem Stands.length_le (h : Stands F I es S) :
    (frames es).length ≤ (F.world S.feed).log.length := by
  have hlen := congrArg List.length h.taken
  rw [List.length_map, List.length_take] at hlen
  omega

/-- The log grows. -/
theorem Stands.write {s : σ} (h : Stands F I es S) (hs : I s)
    (hlog : (F.world S.feed).log <+: (F.world s).log) : Stands F I es { S with feed := s } := by
  have htake : (F.world s).log.take (frames es).length = (F.world S.feed).log.take
      (frames es).length := by
    obtain ⟨ext, hext⟩ := hlog
    rw [← hext, List.take_append_of_le_length h.length_le]
  refine ⟨hs, ?_, ?_, h.place.mono hlog, h.quiet⟩
  · rw [htake]
    exact h.taken
  · rw [htake]
    exact h.reads.mono hlog

/-- The call goes on. -/
theorem Stands.goes (h : Stands F I es S)
    (hp : p.Knows S.call (F.world S.feed).log (frames es).length) :
    Stands F I es { S with place := p } := ⟨h.feed, h.taken, h.reads, hp, h.quiet⟩

/-- The call ends without a frame. -/
theorem Stands.quits (h : Stands F I es S) (hframe : ∀ snap, o ≠ .frame snap)
    (hhalted : ∀ how, o ≠ .halted how)
    (hstop : ∀ timed, S.call = .read timed → o ≠ .stopIteration) :
    Stands F I (es ++ [(S.call, o)]) { S with place := .idle } := by
  have hframes : frames (es ++ [(S.call, o)]) = frames es := by
    rw [frames, List.filterMap_append]
    cases o with
    | frame snap => exact absurd rfl (hframe snap)
    | _ => exact List.append_nil _
  refine ⟨h.feed, ?_, ?_, trivial, fun c o' hmem => ?_⟩
  · rw [hframes]
    exact h.taken
  · rw [hframes]
    exact h.reads
  · rcases List.mem_append.mp hmem with hmem | hmem
    · exact h.quiet c o' hmem
    · obtain ⟨rfl, rfl⟩ := Prod.mk.inj (List.mem_singleton.mp hmem)
      exact ⟨hhalted, hstop⟩

/-- The call returns the next frame. -/
theorem Stands.returns {e : Entry} {r' : Reader} (h : Stands F I es S)
    (he : (F.world S.feed).log[(frames es).length]? = some e)
    (hreads : Reads (F.world S.feed).log r' none
      (((F.world S.feed).log.take (frames es).length).map Entry.frame ++ [e.frame])) :
    Stands F I (es ++ [(S.call, .frame (.from e.frame))])
      { S with reader := r', place := .idle } := by
  have hframes : frames (es ++ [(S.call, .frame (.from e.frame))]) = frames es ++
      [.from e.frame] := by
    rw [frames, List.filterMap_append]
    rfl
  have htake : (F.world S.feed).log.take ((frames es).length + 1) =
      (F.world S.feed).log.take (frames es).length ++ [e] := by
    rw [List.take_add_one, he]
    rfl
  refine ⟨h.feed, ?_, ?_, trivial, fun c o' hmem => ?_⟩
  · rw [hframes, List.length_append, List.length_singleton]
    show _ = ((F.world S.feed).log.take _).map _
    rw [htake, List.map_append, ← h.taken]
    rfl
  · rw [hframes, List.length_append, List.length_singleton]
    show Reads (F.world S.feed).log r' none (((F.world S.feed).log.take _).map _)
    rw [htake, List.map_append]
    exact hreads
  · rcases List.mem_append.mp hmem with hmem | hmem
    · exact h.quiet c o' hmem
    · obtain ⟨rfl, rfl⟩ := Prod.mk.inj (List.mem_singleton.mp hmem)
      exact ⟨fun _ => nofun, fun _ _ => nofun⟩

/-- What a statement of a call may come to. -/
structure Turn (F : Feed σ) (I : σ → Prop) (es : List (Call × Outcome)) (S : PyReader σ)
    (x : PyReader σ × Option Outcome) : Prop where
  feed : x.1.feed = S.feed
  stands : Stands F I (es ++ x.2.toList.map fun o => (S.call, o)) x.1
  dry : ∀ o, x.2 = some o → (∀ snap, o ≠ .frame snap) →
    (frames es).length = (F.world S.feed).log.length

theorem Stands.turn_goes (h : Stands F I es S)
    (hp : p.Knows S.call (F.world S.feed).log (frames es).length) :
    Turn F I es S ({ S with place := p }, none) := by
  refine ⟨rfl, ?_, fun o ho => by cases ho⟩
  show Stands F I (es ++ []) { S with place := p }
  rw [List.append_nil]
  exact h.goes hp

theorem Stands.turn_quits (h : Stands F I es S) (hframe : ∀ snap, o ≠ .frame snap)
    (hhalted : ∀ how, o ≠ .halted how) (hstop : ∀ timed, S.call = .read timed → o ≠ .stopIteration)
    (hall : (frames es).length = (F.world S.feed).log.length) :
    Turn F I es S ({ S with place := .idle }, some o) :=
  ⟨rfl, h.quits hframe hhalted hstop, fun _ _ _ => hall⟩

/-- **A statement of a call.** -/
theorem Stands.own (hF : F.Grows P I) (h : Stands F I es S) (late : Bool)
    (hidle : S.place ≠ .idle) :
    Turn F I es S (S.after F P late) := by
  obtain ⟨tail, hread, -⟩ := (hF.followable _ h.feed).readable
  have hlen : (((F.world S.feed).log.take (frames es).length).map Entry.frame).length =
      (frames es).length := by
    rw [List.length_map, List.length_take, Nat.min_eq_left h.length_le]
  have hnext := h.reads.next hread
  rw [hlen] at hnext
  have hplace := h.place
  rcases hnext with ⟨e, he, hlook, -, hframe, r', hadv, hreads⟩ | ⟨hall, hlook, -⟩
  · -- there is a next frame
    have hlt := (List.getElem?_eq_some_iff.mp he).1
    have havailable : isDataAvailable S.reader (F.world S.feed).disk = true := by
      rw [isDataAvailable_eq, hlook]
      rfl
    have hcurrent := current_of_shown hlook
    cases hp : S.place with
    | idle => exact absurd hp hidle
    | poll | settle | test | spin =>
      simp only [after, step, hp, havailable, if_true, hF.put]
      exact h.turn_goes (by first | exact hlt | trivial)
    | clock =>
      simp only [after, step, hp, hF.put]
      split <;> exact h.turn_goes trivial
    | look =>
      simp only [after, step, hp, hlook, hF.put]
      exact h.turn_goes ⟨e, he, rfl⟩
    | copy v =>
      rw [hp] at hplace
      obtain ⟨e', he', rfl⟩ := hplace
      cases he.symm.trans he'
      simp only [after, step, hp, hcurrent, hframe, hF.put]
      exact h.turn_goes ⟨e, he, rfl, rfl⟩
    | advance v snap =>
      rw [hp] at hplace
      obtain ⟨e', he', rfl, rfl⟩ := hplace
      cases he.symm.trans he'
      simp only [after, step, hp, hadv, hF.put]
      exact ⟨rfl, h.returns he hreads, fun o ho hno => absurd (Option.some.inj ho).symm (hno _)⟩
  · -- all frames are returned
    have hlength : (frames es).length = (F.world S.feed).log.length := by
      have := congrArg List.length hall
      rwa [hlen, List.length_map] at this
    have havailable : isDataAvailable S.reader (F.world S.feed).disk = false := by
      rw [isDataAvailable_eq, hlook]
      rfl
    have hnone : ∀ e, (F.world S.feed).log[(frames es).length]? ≠ some e := by
      intro e he
      have := (List.getElem?_eq_some_iff.mp he).1
      omega
    cases hp : S.place with
    | idle => exact absurd hp hidle
    | poll | settle =>
      simp only [after, step, hp, havailable, Bool.false_eq_true, if_false, hF.put]
      exact h.turn_quits (fun _ => nofun) (fun _ => nofun) (fun _ _ => nofun) hlength
    | test =>
      rw [hp] at hplace
      simp only [after, step, hp, havailable, Bool.false_eq_true, if_false, hF.put]
      refine h.turn_quits (fun _ => nofun) (fun _ => nofun) (fun timed hc => ?_) hlength
      cases hc.symm.trans hplace
    | spin =>
      simp only [after, step, hp, havailable, Bool.false_eq_true, if_false, hF.put]
      exact h.turn_goes trivial
    | clock =>
      simp only [after, step, hp, hF.put]
      split <;> exact h.turn_goes trivial
    | look =>
      rw [hp] at hplace
      exact absurd hlength (Nat.ne_of_lt hplace)
    | copy v =>
      rw [hp] at hplace
      obtain ⟨e, he, -⟩ := hplace
      exact absurd he (hnone e)
    | advance v snap =>
      rw [hp] at hplace
      obtain ⟨e, he, -⟩ := hplace
      exact absurd he (hnone e)

/-! ## Runs -/

theorem Call.enter_knows (c : Call) : c.enter.Knows c log n := by
  cases c with
  | read timed => cases timed <;> trivial
  | next => rfl

/-- **One step**, of whomever. -/
theorem Stands.step (hF : F.Grows P I) (h : Stands F I es S) (hs : Step F P S fs S') :
    Stands F I (es ++ fs) S' := by
  cases hs with
  | write hnext =>
    obtain ⟨hs, hlog⟩ := hF.next _ _ h.feed hnext
    rw [List.append_nil]
    exact h.write hs hlog
  | enter c =>
    rw [List.append_nil]
    exact ⟨h.feed, h.taken, h.reads, c.enter_knows, h.quiet⟩
  | own late hidle => exact (h.own hF late hidle).stands

/-- **Every run.** -/
theorem Stands.trace (hF : F.Grows P I) (h : Stands F I [] S)
    (hs : Observed.Trace (Step F P) S es S') :
    Stands F I es S' := by
  induction hs with
  | nil => exact h
  | snoc _ hs ih => exact ih.step hF hs

theorem Stands.readsInTurn (hF : F.Grows P I) (h : Stands F I es S) : ReadsInTurn F P es S where
  frames := h.taken
  quiet := h.quiet
  dry late o hidle ho hno := (h.own hF late hidle).dry o ho hno
  ends _ hidle hclock := step_left hidle hclock

/-! ## Calls that are left alone -/

/-- The writing side goes on, and Python does nothing. -/
theorem writes (S : PyReader σ) {u : σ} (h : Relation.ReflTransGen F.next S.feed u) :
    Observed.Trace (Step F P) S [] { S with feed := u } := by
  induction h with
  | refl => exact .nil
  | tail _ hnext ih => exact ih.snoc (.write hnext)

/-- **A call ends**, and without a frame only if all are returned. -/
theorem Stands.call_ends (hF : F.Grows P I) (h : Stands F I es S) (hidle : S.place ≠ .idle) :
    ∃ o S', Observed.Trace (Step F P) S [(S.call, o)] S' ∧ S'.place = .idle ∧ S'.feed = S.feed ∧
      Stands F I (es ++ [(S.call, o)]) S' ∧
      ((∀ snap, o ≠ .frame snap) → (frames es).length = (F.world S.feed).log.length) := by
  induction hn : S.place.left using Nat.strong_induction_on generalizing S with
  | _ n ih =>
    have hturn := h.own hF true hidle
    have hleft : (S.after F P true).1.place.left < n := hn ▸ step_left hidle fun _ => rfl
    have hiff : (S.after F P true).1.place = .idle ↔ (S.after F P true).2.isSome :=
      step_idle_iff hidle
    have hstep : Step F P S ((S.after F P true).2.toList.map fun o => (S.call, o))
        (S.after F P true).1 := .own true hidle
    have hstands := hturn.stands
    cases hx : (S.after F P true).2 with
    | some o =>
      rw [hx] at hstep hstands hiff
      exact ⟨o, _, .single hstep, hiff.mpr rfl, hturn.feed, hstands, hturn.dry o hx⟩
    | none =>
      rw [hx] at hstep hstands hiff
      rw [show es ++ Option.none.toList.map (fun o : Outcome => (S.call, o)) = es from
        List.append_nil es] at hstands
      obtain ⟨o, S', htrace, hend, hfeed, hafter, hdry⟩ :=
        ih _ hleft hstands (fun hi => (by cases hiff.mp hi)) rfl
      rw [hturn.feed] at hfeed hdry
      exact ⟨o, S', (Observed.Trace.single hstep).trans htrace, hend, hfeed, hafter, hdry⟩

/-- **Left alone, Python is given all that is committed.** -/
theorem Stands.catchesUp (hF : F.Grows P I) (h : Stands F I es S) (hidle : S.place = .idle) :
    ∃ fs S', Observed.Trace (Step F P) S fs S' ∧ S'.feed = S.feed ∧
      frames (es ++ fs) = (F.world S.feed).log.map fun e => .from e.frame := by
  obtain ⟨n, hn⟩ := Nat.exists_eq_add_of_le h.length_le
  induction n generalizing es S with
  | zero =>
    refine ⟨[], S, .nil, rfl, ?_⟩
    have hall : (F.world S.feed).log.take (frames es).length = (F.world S.feed).log :=
      List.take_of_length_le (Nat.le_of_eq hn)
    rw [List.append_nil, h.taken, hall]
  | succ n ih =>
    have henter : Step F P S [] { S with call := .next, place := .test } := .enter .next hidle
    have hentered := h.step hF henter
    rw [List.append_nil] at hentered
    obtain ⟨o, S₁, hcall, hidle₁, hfeed₁, h₁, hdry⟩ := hentered.call_ends hF nofun
    cases o with
    | frame snap =>
      have hframes : frames (es ++ [(.next, .frame snap)]) = frames es ++ [snap] :=
        List.filterMap_append
      obtain ⟨fs, S', htrace, hfeed, hall⟩ := ih h₁ hidle₁ (by
        rw [hfeed₁, hframes, List.length_append, List.length_singleton]
        exact hn.trans (by omega))
      rw [hfeed₁] at hfeed hall
      rw [List.append_assoc] at hall
      exact ⟨_, S', (Observed.Trace.single henter).trans (hcall.trans htrace), hfeed, hall⟩
    | nothing | stopIteration | halted how =>
      have hlength := (hdry nofun).trans hn
      omega

end

end PyReader

/-- A reader that joins from time 0 has all frames before it. -/
theorem PyReader.stands_joined {σ : Type} {F : Feed σ} {P : PageSize} {I : σ → Prop} {s : σ}
    (hF : F.Grows P I) (hs : I s) {fuel : Nat} {prefault : Bool} {d : Disk} {r : Reader}
    (hjoin : Reader.join P fuel prefault 0 (F.world s).disk = .ok (d, r)) :
    PyReader.Stands F I [] { feed := F.put s d, reader := r } := by
  cases fuel with
  | zero => exact absurd hjoin Reader.join_zero
  | succ fuel =>
    obtain ⟨r', hjoin', hreads⟩ := (hF.followable _ hs).join fuel prefault
    cases hjoin.symm.trans hjoin'
    rw [hF.put]
    exact ⟨hs, rfl, hreads, trivial, fun c o hmem => by cases hmem⟩

/-- What holds along the steps of a feed. -/
theorem Feed.Grows.reaches {σ : Type} {F : Feed σ} {P : PageSize} {I : σ → Prop} {s s' : σ}
    (hF : F.Grows P I) (hs : I s) (h : Relation.ReflTransGen F.next s s') : I s' := by
  induction h with
  | refl => exact hs
  | tail _ hnext ih => exact (hF.next _ _ ih hnext).1

/-- **Python beside threads and a warmer.**  A Python reader joins at any moment while
several threads write and the warmer works.  Whatever its calls, and however their
statements fall between those of the others, it is given every committed frame once, in
order, is told that there is none only when it has been given all, and no call throws,
but for `__next__` to end an iteration. -/
theorem python_reads_in_turn (P : PageSize) (writerPrefault : Bool) (warmupPages : Nat)
    (hwarm : warmupPages ≤ ringSize) {n : Nat} (programs : Fin n → List Write)
    (hok : ∀ t, ∀ w ∈ programs t, w.Ok P) (htime : ∀ t, ∀ w ∈ programs t, w.Timely)
    (ms : List Mover) (S₀ : Tandem)
    (h₀ : (Tandem.start ⟨writerPrefault, warmupPages, []⟩).play P ms = some S₀)
    (ht₀ : (Tandem.start ⟨writerPrefault, warmupPages, []⟩).TimelyRun P ms)
    (hctor : S₀.code = []) (S : Crew n)
    (hS : Relation.ReflTransGen (Crew.feed P).next (.start programs S₀) S) (fuel : Nat)
    (prefault : Bool) (d : Disk) (r : Reader)
    (hjoin : Reader.join P fuel prefault 0 S.threads.world.disk = .ok (d, r))
    (es : List (PyReader.Call × PyReader.Outcome)) (A : PyReader (Crew n))
    (h : Observed.Trace (PyReader.Step (Crew.feed P) P)
      { feed := (Crew.feed P).put S d, reader := r } es A) :
    PyReader.ReadsInTurn (Crew.feed P) P es A := by
  have hj : Job.Ok P ⟨writerPrefault, warmupPages, []⟩ := ⟨hwarm, fun w hw => by cases hw⟩
  have hF := Crew.feed_grows hok htime
  have hstands :=
    (Tandem.Follows.stands programs ((Tandem.follows_start P _).play h₀ ht₀).1 hj rfl hctor).1
  exact ((PyReader.stands_joined hF (hF.reaches hstands hS) hjoin).trace hF h).readsInTurn hF

/-- Python joins before either of two threads has started, and is given what both write. -/
theorem python_reads_in_turn_two :
    ∃ k S₀ r es A, (Tandem.start ⟨true, 1, []⟩).play pageSizeDefault
        (List.replicate k .writer) = some S₀ ∧
      Reader.join pageSizeDefault 1 false 0 S₀.world.disk = .ok (S₀.world.disk, r) ∧
      Observed.Trace (PyReader.Step (Crew.feed pageSizeDefault) pageSizeDefault)
        { feed := (Crew.feed pageSizeDefault).put
            (.start ![[.mark 5 1 7], [.bytes 5 3 9 [4]]] S₀) S₀.world.disk
          reader := r } es A ∧
      PyReader.frames es = A.feed.threads.world.log.map (fun e => .from e.frame) ∧
      [(7, []), (9, [4])] ⊆
        (dataOf A.feed.threads.world.log).map (fun f => (f.msgType, f.payload)) ∧
      PyReader.ReadsInTurn (Crew.feed pageSizeDefault) pageSizeDefault es A := by
  let programs : Fin 2 → List Write := ![[.mark 5 1 7], [.bytes 5 3 9 [4]]]
  have hok : ∀ t, ∀ w ∈ programs t, w.Ok pageSizeDefault := by decide
  have htime : ∀ t, ∀ w ∈ programs t, w.Timely := by decide
  let j : Job := ⟨true, 1, []⟩
  have hj : j.Ok pageSizeDefault := by decide
  obtain ⟨k, S₀, h₀, hctor, hthread⟩ := Tandem.constructed hj
  have ht₀ := Tandem.timelyRun_writer (P := pageSizeDefault) (S := Tandem.start j) (fun _ => id) k
  have hF := Crew.feed_grows hok htime
  have hstands := (Tandem.Follows.stands programs
    ((Tandem.follows_start pageSizeDefault j).play h₀ ht₀).1 hj rfl hctor).1
  obtain ⟨r, hjoin, -⟩ := (hF.followable _ hstands).join 0 false
  obtain ⟨T, hT, hdone⟩ := hstands.serial.finishes hok
  have hmoves := Crew.feed_threads (S := Crew.start programs S₀)
    (by rw [Crew.start, hthread]; exact fun _ => id) hT
  have hwritten := PyReader.writes (P := pageSizeDefault) ⟨_, r, .next, .idle⟩ hmoves
  have hjoined := (PyReader.stands_joined hF hstands hjoin).trace hF hwritten
  obtain ⟨es, A, htrace, hfeed, hall⟩ := hjoined.catchesUp hF rfl
  have hrun := hwritten.trans htrace
  have hsub := fun t => (((hstands.serial.reaches hok hT).written hok hdone t).map
    fun f => (f.msgType, f.payload)).subset
  refine ⟨k, S₀, r, es, A, h₀, hjoin, hrun, ?_, ?_, python_reads_in_turn pageSizeDefault true 1
    (by decide) programs hok htime _ S₀ h₀ ht₀ hctor _ .refl 1 false _ r hjoin es A hrun⟩
  · rw [hfeed]
    exact hall
  · rw [hfeed]
    exact List.cons_subset.mpr ⟨hsub 0 (by decide),
      List.cons_subset.mpr ⟨hsub 1 (by decide), List.nil_subset _⟩⟩

end Revoq
