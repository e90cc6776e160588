import Mathlib.Logic.Relation

/-! # Statement machines under interference

A thread is a list of statements still to be executed over a state `σ` it shares
with others.  Executing a statement either goes on, possibly putting further
statements in front of the rest (a branch or a loop body), or leaves by an
exception, or kills the process.

`Safely R I Q code s` is total correctness of such a thread when others may take
`R`-steps between any two of its statements: every state on the way satisfies
`I`, no statement throws or faults, and the thread ends in a state satisfying
`Q`.  Since `I` is demanded between any two statements, it is also what a crash
at an arbitrary point leaves behind.
-/
namespace StmtMachine

/-- What executing one statement does. -/
inductive Outcome (σ ι : Type) where
  /-- Goes on, with `push` in front of the remaining statements. -/
  | next (s : σ) (push : List ι)
  /-- Leaves the running call by an exception. -/
  | throw (s : σ)
  /-- The process dies: an access outside a mapping, or to a read-only one. -/
  | fault (s : σ)

variable {σ ι : Type}

/-- One step of a thread that goes on. -/
inductive Step (exec : ι → σ → Outcome σ ι) : List ι × σ → List ι × σ → Prop where
  | next {i : ι} {is push : List ι} {s s' : σ} (h : exec i s = .next s' push) :
      Step exec (i :: is, s) (push ++ is, s')

/-- The thread gets from one configuration to another without interference. -/
abbrev Runs (exec : ι → σ → Outcome σ ι) : List ι × σ → List ι × σ → Prop :=
  Relation.ReflTransGen (Step exec)

variable {exec : ι → σ → Outcome σ ι} {R : σ → σ → Prop} {I Q M : σ → Prop}

theorem Step.deterministic {c d d' : List ι × σ} (h : Step exec c d) (h' : Step exec c d') :
    d = d' := by
  cases h with
  | next e =>
    cases h' with
    | next e' =>
      cases e.symm.trans e'
      rfl

/-- **Total correctness under interference `R`**, with `I` at every point. -/
inductive Safely (exec : ι → σ → Outcome σ ι) (R : σ → σ → Prop) (I Q : σ → Prop) :
    List ι → σ → Prop where
  | nil {s : σ} (inv : ∀ s', R s s' → I s') (post : ∀ s', R s s' → Q s') :
      Safely exec R I Q [] s
  | cons {i : ι} {is : List ι} {s : σ} (inv : ∀ s', R s s' → I s')
      (progress : ∀ s', R s s' → ∃ s'' push, exec i s' = .next s'' push)
      (resume : ∀ s' s'' push, R s s' → exec i s' = .next s'' push →
        Safely exec R I Q (push ++ is) s'') :
      Safely exec R I Q (i :: is) s

namespace Safely

/-- One statement that turns an assertion into a state the rest is safe in. -/
theorem single {A : σ → Prop} {i : ι} {is : List ι} {s : σ}
    (stable : ∀ s s', A s → R s s' → A s') (hinv : ∀ s, A s → I s)
    (advance : ∀ s, A s → ∃ s' push, exec i s = .next s' push ∧ Safely exec R I Q (push ++ is) s')
    (h : A s) : Safely exec R I Q (i :: is) s := by
  refine .cons (fun t hr => hinv t (stable s t h hr)) (fun t hr => ?_) (fun t u push hr he => ?_)
  · obtain ⟨u, push, hu, -⟩ := advance t (stable s t h hr)
    exact ⟨u, push, hu⟩
  · obtain ⟨u', push', hu, hsafe⟩ := advance t (stable s t h hr)
    cases hu.symm.trans he
    exact hsafe

variable {code : List ι} {s s' : σ}

theorem inv (h : Safely exec R I Q code s) (hr : R s s') : I s' := by
  cases h with
  | nil inv _ => exact inv s' hr
  | cons inv _ _ => exact inv s' hr

theorem rely (htrans : ∀ {a b c}, R a b → R b c → R a c) (h : Safely exec R I Q code s)
    (hr : R s s') : Safely exec R I Q code s' := by
  cases h with
  | nil inv post =>
    exact .nil (fun t ht => inv t (htrans hr ht)) (fun t ht => post t (htrans hr ht))
  | cons inv progress resume =>
    exact .cons (fun t ht => inv t (htrans hr ht)) (fun t ht => progress t (htrans hr ht))
      (fun t u push ht => resume t u push (htrans hr ht))

theorem mono {I' Q' : σ → Prop} (h : Safely exec R I Q code s)
    (hI : ∀ s, I s → I' s) (hQ : ∀ s, Q s → Q' s) : Safely exec R I' Q' code s := by
  induction h with
  | nil inv post => exact .nil (fun t ht => hI t (inv t ht)) (fun t ht => hQ t (post t ht))
  | cons inv progress _ ih => exact .cons (fun t ht => hI t (inv t ht)) progress ih

/-- **Sequencing.** -/
theorem append {c₁ c₂ : List ι} (hrefl : ∀ s, R s s) (h : Safely exec R I M c₁ s)
    (rest : ∀ s', M s' → Safely exec R I Q c₂ s') : Safely exec R I Q (c₁ ++ c₂) s := by
  induction h with
  | nil _ post => exact rest _ (post _ (hrefl _))
  | @cons i is s inv progress _ ih =>
    rw [List.cons_append]
    refine .cons inv progress ?_
    intro s' s'' push hr he
    rw [← List.append_assoc]
    exact ih s' s'' push hr he

/-- One statement executed where it stands. -/
theorem step (hrefl : ∀ s, R s s) {d : List ι × σ} (h : Safely exec R I Q code s)
    (hs : Step exec (code, s) d) : Safely exec R I Q d.1 d.2 := by
  cases hs with
  | next he =>
    cases h with
    | cons _ _ resume => exact resume _ _ _ (hrefl _) he

theorem progress (hrefl : ∀ s, R s s) {i : ι} {is : List ι} (h : Safely exec R I Q (i :: is) s) :
    ∃ s' push, exec i s = .next s' push := by
  cases h with
  | cons _ progress _ => exact progress s (hrefl s)

theorem post (hrefl : ∀ s, R s s) (h : Safely exec R I Q [] s) : Q s := by
  cases h with
  | nil _ post => exact post s (hrefl s)

/-- A safe thread that is left alone runs to its end. -/
theorem terminates (hrefl : ∀ s, R s s) (h : Safely exec R I Q code s) :
    ∃ s', Runs exec (code, s) ([], s') ∧ Q s' := by
  induction h with
  | @nil s _ post => exact ⟨s, .refl, post s (hrefl s)⟩
  | @cons i is s _ progress _ ih =>
    obtain ⟨s', push, he⟩ := progress s (hrefl s)
    obtain ⟨t, ht, hq⟩ := ih s s' push (hrefl s) he
    exact ⟨t, .head (.next he) ht, hq⟩

end Safely

/-- Executes up to a number of statements.  What is left is empty if the code ended. -/
def run (exec : ι → σ → Outcome σ ι) : Nat → List ι → σ → Outcome σ ι
  | 0, code, s => .next s code
  | _ + 1, [], s => .next s []
  | n + 1, i :: is, s =>
      match exec i s with
      | .next s' push => run exec n (push ++ is) s'
      | .throw s' => .throw s'
      | .fault s' => .fault s'

/-- The code leads from one state to another, and no statement of it puts anything in
front of the rest. -/
inductive Straight (exec : ι → σ → Outcome σ ι) : List ι → σ → σ → Prop where
  | nil {s : σ} : Straight exec [] s s
  | cons {i : ι} {is : List ι} {s s' t : σ} (h : exec i s = .next s' [])
      (rest : Straight exec is s' t) :
      Straight exec (i :: is) s t

theorem Straight.run_append {code : List ι} {s t : σ} (h : Straight exec code s t) (n : Nat)
    (rest : List ι) :
    run exec (code.length + n) (code ++ rest) s = run exec n rest t := by
  induction h with
  | nil => rw [List.length_nil, Nat.zero_add, List.nil_append]
  | @cons i is s s' t h _ ih =>
    rw [List.length_cons, Nat.add_right_comm, List.cons_append, run, h]
    exact ih

/-- The final state, if the code ended. -/
def Outcome.ended : Outcome σ ι → Option σ
  | .next s [] => some s
  | _ => none

/-- The state an exception left, if there was one. -/
def Outcome.thrown : Outcome σ ι → Option σ
  | .throw s => some s
  | _ => none

/-- The point a run has got to, unless it ended in an exception or a fault. -/
def Outcome.reached : Outcome σ ι → Option (List ι × σ)
  | .next s code => some (code, s)
  | _ => none

/-- How a call that does not return ends. -/
inductive Halt where
  /-- By an exception. -/
  | threw
  /-- The process dies in it. -/
  | died
  /-- The turns given to a loop are used up. -/
  | unfinished
deriving DecidableEq

/-- The final state, or how the code failed to reach one. -/
def Outcome.value : Outcome σ ι → Except Halt σ
  | .next s [] => .ok s
  | .next _ (_ :: _) => .error .unfinished
  | .throw _ => .error .threw
  | .fault _ => .error .died

section
variable {ε α β : Type}

@[simp] theorem Except.ok_bind (a : α) (f : α → Except ε β) : (Except.ok a).bind f = f a := rfl

@[simp] theorem Except.ok_map (a : α) (f : α → β) :
    (Except.ok a : Except ε α).map f = .ok (f a) := rfl

theorem Except.bind_eq_ok {x : Except ε α} {f : α → Except ε β} {b : β} :
    x.bind f = .ok b ↔ ∃ a, x = .ok a ∧ f a = .ok b := by
  cases x with
  | error e => exact ⟨nofun, nofun⟩
  | ok a =>
    refine ⟨fun h => ⟨a, rfl, h⟩, ?_⟩
    rintro ⟨_, ⟨⟩, h⟩
    exact h

theorem Except.map_eq_ok {x : Except ε α} {f : α → β} {b : β} :
    x.map f = .ok b ↔ ∃ a, x = .ok a ∧ f a = b := by
  cases x with
  | error e => exact ⟨nofun, nofun⟩
  | ok a =>
    refine ⟨fun h => ⟨a, rfl, Except.ok.inj h⟩, ?_⟩
    rintro ⟨_, ⟨⟩, h⟩
    exact congrArg _ h

end

theorem runs_of_run {n : Nat} {code code' : List ι} {s s' : σ}
    (h : run exec n code s = .next s' code') : Runs exec (code, s) (code', s') := by
  induction n generalizing code s with
  | zero =>
    cases h
    exact .refl
  | succ n ih =>
    cases code with
    | nil =>
      cases h
      exact .refl
    | cons i is =>
      rw [run] at h
      cases he : exec i s with
      | next t push =>
        rw [he] at h
        exact .head (.next he) (ih h)
      | throw t => rw [he] at h; cases h
      | fault t => rw [he] at h; cases h

theorem runs_of_reached {n : Nat} {code : List ι} {s : σ} {c : List ι × σ}
    (h : (run exec n code s).reached = some c) : Runs exec (code, s) c := by
  cases he : run exec n code s with
  | next t code' =>
    rw [he] at h
    cases h
    exact runs_of_run he
  | throw | fault =>
    rw [he] at h
    cases h

theorem runs_of_ended {n : Nat} {code : List ι} {s s' : σ}
    (h : (run exec n code s).ended = some s') :
    Runs exec (code, s) ([], s') := by
  cases he : run exec n code s with
  | next t code' =>
    rw [he] at h
    cases code' with
    | nil =>
      cases h
      exact runs_of_run he
    | cons => cases h
  | throw | fault => rw [he] at h; cases h

/-- What follows a piece of code does not matter while it runs. -/
theorem Runs.append {c d : List ι × σ} (h : Runs exec c d) (rest : List ι) :
    Runs exec (c.1 ++ rest, c.2) (d.1 ++ rest, d.2) := by
  induction h with
  | refl => exact .refl
  | tail _ hs ih =>
    refine ih.tail ?_
    cases hs with
    | @next i is push s s' he =>
      rw [List.cons_append, List.append_assoc]
      exact .next he

/-- A thread that is left alone has one final state. -/
theorem Runs.final_unique {c : List ι × σ} {s s' : σ} (h : Runs exec c ([], s))
    (h' : Runs exec c ([], s')) : s = s' := by
  induction h using Relation.ReflTransGen.head_induction_on with
  | refl =>
    cases Relation.ReflTransGen.cases_head h' with
    | inl e => exact (Prod.mk.inj e).2
    | inr e => obtain ⟨_, hs, _⟩ := e; cases hs
  | head hs _ ih =>
    cases Relation.ReflTransGen.cases_head h' with
    | inl e => subst e; cases hs
    | inr e =>
      obtain ⟨d, hs', hd⟩ := e
      exact ih (hs.deterministic hs' ▸ hd)

/-! ## Threads left alone

How a thread ends when nobody interferes: it returns, throws or dies. -/

/-- How a piece of code ends. -/
inductive Result (σ : Type) where
  | returns (s : σ)
  | throws (s : σ)
  | faults (s : σ)

/-- The end of code run on a part of a larger state. -/
def Result.map {τ : Type} (f : σ → τ) : Result σ → Result τ
  | .returns s => .returns (f s)
  | .throws s => .throws (f s)
  | .faults s => .faults (f s)

theorem Result.map_eq_returns {τ : Type} {f : σ → τ} {x : Result σ} {t : τ}
    (h : x.map f = .returns t) : ∃ s, x = .returns s ∧ f s = t := by
  cases x with
  | returns s => exact ⟨s, rfl, by cases h; rfl⟩
  | throws s | faults s => cases h

theorem Result.map_eq_throws {τ : Type} {f : σ → τ} {x : Result σ} {t : τ}
    (h : x.map f = .throws t) : ∃ s, x = .throws s ∧ f s = t := by
  cases x with
  | throws s => exact ⟨s, rfl, by cases h; rfl⟩
  | returns s | faults s => cases h

/-- Goes on after code that returned. -/
def Result.andThen (r : Result σ) (rest : σ → Result σ) : Result σ :=
  match r with
  | .returns s => rest s
  | .throws s => .throws s
  | .faults s => .faults s

theorem Result.andThen_eq_returns {r : Result σ} {rest : σ → Result σ} {t : σ}
    (h : r.andThen rest = .returns t) : ∃ s, r = .returns s ∧ rest s = .returns t := by
  cases r with
  | returns s => exact ⟨s, rfl, h⟩
  | throws s | faults s => cases h

theorem Result.andThen_eq_throws {r : Result σ} {rest : σ → Result σ} {t : σ}
    (h : r.andThen rest = .throws t) :
    r = .throws t ∨ ∃ s, r = .returns s ∧ rest s = .throws t := by
  cases r with
  | returns s => exact Or.inr ⟨s, rfl, h⟩
  | throws s => exact Or.inl h
  | faults s => cases h

theorem Result.andThen_returns (r : Result σ) : r.andThen .returns = r := by
  cases r <;> rfl

/-- The final state, if the code returned. -/
def Result.returned : Result σ → Option σ
  | .returns s => some s
  | _ => none

/-- The final state, or how the code failed to reach one. -/
def Result.value : Result σ → Except Halt σ
  | .returns s => .ok s
  | .throws _ => .error .threw
  | .faults _ => .error .died

theorem Result.returned_andThen (r : Result σ) (rest : σ → Result σ) :
    (r.andThen rest).returned = r.returned.bind fun s => (rest s).returned := by
  cases r <;> rfl

theorem Result.eq_returns {r : Result σ} {s : σ} (h : r.returned = some s) : r = .returns s := by
  cases r with
  | returns t =>
    cases h
    rfl
  | throws | faults => cases h

/-- The code, started in a state and left alone, ends so. -/
inductive Ends (exec : ι → σ → Outcome σ ι) : List ι → σ → Result σ → Prop where
  | nil {s : σ} : Ends exec [] s (.returns s)
  | next {i : ι} {is push : List ι} {s s' : σ} {r : Result σ} (h : exec i s = .next s' push)
      (rest : Ends exec (push ++ is) s' r) : Ends exec (i :: is) s r
  | throw {i : ι} {is : List ι} {s s' : σ} (h : exec i s = .throw s') :
      Ends exec (i :: is) s (.throws s')
  | fault {i : ι} {is : List ι} {s s' : σ} (h : exec i s = .fault s') :
      Ends exec (i :: is) s (.faults s')

namespace Ends
variable {i : ι} {is c₁ c₂ : List ι} {s s' : σ} {r r' : Result σ}

/-- A statement that pushes nothing. -/
theorem cons (h : exec i s = .next s' []) (rest : Ends exec is s' r) : Ends exec (i :: is) s r :=
  .next h rest

theorem unique (h : Ends exec c₁ s r) (h' : Ends exec c₁ s r') : r = r' := by
  induction h with
  | nil =>
    cases h'
    rfl
  | next e _ ih =>
    cases h' with
    | next e' rest' =>
      cases e.symm.trans e'
      exact ih rest'
    | throw e' => cases e.symm.trans e'
    | fault e' => cases e.symm.trans e'
  | throw e =>
    cases h' with
    | next e' => cases e.symm.trans e'
    | throw e' =>
      cases e.symm.trans e'
      rfl
    | fault e' => cases e.symm.trans e'
  | fault e =>
    cases h' with
    | next e' => cases e.symm.trans e'
    | throw e' => cases e.symm.trans e'
    | fault e' =>
      cases e.symm.trans e'
      rfl

/-- A run that was left by an exception. -/
theorem of_thrown {n : Nat} {code : List ι} (h : (run exec n code s).thrown = some s') :
    Ends exec code s (.throws s') := by
  induction n generalizing code s with
  | zero => cases h
  | succ n ih =>
    cases code with
    | nil => cases h
    | cons i is =>
      rw [run] at h
      cases he : exec i s with
      | next t push =>
        rw [he] at h
        exact .next he (ih h)
      | throw t =>
        rw [he] at h
        cases h
        exact .throw he
      | fault t =>
        rw [he] at h
        cases h

theorem of_runs {c : List ι × σ} (h : Runs exec c ([], s')) : Ends exec c.1 c.2 (.returns s') := by
  induction h using Relation.ReflTransGen.head_induction_on with
  | refl => exact .nil
  | head hs _ ih =>
    cases hs with
    | next e => exact .next e ih

/-- **Sequencing**, when the first part returns. -/
theorem append (h : Ends exec c₁ s (.returns s')) (rest : Ends exec c₂ s' r) :
    Ends exec (c₁ ++ c₂) s r := by
  generalize he : Result.returns s' = q at h
  induction h with
  | nil =>
    cases he
    exact rest
  | next e _ ih =>
    rw [List.cons_append]
    refine .next e ?_
    rw [← List.append_assoc]
    exact ih he
  | throw | fault => cases he

/-- An exception in the first part is one of the whole. -/
theorem append_throws (h : Ends exec c₁ s (.throws s')) : Ends exec (c₁ ++ c₂) s (.throws s') := by
  generalize he : Result.throws s' = q at h
  induction h with
  | nil => cases he
  | next e _ ih =>
    rw [List.cons_append]
    refine .next e ?_
    rw [← List.append_assoc]
    exact ih he
  | throw e =>
    cases he
    exact .throw e
  | fault => cases he

/-- If the whole returns, so does its first part. -/
theorem returns_append (h : Ends exec (c₁ ++ c₂) s (.returns s')) :
    ∃ t, Ends exec c₁ s (.returns t) ∧ Ends exec c₂ t (.returns s') := by
  generalize hc : c₁ ++ c₂ = c at h
  generalize hr : Result.returns s' = q at h
  induction h generalizing c₁ with
  | nil =>
    obtain ⟨rfl, rfl⟩ := List.append_eq_nil_iff.mp hc
    cases hr
    exact ⟨_, .nil, .nil⟩
  | @next i is push s t r e rest ih =>
    cases c₁ with
    | nil =>
      subst hc hr
      exact ⟨_, .nil, .next e rest⟩
    | cons j c₁ =>
      obtain ⟨rfl, rfl⟩ := List.cons.inj hc
      have hassoc : push ++ c₁ ++ c₂ = push ++ (c₁ ++ c₂) := List.append_assoc ..
      obtain ⟨u, h₁, h₂⟩ := ih hassoc hr
      exact ⟨u, .next e h₁, h₂⟩
  | throw | fault => cases hr

/-- One statement that returns, pushing nothing or not. -/
theorem returns_cons (h : Ends exec (i :: is) s (.returns s')) :
    ∃ t push, exec i s = .next t push ∧ Ends exec (push ++ is) t (.returns s') := by
  cases h with
  | next e rest => exact ⟨_, _, e, rest⟩

end Ends

end StmtMachine
