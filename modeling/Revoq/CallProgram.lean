import Mathlib.Data.List.Basic

/-! # Programs that make calls

A program asks its environment, one call after the other, and goes on by the answers,
until it returns a value or throws (`Program`).  The environment is a relation: which
calls are in order in a state, and which answers it may give (`World`).

`Ensures` is the weakest precondition of a program: in every state it gets to the call
is in order, whatever was answered before, and the two postconditions hold where it
returns and where it throws.  `Ensures.bind` and `Ensures.rethrow` compose it;
`Ensures.ends` and `Ensures.not_goesWrong` say what it means for the runs.
-/
namespace CallProgram

variable {C : Type} {A : C → Type} {ε ε' α β σ : Type}

/-- **A program** that makes calls `c` and gets answers in `A c`. -/
inductive Program (A : C → Type) (ε α : Type) : Type where
  | done (a : α)
  | throw (e : ε)
  | call (c : C) (next : A c → Program A ε α)

namespace Program

/-- One program after another. -/
def bind : Program A ε α → (α → Program A ε β) → Program A ε β
  | .done a, f => f a
  | .throw e, _ => .throw e
  | .call c next, f => .call c fun x => (next x).bind f

/-- A handler for what a program throws. -/
def rethrow : Program A ε α → (ε → Program A ε' α) → Program A ε' α
  | .done a, _ => .done a
  | .throw e, f => f e
  | .call c next, f => .call c fun x => (next x).rethrow f

/-- A single call. -/
def ask (c : C) : Program A ε (A c) := .call c .done

instance : Monad (Program A ε) where
  pure := .done
  bind := bind

/-- A program that is left out if the condition fails. -/
def when (b : Bool) (p : Program A ε Unit) : Program A ε Unit := if b then p else .done ()

end Program

/-- **An environment**: the calls that are in order, and the answers to them. -/
structure World (A : C → Type) (σ : Type) where
  inOrder : σ → C → Prop
  answers : σ → (c : C) → A c → σ → Prop

section
variable {W : World A σ}

/-- The runs that end. -/
inductive Ends (W : World A σ) : Program A ε α → σ → Except ε α → σ → Prop where
  | done (a : α) (s : σ) : Ends W (.done a) s (.ok a) s
  | throw (e : ε) (s : σ) : Ends W (.throw e) s (.error e) s
  | call {c : C} {next : A c → Program A ε α} {s s' t : σ} {x : A c} {r : Except ε α}
      (h : W.answers s c x s') (tail : Ends W (next x) s' r t) : Ends W (.call c next) s r t

/-- Some run makes a call that is out of order. -/
inductive GoesWrong (W : World A σ) : Program A ε α → σ → Prop where
  | here {c : C} {next : A c → Program A ε α} {s : σ} (h : ¬ W.inOrder s c) :
      GoesWrong W (.call c next) s
  | later {c : C} {next : A c → Program A ε α} {s s' : σ} {x : A c} (h : W.answers s c x s')
      (tail : GoesWrong W (next x) s') : GoesWrong W (.call c next) s

/-- **What a program makes sure of**, whatever is answered. -/
def Ensures (W : World A σ) : Program A ε α → σ → (α → σ → Prop) → (ε → σ → Prop) → Prop
  | .done a, s, Q, _ => Q a s
  | .throw e, s, _, R => R e s
  | .call c next, s, Q, R => W.inOrder s c ∧ ∀ x s', W.answers s c x s' → Ensures W (next x) s' Q R

variable {p : Program A ε α} {s t : σ} {Q Q' : α → σ → Prop} {R R' : ε → σ → Prop}

@[simp] theorem ensures_pure (a : α) : Ensures W (pure a : Program A ε α) s Q R ↔ Q a s := Iff.rfl

@[simp] theorem ensures_throw (e : ε) :
    Ensures W (.throw e : Program A ε α) s Q R ↔ R e s := Iff.rfl

@[simp] theorem ensures_ask (c : C) {Q : A c → σ → Prop} :
    Ensures W (Program.ask c : Program A ε (A c)) s Q R ↔ W.inOrder s c ∧
      ∀ x s', W.answers s c x s' → Q x s' := Iff.rfl

theorem Ensures.mono (h : Ensures W p s Q R) (hQ : ∀ a t, Q a t → Q' a t)
    (hR : ∀ e t, R e t → R' e t) :
    Ensures W p s Q' R' := by
  induction p generalizing s with
  | done a => exact hQ a s h
  | throw e => exact hR e s h
  | call c next ih => exact ⟨h.1, fun x s' hx => ih x (h.2 x s' hx)⟩

/-- **Sequencing**: what the second program needs is what the first one makes sure of. -/
@[simp] theorem ensures_bind (f : α → Program A ε β) {Q : β → σ → Prop} :
    Ensures W (p >>= f) s Q R ↔ Ensures W p s (fun a t => Ensures W (f a) t Q R) R := by
  induction p generalizing s with
  | done a => exact Iff.rfl
  | throw e => exact Iff.rfl
  | call c next ih =>
    refine and_congr_right fun _ => forall_congr' fun x => forall_congr' fun s' => ?_
    exact ⟨fun h hx => (ih x).mp (h hx), fun h hx => (ih x).mpr (h hx)⟩

/-- A call, and what comes after the answer. -/
theorem ensures_ask_bind {c : C} {f : A c → Program A ε β} {Q : β → σ → Prop} :
    Ensures W (Program.ask c >>= f) s Q R ↔
      W.inOrder s c ∧ ∀ x s', W.answers s c x s' → Ensures W (f x) s' Q R := Iff.rfl

theorem ensures_when {b : Bool} {p : Program A ε Unit} {Q : Unit → σ → Prop} :
    Ensures W (.when b p) s Q R ↔ (b = true → Ensures W p s Q R) ∧ (b = false → Q () s) := by
  cases b <;> simp [Program.when, Ensures]

/-- **Handling**: what the handler needs is what the program makes sure of where it throws. -/
@[simp] theorem ensures_rethrow (f : ε → Program A ε' α) {R : ε' → σ → Prop} :
    Ensures W (p.rethrow f) s Q R ↔ Ensures W p s Q fun e t => Ensures W (f e) t Q R := by
  induction p generalizing s with
  | done a => exact Iff.rfl
  | throw e => exact Iff.rfl
  | call c next ih =>
    refine and_congr_right fun _ => forall_congr' fun x => forall_congr' fun s' => ?_
    exact ⟨fun h hx => (ih x).mp (h hx), fun h hx => (ih x).mpr (h hx)⟩

/-- It holds where a run ends. -/
theorem Ensures.ends (h : Ensures W p s Q R) {r : Except ε α} (hr : Ends W p s r t) :
    (∀ a, r = .ok a → Q a t) ∧ ∀ e, r = .error e → R e t := by
  induction hr with
  | done a s =>
    refine ⟨fun b hb => ?_, fun e he => (by cases he)⟩
    cases hb
    exact h
  | throw e s =>
    refine ⟨fun b hb => (by cases hb), fun e he => ?_⟩
    cases he
    exact h
  | call hx _ ih => exact ih (h.2 _ _ hx)

/-- What every answer keeps, a run keeps. -/
theorem Ends.preserves {I : σ → Prop} (hI : ∀ s c x s', W.answers s c x s' → I s → I s')
    {r : Except ε α} (h : Ends W p s r t) (hs : I s) : I t := by
  induction h with
  | done a s => exact hs
  | throw e s => exact hs
  | call hx _ ih => exact ih (hI _ _ _ _ hx hs)

/-- No run makes a call that is out of order. -/
theorem Ensures.not_goesWrong (h : Ensures W p s Q R) : ¬ GoesWrong W p s := by
  intro hw
  induction hw with
  | here hc => exact hc h.1
  | later hx _ ih => exact ih (h.2 _ _ hx)

end

end CallProgram
