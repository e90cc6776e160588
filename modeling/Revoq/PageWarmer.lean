import Mathlib.Logic.Function.Basic

/-! # The writer's page warmer

`PageWarmer.h` with its two threads.  The warmer thread maps pages ahead of the writer
into the slots of a ring; the writer takes them with `getWarmedPage`.  The ring is
lock-free: a slot's `page_id` says who may touch it, `-1` for nobody, `-2` for the
warmer, otherwise it holds a page.

Every atomic operation and every load or store of a slot is one step.  Mapping a page
is one step too, which may fail.  `RingSize` is a parameter; `slot.sequence` is written
and never read, and is left out.
-/
namespace Revoq.WarmupRing

/-- `RingSize`, `warmup_distance_` and `page_size_`. -/
structure Options where
  ringSize : Nat
  warmupDistance : Nat
  pageSize : Nat

/-- A mapping of a page's file.  The serial number tells it from the other mappings
that were made. -/
structure Mapping where
  serial : Nat
  file : Int
deriving DecidableEq

/-- `PageSlot`. -/
structure PageSlot where
  pageId : Int := -1
  address : Option Mapping := none
  size : Nat := 0
  isOwned : Bool := false
deriving DecidableEq

/-- Where the warmer thread is in `warmupLoop`: `c` is the snapshot of `current_page_`,
`i` the distance, `w` the write index and `j` the slot it looks at. -/
inductive Warmer where
  | bootRunning
  | bootCurrent
  | loop
  | snapshot
  | scan (c : Int) (i j : Nat)
  | index (c : Int) (i : Nat)
  | claim (c : Int) (i w : Nat)
  | map (c : Int) (i w : Nat)
  | giveUp (c : Int) (i w : Nat)
  | storeAddress (c : Int) (i w : Nat) (addr : Mapping)
  | storeSize (c : Int) (i w : Nat) (addr : Mapping)
  | storeOwned (c : Int) (i w : Nat) (addr : Mapping)
  | storePageId (c : Int) (i w : Nat)
  | fetchAdd (c : Int) (i : Nat)
  | cleanup (c : Int) (j : Nat)
  | cleanupClaim (c : Int) (j : Nat) (slotPageId : Int)
  | cleanupOwned (c : Int) (j : Nat)
  | cleanupAddress (c : Int) (j : Nat)
  | cleanupRelease (c : Int) (j : Nat)
  | cleanupZero (c : Int) (j : Nat)
  | cleanupDisown (c : Int) (j : Nat)
  | exited
deriving DecidableEq

/-- Where the writer is in `getWarmedPage(p)`, in `updateCurrentPage(p)` or in the
destructor. -/
inductive Writer where
  | idle
  | loadRead (p : Int)
  | look (p : Int) (startRead i : Nat)
  | claim (p : Int) (startRead i : Nat)
  | readSize (p : Int) (idx : Nat)
  | readAddress (p : Int) (idx sizeOut : Nat)
  | disown (p : Int) (idx sizeOut : Nat) (addr : Option Mapping)
  | storeRead (p : Int) (idx sizeOut : Nat) (addr : Option Mapping)
  | update (p : Int)
  | join
  | releaseAll (i : Nat)
  | gone
deriving DecidableEq

/-- What `getWarmedPage(p)` returned when it did not return 0. -/
structure Answer where
  page : Int
  address : Mapping
  size : Nat
deriving DecidableEq

/-- A `PageWarmer`, its two threads, and what has been mapped, returned and released. -/
structure State where
  warmer : Warmer := .bootRunning
  writer : Writer
  running : Bool := true
  writeIndex : Nat := 0
  readIndex : Nat := 0
  currentPage : Int := -1
  ring : Nat → PageSlot := fun _ => {}
  mapped : List Mapping := []
  returned : List Answer := []
  released : List Mapping := []

/-- The warmer was started by a writer on page `first`, which will say so. -/
def start (first : Nat) : State where
  writer := .update first

/-- Changes a slot. -/
def State.setSlot (s : State) (k : Nat) (f : PageSlot → PageSlot) : State :=
  { s with ring := Function.update s.ring k (f (s.ring k)) }

/-- The `for` loop over the distances, at distance `i`. -/
def Options.turn (o : Options) (c : Int) (i : Nat) : Warmer :=
  if i ≤ o.warmupDistance then .scan c i 0 else .cleanup c 0

/-- The warmer's next step.  `maps` says whether `loadMmapBuffer` returns. -/
def warmerStep (o : Options) (maps : Bool) (s : State) : Option State :=
  match s.warmer with
  | .bootRunning => some { s with warmer := if s.running then .bootCurrent else .loop }
  | .bootCurrent => some { s with warmer := if 0 ≤ s.currentPage then .loop else .bootRunning }
  | .loop => some { s with warmer := if s.running then .snapshot else .exited }
  | .snapshot =>
      some { s with warmer := if s.currentPage < 0 then .loop else o.turn s.currentPage 1 }
  -- `isPageInRing`
  | .scan c i j =>
      if j < o.ringSize then
        some { s with
          warmer := if (s.ring j).pageId = c + i then o.turn c (i + 1) else .scan c i (j + 1) }
      else some { s with warmer := .index c i }
  | .index c i => some { s with warmer := .claim c i s.writeIndex }
  | .claim c i w =>
      if (s.ring (w % o.ringSize)).pageId = -1 then
        some { s.setSlot (w % o.ringSize) ({ · with pageId := -2 }) with warmer := .map c i w }
      else some { s with warmer := o.turn c (i + 1) }
  -- `warmPageIntoSlot`
  | .map c i w =>
      if maps then
        some { s with warmer := .storeAddress c i w ⟨s.mapped.length, c + i⟩,
                      mapped := ⟨s.mapped.length, c + i⟩ :: s.mapped }
      else some { s with warmer := .giveUp c i w }
  | .giveUp c i w =>
      some { s.setSlot (w % o.ringSize) ({ · with pageId := -1 }) with warmer := o.turn c (i + 1) }
  | .storeAddress c i w addr =>
      some { s.setSlot (w % o.ringSize) ({ · with address := some addr }) with
        warmer := .storeSize c i w addr }
  | .storeSize c i w addr =>
      some { s.setSlot (w % o.ringSize) ({ · with size := o.pageSize }) with
        warmer := .storeOwned c i w addr }
  | .storeOwned c i w _ =>
      some { s.setSlot (w % o.ringSize)
        ({ · with isOwned := true }) with warmer := .storePageId c i w }
  | .storePageId c i w =>
      some { s.setSlot (w % o.ringSize) ({ · with pageId := c + i }) with warmer := .fetchAdd c i }
  | .fetchAdd c i => some { s with warmer := o.turn c (i + 1), writeIndex := s.writeIndex + 1 }
  -- `cleanupOldPages`
  | .cleanup c j =>
      if j < o.ringSize then
        if 0 ≤ (s.ring j).pageId ∧ (s.ring j).pageId < c - o.ringSize then
          some { s with warmer := .cleanupClaim c j (s.ring j).pageId }
        else some { s with warmer := .cleanup c (j + 1) }
      else some { s with warmer := .loop }
  | .cleanupClaim c j q =>
      if (s.ring j).pageId = q then
        some { s.setSlot j ({ · with pageId := -1 }) with warmer := .cleanupOwned c j }
      else some { s with warmer := .cleanup c (j + 1) }
  | .cleanupOwned c j =>
      some { s with
        warmer := if (s.ring j).isOwned then .cleanupAddress c j else .cleanup c (j + 1) }
  | .cleanupAddress c j =>
      some { s with
        warmer := if (s.ring j).address.isSome then .cleanupRelease c j else .cleanup c (j + 1) }
  | .cleanupRelease c j =>
      some { s with
        warmer := .cleanupZero c j, released := (s.ring j).address.toList ++ s.released }
  | .cleanupZero c j =>
      some { s.setSlot j ({ · with address := none }) with warmer := .cleanupDisown c j }
  | .cleanupDisown c j =>
      some { s.setSlot j ({ · with isOwned := false }) with warmer := .cleanup c (j + 1) }
  | .exited => none

/-- The writer's next step inside a call. -/
def writerStep (o : Options) (s : State) : Option State :=
  match s.writer with
  | .idle | .gone => none
  -- `getWarmedPage`
  | .loadRead p => some { s with writer := .look p s.readIndex 0 }
  | .look p startRead i =>
      if i < o.ringSize then
        some { s with
          writer := if (s.ring ((startRead + i) % o.ringSize)).pageId = p then .claim p startRead i
            else .look p startRead (i + 1) }
      else some { s with writer := .update p }
  | .claim p startRead i =>
      if (s.ring ((startRead + i) % o.ringSize)).pageId = p then
        some { s.setSlot ((startRead + i) % o.ringSize) ({ · with pageId := -1 }) with
          writer := .readSize p ((startRead + i) % o.ringSize) }
      else some { s with writer := .look p startRead (i + 1) }
  | .readSize p idx => some { s with writer := .readAddress p idx (s.ring idx).size }
  | .readAddress p idx sizeOut =>
      some { s with writer := .disown p idx sizeOut (s.ring idx).address }
  | .disown p idx sizeOut addr =>
      some { s.setSlot idx ({ · with isOwned := false }) with
        writer := .storeRead p idx sizeOut addr }
  | .storeRead p idx sizeOut addr =>
      some { s with
        writer := .update p, readIndex := (idx + 1) % o.ringSize
        returned := (addr.map fun addr => ⟨p, addr, sizeOut⟩).toList ++ s.returned }
  | .update p => some { s with writer := .idle, currentPage := p }
  -- the destructor; `releaseAllPages` runs when the warmer thread is gone
  | .join => if s.warmer = .exited then some { s with writer := .releaseAll 0 } else none
  | .releaseAll i =>
      if i < o.ringSize then
        if (s.ring i).isOwned ∧ (s.ring i).address.isSome then
          some { s.setSlot i ({ · with address := none, isOwned := false }) with
            writer := .releaseAll (i + 1), released := (s.ring i).address.toList ++ s.released }
        else some { s with writer := .releaseAll (i + 1) }
      else some { s with writer := .gone }

/-- A call, or a step of a thread. -/
inductive Move where
  | rotate
  | destruct
  | writer
  | warmer (maps : Bool)
deriving DecidableEq

/-- What the move makes of the state, if it can be made.  A rotation asks for the page
behind the current one. -/
def step (o : Options) (move : Move) (s : State) : Option State :=
  match move with
  | .rotate => if s.writer = .idle then some { s with
      writer := .loadRead (s.currentPage + 1) } else none
  | .destruct => if s.writer = .idle then some { s with
      writer := .join, running := false } else none
  | .writer => writerStep o s
  | .warmer maps => warmerStep o maps s

/-- The states a warmer can get to that was started on page `first`. -/
inductive Reaches (o : Options) (first : Nat) : State → Prop where
  | start : Reaches o first (start first)
  | step {s s' : State} {move : Move} (h : Reaches o first s) (hstep : step o move s = some s') :
      Reaches o first s'

/-- The moves one after the other. -/
def run (o : Options) : List Move → State → Option State
  | [], s => some s
  | move :: moves, s => (step o move s).bind (run o moves)

theorem Reaches.run {o : Options} {first : Nat} {moves : List Move} {s s' : State}
    (h : Reaches o first s) (hrun : run o moves s = some s') : Reaches o first s' := by
  induction moves generalizing s with
  | nil =>
    cases hrun
    exact h
  | cons move moves ih =>
    obtain ⟨s₁, hstep, hrest⟩ := Option.bind_eq_some_iff.mp hrun
    exact ih (h.step hstep) hrest

end Revoq.WarmupRing
