import Mathlib.Tactic.Common

/-! # The reader's warmer

A `Journal` of `Journal.h` with its three threads.  The owner calls `loadPage` and at
last the destructor; the warmer thread maps the page behind the one that was loaded
and leaves its address in `warmer_addr_`, where `loadPage` takes it; the retire thread
destroys the pages that were left behind.

Each critical section is one step, and so are `stat`, the mapping, each look at the
header, the populate step and a release outside the lock.  What the kernel and the
page's writer make of them is the move's choice.  The mappings of `Page::load` are not
the warmer's and are not followed.
-/
namespace Revoq.HandOff

/-- `JournalOptions`, and the page size of the location. -/
structure Options where
  prefault : Bool
  backgroundThreads : Bool
  retainedPageLimit : Nat
  warmerTimeoutMs : Nat
  pageSize : Nat
deriving DecidableEq

/-- The `Journal` has a warmer thread and a fast path. -/
def Options.warms (o : Options) : Bool := !o.prefault && o.backgroundThreads

/-- A read-only mapping of a page's file.  The serial number tells it from the other
mappings that were made. -/
structure Mapping where
  serial : Nat
  file : Int
deriving DecidableEq

/-- A `Page` with the mapping it was adopted with, if it was. -/
structure Page where
  pageId : Int
  size : Nat
  warmed : Option Mapping := none
deriving DecidableEq

/-- A call of `releaseMmapBuffer`. -/
structure Release where
  mapping : Mapping
  size : Nat
deriving DecidableEq

/-- Where the owner is in `loadPage(p)` or in the destructor. -/
inductive Owner where
  | idle
  | lookup (p : Int)
  | load (p : Int)
  | install (p : Int) (newPage : Page)
  | trim (p : Int)
  | handOver (p : Int) (retiredPage : Page)
  | signal (p : Int)
  | wake
  | joinRetire
  | joinWarmer
  | releaseWarmed
  | members
  | gone
deriving DecidableEq

/-- Where the warmer is in `readerWarmerLoop`.  From `pollCheck` on it has `addr`. -/
inductive Warmer where
  | wait
  | statCheck (p : Int) (ms : Nat)
  | stat (p : Int) (ms : Nat)
  | doubleCheck (p : Int)
  | map (p : Int)
  | pollCheck (p : Int) (addr : Mapping) (ms : Nat)
  | poll (p : Int) (addr : Mapping) (ms : Nat)
  | prepare (p : Int) (addr : Mapping)
  | publish (p : Int) (addr : Mapping)
  | release (p : Int) (addr : Mapping)
  | exited
deriving DecidableEq

/-- Where the retire thread is in `retireLoop`. -/
inductive Retire where
  | loop
  | reset (page : Page)
  | exited
deriving DecidableEq

/-- A `Journal`, its threads, and what has been mapped and released. -/
structure State where
  owner : Owner := .idle
  warmer : Warmer
  retire : Retire
  currentPage : Option Page := none
  retiredPages : List Page := []
  retireQueue : List Page := []
  retireRunning : Bool
  warmerNextPage : Int := -1
  warmerPending : Bool := false
  warmerAddr : Option Mapping := none
  warmerReadyId : Int := -1
  mapped : List Mapping := []
  released : List Release := []
  /-- The page sizes `loadFromAddress` has read from headers. -/
  headerSizes : List Nat := []
deriving DecidableEq

/-- The constructor. -/
def Options.start (o : Options) : State where
  warmer := if o.warms then .wait else .exited
  retire := if o.backgroundThreads then .loop else .exited
  retireRunning := o.backgroundThreads

/-- `releaseMmapBuffer`. -/
def State.releaseMmapBuffer (s : State) (addr : Mapping) (size : Nat) : State :=
  { s with released := ⟨addr, size⟩ :: s.released }

/-- `~Page`. -/
def State.destroy (s : State) (page : Page) : State :=
  match page.warmed with
  | some addr => s.releaseMmapBuffer addr page.size
  | none => s

/-- The releases of a container of pages. -/
def releasesOf (pages : List Page) : List Release :=
  pages.filterMap fun page => page.warmed.map fun addr => ⟨addr, page.size⟩

/-! ## The threads -/

/-- What is left of `loadPage(p)` once its page is installed. -/
def Options.installed (o : Options) (p : Int) : Owner := if o.warms then .signal p else .idle

/-- The owner's next step.  `header` is the page size `loadFromAddress` reads if the
header is valid; `loads` says whether `Page::load` returns. -/
def ownerStep (o : Options) (header : Option Nat) (loads : Bool) (s : State) : Option State :=
  match s.owner with
  | .idle | .gone => none
  | .lookup p =>
      match s.warmerAddr with
      | some addr =>
        if s.warmerReadyId = p then
          match header with
          | some size =>
            some { s with owner := .install p ⟨p, size, some addr⟩, warmerAddr := none,
                          warmerReadyId := -1, headerSizes := size :: s.headerSizes }
          | none =>
            some { s.releaseMmapBuffer addr o.pageSize with
              owner := .load p, warmerAddr := none, warmerReadyId := -1 }
        else some { s with owner := .load p }
      | none => some { s with owner := .load p }
  | .load p =>
      if loads then some { s with owner := .install p ⟨p, o.pageSize, none⟩ }
      else some { s with owner := .idle }
  | .install p newPage =>
      match s.currentPage with
      | none => some { s with owner := o.installed p, currentPage := some newPage }
      | some oldPage =>
        if o.backgroundThreads then
          some { s with owner := .trim p, currentPage := some newPage,
                        retiredPages := s.retiredPages ++ [oldPage] }
        else some { s.destroy oldPage with owner := o.installed p, currentPage := some newPage }
  | .trim p =>
      match s.retiredPages with
      | retiredPage :: rest =>
        if o.retainedPageLimit < s.retiredPages.length then
          some { s with owner := .handOver p retiredPage, retiredPages := rest }
        else some { s with owner := o.installed p }
      | [] => some { s with owner := o.installed p }
  | .handOver p retiredPage =>
      some { s with owner := .trim p, retireQueue := s.retireQueue ++ [retiredPage] }
  | .signal p => some { s with owner := .idle, warmerNextPage := p + 1, warmerPending := true }
  | .wake => some { s with owner := .joinRetire }
  | .joinRetire => if s.retire = .exited then some { s with owner := .joinWarmer } else none
  | .joinWarmer => if s.warmer = .exited then some { s with owner := .releaseWarmed } else none
  | .releaseWarmed =>
      match s.warmerAddr with
      | some addr =>
        some { s.releaseMmapBuffer addr o.pageSize with
          owner := .members, warmerAddr := none, warmerReadyId := -1 }
      | none => some { s with owner := .members }
  | .members =>
      some { s with
        owner := .gone, retireQueue := [], released := releasesOf s.retireQueue ++ s.released }

/-- `warmer_pending_ || !retire_running_`: the warmer gives up what it is doing. -/
def State.interrupted (s : State) : Bool := s.warmerPending || !s.retireRunning

/-- The warmer's next step.  `succeeds` says what comes of `stat`, of the mapping, of a
look at the header or of the populate step. -/
def warmerStep (o : Options) (succeeds : Bool) (s : State) : Option State :=
  match s.warmer with
  | .exited => none
  | .wait =>
      if !s.retireRunning then some { s with warmer := .exited }
      else if s.warmerPending then
        some { s with warmerPending := false,
                      warmer := if s.warmerNextPage < 0 then .wait
                        else .statCheck s.warmerNextPage 0 }
      else none
  | .statCheck p ms =>
      if ms < o.warmerTimeoutMs then
        some { s with warmer := if s.interrupted then .wait else .stat p ms }
      else some { s with warmer := .wait }
  | .stat p ms =>
      some { s with warmer := if succeeds then .doubleCheck p else .statCheck p (ms + 1) }
  | .doubleCheck p => some { s with warmer := if s.interrupted then .wait else .map p }
  | .map p =>
      if succeeds then
        some { s with warmer := .pollCheck p ⟨s.mapped.length, p⟩ 0,
                      mapped := ⟨s.mapped.length, p⟩ :: s.mapped }
      else some { s with warmer := .wait }
  | .pollCheck p addr ms =>
      if ms < o.warmerTimeoutMs then
        if s.interrupted then some { s.releaseMmapBuffer addr o.pageSize with warmer := .wait }
        else some { s with warmer := .poll p addr ms }
      else some { s with warmer := .release p addr }
  | .poll p addr ms =>
      some { s with warmer := if succeeds then .prepare p addr else .pollCheck p addr (ms + 1) }
  | .prepare p addr =>
      some { s with warmer := if succeeds then .publish p addr else .release p addr }
  | .release _ addr => some { s.releaseMmapBuffer addr o.pageSize with warmer := .wait }
  | .publish p addr =>
      if s.interrupted then some { s.releaseMmapBuffer addr o.pageSize with warmer := .wait }
      else
        match s.warmerAddr with
        | some old =>
          some { s.releaseMmapBuffer old o.pageSize with
            warmer := .wait, warmerAddr := some addr, warmerReadyId := p }
        | none => some { s with warmer := .wait, warmerAddr := some addr, warmerReadyId := p }

/-- The retire thread's next step. -/
def retireStep (s : State) : Option State :=
  match s.retire with
  | .exited => none
  | .loop =>
      match s.retireQueue with
      | page :: rest => some { s with retire := .reset page, retireQueue := rest }
      | [] => if s.retireRunning then none else some { s with retire := .exited }
  | .reset page => some { s.destroy page with retire := .loop }

/-- A call, or a step of a thread. -/
inductive Move where
  | loadPage (p : Int)
  | destruct
  | owner (header : Option Nat) (loads : Bool)
  | warmer (succeeds : Bool)
  | retire
deriving DecidableEq

/-- What the move makes of the state, if it can be made. -/
def step (o : Options) (move : Move) (s : State) : Option State :=
  match move with
  | .loadPage p =>
      if s.owner = .idle then
        if s.currentPage.map Page.pageId = some p then some s
        else some { s with owner := if o.warms then .lookup p else .load p }
      else none
  | .destruct =>
      if s.owner = .idle then
        some { s with
          owner := .wake, currentPage := none, retiredPages := [], retireRunning := false,
          retireQueue := s.retireQueue ++ s.currentPage.toList ++ s.retiredPages }
      else none
  | .owner header loads => ownerStep o header loads s
  | .warmer succeeds => warmerStep o succeeds s
  | .retire => retireStep s

/-- The states a `Journal` can get to. -/
inductive Reaches (o : Options) : State → Prop where
  | start : Reaches o o.start
  | step {s s' : State} {move : Move} (h : Reaches o s)
      (hstep : step o move s = some s') : Reaches o s'

/-- The moves one after the other. -/
def run (o : Options) : List Move → State → Option State
  | [], s => some s
  | move :: moves, s => (step o move s).bind (run o moves)

theorem Reaches.run {o : Options} {moves : List Move} {s s' : State} (h : Reaches o s)
    (hrun : run o moves s = some s') : Reaches o s' := by
  induction moves generalizing s with
  | nil =>
    cases hrun
    exact h
  | cons move moves ih =>
    obtain ⟨s₁, hstep, hrest⟩ := Option.bind_eq_some_iff.mp hrun
    exact ih (h.step hstep) hrest

end Revoq.HandOff
