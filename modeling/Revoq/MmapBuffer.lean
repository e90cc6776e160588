import Revoq.CallProgram
import Revoq.PageFile

/-! # Descriptors and mappings

`MmapBuffer` opens a page's file, maps it, closes the descriptor, and takes the mapping
down again if a later call fails.  Here its functions are programs that make system
calls; the kernel may answer any call with an error.

The kernel keeps the process's descriptors and mappings (`Kernel`).  A call is in order
if it names a descriptor that is open and memory that is mapped.  A store through a
read-only mapping ends the process.
-/
namespace Revoq
open ByteImage CallProgram

namespace MmapBuffer

/-! ## System calls -/

/-- A mapping of a file. -/
structure Mapping where
  addr : Nat
  size : Nat
  writable : Bool
deriving DecidableEq

/-- The `madvise` values in use. -/
inductive Advice where
  | sequential | hugepage | populateRead
deriving DecidableEq

/-- The calls of the program; `touch`, `zero`, `readField` and `writeField` are accesses
to mapped memory, `interrupted` asks what the other threads have set. -/
inductive Call where
  | interrupted
  | fileExists (path : String)
  | stat (path : String)
  | open (path : String) (write creat : Bool)
  | fallocate (fd size : Nat)
  | ftruncate (fd size : Nat)
  | fstat (fd : Nat)
  | mmap (fd size : Nat) (write populate : Bool)
  | close (fd : Nat)
  | madvise (addr size : Nat) (advice : Advice)
  | mlock (addr size : Nat)
  | munlock (addr size : Nat)
  | msync (addr size : Nat) (sync : Bool)
  | munmap (addr size : Nat)
  | touch (addr size : Nat)
  | zero (addr size : Nat)
  | readField (addr : Nat) (field : Field)
  | writeField (addr : Nat) (field : Field) (value : Nat)

/-- `none` or an `errno`. -/
abbrev Status := Option Nat

/-- The answers: an `errno`, or what the call returns. -/
abbrev Call.Answer : Call → Type
  | .interrupted => Bool
  | .fileExists _ => Bool
  | .stat _ => Option Nat
  | .open _ _ _ => Except Nat Nat
  | .fstat _ => Except Nat Nat
  | .mmap _ _ _ _ => Except Nat Nat
  | .close _ => Unit
  | .touch _ _ => Unit
  | .zero _ _ => Unit
  | .readField _ _ => Nat
  | .writeField _ _ _ => Unit
  | _ => Status

/-- What the kernel keeps for the process, and how often `munmap` has failed. -/
structure Kernel where
  fds : List Nat
  maps : List Mapping
  refused : Nat

/-- Two mappings do not overlap. -/
def Mapping.Apart (m m' : Mapping) : Prop :=
  m.addr + m.size ≤ m'.addr ∨ m'.addr + m'.size ≤ m.addr

def Mapping.at (addr size : Nat) (m : Mapping) : Bool := m.addr == addr && m.size == size

def Mapping.range (m : Mapping) : Nat × Nat := (m.addr, m.size)

/-- `munmap` takes the mapping down. -/
def Kernel.unmap (k : Kernel) (addr size : Nat) : Kernel :=
  { k with maps := k.maps.eraseP (Mapping.at addr size) }

/-- `munmap` fails: the mapping stays. -/
def Kernel.refuse (k : Kernel) : Kernel := { k with refused := k.refused + 1 }

/-- The bytes are mapped. -/
def Kernel.Covers (k : Kernel) (addr n : Nat) : Prop :=
  ∃ m ∈ k.maps, m.addr ≤ addr ∧ addr + n ≤ m.addr + m.size

/-- The bytes can be written. -/
def Kernel.Writable (k : Kernel) (addr n : Nat) : Prop :=
  ∃ m ∈ k.maps, m.writable ∧ m.addr ≤ addr ∧ addr + n ≤ m.addr + m.size

/-- **The kernel**: any call may fail, `open` and `mmap` return what is not in use. -/
def kernel : World Call.Answer Kernel where
  inOrder k c :=
    match c with
    | .interrupted | .fileExists _ | .stat _ | .open _ _ _ => True
    | .fallocate fd _ | .ftruncate fd _ | .fstat fd | .mmap fd _ _ _ | .close fd => fd ∈ k.fds
    | .madvise addr size _ | .mlock addr size | .munlock addr size | .msync addr size _
    | .munmap addr size =>
        ∃ m ∈ k.maps, Mapping.at addr size m
    | .touch addr size | .zero addr size => k.Covers addr size
    | .readField addr f | .writeField addr f _ => k.Covers (addr + f.offset) f.width
  answers k c :=
    match c with
    | .open _ _ _ => fun x k' =>
        match x with
        | .error _ => k' = k
        | .ok fd => fd ∉ k.fds ∧ k' = { k with fds := fd :: k.fds }
    | .mmap _ size write _ => fun x k' =>
        match x with
        | .error _ => k' = k
        | .ok addr => addr ≠ 0 ∧ (∀ m ∈ k.maps, Mapping.Apart ⟨addr, size, write⟩ m) ∧
            k' = { k with maps := ⟨addr, size, write⟩ :: k.maps }
    | .close fd => fun _ k' => k' = { k with fds := k.fds.erase fd }
    | .munmap addr size => fun x k' => k' = if x = none then k.unmap addr size else k.refuse
    | .zero addr size => fun _ k' => k.Writable addr size ∧ k' = k
    | .writeField addr f _ => fun _ k' => k.Writable (addr + f.offset) f.width ∧ k' = k
    | _ => fun _ k' => k' = k

end MmapBuffer

/-! ## The functions -/

open MmapBuffer

/-- `MmapError`, by the place it is thrown at. -/
inductive MmapError where
  | open (path : String) (errno : Nat)
  | allocate (path : String) (errno : Nat)
  | mmap (path : String) (errno : Nat)
  | mlock (path : String) (errno : Nat)
  | openExisting (path : String) (errno : Nat)
  | statExisting (path : String) (errno : Nat)
  | unexpectedSize (path : String) (required found : Nat)
  | mmapReadOnly (path : String) (errno : Nat)
  | prepareNull (path : String)
  | populateRead (path : String) (errno : Nat)
deriving DecidableEq

/-- `what()`. -/
def MmapError.what (strerror : Nat → String) : MmapError → String
  | .open path errno => s!"failed to open file: {path} errno: {errno}"
  | .allocate path errno => s!"failed to allocate file: {path} errno: {errno}"
  | .mmap path errno => s!"mmap failed: {path} errno: {errno} (" ++ strerror errno ++ ")"
  | .mlock path errno =>
      s!"mlock failed: {path} errno: {errno} (" ++ strerror errno ++ ") - check ulimit -l"
  | .openExisting path errno => s!"failed to open existing file: {path} errno: {errno}"
  | .statExisting path errno => s!"failed to stat existing file: {path} errno: {errno}"
  | .unexpectedSize path required found =>
      s!"unexpected file size: {path} required: {required} found: {found}"
  | .mmapReadOnly path errno =>
      s!"read-only mmap failed: {path} errno: {errno} (" ++ strerror errno ++ ")"
  | .prepareNull path => s!"cannot prepare null read-only mmap: {path}"
  | .populateRead path errno =>
      s!"MADV_POPULATE_READ failed: {path} errno: {errno} (" ++ strerror errno ++ ")"

namespace MmapBuffer

variable {ε : Type}

namespace Sys

abbrev interrupted : Program Call.Answer ε Bool := .ask (C := Call) .interrupted
abbrev stat (path : String) : Program Call.Answer ε (Option Nat) := .ask (C := Call) (.stat path)
abbrev openFd (path : String) (write creat : Bool) : Program Call.Answer ε (Except Nat Nat) :=
  .ask (C := Call) (.open path write creat)
abbrev fallocate (fd size : Nat) : Program Call.Answer ε Status :=
  .ask (C := Call) (.fallocate fd size)
abbrev ftruncate (fd size : Nat) : Program Call.Answer ε Status :=
  .ask (C := Call) (.ftruncate fd size)
abbrev fstat (fd : Nat) : Program Call.Answer ε (Except Nat Nat) := .ask (C := Call) (.fstat fd)
abbrev mmap (fd size : Nat) (write populate : Bool) : Program Call.Answer ε (Except Nat Nat) :=
  .ask (C := Call) (.mmap fd size write populate)
abbrev close (fd : Nat) : Program Call.Answer ε Unit := .ask (C := Call) (.close fd)
abbrev madvise (addr size : Nat) (advice : Advice) : Program Call.Answer ε Status :=
  .ask (C := Call) (.madvise addr size advice)
abbrev mlock (addr size : Nat) : Program Call.Answer ε Status := .ask (C := Call) (.mlock addr size)
abbrev munlock (addr size : Nat) : Program Call.Answer ε Status :=
  .ask (C := Call) (.munlock addr size)
abbrev msync (addr size : Nat) (sync : Bool) : Program Call.Answer ε Status :=
  .ask (C := Call) (.msync addr size sync)
abbrev munmap (addr size : Nat) : Program Call.Answer ε Status :=
  .ask (C := Call) (.munmap addr size)
abbrev touch (addr size : Nat) : Program Call.Answer ε Unit := .ask (C := Call) (.touch addr size)
abbrev zero (addr size : Nat) : Program Call.Answer ε Unit := .ask (C := Call) (.zero addr size)
abbrev fileExists (path : String) : Program Call.Answer ε Bool :=
  .ask (C := Call) (.fileExists path)
abbrev readField (addr : Nat) (field : Field) : Program Call.Answer ε Nat :=
  .ask (C := Call) (.readField addr field)
abbrev writeField (addr : Nat) (field : Field) (value : Nat) : Program Call.Answer ε Unit :=
  .ask (C := Call) (.writeField addr field value)

end Sys

/-- What a system call throws if it fails, and what is done before. -/
def orThrow (status : Status) (cleanup : Program Call.Answer MmapError Unit) (e : Nat → MmapError) :
    Program Call.Answer MmapError Unit :=
  match status with
  | none => pure ()
  | some errno => cleanup >>= fun _ => .throw (e errno)

/-- `open`. -/
def openFile (path : String) (write creat : Bool) (e : Nat → MmapError) :
    Program Call.Answer MmapError Nat := do
  match ← Sys.openFd path write creat with
  | .ok fd => pure fd
  | .error errno => .throw (e errno)

/-- The allocation: `fallocate`, and if that fails `ftruncate`. -/
def allocate (path : String) (fd size : Nat) : Program Call.Answer MmapError Unit := do
  match ← Sys.fallocate fd size with
  | none => pure ()
  | some _ =>
    let status ← Sys.ftruncate fd size
    orThrow status (Sys.close fd) (.allocate path)

/-- `mmap`, and the `close` behind it. -/
def mapFile (fd size : Nat) (write populate : Bool) (e : Nat → MmapError) :
    Program Call.Answer MmapError Nat := do
  let buffer ← Sys.mmap fd size write populate
  Sys.close fd
  match buffer with
  | .ok addr => pure addr
  | .error errno => .throw (e errno)

/-- What `prefault` asks for: advice, `mlock`, and every page faulted in. -/
def prefaultBuffer (path : String) (buffer size : Nat) (fileExists : Bool) :
    Program Call.Answer MmapError Unit := do
  let _ ← Sys.madvise buffer size .sequential
  let _ ← Sys.madvise buffer size .hugepage
  let status ← Sys.mlock buffer size
  orThrow status (Sys.munmap buffer size >>= fun _ => pure ()) (.mlock path)
  if !fileExists then Sys.zero buffer size else Sys.touch buffer size

/-- `loadMmapBuffer`. -/
def loadMmapBuffer (path : String) (size : Nat) (isWriting prefault : Bool) :
    Program Call.Answer MmapError Nat := do
  let master := isWriting || prefault
  let st ← Sys.stat path
  let fd ← openFile path master true (.open path)
  .when (master && st != some size) (allocate path fd size)
  let buffer ← mapFile fd size master prefault (.mmap path)
  .when prefault (prefaultBuffer path buffer size st.isSome)
  pure buffer

/-- `prepareReadOnlyMmapBuffer`. -/
def prepareReadOnlyMmapBuffer (path : String) (address size : Nat)
    (populateRead adviseHugepage : Bool) :
    Program Call.Answer MmapError Unit := do
  .when (address == 0) (.throw (.prepareNull path))
  .when adviseHugepage (do let _ ← Sys.madvise address size .hugepage)
  .when populateRead do
    let status ← Sys.madvise address size .populateRead
    orThrow status (pure ()) (.populateRead path)

/-- `loadExistingReadOnlyMmapBuffer`. -/
def loadExistingReadOnlyMmapBuffer (path : String) (size : Nat)
    (populateRead adviseHugepage : Bool) :
    Program Call.Answer MmapError Nat := do
  let fd ← openFile path false false (.openExisting path)
  match ← Sys.fstat fd with
  | .error errno =>
    Sys.close fd
    .throw (.statExisting path errno)
  | .ok found =>
    .when (found != size) do
      Sys.close fd
      .throw (.unexpectedSize path size found)
    let buffer ← mapFile fd size false false (.mmapReadOnly path)
    (prepareReadOnlyMmapBuffer path buffer size populateRead adviseHugepage).rethrow fun e => do
      let _ ← Sys.munmap buffer size
      .throw e
    pure buffer

/-- `MsyncMode`. -/
inductive MsyncMode where
  | none | async | sync
deriving DecidableEq

/-- The `msync` of `releaseMmapBuffer`: a synchronous one must not fail. -/
def syncBuffer (address size : Nat) : MsyncMode → Program Call.Answer ε Bool
  | .sync => do
    let status ← Sys.msync address size true
    pure status.isNone
  | .async => do
    let _ ← Sys.msync address size false
    pure true
  | .none => pure true

/-- `releaseMmapBuffer`. -/
def releaseMmapBuffer (address size : Nat) (prefault : Bool) (mode : MsyncMode) :
    Program Call.Answer ε Bool := do
  if address = 0 then pure false
  else do
    .when prefault (do let _ ← Sys.munlock address size)
    let synced ← syncBuffer address size mode
    if synced then
      let status ← Sys.munmap address size
      pure status.isNone
    else pure false

/-! ## What they do to descriptors and mappings -/

variable {k : Kernel} {path : String} {fd size addr : Nat} {fds : List Nat} {maps : List Mapping}

/-- **A mapping more**, and nothing else. -/
structure Gains (k k' : Kernel) (m : Mapping) : Prop where
  fds : k'.fds = k.fds
  maps : k'.maps = m :: k.maps
  refused : k'.refused = k.refused
  addr : m.addr ≠ 0

/-- **A mapping less**; but where `munmap` fails it stays. -/
def Loses (k k' : Kernel) (addr size : Nat) : Prop := k' = k.unmap addr size ∨ k' = k.refuse

/-- Nothing is left; but where the clean-up's `munmap` fails, its mapping is. -/
def Same (k k' : Kernel) : Prop :=
  k' = k ∨ ∃ m, k' = { k with maps := m :: k.maps, refused := k.refused + 1 }

theorem Gains.cons (k : Kernel) {m : Mapping} (h : m.addr ≠ 0) :
    Gains k { k with maps := m :: k.maps } m := ⟨rfl, rfl, rfl, h⟩

theorem Loses.descriptors {k' : Kernel} (h : Loses k k' addr size) : k'.fds = k.fds := by
  rcases h with rfl | rfl
  · rfl
  · rfl

theorem Same.descriptors {k' : Kernel} (h : Same k k') : k'.fds = k.fds := by
  rcases h with rfl | ⟨m, rfl⟩
  · rfl
  · rfl

theorem ensures_orThrow {cleanup : Program Call.Answer MmapError Unit} {status : Status}
    {e : Nat → MmapError} {Q : Unit → Kernel → Prop} {R : MmapError → Kernel → Prop} (hok : Q () k)
    (hfail : Ensures kernel cleanup k (fun _ k' => ∀ errno, R (e errno) k') R) :
    Ensures kernel (orThrow status cleanup e) k Q R := by
  cases status with
  | none => exact hok
  | some errno =>
    rw [orThrow, ensures_bind]
    exact hfail.mono (fun _ _ h => h errno) fun _ _ h => h

theorem ensures_openFile {write creat : Bool} {e : Nat → MmapError} :
    Ensures kernel (openFile path write creat e) k (fun fd k' => k' = { k with fds := fd :: k.fds })
      fun _ k' => k' = k := by
  rw [openFile, ensures_ask_bind]
  refine ⟨trivial, fun x k' h => ?_⟩
  cases x with
  | ok fd => exact h.2
  | error errno => exact h

/-- The descriptor on top is closed. -/
theorem ensures_close {Q : Unit → Kernel → Prop} {R : MmapError → Kernel → Prop}
    (hk : k.fds = fd :: fds) (h : Q () { k with fds := fds }) :
    Ensures kernel (Sys.close fd) k Q R := by
  refine ⟨show fd ∈ k.fds by rw [hk]; exact List.mem_cons_self, fun x k' hx => ?_⟩
  have hx : k' = { k with fds := k.fds.erase fd } := hx
  rw [hk, List.erase_cons_head] at hx
  rw [hx]
  exact h

theorem ensures_allocate (hk : k.fds = fd :: fds) :
    Ensures kernel (allocate path fd size) k (fun _ k' => k' = k) fun _ k' =>
        k' = { k with fds := fds } := by
  have hfd : fd ∈ k.fds := by
    rw [hk]
    exact List.mem_cons_self
  rw [allocate, ensures_ask_bind]
  refine ⟨hfd, fun x k₁ hx => ?_⟩
  obtain rfl : k₁ = k := hx
  cases x with
  | none => rfl
  | some errno =>
    rw [ensures_ask_bind]
    refine ⟨hfd, fun x k₂ hx => ?_⟩
    obtain rfl : k₂ = k₁ := hx
    exact ensures_orThrow rfl (ensures_close hk fun _ => rfl)

theorem ensures_mapFile {write populate : Bool} {e : Nat → MmapError} (hk : k.fds = fd :: fds) :
    Ensures kernel (mapFile fd size write populate e) k
      (fun addr k' => addr ≠ 0 ∧ k' = { k with fds := fds, maps := ⟨addr, size, write⟩ :: k.maps })
      fun _ k' => k' = { k with fds := fds } := by
  rw [mapFile, ensures_ask_bind]
  refine ⟨show fd ∈ k.fds by rw [hk]; exact List.mem_cons_self, fun x k' hx => ?_⟩
  rw [ensures_bind]
  cases x with
  | ok addr =>
    obtain ⟨h0, -, rfl⟩ := hx
    exact ensures_close hk ⟨h0, rfl⟩
  | error errno =>
    obtain rfl : k' = k := hx
    exact ensures_close hk rfl

theorem Mapping.at_iff {m : Mapping} : Mapping.at addr size m = true ↔ m.range = (addr, size) := by
  rw [Mapping.at, Bool.and_eq_true, beq_iff_eq, beq_iff_eq, Mapping.range, Prod.mk.injEq]

theorem Mapping.at_self (m : Mapping) : Mapping.at m.addr m.size m = true := by
  rw [Mapping.at, beq_self_eq_true, beq_self_eq_true]
  rfl

/-- What was mapped last is taken down again. -/
theorem Gains.loses {k₁ k' : Kernel} {m : Mapping} (h : Gains k k₁ m)
    (hk' : Loses k₁ k' m.addr m.size) : Same k k' := by
  obtain ⟨fds₁, maps₁, refused₁⟩ := k₁
  obtain ⟨rfl, rfl, rfl, -⟩ := h
  rcases hk' with rfl | rfl
  · rw [Kernel.unmap, List.eraseP_cons_of_pos m.at_self]
    exact Or.inl rfl
  · exact Or.inr ⟨m, rfl⟩

/-- `munmap`, or its refusal. -/
theorem ensures_munmap {Q : Status → Kernel → Prop} {R : ε → Kernel → Prop}
    (hk : ∃ m ∈ k.maps, Mapping.at addr size m)
    (h : ∀ status k', Loses k k' addr size → Q status k') :
    Ensures kernel (Sys.munmap addr size) k Q R := by
  refine ⟨hk, fun x k' hx => h x k' ?_⟩
  have hx : k' = if x = none then k.unmap addr size else k.refuse := hx
  split at hx
  · exact Or.inl hx
  · exact Or.inr hx

/-- The mapping on top is taken down. -/
theorem ensures_munmap_head {k₀ : Kernel} {m : Mapping} {Q : Status → Kernel → Prop}
    {R : ε → Kernel → Prop} (hk : Gains k₀ k m) (h : ∀ status k', Same k₀ k' → Q status k') :
    Ensures kernel (Sys.munmap m.addr m.size) k Q R := by
  refine ensures_munmap ⟨m, ?_, m.at_self⟩ fun status k' hk' => h status k' (hk.loses hk')
  rw [hk.maps]
  exact List.mem_cons_self

theorem ensures_prefaultBuffer {k₀ : Kernel} {fileExists : Bool}
    (hk : Gains k₀ k ⟨addr, size, true⟩) :
    Ensures kernel (prefaultBuffer path addr size fileExists) k (fun _ k' => k' = k)
      fun _ k' => Same k₀ k' := by
  have hmem : (⟨addr, size, true⟩ : Mapping) ∈ k.maps := by
    rw [hk.maps]
    exact List.mem_cons_self
  have hmapped : ∃ m ∈ k.maps, Mapping.at addr size m :=
    ⟨_, hmem, Mapping.at_self ⟨addr, size, true⟩⟩
  have hcovers : k.Covers addr size := ⟨_, hmem, Nat.le_refl _, Nat.le_refl _⟩
  rw [prefaultBuffer, ensures_ask_bind]
  refine ⟨hmapped, fun x k₁ hx => ?_⟩
  obtain rfl : k₁ = k := hx
  rw [ensures_ask_bind]
  refine ⟨hmapped, fun x k₂ hx => ?_⟩
  obtain rfl : k₂ = k₁ := hx
  rw [ensures_ask_bind]
  refine ⟨hmapped, fun status k₃ hx => ?_⟩
  obtain rfl : k₃ = k₂ := hx
  rw [ensures_bind]
  refine ensures_orThrow ?_ ?_
  · cases fileExists with
    | false => exact ⟨hcovers, fun x k' hx => hx.2⟩
    | true => exact ⟨hcovers, fun x k' hx => hx⟩
  · rw [ensures_bind]
    exact ensures_munmap_head hk fun status k' hk' _ => hk'

/-- **`loadMmapBuffer`**: the mapping that is returned is the only thing left behind, and
nothing is if it throws, but for what its own `munmap` could not take down. -/
theorem ensures_loadMmapBuffer (k : Kernel) (path : String) (size : Nat)
    (isWriting prefault : Bool) :
    Ensures kernel (loadMmapBuffer path size isWriting prefault) k
      (fun addr k' => Gains k k' ⟨addr, size, isWriting || prefault⟩) fun _ k' => Same k k' := by
  rw [loadMmapBuffer, ensures_ask_bind]
  refine ⟨trivial, fun st k₁ hx => ?_⟩
  obtain rfl : k₁ = k := hx
  rw [ensures_bind]
  refine ensures_openFile.mono (fun fd k₂ hk₂ => ?_) fun e k' he => Or.inl he
  subst hk₂
  rw [ensures_bind]
  -- with or without the allocation, the descriptor is on top
  have hallocate : Ensures kernel
      (.when ((isWriting || prefault) && st != some size) (allocate path fd size))
      { k₁ with fds := fd :: k₁.fds } (fun _ k' => k' = { k₁ with fds := fd :: k₁.fds })
      fun _ k' => k' = k₁ :=
    ensures_when.mpr ⟨fun _ => ensures_allocate rfl, fun _ => rfl⟩
  refine hallocate.mono (fun _ k₃ hk₃ => ?_) fun e k' he => Or.inl he
  subst hk₃
  rw [ensures_bind]
  refine (ensures_mapFile rfl).mono (fun addr k₄ hk₄ => ?_) fun e k' he => Or.inl he
  obtain ⟨h0, rfl⟩ := hk₄
  rw [ensures_bind, ensures_when]
  constructor
  · rintro rfl
    rw [Bool.or_true]
    have hk := Gains.cons k₁ (m := ⟨addr, size, true⟩) h0
    refine (ensures_prefaultBuffer hk).mono (fun _ k' hk' => ?_) fun e k' he => he
    subst hk'
    exact hk
  · intro _
    exact Gains.cons k₁ h0

theorem ensures_prepareReadOnlyMmapBuffer {populateRead adviseHugepage : Bool} (h0 : addr ≠ 0)
    (hk : ∃ m ∈ k.maps, Mapping.at addr size m) :
    Ensures kernel (prepareReadOnlyMmapBuffer path addr size populateRead adviseHugepage) k
      (fun _ k' => k' = k)
      fun _ k' => k' = k := by
  rw [prepareReadOnlyMmapBuffer, ensures_bind, ensures_when]
  refine ⟨fun hnull => absurd (of_decide_eq_true hnull) h0, fun _ => ?_⟩
  have hadvise : Ensures kernel (.when adviseHugepage do let _ ← Sys.madvise addr size .hugepage) k
      (fun _ k' => k' = k) fun (_ : MmapError) k' => k' = k :=
    ensures_when.mpr ⟨fun _ => ⟨hk, fun x k' hx => hx⟩, fun _ => rfl⟩
  rw [ensures_bind]
  refine hadvise.mono (fun _ k₁ hk₁ => ?_) fun e k' he => he
  subst hk₁
  rw [ensures_when]
  refine ⟨fun _ => ?_, fun _ => rfl⟩
  rw [ensures_ask_bind]
  refine ⟨hk, fun status k₂ hx => ?_⟩
  obtain rfl : k₂ = k₁ := hx
  exact ensures_orThrow rfl fun _ => rfl

/-- **`loadExistingReadOnlyMmapBuffer`**: as for `loadMmapBuffer`. -/
theorem ensures_loadExistingReadOnlyMmapBuffer (k : Kernel) (path : String) (size : Nat)
    (populateRead adviseHugepage : Bool) :
    Ensures kernel (loadExistingReadOnlyMmapBuffer path size populateRead adviseHugepage) k
      (fun addr k' => Gains k k' ⟨addr, size, false⟩) fun _ k' => Same k k' := by
  rw [loadExistingReadOnlyMmapBuffer, ensures_bind]
  refine ensures_openFile.mono (fun fd k₁ hk₁ => ?_) fun e k' he => Or.inl he
  subst hk₁
  rw [ensures_ask_bind]
  refine ⟨show fd ∈ fd :: k.fds from List.mem_cons_self, fun x k₂ hx => ?_⟩
  obtain rfl : k₂ = _ := hx
  cases x with
  | error errno =>
    rw [ensures_bind]
    exact ensures_close rfl (Or.inl rfl)
  | ok found =>
    rw [ensures_bind, ensures_when]
    constructor
    · intro _
      rw [ensures_bind]
      exact ensures_close rfl (Or.inl rfl)
    · intro _
      rw [ensures_bind]
      refine (ensures_mapFile rfl).mono (fun addr k₃ hk₃ => ?_) fun e k' he => Or.inl he
      obtain ⟨h0, rfl⟩ := hk₃
      have hmap := Mapping.at_self ⟨addr, size, false⟩
      rw [ensures_bind, ensures_rethrow]
      refine (ensures_prepareReadOnlyMmapBuffer h0 ⟨_, List.mem_cons_self, hmap⟩).mono
        (fun _ k' hk' => ?_) fun e k' hk' => ?_
      · subst hk'
        exact Gains.cons k h0
      · subst hk'
        rw [ensures_bind]
        have hk := Gains.cons k (m := ⟨addr, size, false⟩) h0
        exact ensures_munmap_head hk fun status k' hk' => hk'

/-- **`releaseMmapBuffer`** takes the mapping down, unless `munmap` fails or a synchronous
`msync` does. -/
theorem ensures_releaseMmapBuffer {prefault : Bool} {mode : MsyncMode} {R : ε → Kernel → Prop}
    (h0 : addr ≠ 0) (hk : ∃ m ∈ k.maps, Mapping.at addr size m) :
    Ensures kernel (releaseMmapBuffer addr size prefault mode) k
      (fun released k' => Loses k k' addr size ∨ mode = .sync ∧ released = false ∧ k' = k) R := by
  have hunlock : Ensures kernel (.when prefault do let _ ← Sys.munlock addr size) k
      (fun _ k' => k' = k) R :=
    ensures_when.mpr ⟨fun _ => ⟨hk, fun x k' hx => hx⟩, fun _ => rfl⟩
  have hsync : Ensures kernel (syncBuffer addr size mode) k
      (fun synced k' => k' = k ∧ (synced = false → mode = .sync)) R := by
    cases mode with
    | none => exact ⟨rfl, fun h => (by cases h)⟩
    | async => exact ⟨hk, fun x k' hx => ⟨hx, fun h => (by cases h)⟩⟩
    | sync => exact ⟨hk, fun x k' hx => ⟨hx, fun _ => rfl⟩⟩
  rw [releaseMmapBuffer, if_neg h0, ensures_bind]
  refine hunlock.mono (fun _ k₁ hk₁ => ?_) fun e k' he => he
  subst hk₁
  rw [ensures_bind]
  refine hsync.mono (fun synced k₂ hk₂ => ?_) fun e k' he => he
  obtain ⟨rfl, hsynced⟩ := hk₂
  cases synced with
  | false => exact Or.inr ⟨hsynced rfl, rfl, rfl⟩
  | true =>
    rw [if_pos rfl, ensures_bind]
    exact ensures_munmap hk fun status k' hk' => Or.inl hk'

end MmapBuffer

end Revoq
