import Mathlib.Data.List.Perm.Basic
import Revoq.MmapBuffer

/-! # Who holds the mappings

A `Page` owns its mapping and takes it down when it is destroyed.  Between
`loadMmapBuffer` and the `Page` object, and between a warmer and the thread that takes
the warmed page, the mapping is a bare address.

This module puts the places that make, pass on and release mappings next to each other
and keeps the account of them, whatever the kernel answers (`Process`, `Step`).
-/
namespace Revoq
open ByteImage CallProgram MmapBuffer

/-- `JournalError`, by the place it is thrown at. -/
inductive JournalError where
  | mmapPage (path : String) (cause : MmapError)
  | nullAddress (path : String)
  | version (path : String) (found : Nat)
  | headerLength (path : String) (found : Nat)
  | pageSize (path : String) (required found : Nat)
  | lastFramePosition (path : String) (found size : Nat)
  | nullWarmed
  | warmedVersion (id : Int) (found : Nat)
  | warmedHeaderLength (id : Int) (found : Nat)
deriving DecidableEq

/-- `what()`. -/
def JournalError.what (strerror : Nat → String) : JournalError → String
  | .mmapPage path cause => s!"Failed to mmap page {path}: " ++ cause.what strerror
  | .nullAddress path => s!"MmapBuffer returned null address for page {path}"
  | .version path found =>
      s!"Version mismatch for page {path}, required {journalPageVersion}, found {found}"
  | .headerLength path found =>
      s!"Header length mismatch for page {path}, required {pageHeaderSize}, found {found}"
  | .pageSize path required found =>
      s!"Page size mismatch for page {path}, required {required}, found {found}"
  | .lastFramePosition path found size =>
      s!"Invalid last_frame_position {found} for page {path} (size {size}), resetting"
  | .nullWarmed => "Cannot load page from null address"
  | .warmedVersion id found =>
      s!"version mismatch for pre-warmed page {id} (expected {journalPageVersion}, got {found})"
  | .warmedHeaderLength id found =>
      s!"header length mismatch for pre-warmed page {id} (expected {pageHeaderSize}, got {found})"

/-- The errors that come after the page was mapped. -/
def JournalError.afterMapping : JournalError → Bool
  | .mmapPage _ _ => false
  | _ => true

namespace PageMappings

/-- What a `Page` releases its mapping by. -/
structure Page where
  address : Nat
  size : Nat
  prefault : Bool
  category : Category
deriving DecidableEq

variable {ε α : Type}

/-- The header of a new page. -/
def initHeader (address size : Nat) : Program Call.Answer ε Unit := do
  Sys.writeField address PageField.version journalPageVersion
  Sys.writeField address PageField.pageHeaderLength pageHeaderSize
  Sys.writeField address PageField.pageSize size
  Sys.writeField address PageField.frameHeaderLength frameHeaderSize
  Sys.writeField address PageField.lastFramePosition pageHeaderSize

/-- A check of a header field; the message reads the field once more. -/
def check (address : Nat) (field : Field) (valid : Nat → Bool) (e : Nat → JournalError) :
    Program Call.Answer JournalError Unit := do
  let value ← Sys.readField address field
  .when (!valid value) do
    let found ← Sys.readField address field
    .throw (e found)

/-- `Page::load`. -/
def load (path : String) (category : Category) (P : PageSize) (isWriting prefault : Bool) :
    Program Call.Answer JournalError Page := do
  let address ← (loadMmapBuffer path P.bytes isWriting prefault).rethrow fun e =>
    .throw (.mmapPage path e)
  .when (address == 0) (.throw (.nullAddress path))
  let position ← Sys.readField address PageField.lastFramePosition
  .when (position == 0) do
    Sys.zero address pageHeaderSize
    initHeader address P.bytes
  check address PageField.version (· == journalPageVersion) (.version path)
  check address PageField.pageHeaderLength (· == pageHeaderSize) (.headerLength path)
  check address PageField.pageSize (· == P.bytes) (.pageSize path P.bytes)
  check address PageField.lastFramePosition (decide <| · < P.bytes)
    (.lastFramePosition path · P.bytes)
  pure ⟨address, P.bytes, prefault, category⟩

/-- `Page::loadFromAddress`. -/
def loadFromAddress (id : Int) (category : Category) (address : Nat) (prefault : Bool) :
    Program Call.Answer JournalError Page := do
  .when (address == 0) (.throw .nullWarmed)
  let size ← Sys.readField address PageField.pageSize
  check address PageField.version (· == journalPageVersion) (.warmedVersion id)
  check address PageField.pageHeaderLength (· == pageHeaderSize) (.warmedHeaderLength id)
  pure ⟨address, size, prefault, category⟩

/-- The `MsyncMode` of `~Page`. -/
def Page.msyncMode (page : Page) : MsyncMode :=
  if page.category = .marketdata ∨ page.category = .researchdata then .none else .async

/-- `~Page`. -/
def destroy (page : Page) : Program Call.Answer ε Unit :=
  .when (page.address != 0) do
    let _ ← releaseMmapBuffer page.address page.size page.prefault page.msyncMode

/-- `PageWarmer::warmPageIntoSlot`, up to the slot. -/
def warmPageIntoSlot (path : String) (size : Nat) (isWriter : Bool) :
    Program Call.Answer MmapError Nat := do
  let fileExisted ← Sys.fileExists path
  let addr ← loadMmapBuffer path size isWriter true
  .when (isWriter && !fileExisted) do
    initHeader addr size
    Sys.zero (addr + pageHeaderSize) (size - pageHeaderSize)
  pure addr

/-- The wait for the page file in `readerWarmerLoop`, one turn a millisecond. -/
def awaitFile (path : String) (size : Nat) : Nat → Program Call.Answer ε Bool
  | 0 => pure false
  | ms + 1 => do
    if ← Sys.interrupted then pure false
    else if (← Sys.stat path) = some size then pure true
    else awaitFile path size ms

/-- The wait for its header. -/
def awaitHeader (addr : Nat) : Nat → Program Call.Answer ε Bool
  | 0 => pure false
  | ms + 1 => do
    if ← Sys.interrupted then pure false
    else
      let version ← Sys.readField addr PageField.version
      let headerLength ← Sys.readField addr PageField.pageHeaderLength
      if version = journalPageVersion ∧ headerLength = pageHeaderSize then pure true
      else awaitHeader addr ms

/-- `releaseMmapBuffer` by a warmer. -/
def release (addr size : Nat) : Program Call.Answer ε Unit := do
  let _ ← releaseMmapBuffer addr size false .none

/-- A warmer that gives up on a page it has mapped. -/
def releasing (addr size : Nat) : Program Call.Answer ε (Option α) := do
  release addr size
  pure none

/-- The mapping of a page in `readerWarmerLoop`, from `loadExistingReadOnlyMmapBuffer` to
`warmer_addr_`. -/
def warmMapped (path : String) (size timeoutMs addr : Nat) :
    Program Call.Answer ε (Option Nat) := do
  if ← awaitHeader addr timeoutMs then
    let prepared ← (do
      prepareReadOnlyMmapBuffer path addr size true true
      pure true).rethrow fun _ => pure false
    if prepared then
      if ← Sys.interrupted then releasing addr size else pure (some addr)
    else releasing addr size
  else releasing addr size

/-- A turn of `readerWarmerLoop`: what it leaves in `warmer_addr_`, if anything. -/
def readerWarm (path : String) (size timeoutMs : Nat) : Program Call.Answer ε (Option Nat) := do
  if ← awaitFile path size timeoutMs then
    if ← Sys.interrupted then pure none
    else
      let mapped ← (do
        let addr ← loadExistingReadOnlyMmapBuffer path size false false
        pure (some addr)).rethrow fun _ => pure none
      match mapped with
      | none => pure none
      | some addr => warmMapped path size timeoutMs addr
  else pure none

/-- The warmed page in `Journal::loadPage`; without a page it goes on to `Page::load`. -/
def takeWarmed (id : Int) (category : Category) (addr size : Nat) :
    Program Call.Answer ε (Option Page) :=
  (do
    let page ← loadFromAddress id category addr false
    pure (some page)).rethrow fun _ => releasing addr size

/-! ## What they do to the mappings -/

variable {k : Kernel} {path : String} {category : Category} {P : PageSize} {addr size : Nat}

/-- A page header is mapped at the address. -/
def HeaderAt (k : Kernel) (addr : Nat) : Prop :=
  ∃ m ∈ k.maps, m.addr = addr ∧ pageHeaderSize ≤ m.size

theorem HeaderAt.covers (h : HeaderAt k addr) {f : Field}
    (hf : f.offset + f.width ≤ pageHeaderSize) :
    k.Covers (addr + f.offset) f.width := by
  obtain ⟨m, hm, rfl, hsize⟩ := h
  exact ⟨m, hm, by omega, by omega⟩

theorem headerAt_head {w : Bool} {maps : List Mapping} (hk : k.maps = ⟨addr, size, w⟩ :: maps)
    (hsize : pageHeaderSize ≤ size) : HeaderAt k addr :=
  ⟨_, by rw [hk]; exact List.mem_cons_self, rfl, hsize⟩

theorem ensures_writeField (h : HeaderAt k addr) {f : Field} {v : Nat}
    (hf : f.offset + f.width ≤ pageHeaderSize) {R : ε → Kernel → Prop} :
    Ensures kernel (Sys.writeField addr f v) k (fun _ k' => k' = k) R :=
  ⟨h.covers hf, fun _ _ hx => hx.2⟩

theorem ensures_initHeader (h : HeaderAt k addr) {R : ε → Kernel → Prop} :
    Ensures kernel (initHeader addr size) k (fun _ k' => k' = k) R := by
  have hwrite : ∀ (f : Field) (v : Nat) (Q : Unit → Kernel → Prop),
      f.offset + f.width ≤ pageHeaderSize → Q () k →
      Ensures kernel (Sys.writeField addr f v) k Q R := fun f v Q hf hQ =>
    (ensures_writeField h hf).mono (fun _ k' hk' => hk' ▸ hQ) fun _ _ he => he
  rw [initHeader, ensures_bind]
  refine hwrite _ _ _ (by decide) ?_
  rw [ensures_bind]
  refine hwrite _ _ _ (by decide) ?_
  rw [ensures_bind]
  refine hwrite _ _ _ (by decide) ?_
  rw [ensures_bind]
  refine hwrite _ _ _ (by decide) ?_
  exact hwrite _ _ _ (by decide) rfl

theorem ensures_check (h : HeaderAt k addr) {f : Field} (hf : f.offset + f.width ≤ pageHeaderSize)
    {valid : Nat → Bool} {e : Nat → JournalError} {Q : Unit → Kernel → Prop}
    {R : JournalError → Kernel → Prop} (hQ : Q () k) (hR : ∀ found, R (e found) k) :
    Ensures kernel (check addr f valid e) k Q R := by
  rw [check, ensures_ask_bind]
  refine ⟨h.covers hf, fun value k₁ hx => ?_⟩
  obtain rfl : k₁ = k := hx
  rw [ensures_when]
  refine ⟨fun _ => ?_, fun _ => hQ⟩
  rw [ensures_ask_bind]
  refine ⟨h.covers hf, fun found k₂ hx => ?_⟩
  obtain rfl : k₂ = k₁ := hx
  exact hR found

/-- **`Page::load`**: a page with its mapping, or nothing; but where the header is
rejected, the mapping is left behind. -/
theorem ensures_load (k : Kernel) (path : String) (category : Category) (P : PageSize)
    (isWriting prefault : Bool) :
    Ensures kernel (load path category P isWriting prefault) k
      (fun page k' => page.size = P.bytes ∧
        Gains k k' ⟨page.address, P.bytes, isWriting || prefault⟩)
      fun e k' => if e.afterMapping then ∃ addr, Gains k k' ⟨addr, P.bytes, isWriting || prefault⟩
        else Same k k' := by
  have hbytes : pageHeaderSize ≤ P.bytes := by
    have := P.roomy
    rw [pageHeaderSize]
    omega
  rw [load, ensures_bind, ensures_rethrow]
  refine (ensures_loadMmapBuffer k path P.bytes isWriting prefault).mono (fun addr k₁ hk₁ => ?_)
    fun e k' he => he
  have hmap := headerAt_head hk₁.maps hbytes
  rw [ensures_bind, ensures_when]
  refine ⟨fun hnull => absurd (of_decide_eq_true hnull) hk₁.addr, fun _ => ?_⟩
  rw [ensures_ask_bind]
  refine ⟨hmap.covers (by decide), fun position k₂ hx => ?_⟩
  obtain rfl : k₂ = k₁ := hx
  rw [ensures_bind]
  have hinit : Ensures kernel (.when (position == 0) do
      Sys.zero addr pageHeaderSize
      initHeader addr P.bytes) k₂ (fun _ k' => k' = k₂) fun (_ : JournalError) _ => False := by
    rw [ensures_when]
    refine ⟨fun _ => ?_, fun _ => rfl⟩
    rw [ensures_ask_bind]
    refine ⟨hmap.covers (f := ⟨0, pageHeaderSize⟩) (by decide), fun x k₃ hx => ?_⟩
    obtain rfl : k₃ = k₂ := hx.2
    exact ensures_initHeader hmap
  refine hinit.mono (fun _ k₃ hk₃ => ?_) fun e k' he => he.elim
  subst hk₃
  -- from here on an exception leaves the mapping behind
  have hleft : ∀ e : JournalError, e.afterMapping = true →
      (if e.afterMapping then ∃ addr, Gains k k₃ ⟨addr, P.bytes, isWriting || prefault⟩
        else Same k k₃) := by
    intro e he
    rw [if_pos he]
    exact ⟨addr, hk₁⟩
  rw [ensures_bind]
  refine ensures_check hmap (by decide) ?_ fun found => hleft _ rfl
  rw [ensures_bind]
  refine ensures_check hmap (by decide) ?_ fun found => hleft _ rfl
  rw [ensures_bind]
  refine ensures_check hmap (by decide) ?_ fun found => hleft _ rfl
  rw [ensures_bind]
  refine ensures_check hmap (by decide) ?_ fun found => hleft _ rfl
  exact ⟨rfl, hk₁⟩

variable {isWriter : Bool} {R : ε → Kernel → Prop}

theorem ensures_loadFromAddress {id : Int} {prefault : Bool} (h : HeaderAt k addr) (h0 : addr ≠ 0) :
    Ensures kernel (loadFromAddress id category addr prefault) k
      (fun page k' => k' = k ∧ page.address = addr)
      fun _ k' => k' = k := by
  rw [loadFromAddress, ensures_bind, ensures_when]
  refine ⟨fun hnull => absurd (of_decide_eq_true hnull) h0, fun _ => ?_⟩
  rw [ensures_ask_bind]
  refine ⟨h.covers (by decide), fun size k₁ hx => ?_⟩
  obtain rfl : k₁ = k := hx
  rw [ensures_bind]
  refine ensures_check h (by decide) ?_ fun _ => rfl
  rw [ensures_bind]
  exact ensures_check h (by decide) ⟨rfl, rfl⟩ fun _ => rfl

theorem ensures_release (h0 : addr ≠ 0) (hk : ∃ m ∈ k.maps, Mapping.at addr size m) :
    Ensures kernel (release addr size) k (fun _ k' => Loses k k' addr size) R := by
  rw [release, ensures_bind]
  refine (ensures_releaseMmapBuffer h0 hk).mono (fun released k' h => ?_) fun _ _ he => he
  exact h.resolve_right fun hsync => (by cases hsync.1)

/-- **`~Page`** takes its mapping down, if `munmap` does. -/
theorem ensures_destroy {page : Page} (h0 : page.address ≠ 0)
    (hk : ∃ m ∈ k.maps, Mapping.at page.address page.size m) :
    Ensures kernel (destroy page) k (fun _ k' => Loses k k' page.address page.size) R := by
  rw [destroy, ensures_when]
  refine ⟨fun _ => ?_, fun hnull => ?_⟩
  · rw [ensures_bind]
    refine (ensures_releaseMmapBuffer h0 hk).mono (fun released k' h => ?_) fun _ _ he => he
    refine h.resolve_right fun hsync => ?_
    have hmode := hsync.1
    rw [Page.msyncMode] at hmode
    split at hmode <;> cases hmode
  · exact absurd (by simpa using hnull) h0

/-- **`warmPageIntoSlot`**: as for `loadMmapBuffer`. -/
theorem ensures_warmPageIntoSlot (k : Kernel) (path : String) (hsize : pageHeaderSize ≤ size)
    (isWriter : Bool) :
    Ensures kernel (warmPageIntoSlot path size isWriter) k
      (fun addr k' => Gains k k' ⟨addr, size, true⟩)
      fun _ k' => Same k k' := by
  rw [warmPageIntoSlot, ensures_ask_bind]
  refine ⟨trivial, fun fileExisted k₁ hx => ?_⟩
  obtain rfl : k₁ = k := hx
  rw [ensures_bind]
  refine (ensures_loadMmapBuffer k₁ path size isWriter true).mono (fun addr k₂ hk₂ => ?_)
    fun e k' he => he
  rw [Bool.or_true] at hk₂
  have hmap := headerAt_head hk₂.maps hsize
  rw [ensures_bind, ensures_when]
  refine ⟨fun _ => ?_, fun _ => hk₂⟩
  rw [ensures_bind]
  refine (ensures_initHeader hmap).mono (fun _ k₃ hk₃ => ?_) fun e k' he => he
  subst hk₃
  refine ⟨⟨_, by rw [hk₂.maps]; exact List.mem_cons_self, Nat.le_add_right .., ?_⟩,
    fun x k' hx => hx.2 ▸ hk₂⟩
  show addr + pageHeaderSize + (size - pageHeaderSize) ≤ addr + size
  omega

theorem ensures_awaitFile (ms : Nat) :
    Ensures kernel (awaitFile path size ms) k (fun _ k' => k' = k) R := by
  induction ms with
  | zero => exact rfl
  | succ ms ih =>
    rw [awaitFile, ensures_ask_bind]
    refine ⟨trivial, fun interrupted k₁ hx => ?_⟩
    obtain rfl : k₁ = k := hx
    split
    · exact rfl
    · rw [ensures_ask_bind]
      refine ⟨trivial, fun st k₂ hx => ?_⟩
      obtain rfl : k₂ = k₁ := hx
      split
      · exact rfl
      · exact ih

theorem ensures_awaitHeader (h : HeaderAt k addr) (ms : Nat) :
    Ensures kernel (awaitHeader addr ms) k (fun _ k' => k' = k) R := by
  induction ms with
  | zero => exact rfl
  | succ ms ih =>
    rw [awaitHeader, ensures_ask_bind]
    refine ⟨trivial, fun interrupted k₁ hx => ?_⟩
    obtain rfl : k₁ = k := hx
    split
    · exact rfl
    · rw [ensures_ask_bind]
      refine ⟨h.covers (by decide), fun version k₂ hx => ?_⟩
      obtain rfl : k₂ = k₁ := hx
      rw [ensures_ask_bind]
      refine ⟨h.covers (by decide), fun headerLength k₃ hx => ?_⟩
      obtain rfl : k₃ = k₂ := hx
      split
      · exact rfl
      · exact ih

/-- What is left of a turn of the reader's warmer. -/
def Warms (k k' : Kernel) (size : Nat) : Option Nat → Prop
  | none => Same k k'
  | some addr => Gains k k' ⟨addr, size, false⟩

theorem ensures_releasing {k₀ : Kernel} (h : Gains k₀ k ⟨addr, size, false⟩) :
    Ensures kernel (releasing addr size) k (fun x k' => Warms k₀ k' size x) R := by
  have hmem : ⟨addr, size, false⟩ ∈ k.maps := by
    rw [h.maps]
    exact List.mem_cons_self
  rw [releasing, ensures_bind]
  exact (ensures_release h.addr ⟨_, hmem, Mapping.at_self ⟨addr, size, false⟩⟩).mono
    (fun _ k' hk' => h.loses hk') fun _ _ he => he

theorem ensures_warmMapped {k₀ : Kernel} (h : Gains k₀ k ⟨addr, size, false⟩)
    (hsize : pageHeaderSize ≤ size) (timeoutMs : Nat) :
    Ensures kernel (warmMapped path size timeoutMs addr) k (fun x k' => Warms k₀ k' size x) R := by
  rw [warmMapped, ensures_bind]
  refine (ensures_awaitHeader (headerAt_head h.maps hsize) timeoutMs).mono (fun ready k₁ hk₁ => ?_)
    fun _ _ he => he
  subst hk₁
  cases ready with
  | false => exact ensures_releasing h
  | true =>
    rw [if_pos rfl, ensures_bind, ensures_rethrow, ensures_bind]
    have hmapped : ∃ m ∈ k₁.maps, Mapping.at addr size m :=
      ⟨_, by rw [h.maps]; exact List.mem_cons_self, Mapping.at_self ⟨addr, size, false⟩⟩
    refine (ensures_prepareReadOnlyMmapBuffer h.addr hmapped).mono (fun _ k₂ hk₂ => ?_)
      fun e k₂ hk₂ => ?_
    · subst hk₂
      rw [ensures_pure, if_pos rfl, ensures_ask_bind]
      refine ⟨trivial, fun interrupted k₃ hx => ?_⟩
      obtain rfl : k₃ = k₂ := hx
      split
      · exact ensures_releasing h
      · exact h
    · subst hk₂
      exact ensures_releasing h

/-- **A turn of `readerWarmerLoop`**: a mapping for `warmer_addr_`, or nothing. -/
theorem ensures_readerWarm (k : Kernel) (path : String) (hsize : pageHeaderSize ≤ size)
    (timeoutMs : Nat) :
    Ensures kernel (readerWarm path size timeoutMs) k (fun x k' => Warms k k' size x) R := by
  rw [readerWarm, ensures_bind]
  refine (ensures_awaitFile timeoutMs).mono (fun ready k₁ hk₁ => ?_) fun _ _ he => he
  subst hk₁
  cases ready with
  | false => exact Or.inl rfl
  | true =>
    rw [if_pos rfl, ensures_ask_bind]
    refine ⟨trivial, fun interrupted k₂ hx => ?_⟩
    obtain rfl : k₂ = k₁ := hx
    split
    · exact Or.inl rfl
    · rw [ensures_bind, ensures_rethrow, ensures_bind]
      refine (ensures_loadExistingReadOnlyMmapBuffer k₂ path size false false).mono
        (fun addr k₃ hk₃ => ?_)
        fun e k₃ hk₃ => hk₃
      exact ensures_warmMapped hk₃ hsize timeoutMs

/-- **The warmed page in `Journal::loadPage`**: a page, or the mapping is taken down. -/
theorem ensures_takeWarmed {id : Int} (hsize : pageHeaderSize ≤ size) (h0 : addr ≠ 0)
    (hk : ∃ m ∈ k.maps, Mapping.at addr size m) :
    Ensures kernel (takeWarmed id category addr size) k (fun x k' =>
      match x with
      | some page => k' = k ∧ page.address = addr
      | none => Loses k k' addr size) R := by
  have hhead : HeaderAt k addr := by
    obtain ⟨m, hm, hat⟩ := hk
    rw [Mapping.at, Bool.and_eq_true, beq_iff_eq, beq_iff_eq] at hat
    exact ⟨m, hm, hat.1, hat.2 ▸ hsize⟩
  rw [takeWarmed, ensures_rethrow, ensures_bind]
  refine (ensures_loadFromAddress hhead h0).mono (fun page k₁ hk₁ => hk₁) fun e k₁ hk₁ => ?_
  subst hk₁
  rw [releasing, ensures_bind]
  exact (ensures_release h0 hk).mono (fun _ k' hk' => hk') fun _ _ he => he

end PageMappings

end Revoq
