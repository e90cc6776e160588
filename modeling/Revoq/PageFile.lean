import Mathlib.Logic.Function.Basic
import Revoq.FrameFormat
import Revoq.StmtMachine

/-! # Page files and `Page::load`

One journal is a directory of page files, numbered from 1.  This module has the
page header of `JournalPage.h`, the directory as a `Disk`, and the program that
maps a page: `MmapBuffer::loadMmapBuffer` followed by the header check of
`Page::load`.

That program is shared by writers, readers and warmers of different processes,
and what it finds out early (does the file exist, is the header initialised) it
acts on late.  So it is kept as a list of statements (`Page.loadCode`), each a
single access to the directory, the file or the mapping.
-/
namespace Revoq
open ByteImage StmtMachine

/-! ## Page sizes -/

/-- `enum class Category`. -/
inductive Category where
  | unknown | marketdata | researchdata | execution | log | system | strategy
deriving DecidableEq

/-- A page size the format can work with: a multiple of the frame alignment,
with room for a header, a smallest frame and a sentinel, and well inside 32
bits. -/
structure PageSize where
  bytes : Nat
  aligned : 64 ∣ bytes
  roomy : 256 ≤ bytes
  narrow : bytes ≤ 2 ^ 31

/-- `PAGE_SIZE_MARKETDATA`, 128 MB. -/
def pageSizeMarketdata : PageSize := ⟨128 * 1024 * 1024, by decide, by decide, by decide⟩

/-- `PAGE_SIZE_EXECUTION`, 4 MB. -/
def pageSizeExecution : PageSize := ⟨4 * 1024 * 1024, by decide, by decide, by decide⟩

/-- `PAGE_SIZE_DEFAULT`, 2 MB. -/
def pageSizeDefault : PageSize := ⟨2 * 1024 * 1024, by decide, by decide, by decide⟩

/-- `findPageSize`. -/
def findPageSize (category : Category) (destId : UInt32) : PageSize :=
  if category = .marketdata ∨ category = .researchdata then pageSizeMarketdata
  else if category = .execution ∧ destId ≠ 0 then pageSizeExecution
  else pageSizeDefault

/-! ## The page header -/

/-- `sizeof(PageHeader)`. -/
def pageHeaderSize : Nat := 64

namespace PageField

def version : Field := ⟨0, 4⟩
def pageHeaderLength : Field := ⟨4, 4⟩
def pageSize : Field := ⟨8, 4⟩
def frameHeaderLength : Field := ⟨12, 4⟩
def lastFramePosition : Field := ⟨16, 8⟩

end PageField

/-- `header->last_frame_position`. -/
def lastFramePosition (m : Image) : Nat := PageField.lastFramePosition.get m 0

/-- `Page::firstFrameAddress`, relative to the page. -/
def firstFrameAddress (m : Image) : Nat := PageField.pageHeaderLength.get m 0

/-- The header fields that never change once a page is initialised. -/
structure HeaderOk (P : PageSize) (m : Image) : Prop where
  version : PageField.version.get m 0 = journalPageVersion
  headerLength : firstFrameAddress m = pageHeaderSize
  pageSize : PageField.pageSize.get m 0 = P.bytes
  frameHeaderLength : PageField.frameHeaderLength.get m 0 = frameHeaderSize

/-! ## The directory -/

/-- The page files of one journal: the size of each file that exists, and its
contents. -/
structure Disk where
  size : Nat → Option Nat
  image : Nat → Image
  /-- No page above `top` exists. -/
  top : Nat
  absent : ∀ p, top < p → size p = none

namespace Disk

/-- An empty directory. -/
def empty : Disk := ⟨fun _ => none, fun _ => blank, 0, fun _ _ => rfl⟩

/-- Stores a `k`-byte word at offset `a` of page `p`. -/
def write (d : Disk) (p a k v : Nat) : Disk :=
  { d with image := Function.update d.image p (store (d.image p) a k v) }

/-- `open(path, O_CREAT)`: an absent file is created, empty. -/
def create (d : Disk) (p : Nat) : Disk :=
  if (d.size p).isSome then d
  else
    { size := Function.update d.size p (some 0)
      image := Function.update d.image p blank
      top := max d.top p
      absent := fun q hq => by
        rw [Function.update_of_ne (by omega)]
        exact d.absent q (by omega) }

/-- `fallocate(fd, 0, 0, n)`: the file grows to at least `n` bytes. -/
def allocate (d : Disk) (p n : Nat) : Disk :=
  { d with
    size := Function.update d.size p ((d.size p).map (max n))
    absent := fun q hq => by
      by_cases hqp : q = p
      · subst hqp
        rw [Function.update_self, d.absent q hq]
        rfl
      · rw [Function.update_of_ne hqp]
        exact d.absent q hq }

/-- `Locator::listPageId`: the page ids present, in ascending order. -/
def listPageId (d : Disk) : List Nat := (List.range (d.top + 1)).filter fun p => (d.size p).isSome

variable (d : Disk) (p q a k v n : Nat)

@[simp] theorem write_size : (d.write p a k v).size = d.size := rfl

@[simp] theorem write_image_self :
    (d.write p a k v).image p = store (d.image p) a k v := Function.update_self ..

variable {p q} in
theorem write_image_of_ne (h : q ≠ p) : (d.write p a k v).image q = d.image q :=
  Function.update_of_ne h ..

@[simp] theorem allocate_image : (d.allocate p n).image = d.image := rfl

@[simp] theorem allocate_size_self :
    (d.allocate p n).size p = (d.size p).map (max n) := Function.update_self ..

variable {p q} in
theorem allocate_size_of_ne (h : q ≠ p) : (d.allocate p n).size q = d.size q :=
  Function.update_of_ne h ..

variable {p q} in
theorem create_size_of_ne (h : q ≠ p) : (d.create p).size q = d.size q := by
  unfold create
  split
  · rfl
  · exact Function.update_of_ne h ..

variable {p q} in
theorem create_image_of_ne (h : q ≠ p) : (d.create p).image q = d.image q := by
  unfold create
  split
  · rfl
  · exact Function.update_of_ne h ..

variable {d p} in
theorem create_of_isSome (h : (d.size p).isSome) : d.create p = d := if_pos h

variable {d p} in
theorem create_size_self_of_none (h : d.size p = none) : (d.create p).size p = some 0 := by
  simp [create, h]

variable {d p} in
theorem create_image_self_of_none (h : d.size p = none) : (d.create p).image p = blank := by
  simp [create, h]

theorem create_isSome : ((d.create p).size p).isSome := by
  cases h : d.size p with
  | none => rw [create_size_self_of_none h]; rfl
  | some size => rw [create_of_isSome (by rw [h]; rfl), h]; rfl

theorem mem_listPageId : p ∈ d.listPageId ↔ (d.size p).isSome := by
  rw [listPageId, List.mem_filter, List.mem_range]
  refine ⟨fun h => h.2, fun h => ⟨?_, h⟩⟩
  by_contra hp
  rw [d.absent p (by omega)] at h
  simp at h

/-- Two directories have the same file under id `p`. -/
def SameFile (d d' : Disk) (p : Nat) : Prop := d'.size p = d.size p ∧ d'.image p = d.image p

end Disk

/-! ## Mapping a page -/

/-- What the operating system answers during one `Page::load`. -/
structure LoadEnv where
  openFails : Bool := false
  allocateFails : Bool := false
  /-- `mmap` or `mlock` fails. -/
  mapFails : Bool := false
deriving DecidableEq

/-- Every system call of the load succeeds. -/
def LoadEnv.succeeds : LoadEnv := {}

/-- The arguments and locals of `loadMmapBuffer` and `Page::load`. -/
structure LoadRegs where
  page : Nat
  isWriting : Bool
  prefault : Bool
  fileExists : Bool := false
  stSize : Nat := 0
  /-- The file has been opened, and the page is not in use yet. -/
  opened : Bool := false
deriving DecidableEq

/-- `bool master = is_writing || prefault`: the mapping is writable. -/
def LoadRegs.master (r : LoadRegs) : Bool := r.isWriting || r.prefault

/-- The statements of `loadMmapBuffer` and of `Page::load` after it. -/
inductive LoadStmt where
  | stat
  | open (fails : Bool)
  | allocate (fails : Bool)
  | map (fails : Bool)
  /-- Zero-fills a file that did not exist at `stat`, else touches its pages. -/
  | populate
  /-- `is_new_page = (header->last_frame_position == 0)`. -/
  | checkNew
  /-- A store to the header: `width` bytes at `offset`. -/
  | put (offset width value : Nat)
  | validate
deriving DecidableEq

namespace Page

/-- The stores that initialise a new page's header, in order. -/
def initHeader (P : PageSize) : List LoadStmt :=
  [.put 0 pageHeaderSize 0,
    .put PageField.version.offset PageField.version.width journalPageVersion,
    .put PageField.pageHeaderLength.offset PageField.pageHeaderLength.width pageHeaderSize,
    .put PageField.pageSize.offset PageField.pageSize.width P.bytes,
    .put PageField.frameHeaderLength.offset PageField.frameHeaderLength.width frameHeaderSize,
    .put PageField.lastFramePosition.offset PageField.lastFramePosition.width pageHeaderSize]

/-- `Page::load`. -/
def loadCode (env : LoadEnv) : List LoadStmt :=
  [.stat, .open env.openFails, .allocate env.allocateFails, .map env.mapFails, .populate,
    .checkNew, .validate]

/-- The checks `Page::load` makes of a header before it returns the page. -/
def headerValid (P : PageSize) (m : Image) : Bool :=
  decide (PageField.version.get m 0 = journalPageVersion) &&
    decide (PageField.pageHeaderLength.get m 0 = pageHeaderSize) &&
    decide (PageField.pageSize.get m 0 = P.bytes) && decide (lastFramePosition m < P.bytes)

end Page

/-- One statement of `Page::load` on the directory. -/
def LoadStmt.exec (P : PageSize) : LoadStmt → Disk × LoadRegs → Outcome (Disk × LoadRegs) LoadStmt
  | .stat, (d, r) =>
      .next (d, { r with fileExists := (d.size r.page).isSome, stSize := (d.size r.page).getD 0 })
        []
  | .open fails, (d, r) =>
      if fails then .throw (d, r) else .next (d.create r.page, { r with opened := true }) []
  | .allocate fails, (d, r) =>
      if r.master && (!r.fileExists || decide (r.stSize ≠ P.bytes)) then
        if fails then .throw (d, r) else .next (d.allocate r.page P.bytes, r) []
      else .next (d, r) []
  | .map fails, (d, r) => if fails then .throw (d, r) else .next (d, r) []
  | .populate, (d, r) =>
      if r.prefault && !r.fileExists then .next (d.write r.page 0 P.bytes 0, r) []
      else .next (d, r) []
  -- a mapping of an empty file has no readable byte
  | .checkNew, (d, r) =>
      if (d.size r.page).getD 0 = 0 then .fault (d, r)
      else .next (d, r) (if lastFramePosition (d.image r.page) = 0 then Page.initHeader P else [])
  | .put offset width value, (d, r) =>
      if r.master then .next (d.write r.page offset width value, r) [] else .fault (d, r)
  | .validate, (d, r) =>
      if Page.headerValid P (d.image r.page) then .next (d, r) [] else .throw (d, r)

end Revoq
