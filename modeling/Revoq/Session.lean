import Revoq.PageLoad
import Revoq.Placement

/-! # What a writer session keeps true

`Live` is the invariant of a session at every single store: the log is a chain
of frames from the session's first page to a tail slot, each logged frame stands
on disk, and at the tail there is no frame: its length word is zero or still what
the page held when the session took it over.  It is what concurrent readers and a
restart after a crash rely on.

The lemmas below say what each kind of store does to it.  Others may work on
pages the session has not opened yet, as long as these stay `Ahead` (`Stable`).
-/
namespace Revoq
open ByteImage StmtMachine

/-- What a session starts from: its first page, its first sequence number, what
each page's frame area held, and the directory. -/
structure Ctx where
  first : Nat
  seq : UInt64
  base : Nat → Image
  start : Disk

/-- The entry is inside its page, leaves room for a sentinel unless it is one, and
a reader will take it for a frame. -/
structure Entry.WellPlaced (P : PageSize) (e : Entry) : Prop where
  visible : e.frame.msgType ≠ 0
  sentinel : e.frame.IsPageEnd → e.frame.payload = [] ∧ e.slot.offset + 64 ≤ P.bytes
  data : ¬ e.frame.IsPageEnd → e.slot.offset + e.frame.stride + 64 ≤ P.bytes

/-- A mapped page of the session: its file is full-size and its header is
initialised. -/
structure PageReady (P : PageSize) (d : Disk) (p : Nat) : Prop where
  size : ∃ size, d.size p = some size ∧ P.bytes ≤ size
  header : HeaderOk P (d.image p)

/-- **The session invariant**, at every store. -/
structure Live (P : PageSize) (C : Ctx) (d : Disk) (log : List Entry) (tail : Slot) : Prop where
  chain : Chained ⟨C.first, pageHeaderSize⟩ log tail
  frames : ∀ e ∈ log, FrameAt (d.image e.slot.page) e.slot.offset e.frame
  placed : ∀ e ∈ log, e.WellPlaced P
  room : tail.offset + 64 ≤ P.bytes
  sequence : ∀ i e, log[i]? = some e → e.frame.sequence = C.seq + UInt64.ofNat i
  ready : ∀ p, C.first ≤ p → p ≤ tail.page → PageReady P d p
  last : ∀ p, C.first ≤ p → p ≤ tail.page → lastFramePosition (d.image p) = pageHeaderSize ∨
    ∃ e ∈ log, e.slot = ⟨p, lastFramePosition (d.image p)⟩
  tailWord : getFrameLength (d.image tail.page) tail.offset = 0 ∨
    getFrameLength (d.image tail.page) tail.offset = getFrameLength (C.base tail.page) tail.offset
  ahead : ∀ p, tail.page < p → Ahead P (C.base p) d p
  below : ∀ p, p < C.first → C.start.SameFile d p

theorem PageReady.grows {P : PageSize} {d d' : Disk} {p : Nat} (h : PageReady P d p)
    (hs : d.Grows d' p) : PageReady P d' p := by
  obtain ⟨size, hsize, hle⟩ := h.size
  obtain ⟨size', hle', hsize'⟩ := hs.size size hsize
  exact ⟨⟨size', hsize', Nat.le_trans hle hle'⟩, hs.image.symm ▸ h.header⟩

theorem PageReady.of_same {P : PageSize} {d d' : Disk} {p : Nat} (h : PageReady P d p)
    (hs : d.SameFile d' p) : PageReady P d' p := h.grows hs.grows

/-- A store outside the header fields that never change keeps them. -/
theorem HeaderOk.of_store {P : PageSize} {m : Image} (h : HeaderOk P m)
    {a k v : Nat} (ha : 16 ≤ a) :
    HeaderOk P (store m a k v) := by
  have field : ∀ f : Field, f.offset + f.width ≤ 16 → f.get (store m a k v) 0 = f.get m 0 :=
    fun f hf => load_store_disjoint (by omega)
  exact ⟨(field PageField.version (by decide)).trans h.version,
    (field PageField.pageHeaderLength (by decide)).trans h.headerLength,
    (field PageField.pageSize (by decide)).trans h.pageSize,
    (field PageField.frameHeaderLength (by decide)).trans h.frameHeaderLength⟩

theorem PageReady.write {P : PageSize} {d : Disk} {p q a k v : Nat} (h : PageReady P d p)
    (ha : 16 ≤ a) : PageReady P (d.write q a k v) p := by
  refine ⟨h.size, ?_⟩
  by_cases hp : p = q
  · subst hp
    rw [Disk.write_image_self]
    exact h.header.of_store ha
  · rw [d.write_image_of_ne a k v hp]
    exact h.header

theorem lastFramePosition_store {m : Image} {a k v : Nat} (ha : 24 ≤ a) :
    lastFramePosition (store m a k v) = lastFramePosition m :=
  load_store_disjoint (Or.inl ha)

theorem Entry.WellPlaced.length_lt {P : PageSize} {e : Entry} (h : e.WellPlaced P) :
    e.frame.length < 2 ^ 32 := by
  have hn := P.narrow
  by_cases hp : e.frame.IsPageEnd
  · have : e.frame.length = 32 := by simp [Frame.length, (h.sentinel hp).1, frameHeaderSize]
    omega
  · have := h.data hp
    have := e.frame.length_le_stride
    omega

theorem Slot.after_page (s : Slot) (f : Frame) :
    (s.after f).page = s.page ∧ (s.after f).offset = s.offset + f.stride ∨
      (s.after f).page = s.page + 1 := by
  by_cases hp : f.IsPageEnd
  · exact Or.inr (by rw [Slot.after_pageEnd hp])
  · exact Or.inl (by rw [Slot.after_data hp]; exact ⟨rfl, rfl⟩)

namespace Live
variable {P : PageSize} {C : Ctx} {d d' : Disk} {log : List Entry} {tail : Slot} {e : Entry}

theorem grid (h : Live P C d log tail) : 64 ∣ tail.offset ∧ 64 ≤ tail.offset := by
  obtain ⟨h1, h2, -⟩ := h.chain.on_grid (Nat.dvd_refl 64) (Nat.le_refl 64)
  exact ⟨h1, h2⟩

theorem entry_grid (h : Live P C d log tail) (he : e ∈ log) :
    64 ∣ e.slot.offset ∧ 64 ≤ e.slot.offset :=
  (h.chain.on_grid (Nat.dvd_refl 64) (Nat.le_refl 64)).2.2 e he

theorem first_le (h : Live P C d log tail) : C.first ≤ tail.page := h.chain.page_le

theorem entry_first_le (h : Live P C d log tail) (he : e ∈ log) : C.first ≤ e.slot.page := by
  rcases h.chain.after_start he with hlt | ⟨heq, -⟩
  · exact Nat.le_of_lt hlt
  · exact Nat.le_of_eq heq

/-- A logged frame lies before the tail. -/
theorem entry_before (h : Live P C d log tail) (he : e ∈ log) :
    e.slot.page < tail.page ∨
      e.slot.page = tail.page ∧ e.slot.offset + e.frame.length ≤ tail.offset := by
  have := e.frame.length_le_stride
  rcases h.chain.before he with hlt | ⟨heq, hle⟩
  · exact Or.inl hlt
  · exact Or.inr ⟨heq, by omega⟩

theorem entry_page_le (h : Live P C d log tail) (he : e ∈ log) : e.slot.page ≤ tail.page := by
  rcases h.entry_before he with hlt | ⟨heq, -⟩
  · exact Nat.le_of_lt hlt
  · exact Nat.le_of_eq heq

/-- Longer files, and changes to pages behind the tail that leave them `Ahead`. -/
theorem grows (h : Live P C d log tail) (same : ∀ p, p ≤ tail.page → d.Grows d' p)
    (below : ∀ p, p < C.first → d.SameFile d' p)
    (ahead : ∀ p, tail.page < p → Ahead P (C.base p) d' p) : Live P C d' log tail where
  chain := h.chain
  frames e he := by
    rw [(same _ (h.entry_page_le he)).image]
    exact h.frames e he
  placed := h.placed
  room := h.room
  sequence := h.sequence
  ready p h1 h2 := (h.ready p h1 h2).grows (same p h2)
  last p h1 h2 := by
    rw [(same p h2).image]
    exact h.last p h1 h2
  tailWord := by
    rw [(same _ (Nat.le_refl _)).image]
    exact h.tailWord
  ahead := ahead
  below p hp := (h.below p hp).trans (below p hp)

/-- Changes to pages behind the tail that leave them `Ahead`. -/
theorem of_same (h : Live P C d log tail) (same : ∀ p, p ≤ tail.page → d.SameFile d' p)
    (ahead : ∀ p, tail.page < p → Ahead P (C.base p) d' p) : Live P C d' log tail :=
  h.grows (fun p hp => (same p hp).grows) (fun p hp => same p (by have := h.first_le; omega)) ahead

/-- A store to a page of the session that touches neither a logged frame nor the
unchanging part of the header. -/
theorem write_page (h : Live P C d log tail) {q a k v : Nat} (hq : C.first ≤ q) (ha : 16 ≤ a)
    (clear : ∀ e ∈ log, e.slot.page = q →
      e.slot.offset + e.frame.length ≤ a ∨ a + k ≤ e.slot.offset)
    (hlast : lastFramePosition (store (d.image q) a k v) = pageHeaderSize ∨
      ∃ e ∈ log, e.slot = ⟨q, lastFramePosition (store (d.image q) a k v)⟩)
    (hword : tail.page = q → getFrameLength (store (d.image q) a k v) tail.offset = 0 ∨
      getFrameLength (store (d.image q) a k v) tail.offset =
        getFrameLength (C.base q) tail.offset) (hqt : q ≤ tail.page) :
    Live P C (d.write q a k v) log tail where
  chain := h.chain
  frames e he := by
    by_cases hp : e.slot.page = q
    · rw [hp, Disk.write_image_self]
      have hf := h.frames e he
      rw [hp] at hf
      exact hf.congr (store_eqOn (clear e he hp)).symm
    · rw [d.write_image_of_ne a k v hp]
      exact h.frames e he
  placed := h.placed
  room := h.room
  sequence := h.sequence
  ready p h1 h2 := (h.ready p h1 h2).write ha
  last p h1 h2 := by
    by_cases hp : p = q
    · subst hp
      rw [Disk.write_image_self]
      exact hlast
    · rw [d.write_image_of_ne a k v hp]
      exact h.last p h1 h2
  tailWord := by
    by_cases hp : tail.page = q
    · rw [hp, Disk.write_image_self]
      exact hword hp
    · rw [d.write_image_of_ne a k v hp]
      exact h.tailWord
  ahead p hp := (h.ahead p hp).of_same ⟨rfl, d.write_image_of_ne a k v (by omega)⟩
  below p hp := (h.below p hp).trans ⟨rfl, d.write_image_of_ne a k v (by omega)⟩

/-- **Private stores.**  Storing behind the tail changes nothing anyone else can
see, as long as the length word there is not set. -/
theorem write_tail (h : Live P C d log tail) {a k v : Nat}
    (priv : 4 ≤ a ∨ a = 0 ∧ k = 4 ∧ v = 0) :
    Live P C (d.write tail.page (tail.offset + a) k v) log tail := by
  have hg := h.grid
  refine h.write_page h.first_le (by omega) ?_ ?_ (fun _ => ?_) (Nat.le_refl _)
  · intro e he hp
    rcases h.entry_before he with hlt | ⟨-, hle⟩
    · omega
    · exact Or.inl (by omega)
  · rw [lastFramePosition_store (by omega)]
    exact h.last _ h.first_le (Nat.le_refl _)
  · rcases priv with h4 | ⟨rfl, rfl, rfl⟩
    · rw [show getFrameLength (store (d.image tail.page) (tail.offset + a) k v) tail.offset =
        getFrameLength (d.image tail.page) tail.offset from
          load_store_disjoint (Or.inl (by simp only [FrameField.length]; omega))]
      exact h.tailWord
    · exact Or.inl (load_store_self_of_lt (by decide))

theorem entry_room (h : Live P C d log tail) (he : e ∈ log) : e.slot.offset + 64 ≤ P.bytes := by
  have hw := h.placed e he
  have := e.frame.stride_pos
  by_cases hp : e.frame.IsPageEnd
  · exact (hw.sentinel hp).2
  · have := hw.data hp
    omega

/-- Storing the position of a logged frame in its page's header. -/
theorem write_last (h : Live P C d log tail) (he : e ∈ log) :
    Live P C (d.write e.slot.page 16 8 e.slot.offset) log tail := by
  have hg := h.grid
  have hoff : e.slot.offset < 256 ^ 8 := by
    have hr := h.entry_room he
    have hn := P.narrow
    have h8 : (256 : Nat) ^ 8 = 2 ^ 64 := by decide
    omega
  have hself : lastFramePosition (store (d.image e.slot.page) 16 8 e.slot.offset) = e.slot.offset :=
    load_store_self_of_lt hoff
  refine h.write_page (h.entry_first_le he) (Nat.le_refl _) ?_ ?_ (fun hp => ?_)
    (h.entry_page_le he)
  · intro x hx _
    have := (h.entry_grid hx).2
    exact Or.inr (by omega)
  · rw [hself]
    exact Or.inr ⟨e, he, rfl⟩
  · rw [show getFrameLength (store (d.image e.slot.page) 16 8 e.slot.offset) tail.offset =
      getFrameLength (d.image e.slot.page) tail.offset from
        load_store_disjoint (Or.inr (by simp only [FrameField.length]; omega)), ← hp]
    exact h.tailWord

/-- **Publication.**  When the metadata and the payload of a frame are in place at
the tail, storing its length adds it to the journal. -/
theorem publish (h : Live P C d log tail) {f : Frame} {i : Nat}
    (header : readHeader (d.image tail.page) tail.offset = f.toFrameHeader)
    (payload : readPayload (d.image tail.page) tail.offset f.payload.length = f.payload)
    (placed : (Entry.mk tail f i).WellPlaced P)
    (seq : f.sequence = C.seq + UInt64.ofNat log.length)
    (room : (tail.after f).offset + 64 ≤ P.bytes)
    (ready : PageReady P d (tail.after f).page)
    (last : (tail.after f).page ≠ tail.page →
      lastFramePosition (d.image (tail.after f).page) = pageHeaderSize)
    (word : getFrameLength (d.image (tail.after f).page) (tail.after f).offset =
      getFrameLength (C.base (tail.after f).page) (tail.after f).offset) :
    Live P C (d.write tail.page tail.offset 4 f.length) (log ++ [⟨tail, f, i⟩]) (tail.after f) := by
  have hg := h.grid
  have hpos := f.stride_pos
  have hafter := tail.after_page f
  have hlen : f.length < 2 ^ 32 := placed.length_lt
  -- the length word lies behind the header
  have keepLast : ∀ p, lastFramePosition ((d.write tail.page tail.offset 4 f.length).image p) =
      lastFramePosition (d.image p) := by
    intro p
    by_cases hp : p = tail.page
    · subst hp
      rw [Disk.write_image_self]
      exact lastFramePosition_store (by omega)
    · rw [d.write_image_of_ne _ _ _ hp]
  refine ⟨h.chain.concat f i, ?_, ?_, room, ?_, ?_, ?_, ?_, ?_, ?_⟩
  · intro e he
    rcases List.mem_append.mp he with he | he
    · have hf := h.frames e he
      by_cases hp : e.slot.page = tail.page
      · rw [hp, Disk.write_image_self]
        rw [hp] at hf
        refine hf.congr (store_eqOn (Or.inl ?_)).symm
        rcases h.entry_before he with hlt | ⟨-, hle⟩
        · omega
        · exact hle
      · rw [d.write_image_of_ne _ _ _ hp]
        exact hf
    · rw [List.mem_singleton.mp he]
      show FrameAt ((d.write tail.page tail.offset 4 f.length).image tail.page) tail.offset f
      rw [Disk.write_image_self]
      refine FrameAt.mk' (load_store_self_of_lt hlen) ?_ ?_
      · rw [← header]
        exact readHeader_congr (store_eqOn (Or.inr (Nat.le_refl _)))
      · refine Eq.trans (readPayload_congr (store_eqOn (Or.inr ?_))) payload
        simp only [frameHeaderSize]
        omega
  · intro e he
    rcases List.mem_append.mp he with he | he
    · exact h.placed e he
    · rw [List.mem_singleton.mp he]
      exact placed
  · intro k e he
    rcases Nat.lt_or_ge k log.length with hk | hk
    · rw [List.getElem?_append_left hk] at he
      exact h.sequence k e he
    · rw [List.getElem?_append_right hk] at he
      obtain ⟨hk', he'⟩ := List.getElem?_eq_some_iff.mp he
      have hkl : k = log.length := by simp only [List.length_singleton] at hk'; omega
      subst hkl
      simp only [Nat.sub_self, List.getElem_cons_zero] at he'
      rw [← he']
      exact seq
  · intro p h1 h2
    by_cases hp : p = (tail.after f).page
    · subst hp
      exact ready.write (by omega)
    · exact (h.ready p h1 (by omega)).write (by omega)
  · intro p h1 h2
    rw [keepLast]
    by_cases hp : p ≤ tail.page
    · rcases h.last p h1 hp with hfirst | ⟨e, he, hs⟩
      · exact Or.inl hfirst
      · exact Or.inr ⟨e, List.mem_append_left _ he, hs⟩
    · have hpe : p = (tail.after f).page := by omega
      subst hpe
      exact Or.inl (last (by omega))
  -- the word at the new tail is still the one of the page as it was found
  · right
    rw [← word]
    by_cases hp : (tail.after f).page = tail.page
    · have hoff : (tail.after f).offset = tail.offset + f.stride := by
        rcases hafter with h1 | h1
        · exact h1.2
        · omega
      rw [hp, hoff, Disk.write_image_self]
      exact load_store_disjoint (Or.inr (by simp only [FrameField.length]; omega))
    · rw [d.write_image_of_ne _ _ _ hp]
  · intro p hp
    exact (h.ahead p (by omega)).of_same ⟨rfl, d.write_image_of_ne _ _ _ (by omega)⟩
  · intro p hp
    exact (h.below p hp).trans ⟨rfl, d.write_image_of_ne _ _ _ (by have := h.first_le; omega)⟩

end Live

/-! ## Interference -/

/-- A page that is ready to take its first frame. -/
structure Loaded (P : PageSize) (b : Image) (d : Disk) (p : Nat) : Prop where
  ready : PageReady P d p
  last : lastFramePosition (d.image p) = pageHeaderSize
  area : AreaIs P b (d.image p)

theorem Loaded.grows {P : PageSize} {b : Image} {d d' : Disk} {p : Nat} (h : Loaded P b d p)
    (hs : d.Grows d' p) : Loaded P b d' p :=
  ⟨h.ready.grows hs, hs.image.symm ▸ h.last, hs.image.symm ▸ h.area⟩

theorem Loaded.of_same {P : PageSize} {b : Image} {d d' : Disk} {p : Nat} (h : Loaded P b d p)
    (hs : d.SameFile d' p) : Loaded P b d' p := h.grows hs.grows

/-- Every page above `n` that the warmer's ring offers is ready. -/
def RingReady (P : PageSize) (C : Ctx) (n : Nat) (w : World) : Prop :=
  ∀ g, w.warmer = some g → ∀ i (p : Nat), (g.ring i).pageId = p → n < p →
    (g.ring i).address = some p ∧ Loaded P (C.base p) w.disk p

/-- The highest page the session has opened. -/
def frontier (j : JournalWriter) (l : Local) : Nat :=
  max j.currentPage (if l.load.opened then l.load.page else 0)

/-- What others may do between two statements of the session: work on pages it has
not opened, keeping them `Ahead`, allocate the file of one it has opened, and offer
ready ones in the ring. -/
structure Stable (P : PageSize) (C : Ctx) (s s' : World × Local) : Prop where
  writer : s'.1.writer = s.1.writer
  regs : s'.2 = s.2
  log : s'.1.log = s.1.log
  warmer : s'.1.warmer.isSome = s.1.warmer.isSome
  below : ∀ p, p < C.first → s.1.disk.SameFile s'.1.disk p
  same : ∀ p, p ≤ frontier s.1.writer s.2 → s.1.disk.Grows s'.1.disk p
  ahead : ∀ p, frontier s.1.writer s.2 < p →
    Ahead P (C.base p) s.1.disk p → Ahead P (C.base p) s'.1.disk p
  grow : ∀ p size, s.1.disk.size p = some size →
    ∃ size', size ≤ size' ∧ s'.1.disk.size p = some size'
  ring : RingReady P C (frontier s.1.writer s.2) s.1 → RingReady P C (frontier s.1.writer s.2) s'.1

theorem Stable.refl {P : PageSize} {C : Ctx} (s : World × Local) : Stable P C s s where
  writer := rfl
  regs := rfl
  log := rfl
  warmer := rfl
  below p _ := .refl _ p
  same p _ := (Disk.SameFile.refl _ p).grows
  ahead _ _ h := h
  grow _ size h := ⟨size, Nat.le_refl _, h⟩
  ring h := h

theorem Stable.trans {P : PageSize} {C : Ctx} {s s' s'' : World × Local} (h : Stable P C s s')
    (h' : Stable P C s' s'') : Stable P C s s'' := by
  have hf : frontier s'.1.writer s'.2 = frontier s.1.writer s.2 := by rw [h.writer, h.regs]
  refine ⟨h'.writer.trans h.writer, h'.regs.trans h.regs, h'.log.trans h.log,
    h'.warmer.trans h.warmer, fun p hp => (h.below p hp).trans (h'.below p hp), ?_, ?_, ?_, ?_⟩
  · exact fun p hp => (h.same p hp).trans (h'.same p (hf ▸ hp))
  · exact fun p hp ha => h'.ahead p (hf ▸ hp) (h.ahead p hp ha)
  · intro p size hs
    obtain ⟨s1, h1, h2⟩ := h.grow p size hs
    obtain ⟨s2, h3, h4⟩ := h'.grow p s1 h2
    exact ⟨s2, Nat.le_trans h1 h3, h4⟩
  · intro hr
    have := h'.ring (hf ▸ h.ring hr)
    rwa [hf] at this

theorem Live.stable {P : PageSize} {C : Ctx} {s s' : World × Local} {log : List Entry} {tail : Slot}
    (h : Live P C s.1.disk log tail) (hf : tail.page ≤ frontier s.1.writer s.2)
    (hs : Stable P C s s') : Live P C s'.1.disk log tail := by
  refine h.grows (fun p hp => hs.same p (Nat.le_trans hp hf)) hs.below fun p hp => ?_
  rcases Nat.lt_or_ge (frontier s.1.writer s.2) p with hlt | hge
  · exact hs.ahead p hlt (h.ahead p hp)
  · exact (h.ahead p hp).grows (hs.same p hge)

/-- The invariant of `Safely` for a session that is to publish `full`: `Live` with
some tail, and a part of `full` published. -/
def Cut (P : PageSize) (C : Ctx) (full : List Entry) (s : World × Local) : Prop :=
  s.1.log <+: full ∧ ∃ tail, Live P C s.1.disk s.1.log tail

end Revoq
