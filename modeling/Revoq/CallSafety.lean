import Revoq.Session

/-! # The writer's calls, statement by statement

Each piece of a call is shown `Safely` executed from the states `At` describes:
`Live` with a known tail, known values of the writer's fields and of the thread's
locals, and a condition on the pages the session has opened.

The pieces are the header and payload stores behind the tail (nobody sees them),
the length store with the two updates after it, and the rotation: loading the next
page, or taking it from the warmer, before the sentinel makes readers look for it.
-/
namespace Revoq
open ByteImage StmtMachine

/-- The condition only looks at pages up to `n`, and a longer file is no harm to it. -/
def Framed (n : Nat) (E : Disk → Prop) : Prop :=
  ∀ ⦃d d' : Disk⦄, (∀ p, p ≤ n → d.Grows d' p) → E d → E d'

/-- The session is `Live` with this tail, and the rest of its state is known. -/
structure At (P : PageSize) (C : Ctx) (tail : Slot) (j : JournalWriter) (l : Local)
    (log : List Entry) (E : Disk → Prop) (s : World × Local) : Prop where
  live : Live P C s.1.disk log tail
  log : s.1.log = log
  writer : s.1.writer = j
  regs : s.2 = l
  extra : E s.1.disk
  ring : RingReady P C (frontier j l) s.1

section
variable {P : PageSize} {C : Ctx} {full log : List Entry} {tail : Slot}
  {j : JournalWriter} {l : Local}
variable {E : Disk → Prop} {s s' : World × Local} {Q : World × Local → Prop} {rest : List Stmt}

/-- The session's code is safe with `full` to be published. -/
abbrev Safe (P : PageSize) (C : Ctx) (full : List Entry) (Q : World × Local → Prop) :
    List Stmt → World × Local → Prop :=
  Safely (Stmt.exec P) (Stable P C) (Cut P C full) Q

theorem At.stable (h : At P C tail j l log E s) (hf : tail.page ≤ frontier j l)
    (hE : Framed (frontier j l) E) (hs : Stable P C s s') : At P C tail j l log E s' := by
  obtain ⟨live, hlog, rfl, rfl, extra, ring⟩ := h
  exact ⟨live.stable hf hs, hs.log.trans hlog, hs.writer, hs.regs, hE hs.same extra, hs.ring ring⟩

theorem At.cut (h : At P C tail j l log E s) (hfull : log <+: full) : Cut P C full s := by
  refine ⟨h.log.symm ▸ hfull, tail, ?_⟩
  rw [h.log]
  exact h.live

theorem At.mono {E' : Disk → Prop} (h : At P C tail j l log E s) (hE : ∀ d, E d → E' d) :
    At P C tail j l log E' s := ⟨h.live, h.log, h.writer, h.regs, hE _ h.extra, h.ring⟩

/-- One statement from an `At` state. -/
theorem At.step {i : Stmt} (h : At P C tail j l log E s) (hf : tail.page ≤ frontier j l)
    (hE : Framed (frontier j l) E) (hfull : log <+: full)
    (advance : ∀ w, At P C tail j l log E (w, l) →
      ∃ s' push, i.exec P (w, l) = .next s' push ∧ Safe P C full Q (push ++ rest) s') :
    Safe P C full Q (i :: rest) s := by
  refine Safely.single (A := At P C tail j l log E) (fun _ _ h hs => h.stable hf hE hs)
    (fun _ h => h.cut hfull) ?_ h
  rintro ⟨w, l'⟩ hw
  obtain rfl : l' = l := hw.regs
  exact advance w hw

theorem At.nil (h : At P C tail j l log E s) (hf : tail.page ≤ frontier j l)
    (hE : Framed (frontier j l) E) (hfull : log <+: full)
    (hQ : ∀ s', At P C tail j l log E s' → Q s') : Safe P C full Q [] s :=
  .nil (fun _ hs => (h.stable hf hE hs).cut hfull) (fun _ hs => hQ _ (h.stable hf hE hs))

/-! ## Stores behind the tail -/

/-- A store nobody sees: not to the length word, or zero to it. -/
def IsPrivate (a k v : Nat) : Prop := 4 ≤ a ∨ a = 0 ∧ k = 4 ∧ v = 0

theorem RingReady.write {n : Nat} {w : World} (h : RingReady P C n w) {p a k v : Nat} (hp : p ≤ n) :
    RingReady P C n { w with disk := w.disk.write p a k v } := by
  intro g hg i q hq hlt
  obtain ⟨h1, h2⟩ := h g hg i q hq hlt
  exact ⟨h1, h2.of_same ⟨rfl, w.disk.write_image_of_ne a k v (by omega)⟩⟩

theorem At.write_tail {w : World} (h : At P C tail j l log E (w, l))
    {E' : Disk → Prop} {a k v : Nat} (priv : IsPrivate a k v) (hf : tail.page ≤ frontier j l)
    (hE : E (w.disk) → E' (w.disk.write tail.page (tail.offset + a) k v)) :
    At P C tail j l log E' (w.store tail a k v, l) :=
  ⟨h.live.write_tail priv, h.log, h.writer, rfl, hE h.extra, h.ring.write hf⟩

/-- A statement that makes one private store. -/
theorem At.private_step {i : Stmt} {l' : Local} {E' : Disk → Prop} {a k v : Nat}
    (hf : tail.page ≤ frontier j l) (hE : Framed (frontier j l) E) (hfull : log <+: full)
    (hs : At P C tail j l log E s)
    (hexec : ∀ w, i.exec P (w, l) = .next (w.store tail a k v, l') []) (hl : l'.load = l.load)
    (priv : IsPrivate a k v) (hEE : ∀ d, E d → E' (d.write tail.page (tail.offset + a) k v))
    (next : ∀ s', At P C tail j l' log E' s' → Safe P C full Q rest s') :
    Safe P C full Q (i :: rest) s := by
  refine hs.step hf hE hfull fun w hw => ⟨_, [], hexec w, next _ ?_⟩
  have hw' := hw.write_tail priv hf (hEE _)
  refine ⟨hw'.live, hw'.log, hw'.writer, rfl, hw'.extra, ?_⟩
  rw [show frontier j l' = frontier j l by rw [frontier, hl]; rfl]
  exact hw'.ring

theorem Grows.write {d d' : Disk} {p q a k v : Nat} (h : d.Grows d' q) (hp : d.Grows d' p) :
    (d.write p a k v).Grows (d'.write p a k v) q := by
  refine ⟨?_, h.absent, h.size⟩
  by_cases hq : q = p
  · subst hq
    rw [Disk.write_image_self, Disk.write_image_self, hp.image]
  · rw [Disk.write_image_of_ne _ _ _ _ hq, Disk.write_image_of_ne _ _ _ _ hq, h.image]

theorem Framed.write {n p a k v : Nat} (hE : Framed n E) (hp : p ≤ n) :
    Framed n fun d => E (d.write p a k v) :=
  fun _ _ same => hE fun _ hq => Grows.write (same _ hq) (same _ hp)

/-- Several header stores in a row. -/
def putAll (t : Slot) (d : Disk) (ps : List (Field × Nat)) : Disk :=
  ps.foldl (fun d q => d.write t.page (t.offset + q.1.offset) q.1.width q.2) d

theorem Framed.putAll {n : Nat} {t : Slot} (hE : Framed n E) (ht : t.page ≤ n)
    (ps : List (Field × Nat)) : Framed n fun d => E (putAll t d ps) := by
  induction ps with
  | nil => exact hE
  | cons q ps ih => exact Framed.write ih ht

/-- **Header stores.** -/
theorem At.puts {ps : List (Field × Nat)} (hl : l.frameHeader = tail)
    (priv : ∀ q ∈ ps, IsPrivate q.1.offset q.1.width q.2) (hf : tail.page ≤ frontier j l)
    (hE : Framed (frontier j l) E) (hfull : log <+: full)
    (h : At P C tail j l log (fun d => E (putAll tail d ps)) s)
    (next : ∀ s', At P C tail j l log E s' → Safe P C full Q rest s') :
    Safe P C full Q (ps.map (fun q => Stmt.put q.1 q.2) ++ rest) s := by
  induction ps generalizing s with
  | nil => exact next s h
  | cons q ps ih =>
    refine h.step hf (hE.putAll hf (q :: ps)) hfull fun w hw => ⟨_, [], rfl, ?_⟩
    rw [hl]
    exact ih (fun x hx => priv x (List.mem_cons_of_mem _ hx))
      (hw.write_tail (priv q List.mem_cons_self) hf fun h => h)

/-! ## What stands behind the tail -/

/-- The offset of the last frame logged on a page, or of the first slot. -/
def lastOn (log : List Entry) (p : Nat) : Nat :=
  ((onPage log p).getLast?.map fun e => e.slot.offset).getD pageHeaderSize

theorem lastOn_concat (log : List Entry) (e : Entry) (p : Nat) :
    lastOn (log ++ [e]) p = if e.slot.page = p then e.slot.offset else lastOn log p := by
  unfold lastOn onPage
  rw [List.filter_append]
  by_cases h : e.slot.page = p
  · simp [h]
  · simp [h]

theorem lastOn_of_forall {log : List Entry} {p : Nat} (h : ∀ e ∈ log, e.slot.page ≠ p) :
    lastOn log p = pageHeaderSize := by
  have : onPage log p = [] := by
    simpa [onPage, List.filter_eq_nil_iff] using h
  rw [lastOn, this]
  rfl

/-- Every page up to `top` has the position of its last frame in its header. -/
def Lasts (C : Ctx) (log : List Entry) (top : Nat) (d : Disk) : Prop :=
  ∀ p, C.first ≤ p → p ≤ top → lastFramePosition (d.image p) = lastOn log p

/-- Between two calls: behind the tail nothing has been written. -/
structure Clean (P : PageSize) (C : Ctx) (tail : Slot) (log : List Entry) (d : Disk) : Prop where
  area : Set.EqOn (d.image tail.page) (C.base tail.page) (Set.Ico tail.offset P.bytes)
  lasts : Lasts C log tail.page d

/-- Inside a call: the frame stands behind the tail, except for its length. -/
structure Body (P : PageSize) (C : Ctx) (tail : Slot) (log : List Entry) (f : Frame) (d : Disk) :
    Prop where
  word : getFrameLength (d.image tail.page) tail.offset = 0
  header : readHeader (d.image tail.page) tail.offset = f.toFrameHeader
  payload : readPayload (d.image tail.page) tail.offset f.payload.length = f.payload
  area : Set.EqOn (d.image tail.page) (C.base tail.page) (Set.Ico (tail.offset + f.length) P.bytes)
  lasts : Lasts C log tail.page d

theorem Lasts.of_same {top : Nat} {d d' : Disk} (h : Lasts C log top d)
    (same : ∀ p, p ≤ top → d.Grows d' p) : Lasts C log top d' := by
  intro p h1 h2
  rw [(same p h2).image]
  exact h p h1 h2

theorem Lasts.write {top p a k v : Nat} {d : Disk} (h : Lasts C log top d) (ha : 24 ≤ a) :
    Lasts C log top (d.write p a k v) := by
  intro q h1 h2
  by_cases hq : q = p
  · subst hq
    rw [Disk.write_image_self, lastFramePosition_store ha]
    exact h q h1 h2
  · rw [d.write_image_of_ne a k v hq]
    exact h q h1 h2

theorem Clean.framed {n : Nat} (hn : tail.page ≤ n) : Framed n (Clean P C tail log) := by
  intro d d' same h
  refine ⟨?_, h.lasts.of_same fun p hp => same p (Nat.le_trans hp hn)⟩
  rw [(same _ hn).image]
  exact h.area

theorem Body.framed {n : Nat} {f : Frame} (hn : tail.page ≤ n) :
    Framed n (Body P C tail log f) := by
  intro d d' same h
  have hi := (same _ hn).image
  refine ⟨?_, ?_, ?_, ?_, h.lasts.of_same fun p hp => same p (Nat.le_trans hp hn)⟩ <;> rw [hi]
  exacts [h.word, h.header, h.payload, h.area]

theorem Framed.and {n : Nat} {E E' : Disk → Prop} (h : Framed n E) (h' : Framed n E') :
    Framed n fun d => E d ∧ E' d := fun _ _ same hd => ⟨h same hd.1, h' same hd.2⟩

/-- The condition only looks at pages up to `n` other than `p`, and a longer file is no
harm to it. -/
def Beside (p n : Nat) (N : Disk → Prop) : Prop :=
  ∀ ⦃d d' : Disk⦄, (∀ q, q ≤ n → q ≠ p → d.Grows d' q) → N d → N d'

theorem Beside.framed {p n : Nat} {N : Disk → Prop} (h : Beside p n N) : Framed n N :=
  fun _ _ same => h fun q hq _ => same q hq

theorem Beside.write {p n : Nat} {N : Disk → Prop} (h : Beside p n N) {d : Disk} {a k v : Nat}
    (hd : N d) : N (d.write p a k v) := by
  refine h (d := d) (fun q _ hq => ?_) hd
  exact Disk.SameFile.grows ⟨rfl, d.write_image_of_ne a k v hq⟩

/-! ## The header -/

/-- The header stores before the sequence number. -/
def headerPuts (h : FrameHeader) : List (Field × Nat) :=
  [(FrameField.length, 0), (FrameField.msgType, 0), (FrameField.flags, 0), (FrameField.sequence, 0),
    (FrameField.genTime, 0), (FrameField.eventTime, 0),
    (FrameField.genTime, h.genTime.toUInt64.toNat), (FrameField.eventTime, 0),
    (FrameField.msgType, h.msgType.toNat), (FrameField.flags, h.flags.toNat)]

theorem fillHeader_eq (h : FrameHeader) :
    fillHeader h = (headerPuts h).map (fun q => Stmt.put q.1 q.2) ++ [.nextSeq, .putSeq] := rfl

/-- The directory once the header has been stored. -/
def headerDisk (t : Slot) (h : FrameHeader) (seq : UInt64) (d : Disk) : Disk :=
  (putAll t d (headerPuts h)).write t.page (t.offset + FrameField.sequence.offset)
    FrameField.sequence.width seq.toNat

theorem headerPuts_private (h : FrameHeader) :
    ∀ q ∈ headerPuts h, IsPrivate q.1.offset q.1.width q.2 := by
  intro q hq
  simp only [headerPuts, List.mem_cons, List.not_mem_nil, or_false] at hq
  rcases hq with rfl | rfl | rfl | rfl | rfl | rfl | rfl | rfl | rfl | rfl
  · exact Or.inr ⟨rfl, rfl, rfl⟩
  all_goals exact Or.inl (Nat.le_of_ble_eq_true rfl)

/-- **The header**, up to and including the sequence number. -/
theorem At.header {h : FrameHeader} (hl : l.frameHeader = tail) (hf : tail.page ≤ frontier j l)
    (hE : Framed (frontier j l) E) (hfull : log <+: full)
    (hs : At P C tail j l log (fun d => E (headerDisk tail h j.currentSequence d)) s)
    (next : ∀ s', At P C tail { j with currentSequence := j.currentSequence + 1 }
      { l with meant := { l.meant with sequence := j.currentSequence } } log E s' →
        Safe P C full Q rest s') :
    Safe P C full Q (fillHeader h ++ rest) s := by
  subst hl
  rw [fillHeader_eq, List.append_assoc]
  refine At.puts (E := fun d => E (d.write l.frameHeader.page
    (l.frameHeader.offset + FrameField.sequence.offset) FrameField.sequence.width
    j.currentSequence.toNat)) rfl (headerPuts_private h) hf (hE.write hf) hfull hs fun s hs => ?_
  refine hs.step hf (hE.write hf) hfull fun w hw => ⟨_, [], rfl, ?_⟩
  obtain ⟨live, hlog, rfl, -, extra, ring⟩ := hw
  refine At.step ⟨live, hlog, rfl, rfl, extra, ring⟩ hf (hE.write hf) hfull
    fun w hw => ⟨_, [], rfl, ?_⟩
  exact next _ (hw.write_tail (Or.inl (by decide)) hf fun h => h)

/-- The page once the header stores are made. -/
def imagePuts (o : Nat) (m : Image) (ps : List (Field × Nat)) : Image :=
  ps.foldl (fun m q => store m (o + q.1.offset) q.1.width q.2) m

theorem putAll_image_self (t : Slot) (d : Disk) (ps : List (Field × Nat)) :
    (putAll t d ps).image t.page = imagePuts t.offset (d.image t.page) ps := by
  induction ps generalizing d with
  | nil => rfl
  | cons q ps ih =>
    rw [putAll, List.foldl_cons, ← putAll, ih, Disk.write_image_self]
    rfl

theorem putAll_image_of_ne {t : Slot} {p : Nat} (h : p ≠ t.page) (d : Disk)
    (ps : List (Field × Nat)) :
    (putAll t d ps).image p = d.image p := by
  induction ps generalizing d with
  | nil => rfl
  | cons q ps ih => rw [putAll, List.foldl_cons, ← putAll, ih, d.write_image_of_ne _ _ _ h]

theorem putAll_size (t : Slot) (d : Disk) (ps : List (Field × Nat)) :
    (putAll t d ps).size = d.size := by
  induction ps generalizing d with
  | nil => rfl
  | cons q ps ih => rw [putAll, List.foldl_cons, ← putAll, ih, Disk.write_size]

theorem headerDisk_same {t : Slot} {p : Nat} (hp : p ≠ t.page) (h : FrameHeader) (seq : UInt64)
    (d : Disk) : d.SameFile (headerDisk t h seq d) p := by
  refine ⟨by rw [headerDisk, Disk.write_size, putAll_size], ?_⟩
  rw [headerDisk, Disk.write_image_of_ne _ _ _ _ hp, putAll_image_of_ne hp]

theorem headerDisk_image (t : Slot) (h : FrameHeader) (seq : UInt64) (d : Disk) :
    (headerDisk t h seq d).image t.page =
      store (imagePuts t.offset (d.image t.page) (headerPuts h)) (t.offset + 8) 8 seq.toNat := by
  rw [headerDisk, Disk.write_image_self, putAll_image_self]
  rfl

/-- The header stores stay inside the header. -/
theorem imagePuts_apply_of_notMem {o x : Nat} {ps : List (Field × Nat)}
    (hps : ∀ q ∈ ps, q.1.offset + q.1.width ≤ frameHeaderSize)
    (hx : x < o ∨ o + frameHeaderSize ≤ x) (m : Image) : imagePuts o m ps x = m x := by
  induction ps generalizing m with
  | nil => rfl
  | cons q ps ih =>
    have hq := hps q List.mem_cons_self
    rw [imagePuts, List.foldl_cons, ← imagePuts, ih fun y hy => hps y (List.mem_cons_of_mem _ hy)]
    exact store_apply_of_notMem (by omega)

theorem headerDisk_apply {t : Slot} {x : Nat} (hx : x < t.offset ∨ t.offset + frameHeaderSize ≤ x)
    (h : FrameHeader) (seq : UInt64) (d : Disk) :
    (headerDisk t h seq d).image t.page x = d.image t.page x := by
  rw [headerDisk_image, store_apply_of_notMem (by simp only [frameHeaderSize] at hx; omega)]
  refine imagePuts_apply_of_notMem (fun q hq => ?_) hx _
  simp only [headerPuts, List.mem_cons, List.not_mem_nil, or_false] at hq
  rcases hq with rfl | rfl | rfl | rfl | rfl | rfl | rfl | rfl | rfl | rfl
  all_goals exact Nat.le_of_ble_eq_true rfl

theorem headerDisk_length (t : Slot) (h : FrameHeader) (seq : UInt64) (d : Disk) :
    getFrameLength ((headerDisk t h seq d).image t.page) t.offset = 0 := by
  rw [headerDisk_image]
  simp only [imagePuts, headerPuts, List.foldl_cons, List.foldl_nil, getFrameLength, Field.get,
    FrameField.length, FrameField.msgType, FrameField.flags, FrameField.sequence,
      FrameField.genTime,
    FrameField.eventTime]
  simp (disch := omega) only [load_store_disjoint, load_store_zero]

theorem headerDisk_header (t : Slot) {h : FrameHeader} (he : h.eventTime = 0)
    (seq : UInt64) (d : Disk) :
    readHeader ((headerDisk t h seq d).image t.page) t.offset = { h with sequence := seq } := by
  have hseq : seq.toNat < 256 ^ 8 := seq.toNat_lt
  have hgen : h.genTime.toUInt64.toNat < 256 ^ 8 := h.genTime.toUInt64.toNat_lt
  have htype : h.msgType.toNat < 256 ^ 2 := h.msgType.toNat_lt
  have hflags : h.flags.toNat < 256 ^ 2 := h.flags.toNat_lt
  rw [headerDisk_image]
  simp only [imagePuts, headerPuts, List.foldl_cons, List.foldl_nil, readHeader, Field.get,
    FrameField.length, FrameField.msgType, FrameField.flags, FrameField.sequence,
      FrameField.genTime,
    FrameField.eventTime]
  simp (disch := first | assumption | omega) only [load_store_disjoint,
    load_store_self_of_lt]
  ext <;> simp [he]

/-- A clean tail with the header stored holds an empty frame. -/
theorem Clean.header {d : Disk} {h : FrameHeader} (hd : Clean P C tail log d) (he : h.eventTime = 0)
    (ht : 24 ≤ tail.offset) (seq : UInt64) :
    Body P C tail log ⟨{ h with sequence := seq }, []⟩ (headerDisk tail h seq d) where
  word := headerDisk_length ..
  header := headerDisk_header tail he seq d
  payload := rfl
  area x hx := by
    have h1 : tail.offset + 32 ≤ x := hx.1
    rw [headerDisk_apply (Or.inr h1)]
    exact hd.area ⟨by omega, hx.2⟩
  lasts p h1 h2 := by
    rw [← hd.lasts p h1 h2]
    by_cases hp : p = tail.page
    · subst hp
      refine load_congr fun x hx => headerDisk_apply (Or.inl ?_) h seq d
      have : x < 0 + 16 + 8 := hx.2
      omega
    · rw [(headerDisk_same hp h seq d).2]

/-! ## Payload and event time -/

/-- The frame with one more payload byte. -/
def Frame.snoc (f : Frame) (b : UInt8) : Frame := { f with payload := f.payload ++ [b] }

theorem readPayload_succ (m : Image) (o n : Nat) :
    readPayload m o (n + 1) = readPayload m o n ++ [m (o + frameHeaderSize + n)] := by
  simp [readPayload, List.range_succ]

namespace Body
variable {f : Frame} {d : Disk}

theorem snoc (h : Body P C tail log f d) (b : UInt8) :
    Body P C tail log (f.snoc b)
      (d.write tail.page (tail.offset + (frameHeaderSize + f.payload.length)) 1 b.toNat) := by
  have hlen : (f.snoc b).payload.length = f.payload.length + 1 := by simp [Frame.snoc]
  refine ⟨?_, ?_, ?_, ?_, h.lasts.write (by simp only [frameHeaderSize]; omega)⟩
  · rw [Disk.write_image_self, ← h.word]
    exact load_store_disjoint (Or.inl (by simp only [FrameField.length, frameHeaderSize]; omega))
  · rw [Disk.write_image_self]
    refine Eq.trans (readHeader_congr (store_eqOn (Or.inl (by omega)))) h.header
  · rw [Disk.write_image_self, hlen, readPayload_succ,
      readPayload_congr (store_eqOn (Or.inl (by omega))), h.payload,
      Nat.add_assoc tail.offset, store_byte]
    rfl
  · rw [Disk.write_image_self]
    intro x hx
    have h1 : tail.offset + (f.snoc b).length ≤ x := hx.1
    simp only [Frame.length, hlen] at h1
    rw [store_apply_of_notMem (by omega)]
    exact h.area ⟨by simp only [Frame.length]; omega, hx.2⟩

/-- A store inside the header keeps the payload and what is behind it. -/
theorem write_header (h : Body P C tail log f d) {g : FrameHeader} {a k v : Nat}
    (ht : 24 ≤ tail.offset) (ha : a + k ≤ frameHeaderSize)
    (word : getFrameLength (store (d.image tail.page) (tail.offset + a) k v) tail.offset = 0)
    (header : readHeader (store (d.image tail.page) (tail.offset + a) k v) tail.offset = g) :
    Body P C tail log ⟨g, f.payload⟩ (d.write tail.page (tail.offset + a) k v) := by
  refine ⟨?_, ?_, ?_, ?_, h.lasts.write (by omega)⟩ <;> rw [Disk.write_image_self]
  · exact word
  · exact header
  · exact Eq.trans (readPayload_congr (store_eqOn (Or.inr (by omega)))) h.payload
  · intro x hx
    have h1 : tail.offset + (frameHeaderSize + f.payload.length) ≤ x := hx.1
    rw [store_apply_of_notMem (by omega)]
    exact h.area hx

theorem length_zero (h : Body P C tail log f d) (ht : 24 ≤ tail.offset) :
    Body P C tail log f (d.write tail.page (tail.offset + 0) 4 0) := by
  refine h.write_header (g := f.toFrameHeader) ht (by decide) (load_store_self_of_lt (by decide)) ?_
  exact Eq.trans (readHeader_congr (store_eqOn (Or.inr (by omega)))) h.header

theorem event (h : Body P C tail log f d) (ht : 24 ≤ tail.offset) (t : Int64) :
    Body P C tail log { f with eventTime := t }
      (d.write tail.page (tail.offset + 24) 8 t.toUInt64.toNat) := by
  have htime : t.toUInt64.toNat < 256 ^ 8 := t.toUInt64.toNat_lt
  have hh := h.header
  refine h.write_header (g := { f.toFrameHeader with eventTime := t }) ht (by decide) ?_ ?_
  · rw [← h.word]
    exact load_store_disjoint (Or.inl (by simp only [FrameField.length]; omega))
  · rw [← hh]
    simp only [readHeader, Field.get, FrameField.msgType, FrameField.flags, FrameField.sequence,
      FrameField.genTime, FrameField.eventTime]
    simp (disch := first | assumption | omega) only [load_store_disjoint, load_store_self_of_lt]
    simp

end Body

/-! ## Publication -/

/-- The length store of a data frame and the store of its position leave a clean
tail behind the frame. -/
theorem Body.publish_data {f : Frame} {i : Nat} {d : Disk} (h : Body P C tail log f d)
    (hlive : Live P C d log tail) (data : ¬ f.IsPageEnd) (room : tail.offset + f.stride ≤ P.bytes) :
    Clean P C (tail.after f) (log ++ [⟨tail, f, i⟩])
      ((d.write tail.page tail.offset 4 f.length).write tail.page 16 8 tail.offset) := by
  have hg := hlive.grid
  have hpos := f.stride_pos
  rw [Slot.after_data data]
  refine ⟨?_, ?_⟩
  · intro x hx
    have h1 : tail.offset + f.stride ≤ x := hx.1
    have := f.length_le_stride
    show ((d.write tail.page tail.offset 4 f.length).write tail.page 16 8 tail.offset).image
        tail.page x = _
    rw [Disk.write_image_self, store_apply_of_notMem (by omega), Disk.write_image_self,
      store_apply_of_notMem (by omega)]
    exact h.area ⟨by omega, hx.2⟩
  · intro p h1 h2
    rw [lastOn_concat]
    by_cases hp : p = tail.page
    · subst hp
      have hn := P.narrow
      have h8 : (256 : Nat) ^ 8 = 2 ^ 64 := by decide
      rw [if_pos rfl, Disk.write_image_self]
      exact load_store_self_of_lt (by omega)
    · rw [if_neg (by simpa using Ne.symm hp), Disk.write_image_of_ne _ _ _ _ hp,
        Disk.write_image_of_ne _ _ _ _ hp]
      exact h.lasts p h1 h2

/-- The same for a sentinel: the tail is now the next page, which is ready. -/
theorem Body.publish_pageEnd {f : Frame} {i : Nat} {d : Disk} (h : Body P C tail log f d)
    (hlive : Live P C d log tail) (hpe : f.IsPageEnd)
    (hnext : Loaded P (C.base (tail.page + 1)) d (tail.page + 1)) :
    Clean P C (tail.after f) (log ++ [⟨tail, f, i⟩])
      ((d.write tail.page tail.offset 4 f.length).write tail.page 16 8 tail.offset) := by
  have hne : tail.page + 1 ≠ tail.page := by omega
  rw [Slot.after_pageEnd hpe]
  refine ⟨?_, ?_⟩
  · show Set.EqOn (((d.write tail.page tail.offset 4 f.length).write tail.page 16 8
      tail.offset).image (tail.page + 1)) _ _
    rw [Disk.write_image_of_ne _ _ _ _ hne, Disk.write_image_of_ne _ _ _ _ hne]
    exact hnext.area
  · intro p h1 h2
    have h3 : p ≤ tail.page + 1 := h2
    rw [lastOn_concat]
    by_cases hp : p = tail.page
    · subst hp
      have hn := P.narrow
      have hr := hlive.room
      have h8 : (256 : Nat) ^ 8 = 2 ^ 64 := by decide
      rw [if_pos rfl, Disk.write_image_self]
      exact load_store_self_of_lt (by omega)
    · rw [if_neg (by simpa using Ne.symm hp), Disk.write_image_of_ne _ _ _ _ hp,
        Disk.write_image_of_ne _ _ _ _ hp]
      by_cases hle : p ≤ tail.page
      · exact h.lasts p h1 hle
      · obtain rfl : p = tail.page + 1 := by omega
        rw [hnext.last, lastOn_of_forall]
        intro e he
        have := hlive.entry_page_le he
        omega

theorem strideOf_eq {n : Nat} (h : alignUp (frameHeaderSize + n) frameAlignment + 128 ≤ P.bytes) :
    narrow32 (totalSize n) = frameHeaderSize + n ∧
      strideOf n = alignUp (frameHeaderSize + n) frameAlignment := by
  have hn := P.narrow
  have hle := le_alignUp (frameHeaderSize + n)
  have htotal : narrow32 (totalSize n) = frameHeaderSize + n := by
    rw [totalSize, sizeT, narrow32, Nat.mod_eq_of_lt (by omega), Nat.mod_eq_of_lt (by omega)]
  refine ⟨htotal, ?_⟩
  rw [strideOf, htotal, framePhysicalLength, narrow32, Nat.mod_eq_of_lt (by omega)]

/-- **The length store and the position store**, given what the first does. -/
theorem At.publish {f : Frame} {n : Nat} (hl : l.frameHeader = tail) (hm : l.meant = f)
    (hcur : j.currentPage = tail.page) (hlen : narrow32 (totalSize n) = f.length)
    (hf : tail.page ≤ frontier j l) (hf' : (tail.after f).page ≤ frontier j l)
    (hE : Framed (frontier j l) E) (hfull : log ++ [⟨tail, f, l.thread⟩] <+: full)
    (pub : ∀ d, Live P C d log tail → E d →
      Live P C (d.write tail.page tail.offset 4 f.length) (log ++ [⟨tail, f, l.thread⟩])
        (tail.after f) ∧
      Clean P C (tail.after f) (log ++ [⟨tail, f, l.thread⟩])
        ((d.write tail.page tail.offset 4 f.length).write tail.page 16 8 tail.offset))
    (hs : At P C tail j l log E s)
    (next : ∀ s', At P C (tail.after f) j l (log ++ [⟨tail, f, l.thread⟩])
      (Clean P C (tail.after f) (log ++ [⟨tail, f, l.thread⟩])) s' → Safe P C full Q rest s') :
    Safe P C full Q (.publish n :: .setLastFramePosition :: rest) s := by
  subst hl hm
  have hpre : log <+: full := (List.prefix_append ..).trans hfull
  refine hs.step hf hE hpre fun w hw => ?_
  obtain ⟨hlive, hclean⟩ := pub _ hw.live hw.extra
  have hexec : (Stmt.publish n).exec P (w, l) =
      .next ({ w with
        disk := w.disk.write l.frameHeader.page l.frameHeader.offset 4 l.meant.length
        log := w.log ++ [⟨l.frameHeader, l.meant, l.thread⟩] }, l) [] := by
    simp only [Stmt.exec, hlen]
    rfl
  -- the frame is committed; its offset goes into the header of the same page
  refine ⟨_, [], hexec, ?_⟩
  refine At.step (E :=
    fun d => Clean P C _ _ (d.write l.frameHeader.page 16 8 l.frameHeader.offset))
    ⟨hlive, by rw [← hw.log], hw.writer, rfl, hclean, hw.ring.write hf⟩ hf'
    ((Clean.framed hf').write hf) hfull fun w hw => ?_
  have hexec : Stmt.setLastFramePosition.exec P (w, l) =
      .next ({ w with disk := w.disk.write l.frameHeader.page 16 8 l.frameHeader.offset }, l)
        [] := by
    have hw' : w.writer = j := hw.writer
    simp only [Stmt.exec, hw', hcur, if_true]
    rfl
  refine ⟨_, [], hexec, next _ ⟨?_, hw.log, hw.writer, rfl, hw.extra, hw.ring.write hf⟩⟩
  exact hw.live.write_last (e := ⟨l.frameHeader, l.meant, l.thread⟩) (by simp)

/-- **Publishing a data frame.** -/
theorem At.publish_data {f : Frame} (hl : l.frameHeader = tail) (hm : l.meant = f)
    (hcur : j.currentPage = tail.page) (visible : f.msgType ≠ 0) (data : ¬ f.IsPageEnd)
    (fits : f.stride + 128 ≤ P.bytes) (room : tail.offset + f.stride + 64 ≤ P.bytes)
    (seq : f.sequence = C.seq + UInt64.ofNat log.length)
    (hfull : log ++ [⟨tail, f, l.thread⟩] <+: full)
    (hs : At P C tail j l log (Body P C tail log f) s)
    (next : ∀ s', At P C (tail.after f) j l (log ++ [⟨tail, f, l.thread⟩])
      (Clean P C (tail.after f) (log ++ [⟨tail, f, l.thread⟩])) s' → Safe P C full Q rest s') :
    Safe P C full Q (.publish f.payload.length :: .setLastFramePosition :: rest) s := by
  have hf : tail.page ≤ frontier j l := hcur ▸ Nat.le_max_left ..
  have hafter : tail.after f = ⟨tail.page, tail.offset + f.stride⟩ := Slot.after_data data
  have hpos := f.stride_pos
  refine hs.publish hl hm hcur (strideOf_eq fits).1 hf (by rw [hafter]; exact hf)
    (Body.framed hf) hfull
    (fun d hlive hbody => ⟨?_, hbody.publish_data hlive data (by omega)⟩) next
  refine hlive.publish hbody.header hbody.payload
    ⟨visible, fun h => absurd h data, fun _ => room⟩ seq
    ?_ ?_ ?_ ?_ <;> rw [hafter]
  · exact room
  · exact hlive.ready _ hlive.first_le (Nat.le_refl _)
  · exact fun h => absurd rfl h
  · refine load_congr (hbody.area.mono (Set.Ico_subset_Ico ?_ ?_))
    · have := f.length_le_stride
      simp only [FrameField.length]
      omega
    · simp only [FrameField.length]
      omega

/-- **Publishing a sentinel**, once the next page is ready. -/
theorem At.publish_pageEnd {now : Int64} {sq : UInt64} (hl : l.frameHeader = tail)
    (hm : l.meant = pageEndFrame now sq) (hcur : j.currentPage = tail.page)
    (hload : l.load.page = tail.page + 1) (hopen : l.load.opened = true)
    (seq : sq = C.seq + UInt64.ofNat log.length)
    (hfull : log ++ [⟨tail, pageEndFrame now sq, l.thread⟩] <+: full)
    (hs : At P C tail j l log (fun d => Body P C tail log (pageEndFrame now sq) d ∧
      Loaded P (C.base (tail.page + 1)) d (tail.page + 1)) s)
    (next : ∀ s', At P C ⟨tail.page + 1, pageHeaderSize⟩ j l
      (log ++ [⟨tail, pageEndFrame now sq, l.thread⟩])
      (Clean P C ⟨tail.page + 1, pageHeaderSize⟩ (log ++ [⟨tail, pageEndFrame now sq, l.thread⟩]))
      s' →
        Safe P C full Q rest s') :
    Safe P C full Q (.publish 0 :: .setLastFramePosition :: rest) s := by
  have hpe := pageEndFrame_isPageEnd now sq
  have hafter : tail.after (pageEndFrame now sq) = ⟨tail.page + 1, pageHeaderSize⟩ :=
    Slot.after_pageEnd hpe
  have hf : tail.page ≤ frontier j l := hcur ▸ Nat.le_max_left ..
  have hf' : tail.page + 1 ≤ frontier j l := by
    simp only [frontier, hopen, if_true, hload]
    exact Nat.le_max_right ..
  have hloaded : Framed (frontier j l) fun d => Loaded P (C.base (tail.page + 1)) d
      (tail.page + 1) :=
    fun d d' same h => h.grows (same _ hf')
  refine hs.publish hl hm hcur rfl hf (by rw [hafter]; exact hf') ((Body.framed hf).and hloaded)
    hfull (fun d hlive hd => ⟨?_, hd.1.publish_pageEnd hlive hpe hd.2⟩) (hafter ▸ next)
  refine hlive.publish hd.1.header hd.1.payload
    ⟨show MsgType.pageEnd.toHeader ≠ 0 by decide, fun _ => ⟨rfl, hlive.room⟩, fun h => absurd hpe h⟩
    seq ?_ ?_ ?_ ?_ <;> rw [hafter]
  · exact Nat.le_trans (show 64 + 64 ≤ 256 by decide) P.roomy
  · exact hd.2.ready
  · exact fun _ => hd.2.last
  · refine load_congr (hd.2.area.mono (Set.Ico_subset_Ico (Nat.le_refl _) ?_))
    exact Nat.le_trans (show 64 + 0 + 4 ≤ 256 by decide) P.roomy

end
end Revoq
