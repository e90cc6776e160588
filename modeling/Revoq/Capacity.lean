import Revoq.CallEnds
import Revoq.Layout

/-! # Room in a page

Nothing in `openFrame` compares a payload with the page: after at most one
rotation the frame is built at the cursor, however long it is, and its length is
narrowed to 32 bits when it is published.  `contained_iff` says for which sizes
that goes well, and that a rotation that fails has already taken a page id.
-/
namespace Revoq
open ByteImage StmtMachine

variable {P : PageSize}

/-! ## Which writes stay inside -/

/-- The payload fits: its frame leaves room for the page header and a sentinel. -/
def SizeFits (P : PageSize) (n : Nat) : Prop :=
  alignUp (frameHeaderSize + n) frameAlignment ≤ P.bytes - 128

instance (P : PageSize) (n : Nat) : Decidable (SizeFits P n) := inferInstanceAs (Decidable (_ ≤ _))

/-- What a writer knows of itself between two calls. -/
structure Sound (P : PageSize) (j : JournalWriter) : Prop where
  aligned : 64 ∣ j.currentFrameAddress
  low : pageHeaderSize ≤ j.currentFrameAddress
  room : j.currentFrameAddress + frameAlignment ≤ P.bytes

theorem SizeFits.room {n : Nat} (h : SizeFits P n) :
    alignUp (frameHeaderSize + n) frameAlignment + 128 ≤ P.bytes := by
  have := P.roomy
  simp only [SizeFits] at h
  omega

/-- A frame of a fitting size lands where a sentinel still has room behind it. -/
theorem Landed.room {j : JournalWriter} {n offset : Nat} (hj : Sound P j) (h : Landed P j n offset)
    (hn : SizeFits P n) : 64 ∣ offset ∧ offset + strideOf n + frameAlignment ≤ P.bytes := by
  obtain ⟨-, hstride⟩ := strideOf_eq hn.room
  have hfit := hn.room
  have hroom := P.roomy
  rcases h with ⟨-, rfl⟩ | ⟨hc, rfl⟩
  · refine ⟨by decide, ?_⟩
    simp only [pageHeaderSize, frameAlignment] at hfit hstride ⊢
    omega
  · refine ⟨hj.aligned, ?_⟩
    simp only [Crosses, frameAlignment] at hc ⊢
    omega

/-- **The sizes that go well**, wherever the frame landed. -/
theorem Landed.fits_iff {j : JournalWriter} {n offset : Nat} (hj : Sound P j)
    (h : Landed P j n offset) :
    SizeFits P n ↔ offset + frameHeaderSize + n ≤ P.bytes ∧
      narrow32 (totalSize n) = frameHeaderSize + n ∧
      offset + strideOf n + frameHeaderSize ≤ P.bytes := by
  have hP := P.narrow
  refine ⟨fun hn => ?_, fun ⟨h1, h2, h3⟩ => ?_⟩
  · obtain ⟨htotal, hstride⟩ := strideOf_eq hn.room
    obtain ⟨-, hle⟩ := h.room hj hn
    have := le_alignUp (frameHeaderSize + n)
    simp only [frameAlignment, frameHeaderSize] at *
    exact ⟨by omega, htotal, by omega⟩
  · have hlt := alignUp_lt (frameHeaderSize + n)
    have hstride : strideOf n = alignUp (frameHeaderSize + n) frameAlignment := by
      rw [strideOf, h2, framePhysicalLength, narrow32, Nat.mod_eq_of_lt]
      simp only [frameHeaderSize] at *
      omega
    have hlow := h.low hj.low
    have hal : 64 ∣ offset := by
      rcases h with ⟨-, rfl⟩ | ⟨-, rfl⟩
      · decide
      · exact hj.aligned
    obtain ⟨a, ha⟩ := hal
    obtain ⟨b, hb⟩ := alignUp_dvd (frameHeaderSize + n)
    obtain ⟨c, hc⟩ := P.aligned
    rw [hstride, hb] at h3
    simp only [SizeFits, frameHeaderSize, pageHeaderSize] at *
    omega

/-- **What is asked of a write's end**: an exception changes nothing, and an
accepted frame lies inside its page with its true length, leaving room for a
sentinel. -/
def Contained (P : PageSize) (n : Nat) (s : World × Local) : Result (World × Local) → Prop
  | .throws s' => s'.1.disk = s.1.disk ∧
      s'.1.writer.currentPage = s.1.writer.currentPage ∧
      s'.1.writer.currentFrameAddress = s.1.writer.currentFrameAddress ∧
      s'.1.writer.currentPageId = s.1.writer.currentPageId ∧
      s'.1.writer.currentSequence = s.1.writer.currentSequence
  | .returns s' => ∃ e, s'.1.log.getLast? = some e ∧ e.slot.page = s'.1.writer.currentPage ∧
      pageHeaderSize ≤ e.slot.offset ∧ e.slot.offset + frameHeaderSize + n ≤ P.bytes ∧
      getFrameLength (s'.1.disk.image e.slot.page) e.slot.offset = frameHeaderSize + n ∧
      s'.1.writer.currentFrameAddress + frameHeaderSize ≤ P.bytes
  | .faults _ => False

/-- The write ends, and as is asked. -/
def StaysInside (P : PageSize) (serialize : Bool) (s : World × Local) (w : Write)
    (env : LoadEnv) : Prop :=
  ∃ r, Ends (Stmt.exec P) (w.attempt serialize env) s r ∧ Contained P w.payload.length s r

theorem WroteAt.contained_iff {n : Nat} {t : Slot} {s s' : World × Local} (hs : Sound P s.1.writer)
    (hw : WroteAt t n s') (hl : Landed P s.1.writer n t.offset) :
    Contained P n s (.returns s') ↔ SizeFits P n := by
  rw [hl.fits_iff hs]
  obtain ⟨e, he, rfl⟩ := hw.published.entry
  refine ⟨fun ⟨e', he', _, _, h1, h2, h3⟩ => ?_, fun ⟨h1, h2, h3⟩ => ?_⟩
  · cases he.symm.trans he'
    exact ⟨h1, hw.published.length.symm.trans h2, by rw [← hw.cursor]; exact h3⟩
  · exact ⟨e, he, hw.page, hl.low hs.low, h1, hw.published.length.trans
      h2, by rw [hw.cursor]; exact h3⟩

/-- **Exactly the writes of a fitting size stay inside**, and of those that need a
rotation the ones whose next page can be had. -/
theorem contained_iff_of_free {serialize : Bool} {s : World × Local} (hs : Sound P s.1.writer)
    (w : Write) (env : LoadEnv) (hfree : serialize = true → s.1.writer.writing = false) :
    StaysInside P serialize s w env ↔ SizeFits P w.payload.length ∧
      (Crosses P s.1.writer w.payload.length → NextPage P s.1 env) := by
  obtain ⟨hok, hno⟩ := ends_write (P := P) serialize w env hfree hs.low
  by_cases hn : Crosses P s.1.writer w.payload.length → NextPage P s.1 env
  · obtain ⟨s', t, he, hw, hl, -⟩ := hok hn
    have hiff := hw.contained_iff hs hl
    refine ⟨fun ⟨r, hr, hc⟩ => ⟨hiff.mp ?_, hn⟩, fun h => ⟨_, he, hiff.mpr h.1⟩⟩
    rwa [← hr.unique he]
  · obtain ⟨s', he, hf⟩ := hno hn
    refine ⟨fun ⟨r, hr, hc⟩ => ?_, fun h => absurd h.2 hn⟩
    rw [hr.unique he] at hc
    have := hc.2.2.2.1
    rw [hf.pageId] at this
    omega

/-- A thread that finds the lock taken does not end. -/
theorem acquire_free_of_ends {is : List Stmt} {s : World × Local} {r : Result (World × Local)}
    (h : Ends (Stmt.exec P) (.acquire :: is) s r) : s.1.writer.writing = false := by
  generalize hc : Stmt.acquire :: is = c at h
  induction h with
  | nil => cases hc
  | @next i is' push s s' r e _ ih =>
    obtain ⟨rfl, rfl⟩ := List.cons.inj hc
    by_cases hw : s.1.writer.writing = true
    · cases e.symm.trans (if_pos hw : Stmt.acquire.exec P s = _)
      exact ih rfl
    · exact Bool.not_eq_true _ ▸ hw
  | @throw i is' s s' e | @fault i is' s s' e =>
    obtain ⟨rfl, rfl⟩ := List.cons.inj hc
    simp only [Stmt.exec] at e
    split at e <;> cases e

theorem lock_free_of_ends {serialize : Bool} {is : List Stmt} {s : World × Local}
    {r : Result (World × Local)}
    (h : Ends (Stmt.exec P) ((if serialize then [.acquire] else []) ++ is) s r) :
    serialize = true → s.1.writer.writing = false := by
  rintro rfl
  exact acquire_free_of_ends h

/-- A write that finds the lock taken does not end. -/
theorem attempt_lock_free {serialize : Bool} {w : Write} {env : LoadEnv} {s : World × Local}
    {r : Result (World × Local)} (h : Ends (Stmt.exec P) (w.attempt serialize env) s r) :
    serialize = true → s.1.writer.writing = false := by
  cases w <;>
    simp only [Write.attempt, Write.calls, List.flatMap_cons, List.flatMap_nil, List.append_nil,
      Call.code, List.append_assoc] at h <;>
    exact lock_free_of_ends h

/-- **Exactly the writes of a fitting size stay inside**, if nobody holds the lock
and the next page can be had where one is asked for. -/
theorem contained_iff {serialize : Bool} {s : World × Local} (hs : Sound P s.1.writer) (w : Write)
    (env : LoadEnv) :
    StaysInside P serialize s w env ↔ (serialize = true → s.1.writer.writing = false) ∧
      SizeFits P w.payload.length ∧
      (Crosses P s.1.writer w.payload.length → NextPage P s.1 env) := by
  constructor
  · rintro ⟨r, he, hc⟩
    have hfree := attempt_lock_free he
    exact ⟨hfree, (contained_iff_of_free hs w env hfree).mp ⟨r, he, hc⟩⟩
  · rintro ⟨hfree, hfits⟩
    exact (contained_iff_of_free hs w env hfree).mpr hfits

/-! ## The states of a writer -/

/-- A frame started at `o` may be closed with a payload of `n` bytes. -/
def Slot.HasRoom (P : PageSize) (o : Slot) (n : Nat) : Prop :=
  64 ∣ o.offset ∧ pageHeaderSize ≤ o.offset ∧ o.offset + strideOf n + frameAlignment ≤ P.bytes

/-- The call is one whose frame has room: a payload that fits, bytes behind a
reference `openData` returned, or the type the open frame was opened for.  The
frame `closeData` closes stands on the current page: had a write rotated that page
away since, the cursor would go back into it. -/
def Call.HasRoom (P : PageSize) (s : World × Local) : Call → Prop
  | .openData _ _ size _ => SizeFits P size
  | .fill _ => pageHeaderSize ≤ s.2.reference.offset
  | .closeData size _ => ∀ o, s.1.writer.openFrameHeader = some o →
      o.page = s.1.writer.currentPage ∧ o.HasRoom P size
  | .mark .. => True
  | .writeBytes _ _ data => SizeFits P data.length

/-- **The states a writer can be in between two calls**: constructed on any
directory, after calls with room that returned and calls of any size that threw.
Meanwhile the directory and the warmer's ring change as they like.  What a call
without room leaves, a cursor outside the current page, is not among them. -/
inductive Reachable (P : PageSize) (serialize : Bool) : World × Local → Prop where
  | constructed {d : Disk} {prefault : Bool} {l : Local} {env : LoadEnv} {warmupPages : Nat}
      {s : World × Local} (h : Ends (Stmt.exec P) (construct env warmupPages)
        (⟨d, .new prefault, [], none⟩, l) (.returns s)) : Reachable P serialize s
  | elsewhere {w : World} {l : Local} (h : Reachable P serialize (w, l)) (d : Disk)
      (g : Option PageWarmer) : Reachable P serialize ({ w with disk := d, warmer := g }, l)
  | returned {s s' : World × Local} {c : Call} {now : Int64} {env : LoadEnv}
      (h : Reachable P serialize s) (room : c.HasRoom P s)
      (call : Ends (Stmt.exec P) (c.code serialize now env) s (.returns s')) :
      Reachable P serialize s'
  | threw {s s' s'' : World × Local} {c : Call} {now : Int64} {env : LoadEnv}
      (h : Reachable P serialize s)
      (call : Ends (Stmt.exec P) (c.code serialize now env) s (.throws s'))
      (handler : Ends (Stmt.exec P) (c.handler serialize) s' (.returns s'')) :
      Reachable P serialize s''

/-- The constructor leaves the writer at the first frame of a page. -/
theorem sound_of_construct {env : LoadEnv} {n : Nat} {s s' : World × Local}
    (h : Ends (Stmt.exec P) (construct env n) s (.returns s')) : Sound P s'.1.writer := by
  have hcode : construct env n = [.findLastWrittenPage env, .bumpPage, .load .stat,
      .load (.open env.openFails), .load (.allocate env.allocateFails), .load (.map env.mapFails),
      .load .populate, .load .checkNew] ++ ([.load .validate, .swapPage] ++
        (if n = 0 then [] else [.startWarmer n, .updateCurrentPage])) := rfl
  rw [hcode] at h
  obtain ⟨⟨w₁, l₁⟩, -, h⟩ := h.returns_append
  obtain ⟨s₂, h₂, h₃⟩ := h.returns_append
  obtain ⟨t, push, he, h₂⟩ := h₂.returns_cons
  have hroom := P.roomy
  have hs₂ : s₂.1.writer.currentFrameAddress = pageHeaderSize := by
    simp only [Stmt.exec, LoadStmt.exec] at he
    by_cases hv : Page.headerValid P (w₁.disk.image l₁.load.page) = true
    · rw [if_pos hv] at he
      cases he
      have hswap : Ends (Stmt.exec P) [.swapPage] (w₁, l₁) _ := .cons rfl .nil
      cases hswap.unique h₂
      exact firstFrameAddress_of_valid hv
    · rw [if_neg hv] at he
      cases he
  have hs' : s'.1.writer = s₂.1.writer := by
    by_cases hn : n = 0
    · rw [if_pos hn] at h₃
      cases h₃
      rfl
    · rw [if_neg hn] at h₃
      obtain ⟨t, push, he, h₃⟩ := h₃.returns_cons
      simp only [Stmt.exec] at he
      split at he
      · cases he
      · cases he
        cases (Ends.cons rfl .nil : Ends (Stmt.exec P) [.updateCurrentPage] _ _).unique h₃
        rfl
  rw [hs']
  refine ⟨?_, ?_, ?_⟩ <;> rw [hs₂]
  · decide
  · simp only [pageHeaderSize, frameAlignment]
    omega

theorem Sound.of_wrote {n : Nat} {t : Slot} {s : World × Local} (hw : WroteAt t n s)
    (ht : t.HasRoom P n) : Sound P s.1.writer := by
  obtain ⟨h1, h2, h3⟩ := ht
  have hstride : 64 ∣ strideOf n := (Nat.dvd_mod_iff (by decide)).mpr (alignUp_dvd _)
  refine ⟨?_, ?_, ?_⟩ <;> rw [hw.cursor]
  · exact Nat.dvd_add h1 hstride
  · omega
  · exact h3

theorem Sound.of_failed {s s' : World × Local} (h : Sound P s.1.writer) (hf : Failed s s') :
    Sound P s'.1.writer := by
  refine ⟨?_, ?_, ?_⟩ <;> rw [hf.cursor]
  · exact h.aligned
  · exact h.low
  · exact h.room

theorem Landed.hasRoom {j : JournalWriter} {n : Nat} {t : Slot} (hj : Sound P j)
    (h : Landed P j n t.offset) (hn : SizeFits P n) : t.HasRoom P n :=
  ⟨(h.room hj hn).1, h.low hj.low, (h.room hj hn).2⟩

/-- A call that publishes a frame of its own. -/
theorem Sound.publishing {serialize : Bool} {s s' : World × Local} {h : FrameHeader} {n : Nat}
    {now : Int64} {env : LoadEnv} {c : List Stmt}
    (hstores : ∀ i ∈ c, ∀ l : Local, i.target l = some l.frameHeader) (hs : Sound P s.1.writer) :
    (SizeFits P n → Ends (Stmt.exec P) ((if serialize then [.acquire] else []) ++
      openFrame h n now env ++ c ++ closeFrame n {} ++ (if serialize then [.release] else [])) s
      (.returns s') → Sound P s'.1.writer) ∧
    (Ends (Stmt.exec P) ((if serialize then [.acquire] else []) ++ openFrame h n now env ++ c ++
      closeFrame n {} ++ (if serialize then [.release] else [])) s (.throws s') →
        Sound P s'.1.writer) := by
  have hfree : ∀ {r}, Ends (Stmt.exec P) ((if serialize then [.acquire] else []) ++
      openFrame h n now env ++ c ++ closeFrame n {} ++ (if serialize then [.release] else [])) s r →
      serialize = true → s.1.writer.writing = false := by
    intro r he
    simp only [List.append_assoc] at he
    exact lock_free_of_ends he
  by_cases hn : Crosses P s.1.writer n → NextPage P s.1 env
  · refine ⟨fun hfit he => ?_, fun he => ?_⟩ <;>
      obtain ⟨t, o, ht, hw, hl, -⟩ :=
        (ends_publishing h n now env hstores (hfree he) hs.low).1 hn <;>
      cases he.unique ht
    exact .of_wrote hw (hl.hasRoom hs hfit)
  · refine ⟨fun _ he => ?_, fun he => ?_⟩ <;>
      obtain ⟨t, ht, hf⟩ := (ends_publishing h n now env hstores (hfree he) hs.low).2 hn <;>
      cases he.unique ht
    exact hs.of_failed hf

theorem Sound.openData {serialize : Bool} {s s' : World × Local} {h : FrameHeader} {n : Nat}
    {now : Int64} {env : LoadEnv} (hs : Sound P s.1.writer) :
    (SizeFits P n → Ends (Stmt.exec P) ((if serialize then [.acquire] else []) ++
      openFrame h n now env ++ [.setOpen]) s (.returns s') → Sound P s'.1.writer) ∧
    (Ends (Stmt.exec P)
      ((if serialize then [.acquire] else []) ++ openFrame h n now env ++ [.setOpen]) s
      (.throws s') → Sound P s'.1.writer) := by
  have hfree : ∀ {r}, Ends (Stmt.exec P) ((if serialize then [.acquire] else []) ++
      openFrame h n now env ++ [.setOpen]) s r → serialize = true → s.1.writer.writing = false := by
    intro r he
    rw [List.append_assoc] at he
    exact lock_free_of_ends he
  by_cases hn : Crosses P s.1.writer n → NextPage P s.1 env
  · refine ⟨fun hfit he => ?_, fun he => ?_⟩ <;>
      obtain ⟨t, ht, -, -, hl, -⟩ := (ends_start h n now env (hfree he) hs.low).1 hn <;>
      cases he.unique (ht.append (.cons rfl .nil))
    obtain ⟨h1, h2⟩ := hl.room hs hfit
    have hlow := hl.low hs.low
    exact ⟨h1, hlow, Nat.le_trans (by simp only [frameAlignment]; omega) h2⟩
  · refine ⟨fun _ he => ?_, fun he => ?_⟩ <;>
      obtain ⟨t, ht, hf⟩ := (ends_start h n now env (hfree he) hs.low).2 hn <;>
      cases he.unique ht.append_throws
    exact hs.of_failed hf

theorem Sound.closeData {serialize : Bool} {s s' : World × Local} {n : Nat} {h : Hook}
    (hs : Sound P s.1.writer) :
    ((∀ o, s.1.writer.openFrameHeader = some o →
        o.page = s.1.writer.currentPage ∧ o.HasRoom P n) → Ends (Stmt.exec P)
      (.takeOpen :: closeFrame n h ++ .clearOpen :: (if serialize then [.release] else [])) s
      (.returns s') → Sound P s'.1.writer) ∧
    (Ends (Stmt.exec P) (.takeOpen :: closeFrame n h ++
      .clearOpen :: (if serialize then [.release] else [])) s (.throws s') →
        Sound P s'.1.writer) := by
  obtain ⟨w, l⟩ := s
  cases ho : w.writer.openFrameHeader with
  | none =>
    have hthrow : Stmt.takeOpen.exec P (w, l) = .throw (w, l) := by simp only [Stmt.exec, ho]
    refine ⟨fun _ he => ?_, fun he => ?_⟩ <;> cases he.unique (.throw hthrow)
    exact hs
  | some o =>
    have htake : Stmt.takeOpen.exec P (w, l) =
        .next (w, { l with frameHeader := o, meant := l.opened }) [] := by
      simp only [Stmt.exec, ho]
    have h₁ := exec_hook (P := P) h (w, { l with frameHeader := o, meant := l.opened })
    obtain ⟨hw₁, hf₁⟩ := hooked_fields h (w, { l with frameHeader := o, meant := l.opened })
    generalize hooked h (w, { l with frameHeader := o, meant := l.opened }) = s₁ at h₁ hw₁ hf₁
    obtain ⟨w₁, l₁⟩ := s₁
    have hw₁ : w₁.writer = w.writer := hw₁
    have hf₁ : l₁.frameHeader = o := hf₁
    cases hh : h.throws with
    | true =>
      rw [hh, if_pos rfl] at h₁
      refine ⟨fun _ he => ?_, fun he => ?_⟩ <;> cases he.unique (.cons htake (.throw h₁))
      rw [hw₁]
      exact hs
    | false =>
      rw [hh, if_neg Bool.false_ne_true] at h₁
      -- a frame of another page: the store of its offset faults, so nothing ends
      by_cases hpage : l₁.frameHeader.page = w₁.writer.currentPage
      · obtain ⟨b, hrel⟩ := ends_release (P := P) serialize
        refine ⟨fun hroom he => ?_, fun he => ?_⟩ <;>
          cases he.unique (.cons htake (.cons h₁ (.cons rfl
          (.cons (exec_setLastFramePosition hpage) (.cons rfl (.cons rfl hrel))))))
        obtain ⟨-, ho1, ho2, ho3⟩ := hroom o rfl
        have hstride : 64 ∣ strideOf n := (Nat.dvd_mod_iff (by decide)).mpr (alignUp_dvd _)
        rw [← hf₁] at ho1 ho2 ho3
        exact ⟨Nat.dvd_add ho1 hstride, Nat.le_trans ho2 (Nat.le_add_right ..), ho3⟩
      · refine ⟨fun _ he => ?_, fun he => ?_⟩ <;>
          cases he.unique (.cons htake (.cons h₁ (.cons rfl (.fault (if_neg hpage)))))

theorem sizeFits_zero (P : PageSize) : SizeFits P 0 := by
  have h : alignUp (frameHeaderSize + 0) frameAlignment = 64 := by decide
  have := P.roomy
  simp only [SizeFits, h]
  omega

theorem Sound.handler {serialize : Bool} {s s' : World × Local} {c : Call} (hs : Sound P s.1.writer)
    (h : Ends (Stmt.exec P) (c.handler serialize) s (.returns s')) : Sound P s'.1.writer := by
  have hrelease : Ends (Stmt.exec P) (if serialize then [.release] else []) s (.returns s') →
      Sound P s'.1.writer := by
    intro h
    obtain ⟨b, hb⟩ := ends_release (P := P) serialize (s := s)
    cases h.unique hb
    exact ⟨hs.aligned, hs.low, hs.room⟩
  cases c with
  | openData | fill =>
    cases h
    exact hs
  | closeData | mark | writeBytes => exact hrelease h

theorem mark_code (serialize : Bool) (now timestamp : Int64) (env : LoadEnv) (msgType : MsgType) :
    (Call.mark timestamp msgType).code serialize now env = (if serialize then [.acquire] else []) ++
      openFrame (headerOf timestamp msgType frameNormal) 0 now env ++ [] ++ closeFrame 0 {} ++
      (if serialize then [.release] else []) := by
  rw [List.append_nil]
  rfl

/-- **Between two calls the writer is sound**, whatever happened before. -/
theorem Reachable.sound {serialize : Bool} {s : World × Local} (h : Reachable P serialize s) :
    Sound P s.1.writer := by
  have hnil : ∀ i ∈ ([] : List Stmt), ∀ l : Local, i.target l = some l.frameHeader :=
    fun i hi => absurd hi List.not_mem_nil
  induction h with
  | constructed h => exact sound_of_construct h
  | elsewhere _ _ _ ih => exact ih
  | @returned s s' c now env _ room call ih =>
    cases c with
    | openData timestamp msgType size flags => exact ih.openData.1 room call
    | fill bytes =>
      obtain ⟨s₁, h₁, k₁⟩ := ends_stores (P := P) (s := s) (c := bytes.mapIdx Stmt.fillByte)
        fun i hi => ⟨_, target_of_mem_mapIdx (t := Local.reference) (fun _ _ _ => rfl) hi _, room⟩
      cases call.unique h₁
      rw [k₁.writer]
      exact ih
    | closeData size h => exact ih.closeData.1 room call
    | mark timestamp msgType =>
      rw [mark_code] at call
      exact (ih.publishing hnil).1 (sizeFits_zero P) call
    | writeBytes timestamp msgType data =>
      exact (ih.publishing fun i hi => target_of_mem_mapIdx (fun _ _ _ => rfl) hi).1 room call
  | @threw s s' s'' c now env _ call handler ih =>
    refine Sound.handler ?_ handler
    cases c with
    | openData timestamp msgType size flags => exact ih.openData.2 call
    | fill bytes =>
      obtain ⟨s₁, h₁⟩ := ends_fill (P := P) bytes s
      cases call.unique h₁
    | closeData size h => exact ih.closeData.2 call
    | mark timestamp msgType =>
      rw [mark_code] at call
      exact (ih.publishing hnil).2 call
    | writeBytes timestamp msgType data =>
      exact (ih.publishing fun i hi => target_of_mem_mapIdx (fun _ _ _ => rfl) hi).2 call

/-! ## The result -/

/-- **Which writes stay inside their page**: from every state a writer can be in,
exactly those that find the lock free, whose payload fits and which, if the border
test asks for a rotation, get their next page. -/
theorem write_stays_inside_iff (P : PageSize) (serialize : Bool) (s : World × Local)
    (hs : Reachable P serialize s) (w : Write) (env : LoadEnv) :
    StaysInside P serialize s w env ↔ (serialize = true → s.1.writer.writing = false) ∧
      SizeFits P w.payload.length ∧
      (Crosses P s.1.writer w.payload.length → NextPage P s.1 env) :=
  contained_iff hs.sound w env

/-- A first mark in an empty directory. -/
theorem write_stays_inside_mark :
    ∃ s, Reachable pageSizeDefault false s ∧
      StaysInside pageSizeDefault false s (.mark 5 1 7) .succeeds := by
  obtain ⟨s, hrun, hi⟩ := construct_returns pageSizeDefault true
  have hs : Reachable pageSizeDefault false s := .constructed (.of_runs hrun)
  refine ⟨s, hs, (write_stays_inside_iff pageSizeDefault false s hs _ _).mpr
    ⟨(fun h => by cases h), sizeFits_zero _, fun hc => absurd hc ?_⟩⟩
  rw [Crosses, hi.cursor.address]
  decide

/-- A payload as long as a page is accepted by a writer in an empty directory. -/
theorem write_past_page_end :
    ∃ s, Ends (Stmt.exec pageSizeDefault) (construct .succeeds 0) (fresh true) (.returns s) ∧
      Reachable pageSizeDefault false s ∧ ¬ StaysInside pageSizeDefault false s
        (.bytes 5 1 7 (List.replicate pageSizeDefault.bytes 0)) .succeeds := by
  obtain ⟨s, hrun, hi⟩ := construct_returns pageSizeDefault true
  have hs : Reachable pageSizeDefault false s := .constructed (.of_runs hrun)
  refine ⟨s, .of_runs hrun, hs, fun h => ?_⟩
  have hfits := ((contained_iff hs.sound _ _).mp h).2.1
  simp only [Write.payload, List.length_replicate] at hfits
  exact absurd hfits (by decide)

end Revoq
