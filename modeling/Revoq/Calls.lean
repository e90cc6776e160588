import Revoq.Rotation

/-! # The writer's calls

Between two calls of a session the writer is `Idle`: the tail is clean and the
fields point at it.  Each call that publishes leads from `Idle` to `Idle`, with the
entries that `place` says added to the log; `openData` stops half way, with the
frame `Built` behind the tail.
-/
namespace Revoq
open ByteImage StmtMachine

/-- Between two calls. -/
structure Idle (P : PageSize) (C : Ctx) (tail : Slot) (log : List Entry)
    (s : World × Local) : Prop where
  state : At P C tail s.1.writer s.2 log (Clean P C tail log) s
  cursor : Cursor C tail log.length s.1.writer
  closed : s.2.load.opened = false

/-- A frame stands behind the tail, except for its length. -/
structure Built (P : PageSize) (C : Ctx) (tail : Slot) (log : List Entry) (f : Frame)
    (s : World × Local) : Prop where
  state : At P C tail s.1.writer s.2 log (Body P C tail log f) s
  cursor : Cursor C tail (log.length + 1) s.1.writer
  closed : s.2.load.opened = false
  sequence : f.sequence = C.seq + UInt64.ofNat log.length

/-- The frame is the one the running call is about to publish. -/
structure InHand (tail : Slot) (f : Frame) (s : World × Local) : Prop where
  frameHeader : s.2.frameHeader = tail
  meant : s.2.meant = f

/-- The frame is the one that `openData` left open. -/
structure InSlot (tail : Slot) (f : Frame) (s : World × Local) : Prop where
  header : s.1.writer.openFrameHeader = some tail
  reference : s.2.reference = tail
  opened : s.2.opened = f

section
variable {P : PageSize} {C : Ctx} {full log : List Entry} {tail : Slot} {s s' : World × Local}
variable {Q : World × Local → Prop} {rest : List Stmt} {f : Frame} {n : Nat}

theorem Idle.stable (h : Idle P C tail log s) (hs : Stable P C s s') : Idle P C tail log s' := by
  have hf := frontier_le (l := s.2) h.cursor.page
  have := h.state.stable hf (Clean.framed hf) hs
  obtain ⟨h1, h2⟩ : s'.1.writer = s.1.writer ∧ s'.2 = s.2 := ⟨hs.writer, hs.regs⟩
  exact ⟨by rw [h1, h2]; exact this, h1 ▸ h.cursor, h2 ▸ h.closed⟩

theorem Built.stable (h : Built P C tail log f s) (hs : Stable P C s s') :
    Built P C tail log f s' := by
  have hf := frontier_le (l := s.2) h.cursor.page
  have := h.state.stable hf (Body.framed hf) hs
  obtain ⟨h1, h2⟩ : s'.1.writer = s.1.writer ∧ s'.2 = s.2 := ⟨hs.writer, hs.regs⟩
  exact ⟨by rw [h1, h2]; exact this, h1 ▸ h.cursor, h2 ▸ h.closed, h.sequence⟩

theorem Idle.of_at {j : JournalWriter} {l : Local} (h : At P C tail j l log (Clean P C tail log) s)
    (cursor : Cursor C tail log.length j) (closed : l.load.opened = false) :
    Idle P C tail log s := by
  obtain rfl := h.writer
  obtain rfl := h.regs
  exact ⟨h, cursor, closed⟩

theorem Built.of_at {j : JournalWriter} {l : Local}
    (h : At P C tail j l log (Body P C tail log f) s) (cursor : Cursor C tail (log.length + 1) j)
    (closed : l.load.opened = false) (sequence : f.sequence = C.seq + UInt64.ofNat log.length) :
    Built P C tail log f s := by
  obtain rfl := h.writer
  obtain rfl := h.regs
  exact ⟨h, cursor, closed, sequence⟩

theorem At.aside {E : Disk → Prop} {j j' : JournalWriter} {l l' : Local}
    (h : At P C tail j' l' log E s) (ha : Aside j l j' l') : Aside j l s.1.writer s.2 := by
  obtain rfl := h.writer
  obtain rfl := h.regs
  exact ha

/-! ## Opening a frame -/

/-- `openFrame` once there is room behind the tail. -/
theorem At.openHeader {j : JournalWriter} {l : Local} {h : FrameHeader}
    (hc : Cursor C tail log.length j) (hclosed : l.load.opened = false) (he : h.eventTime = 0)
    (hfull : log <+: full) (hs : At P C tail j l log (Clean P C tail log) s)
    (next : ∀ s', Built P C tail log ⟨{ h with sequence := j.currentSequence }, []⟩ s' →
      InHand tail ⟨{ h with sequence := j.currentSequence }, []⟩ s' → Aside j l s'.1.writer s'.2 →
      Safe P C full Q rest s') :
    Safe P C full Q (.takeCursor h :: fillHeader h ++ [.put FrameField.length 0] ++ rest) s := by
  have hgrid := hs.live.grid
  rw [List.append_assoc]
  refine (hs.mono fun _ h => ⟨h, trivial⟩).takeHeader (N := fun _ => True) hc.page hc.address he
    (fun _ _ _ h => h) hfull fun s hs => ?_
  have hf : tail.page ≤ frontier { j with currentSequence := j.currentSequence + 1 } { l with
    frameHeader := tail, meant := ⟨{ h with sequence := j.currentSequence }, []⟩ } :=
      frontier_le hc.page
  refine (hs.mono fun _ h => h.1).step hf (Body.framed hf) hfull fun w hw => ⟨_, [], rfl, ?_⟩
  have hw' := hw.write_tail (a := 0) (k := 4) (v := 0) (Or.inr ⟨rfl, rfl, rfl⟩) hf
    fun hd => Body.length_zero hd (by omega)
  refine next _ (Built.of_at hw' ⟨hc.page, hc.pageId, hc.address, ?_⟩ hclosed hc.sequence)
    ⟨rfl, rfl⟩ (hw'.aside ⟨rfl, rfl, rfl, rfl, rfl, rfl⟩)
  rw [← uint64_succ, ← hc.sequence]

/-- **`openFrame`** builds an empty frame, after a rotation if there was no room. -/
theorem Idle.openFrame {h : FrameHeader} {now : Int64} {room : List Entry}
    (hi : Idle P C tail log s) (he : h.eventTime = 0)
    (fits : alignUp (frameHeaderSize + n) frameAlignment + 128 ≤ P.bytes)
    (hroom : makeRoom P s.2.thread tail (C.seq + UInt64.ofNat log.length)
      (alignUp (frameHeaderSize + n) frameAlignment) now = room)
    (hfull : log ++ room <+: full)
    (next : ∀ s', let f := ⟨{ h with sequence := C.seq + UInt64.ofNat (log ++ room).length }, []⟩
      Built P C (endOf tail room) (log ++ room) f s' → InHand (endOf tail room) f s' →
      Aside s.1.writer s.2 s'.1.writer s'.2 →
      (endOf tail room).offset + alignUp (frameHeaderSize + n) frameAlignment + 64 ≤ P.bytes →
      Safe P C full Q rest s') :
    Safe P C full Q (Revoq.openFrame h n now .succeeds ++ rest) s := by
  obtain ⟨-, hstride⟩ := strideOf_eq fits
  obtain ⟨hs, hc, hclosed⟩ := hi
  have hf := frontier_le (l := s.2) hc.page
  have hpre : log <+: full := (List.prefix_append ..).trans hfull
  refine hs.step hf (Clean.framed hf) hpre fun w hw => ?_
  have hcursor : w.writer.currentFrameAddress = tail.offset :=
    (congrArg JournalWriter.currentFrameAddress hw.writer).trans hc.address
  by_cases hov : Overflows P tail (alignUp (frameHeaderSize + n) frameAlignment)
  · rw [makeRoom, if_pos hov, ← hc.sequence] at hroom
    subst hroom
    have hexec : (Stmt.border n now .succeeds).exec P (w, s.2) =
        .next (w, s.2) (rotatePage now .succeeds) := by
      simp only [Stmt.exec, hcursor, hstride]
      exact if_pos hov
    refine ⟨_, _, hexec, hw.rotate hc hclosed hfull fun s' j' l' hs' hc' hclosed' ha => ?_⟩
    have hlen :
        (log ++
        [(⟨tail, pageEndFrame now s.1.writer.currentSequence, s.2.thread⟩ : Entry)]).length =
        log.length + 1 := by simp
    rw [← hlen] at hc'
    refine hs'.openHeader (h := h) hc' hclosed' he hfull fun s'' hb hh ha' => ?_
    rw [hc'.sequence] at hb hh
    exact next s'' hb hh (ha.trans ha') (by
      show 64 + _ + 64 ≤ P.bytes
      omega)
  · rw [makeRoom, if_neg hov] at hroom
    subst hroom
    rw [List.append_nil] at next hfull
    have hexec : (Stmt.border n now .succeeds).exec P (w, s.2) = .next (w, s.2) [] := by
      simp only [Stmt.exec, hcursor, hstride]
      exact if_neg hov
    refine ⟨_, _, hexec, hw.openHeader (h := h) hc hclosed he hfull fun s'' hb hh ha => ?_⟩
    rw [hc.sequence] at hb hh
    refine next s'' hb hh ha ?_
    have := P.roomy
    simp only [Overflows, frameAlignment, Nat.not_lt] at hov
    show tail.offset + _ + 64 ≤ P.bytes
    simp only [frameAlignment]
    omega

/-! ## Filling it -/

/-- **`memcpy`** adds the bytes to the frame. -/
theorem Built.putBytes {bs : List UInt8} (hfull : log <+: full) (hn : f.payload.length = n)
    (hb : Built P C tail log f s) (hh : InHand tail f s)
    (next : ∀ s', Built P C tail log { f with payload := f.payload ++ bs } s' →
      InHand tail { f with payload := f.payload ++ bs } s' →
      Aside s.1.writer s.2 s'.1.writer s'.2 → Safe P C full Q rest s') :
    Safe P C full Q (bs.mapIdx (fun i b => Stmt.putByte (n + i) b) ++ rest) s := by
  induction bs generalizing f n s with
  | nil =>
    rw [List.append_nil] at next
    exact next s hb hh (.refl ..)
  | cons b bs ih =>
    have hf := frontier_le (l := s.2) hb.cursor.page
    have hexec : ∀ w, (Stmt.putByte (n + 0) b).exec P (w, s.2) =
        .next (w.store tail (frameHeaderSize + n) 1 b.toNat, { s.2 with meant := f.snoc b })
          [] := by
      intro w
      simp only [Stmt.exec, hh.frameHeader, hh.meant]
      rfl
    have hrest : (fun i => Stmt.putByte (n + (i + 1))) = fun i => Stmt.putByte (n + 1 + i) := by
      funext i
      rw [Nat.add_right_comm, Nat.add_assoc]
    rw [List.mapIdx_cons, hrest]
    refine hb.state.private_step hf (Body.framed hf) hfull hexec rfl
      (Or.inl (by simp only [frameHeaderSize]; omega)) (fun d hd => hn ▸ hd.snoc b) fun s' hs' => ?_
    refine ih (f := f.snoc b) (n := n + 1) (by simp [Frame.snoc, hn])
      (Built.of_at hs' hb.cursor hb.closed hb.sequence) ?_ fun s'' h1 h2 h3 => next s'' ?_ ?_ ?_
    · exact ⟨by rw [hs'.regs]; exact hh.frameHeader, by rw [hs'.regs]⟩
    · simpa [Frame.snoc] using h1
    · simpa [Frame.snoc] using h2
    · exact (hs'.aside (l := s.2) ⟨rfl, rfl, rfl, rfl, rfl, rfl⟩).trans h3

/-- **The caller fills the slot** through the reference. -/
theorem Built.fillBytes {bs : List UInt8} (hfull : log <+: full) (hn : f.payload.length = n)
    (hb : Built P C tail log f s) (hslot : InSlot tail f s)
    (next : ∀ s', Built P C tail log { f with payload := f.payload ++ bs } s' →
      InSlot tail { f with payload := f.payload ++ bs } s' → s'.1.writer = s.1.writer →
      s'.2.thread = s.2.thread → Safe P C full Q rest s') :
    Safe P C full Q (bs.mapIdx (fun i b => Stmt.fillByte (n + i) b) ++ rest) s := by
  induction bs generalizing f n s with
  | nil =>
    rw [List.append_nil] at next
    exact next s hb hslot rfl rfl
  | cons b bs ih =>
    have hf := frontier_le (l := s.2) hb.cursor.page
    have hexec : ∀ w, (Stmt.fillByte (n + 0) b).exec P (w, s.2) =
        .next (w.store tail (frameHeaderSize + n) 1 b.toNat, { s.2 with opened := f.snoc b })
          [] := by
      intro w
      simp only [Stmt.exec, hslot.reference, hslot.opened]
      rfl
    have hrest : (fun i => Stmt.fillByte (n + (i + 1))) = fun i => Stmt.fillByte (n + 1 + i) := by
      funext i
      rw [Nat.add_right_comm, Nat.add_assoc]
    rw [List.mapIdx_cons, hrest]
    refine hb.state.private_step hf (Body.framed hf) hfull hexec rfl
      (Or.inl (by simp only [frameHeaderSize]; omega)) (fun d hd => hn ▸ hd.snoc b) fun s' hs' => ?_
    refine ih (f := f.snoc b) (n := n + 1) (by simp [Frame.snoc, hn])
      (Built.of_at hs' hb.cursor hb.closed hb.sequence) ⟨?_, ?_, ?_⟩ fun s'' h1 h2 h3 h4 =>
        next s'' ?_ ?_ (h3.trans hs'.writer) (h4.trans ?_)
    · rw [hs'.writer]
      exact hslot.header
    · rw [hs'.regs]
      exact hslot.reference
    · rw [hs'.regs]
    · simpa [Frame.snoc] using h1
    · simpa [Frame.snoc] using h2
    · rw [hs'.regs]

/-! ## Closing it -/

/-- The frame after the hook has run on it. -/
def Hook.apply (h : Hook) (f : Frame) : Frame :=
  match h.eventTime with
  | none => f
  | some t => { f with eventTime := t }

theorem Hook.apply_payload (h : Hook) (f : Frame) : (h.apply f).payload = f.payload := by
  unfold apply
  split <;> rfl

theorem Hook.apply_stride (h : Hook) (f : Frame) : (h.apply f).stride = f.stride := by
  rw [Frame.stride, Frame.stride, Frame.length, h.apply_payload]
  rfl

theorem Hook.apply_msgType (h : Hook) (f : Frame) : (h.apply f).msgType = f.msgType := by
  unfold apply
  split <;> rfl

/-- A hook that does not throw. -/
theorem Built.hook {h : Hook} (hh : h.throws = false) (hfull : log <+: full)
    (hb : Built P C tail log f s) (hand : InHand tail f s)
    (next : ∀ s', Built P C tail log (h.apply f) s' → InHand tail (h.apply f) s' →
      Aside s.1.writer s.2 s'.1.writer s'.2 → Safe P C full Q rest s') :
    Safe P C full Q (.hook h :: rest) s := by
  have hf := frontier_le (l := s.2) hb.cursor.page
  have hgrid := hb.state.live.grid
  cases ht : h.eventTime with
  | none =>
    have happ : h.apply f = f := by rw [Hook.apply, ht]
    rw [happ] at next
    refine hb.state.step hf (Body.framed hf) hfull fun w hw => ⟨(w, s.2), [], ?_, ?_⟩
    · simp [Stmt.exec, ht, hh]
    · exact next _ (Built.of_at hw hb.cursor hb.closed hb.sequence) ⟨hand.frameHeader, hand.meant⟩
        (hw.aside (.refl _ _))
  | some t =>
    have happ : h.apply f = { f with eventTime := t } := by rw [Hook.apply, ht]
    rw [happ] at next
    have hexec : ∀ w, (Stmt.hook h).exec P (w, s.2) =
        .next (w.store tail 24 8 t.toUInt64.toNat,
          { s.2 with meant := { f with eventTime := t } }) [] := by
      intro w
      simp only [Stmt.exec, ht, hh, hand.frameHeader, hand.meant]
      rfl
    refine hb.state.private_step hf (Body.framed hf) hfull hexec rfl (Or.inl (by decide))
      (fun d hd => hd.event (by omega) t) fun s' hs' => next s' ?_ ⟨?_, ?_⟩ ?_
    · exact Built.of_at hs' hb.cursor hb.closed hb.sequence
    · rw [hs'.regs]
      exact hand.frameHeader
    · rw [hs'.regs]
    · exact hs'.aside ⟨rfl, rfl, rfl, rfl, rfl, rfl⟩

/-- **`closeFrame`** publishes the frame. -/
theorem Built.closeFrame {h : Hook} (hh : h.throws = false) (visible : f.msgType ≠ 0)
    (data : ¬ f.IsPageEnd) (fits : f.stride + 128 ≤ P.bytes)
    (room : tail.offset + f.stride + 64 ≤ P.bytes)
    (hfull : log ++ [⟨tail, h.apply f, s.2.thread⟩] <+: full) (hb : Built P C tail log f s)
    (hand : InHand tail f s)
    (next : ∀ s', Idle P C (tail.after (h.apply f)) (log ++ [⟨tail, h.apply f, s.2.thread⟩]) s' →
      Aside s.1.writer s.2 s'.1.writer s'.2 → Safe P C full Q rest s') :
    Safe P C full Q (Revoq.closeFrame f.payload.length h ++ rest) s := by
  have hpre : log <+: full := (List.prefix_append ..).trans hfull
  refine hb.hook hh hpre hand fun s₁ hb₁ hand₁ ha₁ => ?_
  have hdata : ¬ (h.apply f).IsPageEnd := by rw [Frame.IsPageEnd, h.apply_msgType]; exact data
  have hstride := h.apply_stride f
  rw [← ha₁.thread] at hfull next
  refine (h.apply_payload f ▸ At.publish_data) hand₁.frameHeader hand₁.meant hb₁.cursor.page
    (by rw [h.apply_msgType]; exact visible) hdata (by rw [hstride]; exact fits)
    (by rw [hstride]; exact room) hb₁.sequence hfull hb₁.state fun s₂ hs₂ => ?_
  have hafter : tail.after (h.apply f) = ⟨tail.page, tail.offset + f.stride⟩ := by
    rw [Slot.after_data hdata, hstride]
  have hf : (tail.after (h.apply f)).page ≤ frontier s₁.1.writer s₁.2 := by
    rw [hafter]
    exact frontier_le hb₁.cursor.page
  have hexec : ∀ w, (Stmt.moveCursor f.payload.length).exec P (w, s₁.2) =
      .next ({ w with writer := { w.writer with
        currentFrameAddress := tail.offset + f.stride } }, s₁.2) [] := by
    intro w
    simp only [Stmt.exec, hand₁.frameHeader, (strideOf_eq fits).2]
    rfl
  refine hs₂.step hf (Clean.framed hf) hfull fun w hw => ⟨_, [], hexec w, ?_⟩
  have hat : At P C (tail.after (h.apply f))
      { s₁.1.writer with currentFrameAddress := tail.offset + f.stride } s₁.2
      (log ++ [⟨tail, h.apply f, s₁.2.thread⟩])
      (Clean P C (tail.after (h.apply f)) (log ++ [⟨tail, h.apply f, s₁.2.thread⟩]))
      ({ w with writer := { w.writer with currentFrameAddress := tail.offset + f.stride } },
        s₁.2) :=
    ⟨hw.live, hw.log, by rw [← hw.writer], rfl, hw.extra, hw.ring⟩
  refine next _ (Idle.of_at hat ?_ hb₁.closed)
    (ha₁.trans (hat.aside ⟨rfl, rfl, rfl, rfl, rfl, rfl⟩))
  rw [hafter]
  refine ⟨hb₁.cursor.page, hb₁.cursor.pageId, rfl, ?_⟩
  simpa using hb₁.cursor.sequence

/-! ## Whole calls -/

/-- `openData` leaves the frame open in its slot. -/
theorem Idle.openData {timestamp now : Int64} {msgType : MsgType} {flags : UInt16}
    {room : List Entry} (hi : Idle P C tail log s)
    (fits : alignUp (frameHeaderSize + n) frameAlignment + 128 ≤ P.bytes)
    (hroom : makeRoom P s.2.thread tail (C.seq + UInt64.ofNat log.length)
      (alignUp (frameHeaderSize + n) frameAlignment) now = room)
    (hfull : log ++ room <+: full)
    (next : ∀ s', let f := ⟨{ headerOf timestamp msgType flags with
        sequence := C.seq + UInt64.ofNat (log ++ room).length }, []⟩
      Built P C (endOf tail room) (log ++ room) f s' → InSlot (endOf tail room) f s' →
      s'.1.writer.writing = s.1.writer.writing → s'.2.thread = s.2.thread →
      (endOf tail room).offset + alignUp (frameHeaderSize + n) frameAlignment + 64 ≤ P.bytes →
      Safe P C full Q rest s') :
    Safe P C full Q ((Call.openData timestamp msgType n flags).code false now .succeeds ++ rest)
      s := by
  simp only [Call.code, Bool.false_eq_true, if_false, List.nil_append, List.append_assoc]
  refine hi.openFrame (h := headerOf timestamp msgType flags) rfl fits hroom hfull
    fun s₁ hb hand ha hfit => ?_
  have hf := frontier_le (l := s₁.2) hb.cursor.page
  refine hb.state.step hf (Body.framed hf) hfull fun w hw => ⟨_, [], rfl, ?_⟩
  have hat : At P C (endOf tail room)
      { s₁.1.writer with openFrameHeader := some s₁.2.frameHeader }
      { s₁.2 with reference := s₁.2.frameHeader, opened := s₁.2.meant } (log ++ room) _
      ({ w with writer := { w.writer with openFrameHeader := some s₁.2.frameHeader } },
        { s₁.2 with reference := s₁.2.frameHeader, opened := s₁.2.meant }) :=
    ⟨hw.live, hw.log, by rw [← hw.writer], rfl, hw.extra, hw.ring⟩
  refine next _ (Built.of_at hat ⟨hb.cursor.page, hb.cursor.pageId, hb.cursor.address,
    hb.cursor.sequence⟩ hb.closed hb.sequence) ⟨?_, hand.frameHeader, hand.meant⟩ ?_ ha.thread hfit
  · exact congrArg some hand.frameHeader
  · rw [← ha.writing, ← hw.writer]

/-- `closeData` publishes the open frame. -/
theorem Built.closeData {h : Hook} {now : Int64} (hh : h.throws = false) (visible : f.msgType ≠ 0)
    (data : ¬ f.IsPageEnd) (fits : f.stride + 128 ≤ P.bytes)
    (room : tail.offset + f.stride + 64 ≤ P.bytes)
    (hfull : log ++ [⟨tail, h.apply f, s.2.thread⟩] <+: full) (hb : Built P C tail log f s)
    (hslot : InSlot tail f s)
    (next : ∀ s', Idle P C (tail.after (h.apply f)) (log ++ [⟨tail, h.apply f, s.2.thread⟩]) s' →
      s'.1.writer.writing = s.1.writer.writing → s'.2.thread = s.2.thread →
        Safe P C full Q rest s') :
    Safe P C full Q ((Call.closeData f.payload.length h).code false now .succeeds ++ rest) s := by
  have hpre : log <+: full := (List.prefix_append ..).trans hfull
  have hf := frontier_le (l := s.2) hb.cursor.page
  simp only [Call.code, Bool.false_eq_true, if_false, List.cons_append, List.append_assoc,
    List.nil_append]
  refine hb.state.step hf (Body.framed hf) hpre fun w hw => ?_
  have hexec : Stmt.takeOpen.exec P (w, s.2) =
      .next (w, { s.2 with frameHeader := tail, meant := f }) [] := by
    have hw' : w.writer.openFrameHeader = some tail :=
      (congrArg JournalWriter.openFrameHeader hw.writer).trans hslot.header
    simp only [Stmt.exec, hw', hslot.opened]
  have hat : At P C tail s.1.writer { s.2 with frameHeader := tail, meant := f } log
      (Body P C tail log f) (w, { s.2 with frameHeader := tail, meant := f }) :=
    ⟨hw.live, hw.log, hw.writer, rfl, hw.extra, hw.ring⟩
  refine ⟨_, [], hexec, ?_⟩
  refine (Built.of_at hat hb.cursor hb.closed hb.sequence).closeFrame hh visible
    data fits room hfull ⟨rfl, rfl⟩ fun s₂ hi ha => ?_
  have hf := frontier_le (l := s₂.2) hi.cursor.page
  refine hi.state.step hf (Clean.framed hf) hfull fun w' hw' => ⟨_, [], rfl, ?_⟩
  have hat : At P C (tail.after (h.apply f)) { s₂.1.writer with openFrameHeader := none } s₂.2 _ _
      ({ w' with writer := { w'.writer with openFrameHeader := none } }, s₂.2) :=
    ⟨hw'.live, hw'.log, by rw [← hw'.writer], rfl, hw'.extra, hw'.ring⟩
  refine next _ (Idle.of_at hat ⟨hi.cursor.page, hi.cursor.pageId, hi.cursor.address,
    hi.cursor.sequence⟩ hi.closed) ?_ ha.thread
  rw [show s.1.writer = w.writer from hw.writer.symm, ← ha.writing, ← hw'.writer]

/-- `writeBytes`, and `mark` for no bytes: open, copy and close. -/
theorem Idle.writeFrame {h : FrameHeader} {bs : List UInt8} {now : Int64} {room : List Entry}
    (hi : Idle P C tail log s) (he : h.eventTime = 0) (visible : h.msgType ≠ 0)
    (data : h.msgType ≠ MsgType.pageEnd.toHeader)
    (fits : alignUp (frameHeaderSize + bs.length) frameAlignment + 128 ≤ P.bytes)
    (hroom : makeRoom P s.2.thread tail (C.seq + UInt64.ofNat log.length)
      (alignUp (frameHeaderSize + bs.length) frameAlignment) now = room)
    (hfull : log ++ room ++ [⟨endOf tail room,
      ⟨{ h with sequence := C.seq + UInt64.ofNat (log ++ room).length }, bs⟩, s.2.thread⟩] <+: full)
    (next : ∀ s', let f := ⟨{ h with sequence := C.seq + UInt64.ofNat (log ++ room).length }, bs⟩
      Idle P C ((endOf tail room).after f) (log ++ room ++ [⟨endOf tail room, f, s.2.thread⟩]) s' →
      s'.1.writer.writing = s.1.writer.writing → s'.2.thread = s.2.thread →
        Safe P C full Q rest s') :
    Safe P C full Q (Revoq.openFrame h bs.length now .succeeds ++ (bs.mapIdx Stmt.putByte ++
      (Revoq.closeFrame bs.length {} ++ rest))) s := by
  have hpre : log ++ room <+: full := (List.prefix_append ..).trans hfull
  refine hi.openFrame he fits hroom hpre fun s₁ hb₁ hand₁ ha₁ hfit => ?_
  have hidx : Stmt.putByte = fun i b => Stmt.putByte (0 + i) b := by
    funext i b
    rw [Nat.zero_add]
  rw [hidx]
  refine hb₁.putBytes hpre rfl hand₁ fun s₂ hb₂ hand₂ ha₂ => ?_
  have ha := ha₁.trans ha₂
  rw [← ha.thread] at hfull next
  rw [List.nil_append] at hb₂ hand₂
  generalize hf :
    (⟨{ h with sequence := C.seq + UInt64.ofNat (log ++ room).length }, bs⟩ : Frame) = f at *
  have hlen : f.payload.length = bs.length := by rw [← hf]
  have hstride : f.stride = alignUp (frameHeaderSize + bs.length) frameAlignment := by
    rw [Frame.stride, Frame.length, hlen]
  rw [← hlen]
  refine hb₂.closeFrame (h := {}) rfl (hf ▸ visible) (hf ▸ data) (hstride ▸ fits)
    (hstride ▸ hfit) hfull
    hand₂ fun s₃ hi₃ ha₃ => ?_
  exact next s₃ hi₃ (ha₃.writing.trans ha.writing) ha₃.thread

end
end Revoq
