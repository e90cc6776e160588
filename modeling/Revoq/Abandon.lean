import Revoq.CallEnds
import Revoq.LiveReader

/-! # Frames that are given up

`openData` assigns a sequence number and hands out a slot; whether a frame comes of
it is decided later.  If the hook of `closeData` throws, or the user goes on to
another frame, the next frame is built in the same slot, with a new number, and over
whatever the user has left there.

So an opened frame that is given up leaves no trace as long as nothing is published
after it: no frame, and no sentinel of a rotation.
-/
namespace Revoq
open ByteImage StmtMachine

/-! ## Users of a writer -/

/-- What a user does. -/
inductive Action where
  /-- `openData<T>`, and the user fills the slot. -/
  | open (now timestamp : Int64) (msgType : MsgType) (flags : UInt16) (payload : List UInt8)
  | close (size : Nat) (h : Hook)
  /-- A frame published in one go. -/
  | write (w : Write)

namespace Action

/-- The statements of the action, when every page load succeeds. -/
def code : Action → List Stmt
  | .open now timestamp msgType flags payload =>
      (Call.openData timestamp msgType payload.length flags).code false now .succeeds ++
        (Call.fill payload).code false now .succeeds
  | .close size h => (Call.closeData size h).code false 0 .succeeds
  | .write w => w.code false

/-- The action starts a frame. -/
def opens : Action → Prop
  | .open .. | .write _ => True
  | .close .. => False

/-- The action makes a length store: of a frame, or of a sentinel. -/
def Publishes (P : PageSize) (s : World × Local) : Action → Prop
  | .open _ _ _ _ payload => Crosses P s.1.writer payload.length
  | .close _ h => h.throws = false
  | .write _ => True

end Action

/-- What the user knows: the frame it has open, whether it has ever left one for
another, and the frames whose publishing call returned. -/
structure User where
  opened : Option Frame := none
  givenUp : Bool := false
  published : List Frame := []

namespace User

/-- After an action that returned, or threw. -/
def after (u : User) (returned : Bool) : Action → User
  | .open _ timestamp msgType flags payload =>
      { u with
        opened := some ⟨headerOf timestamp msgType flags, payload⟩
        givenUp := u.givenUp || u.opened.isSome }
  | .close _ h =>
      match u.opened with
      | none => u
      | some f =>
        if returned then { u with opened := none, published := u.published ++ [h.apply f] }
        else { u with opened := some (h.apply f) }
  | .write w =>
      { u with
        givenUp := u.givenUp || u.opened.isSome
        published := if returned then u.published ++ [w.request.frame 0] else u.published }

/-- The user's actions are in order: frames of allowed types that fit, stamped from
time 0 on, and `closeData<T>` for the `T` that is open. -/
def Legal (P : PageSize) (u : User) : Action → Prop
  | .open now timestamp msgType flags payload =>
      (Write.data now timestamp msgType flags payload none).Ok P ∧ 0 ≤ timestamp ∧ 0 ≤ now
  | .close size _ => ∀ f, u.opened = some f → f.payload.length = size
  | .write w => w.Ok P ∧ 0 ≤ w.timestamp ∧ 0 ≤ w.now

/-- **Nothing is published after a frame was given up.** -/
def Quiet (P : PageSize) (u : User) (s : World × Local) (a : Action) : Prop :=
  u.givenUp = true ∨ u.opened.isSome = true ∧ a.opens → ¬ a.Publishes P s

end User

/-- The states a user gets a writer into with actions that are `ok`. -/
inductive Uses (P : PageSize) (ok : User → World × Local → Action → Prop) (s₀ : World × Local) :
    User → World × Local → Prop where
  | start : Uses P ok s₀ {} s₀
  | returned {u : User} {s s' : World × Local} {a : Action} (h : Uses P ok s₀ u s)
      (legal : u.Legal P a) (hok : ok u s a) (ends : Ends (Stmt.exec P) a.code s (.returns s')) :
      Uses P ok s₀ (u.after true a) s'
  | threw {u : User} {s s' : World × Local} {a : Action} (h : Uses P ok s₀ u s)
      (legal : u.Legal P a) (hok : ok u s a) (ends : Ends (Stmt.exec P) a.code s (.throws s')) :
      Uses P ok s₀ (u.after false a) s'

/-- **What was given up has left no trace.** -/
structure NoTrace (P : PageSize) (prefault : Bool) (u : User) (w : World) : Prop where
  /-- A reader that joins from time 0 drains the published frames and sentinels. -/
  delivered : ∀ fuel, w.log.length < fuel → ∃ r, Reader.join P fuel prefault 0 w.disk =
    .ok (w.disk, r) ∧
    r.drain P fuel w.disk = .ok (w.log.map Entry.frame)
  /-- Those frames are the ones whose publishing call returned. -/
  exact : dataOf w.log = u.published
  sequence : ∀ i e, w.log[i]? = some e → e.frame.sequence = UInt64.ofNat i
  /-- Behind the last of them there is no frame. -/
  stop : let t := endOf ⟨1, pageHeaderSize⟩ w.log
    getFrameLength (w.disk.image t.page) t.offset = 0

/-! ## Where the user stands -/

theorem Safe.ends {P : PageSize} {C : Ctx} {full : List Entry} {Q : World × Local → Prop}
    {code : List Stmt} {s : World × Local} (h : Safe P C full Q code s) :
    ∃ s', Ends (Stmt.exec P) code s (.returns s') ∧ Q s' := by
  obtain ⟨s', hr, hq⟩ := h.terminates Stable.refl
  exact ⟨s', .of_runs hr, hq⟩

/-- The log is what was published, stamped from time 0 on. -/
structure Recorded (u : User) (log : List Entry) : Prop where
  data : dataOf log = u.published
  time : ∀ e ∈ log, 0 ≤ e.frame.genTime

/-- A frame that can be published at the tail. -/
structure Closable (P : PageSize) (tail : Slot) (f : Frame) : Prop where
  visible : f.msgType ≠ 0
  data : ¬ f.IsPageEnd
  fits : f.stride + 128 ≤ P.bytes
  room : tail.offset + f.stride + 64 ≤ P.bytes
  time : 0 ≤ f.genTime

/-- The log is on disk with no frame behind it; the bytes there are anybody's guess. -/
structure Loose (P : PageSize) (tail : Slot) (log : List Entry) (s : World × Local) : Prop where
  live : Live P (ctxOf P .empty) s.1.disk log tail
  log : s.1.log = log
  page : s.1.writer.currentPage = tail.page
  address : s.1.writer.currentFrameAddress = tail.offset

/-- **Where a user stands who publishes nothing after giving up a frame.** -/
inductive Track (P : PageSize) (u : User) (s : World × Local) : Prop where
  | idle {tail : Slot} {log : List Entry} (idle : Idle P (ctxOf P .empty) tail log s)
      (header : s.1.writer.openFrameHeader = none) (opened : u.opened = none)
      (keeps : u.givenUp = false) (recorded : Recorded u log)
  | filled {tail : Slot} {log : List Entry} {f : Frame}
      (built : Built P (ctxOf P .empty) tail log f s) (slot : InSlot tail f s)
      (opened : u.opened = some f.content) (keeps : u.givenUp = false)
      (closable : Closable P tail f) (recorded : Recorded u log)
  | lost {tail : Slot} {log : List Entry} (loose : Loose P tail log s)
      (header : s.1.writer.openFrameHeader = some tail) (opened : u.opened.isSome = true)
      (givenUp : u.givenUp = true) (recorded : Recorded u log)

/-- The action ends, and the user stands somewhere after it. -/
def Moves (P : PageSize) (u : User) (a : Action) (s : World × Local) : Prop :=
  (∃ s', Ends (Stmt.exec P) a.code s (.returns s') ∧ Track P (u.after true a) s') ∨
    ∃ s', Ends (Stmt.exec P) a.code s (.throws s') ∧ Track P (u.after false a) s'

section
variable {P : PageSize} {u : User} {s : World × Local} {tail : Slot} {log : List Entry} {f : Frame}

theorem dataOf_makeRoom (P : PageSize) (thread : Nat) (t : Slot) (seq : UInt64) (stride : Nat)
    (now : Int64) : dataOf (makeRoom P thread t seq stride now) = [] := by
  unfold makeRoom
  split
  · rfl
  · rfl

theorem genTime_makeRoom {thread : Nat} {t : Slot} {seq : UInt64} {stride : Nat} {now : Int64}
    {e : Entry} (he : e ∈ makeRoom P thread t seq stride now) : e.frame.genTime = now := by
  unfold makeRoom at he
  split at he
  · rw [List.mem_singleton.mp he]
    rfl
  · cases he

/-- A user with nothing open opens a frame. -/
theorem Track.open (hi : Idle P (ctxOf P .empty) tail log s) (ho : u.opened = none)
    (hk : u.givenUp = false) (hr : Recorded u log) {now timestamp : Int64} {msgType : MsgType}
    {flags : UInt16} {payload : List UInt8}
    (hl : u.Legal P (.open now timestamp msgType flags payload)) :
    Moves P u (.open now timestamp msgType flags payload) s := by
  obtain ⟨hok, htime, hnow⟩ := hl
  obtain ⟨visible, data⟩ := hok.isData
  have fits := hok.request_fits
  generalize hroom : makeRoom P s.2.thread tail ((ctxOf P .empty).seq + UInt64.ofNat log.length)
    (alignUp (frameHeaderSize + payload.length) frameAlignment) now = room
  have hsafe : Safe P (ctxOf P .empty) (log ++ room) (Track P (u.after true
      (.open now timestamp msgType flags payload))) ((Call.openData timestamp msgType payload.length
      flags).code false now .succeeds ++ ((Call.fill payload).code false now .succeeds ++ []))
        s := by
    refine hi.openData fits hroom (List.prefix_refl _) fun s₁ hb hslot _ _ hfit => ?_
    have hidx : Stmt.fillByte = fun i b => Stmt.fillByte (0 + i) b := by
      funext i b
      rw [Nat.zero_add]
    rw [Call.code, hidx]
    refine hb.fillBytes (List.prefix_refl _) rfl hslot fun s₂ hb₂ hslot₂ _ _ => ?_
    rw [List.nil_append] at hb₂ hslot₂
    generalize hf : (⟨{ headerOf timestamp msgType flags with
      sequence := (ctxOf P .empty).seq + UInt64.ofNat (log ++ room).length }, payload⟩ : Frame) = f
      at hb₂ hslot₂
    have hstride : f.stride = alignUp (frameHeaderSize + payload.length) frameAlignment := by
      rw [← hf]
      rfl
    have hopened : (u.after true (.open now timestamp msgType flags payload)).opened =
        some f.content := by
      rw [← hf]
      rfl
    refine .nil (fun t ht => (hb₂.stable ht).state.cut (List.prefix_refl _)) fun t ht =>
      .filled (hb₂.stable ht) ⟨?_, ?_, ?_⟩ hopened ?_ ⟨?_, ?_, ?_, ?_, ?_⟩ ⟨?_, ?_⟩
    · rw [ht.writer, hslot₂.header]
    · rw [ht.regs, hslot₂.reference]
    · rw [ht.regs, hslot₂.opened]
    · simp [User.after, hk, ho]
    · exact hf ▸ visible
    · exact hf ▸ data
    · exact hstride ▸ fits
    · exact hstride ▸ hfit
    · rw [← hf]
      exact htime
    · rw [dataOf_append, ← hroom, dataOf_makeRoom, List.append_nil]
      exact hr.data
    · intro e he
      rcases List.mem_append.mp he with he | he
      · exact hr.time e he
      · rw [genTime_makeRoom (hroom ▸ he)]
        exact hnow
  rw [List.append_nil] at hsafe
  exact Or.inl (Safe.ends hsafe)

/-- A user with nothing open publishes a frame. -/
theorem Track.write (hi : Idle P (ctxOf P .empty) tail log s)
    (hh : s.1.writer.openFrameHeader = none) (ho : u.opened = none) (hk : u.givenUp = false)
    (hr : Recorded u log) {w : Write} (hl : u.Legal P (.write w)) : Moves P u (.write w) s := by
  obtain ⟨hok, htime, hnow⟩ := hl
  generalize hes :
    place P s.2.thread tail ((ctxOf P .empty).seq + UInt64.ofNat log.length) w.request = es
  have hsafe : Safe P (ctxOf P .empty) (log ++ es)
      (Idle P (ctxOf P .empty) (endOf tail es) (log ++ es)) (w.code false ++ []) s :=
    hi.write hok hes (List.prefix_refl _) fun s' hi' _ _ =>
      .nil (fun t ht => (hi'.stable ht).state.cut (List.prefix_refl _)) fun t ht => hi'.stable ht
  rw [List.append_nil] at hsafe
  obtain ⟨s', hends, hi'⟩ := Safe.ends hsafe
  have hcur : pageHeaderSize ≤ s.1.writer.currentFrameAddress := by
    rw [hi.cursor.address]
    exact hi.state.live.grid.2
  obtain ⟨hret, hthrow⟩ := ends_write (P := P) false w .succeeds (s := s) (fun h => by cases h) hcur
  have hnone : s'.1.writer.openFrameHeader = none := by
    by_cases hn : Crosses P s.1.writer w.payload.length → NextPage P s.1 .succeeds
    · obtain ⟨t, o, ht, -, -, hor⟩ := hret hn
      cases hends.unique ht
      rcases hor with h | h
      · exact h
      · rw [h, hh]
    · obtain ⟨t, ht, -⟩ := hthrow hn
      cases hends.unique ht
  refine Or.inl ⟨s', hends, .idle hi' hnone ho ?_ ⟨?_, fun e he => ?_⟩⟩
  · simp [User.after, hk, ho]
  · rw [dataOf_append, ← hes, dataOf_place hok.isData, hr.data]
    rfl
  · rcases List.mem_append.mp he with he | he
    · exact hr.time e he
    · rcases (mem_place (hes ▸ he)).2 with h | h <;> rw [h]
      · exact htime
      · exact hnow

/-- `closeData` when nothing is open. -/
theorem Track.close_none (hi : Idle P (ctxOf P .empty) tail log s)
    (hh : s.1.writer.openFrameHeader = none) (ho : u.opened = none) (hk : u.givenUp = false)
    (hr : Recorded u log) (size : Nat) (h : Hook) : Moves P u (.close size h) s := by
  obtain ⟨w, l⟩ := s
  have hthrow : Stmt.takeOpen.exec P (w, l) = .throw (w, l) := by
    simp only at hh
    simp only [Stmt.exec, hh]
  have hafter : u.after false (.close size h) = u := by simp only [User.after, ho]
  exact Or.inr ⟨(w, l), .throw hthrow, by rw [hafter]; exact .idle hi hh ho hk hr⟩

theorem Hook.apply_content (h : Hook) (f : Frame) : (h.apply f).content = h.apply f.content := by
  unfold apply Frame.content
  split <;> rfl

theorem Hook.apply_genTime (h : Hook) (f : Frame) : (h.apply f).genTime = f.genTime := by
  unfold apply
  split <;> rfl

/-- `closeData` of the open frame. -/
theorem Track.close (hb : Built P (ctxOf P .empty) tail log f s) (hslot : InSlot tail f s)
    (ho : u.opened = some f.content) (hk : u.givenUp = false) (hc : Closable P tail f)
    (hr : Recorded u log) {h : Hook} (hh : h.throws = false) :
    Moves P u (.close f.payload.length h) s := by
  generalize hes : (⟨tail, h.apply f, s.2.thread⟩ : Entry) = e
  have hsafe : Safe P (ctxOf P .empty) (log ++ [e])
      (Idle P (ctxOf P .empty) (tail.after (h.apply f)) (log ++ [e]))
      ((Call.closeData f.payload.length h).code false 0 .succeeds ++ []) s :=
    hb.closeData hh hc.visible hc.data hc.fits hc.room (hes ▸ List.prefix_refl _) hslot
      fun s' hi' _ _ => by
        rw [hes] at hi'
        exact .nil (fun t ht => (hi'.stable ht).state.cut (List.prefix_refl _))
          fun t ht => hi'.stable ht
  rw [List.append_nil] at hsafe
  obtain ⟨s', hends, hi'⟩ := Safe.ends hsafe
  obtain ⟨s₁, h₁, -, hnone⟩ := ends_closeData (P := P) false f.payload.length hh hslot.header
    hb.cursor.page.symm hb.state.live.grid.2
  cases hends.unique h₁
  have hafter : u.after true (.close f.payload.length h) =
      { u with opened := none, published := u.published ++ [h.apply f.content] } := by
    simp only [User.after, ho, if_true]
  refine Or.inl ⟨s', hends, ?_⟩
  rw [hafter]
  refine .idle hi' hnone rfl hk ⟨?_, fun x hx => ?_⟩
  · have hd : dataOf [e] = [h.apply f.content] := by
      rw [← hes, ← h.apply_content]
      have : ¬ (h.apply f).IsPageEnd := by rw [Frame.IsPageEnd, h.apply_msgType]; exact hc.data
      simp [dataOf, this]
    rw [dataOf_append, hd, hr.data]
  · rcases List.mem_append.mp hx with hx | hx
    · exact hr.time x hx
    · rw [List.mem_singleton.mp hx, ← hes]
      show 0 ≤ (h.apply f).genTime
      rw [h.apply_genTime]
      exact hc.time

/-- `closeData` whose hook throws: the frame stays open, as the hook left it. -/
theorem Track.close_throws (hb : Built P (ctxOf P .empty) tail log f s) (hslot : InSlot tail f s)
    (ho : u.opened = some f.content) (hk : u.givenUp = false) (hc : Closable P tail f)
    (hr : Recorded u log) {h : Hook} (hh : h.throws = true) (size : Nat) :
    Moves P u (.close size h) s := by
  obtain ⟨w, l⟩ := s
  have htake : Stmt.takeOpen.exec P (w, l) = .next (w, { l with frameHeader := tail, meant := f })
    [] := by
    have h1 : w.writer.openFrameHeader = some tail := hslot.header
    have h2 : l.opened = f := hslot.opened
    simp only [Stmt.exec, h1, h2]
  have hb₁ : Built P (ctxOf P .empty) tail log f (w, { l with frameHeader := tail, meant := f }) :=
    ⟨⟨hb.state.live, hb.state.log, rfl, rfl, hb.state.extra, hb.state.ring⟩, hb.cursor, hb.closed,
      hb.sequence⟩
  -- the same hook, had it not thrown
  have hsafe : Safe P (ctxOf P .empty) log
      (fun s' => Built P (ctxOf P .empty) tail log (h.apply f) s' ∧ InHand tail (h.apply f) s' ∧
        s'.1.writer.openFrameHeader = some tail ∧ s'.2.reference = tail)
      [.hook { h with throws := false }] (w, { l with frameHeader := tail, meant := f }) :=
    hb₁.hook rfl (List.prefix_refl _) ⟨rfl, rfl⟩ fun s' hb' hand' ha' =>
      .nil (fun t ht => (hb'.stable ht).state.cut (List.prefix_refl _)) fun t ht =>
        ⟨hb'.stable ht, ⟨(congrArg Local.frameHeader ht.regs).trans hand'.frameHeader,
          (congrArg Local.meant ht.regs).trans hand'.meant⟩,
          by rw [ht.writer, ha'.openFrameHeader]; exact hslot.header,
          by rw [ht.regs, ha'.reference]; exact hslot.reference⟩
  obtain ⟨s', hends, hb', hand', hheader, href⟩ := Safe.ends hsafe
  have hs' : s' = hooked h (w, { l with frameHeader := tail, meant := f }) := by
    cases hends.unique (.cons (exec_hook (P := P) _ _) .nil)
    rfl
  have hthrow := exec_hook (P := P) h (w, { l with frameHeader := tail, meant := f })
  rw [hh, if_pos rfl, ← hs'] at hthrow
  have hafter : u.after false (.close size h) = { u with opened := some (h.apply f.content) } := by
    simp only [User.after, ho, Bool.false_eq_true, if_false]
  refine Or.inr ⟨_, .cons htake (.throw hthrow), ?_⟩
  rw [hafter]
  refine @Track.filled _ _ _ tail log (h.apply f) ?_ ⟨hheader, href, hand'.meant⟩ ?_ hk
    ⟨?_, ?_, ?_, ?_, ?_⟩ ⟨hr.data, hr.time⟩
  · exact ⟨⟨hb'.state.live, hb'.state.log, rfl, rfl, hb'.state.extra, hb'.state.ring⟩, hb'.cursor,
      hb'.closed, hb'.sequence⟩
  · rw [h.apply_content]
  · rw [h.apply_msgType]
    exact hc.visible
  · rw [Frame.IsPageEnd, h.apply_msgType]
    exact hc.data
  · rw [h.apply_stride]
    exact hc.fits
  · rw [h.apply_stride]
    exact hc.room
  · rw [h.apply_genTime]
    exact hc.time

/-! ## After a frame was given up -/

/-- A statement that stores into the open slot, and not a length. -/
def Stmt.IsPrivate (tail : Slot) (l : Local) : Stmt → Prop
  | .put f v => l.frameHeader = tail ∧ Revoq.IsPrivate f.offset f.width v
  | .putSeq | .putByte .. => l.frameHeader = tail
  | .fillByte .. => l.reference = tail
  | _ => False

/-- Where the writer stands has not changed. -/
structure Standing (tail : Slot) (s s' : World × Local) : Prop where
  writer : s'.1.writer = s.1.writer
  frameHeader : s'.2.frameHeader = s.2.frameHeader
  reference : s'.2.reference = s.2.reference

theorem Loose.store {i : Stmt} (h : Loose P tail log s) (hi : i.IsPrivate tail s.2) :
    ∃ s', i.exec P s = .next s' [] ∧ Loose P tail log s' ∧ Standing tail s s' := by
  obtain ⟨w, l⟩ := s
  have put : ∀ {a k v : Nat} {l' : Local}, Revoq.IsPrivate a k v →
      Loose P tail log (w.store tail a k v, l') :=
    fun priv => ⟨h.live.write_tail priv, h.log, h.page, h.address⟩
  cases i with
  | put f v =>
    obtain ⟨hf, priv⟩ := hi
    refine ⟨_, rfl, ?_, rfl, rfl, rfl⟩
    rw [hf]
    exact put priv
  | putSeq =>
    refine ⟨_, rfl, ?_, rfl, rfl, rfl⟩
    rw [show l.frameHeader = tail from hi]
    exact put (Or.inl (by decide))
  | putByte n b =>
    refine ⟨_, rfl, ?_, rfl, rfl, rfl⟩
    rw [show l.frameHeader = tail from hi]
    exact put (Or.inl (Nat.le_trans (by decide) (Nat.le_add_right frameHeaderSize n)))
  | fillByte n b =>
    refine ⟨_, rfl, ?_, rfl, rfl, rfl⟩
    rw [show l.reference = tail from hi]
    exact put (Or.inl (Nat.le_trans (by decide) (Nat.le_add_right frameHeaderSize n)))
  | _ => exact absurd hi not_false

theorem Loose.stores {c : List Stmt} (h : Loose P tail log s) (hc : ∀ i ∈ c, i.IsPrivate tail s.2) :
    ∃ s', Ends (Stmt.exec P) c s (.returns s') ∧ Loose P tail log s' ∧ Standing tail s s' := by
  induction c generalizing s with
  | nil => exact ⟨s, .nil, h, rfl, rfl, rfl⟩
  | cons i is ih =>
    obtain ⟨s₁, h₁, l₁, t₁⟩ := h.store (hc i List.mem_cons_self)
    obtain ⟨s₂, h₂, l₂, t₂⟩ := ih l₁ (by
      intro j hj
      have := hc j (List.mem_cons_of_mem i hj)
      cases j <;> simp only [Stmt.IsPrivate, t₁.frameHeader, t₁.reference] at this ⊢ <;> exact this)
    exact ⟨s₂, .cons h₁ h₂, l₂, t₂.writer.trans t₁.writer, t₂.frameHeader.trans t₁.frameHeader,
      t₂.reference.trans t₁.reference⟩

/-- Another frame is opened in the slot. -/
theorem Loose.open (h : Loose P tail log s) (now timestamp : Int64) (msgType : MsgType)
    (flags : UInt16) {payload : List UInt8} (hc : ¬ Crosses P s.1.writer payload.length) :
    ∃ s', Ends (Stmt.exec P) (Action.open now timestamp msgType flags payload).code
      s (.returns s') ∧
      Loose P tail log s' ∧ s'.1.writer.openFrameHeader = some tail := by
  obtain ⟨w, l⟩ := s
  generalize hh : headerOf timestamp msgType flags = header
  have hborder : (Stmt.border payload.length now .succeeds).exec P (w, l) =
      .next (w, l) [] := if_neg hc
  have htail : (⟨w.writer.currentPage, w.writer.currentFrameAddress⟩ : Slot) = tail := by
    rw [h.page, h.address]
  have htake : (Stmt.takeCursor header).exec P (w, l) =
      .next (w, { l with frameHeader := tail, meant := ⟨header, []⟩ }) [] := by
    rw [← htail]
    rfl
  have hl : Loose P tail log (w, { l with frameHeader := tail, meant := ⟨header, []⟩ }) :=
    ⟨h.live, h.log, h.page, h.address⟩
  obtain ⟨⟨w₁, l₁⟩, h₁, p₁, t₁⟩ := hl.stores (c := newFrameHeader ++
    [.put FrameField.genTime header.genTime.toUInt64.toNat, .put FrameField.eventTime 0,
      .put FrameField.msgType header.msgType.toNat, .put FrameField.flags header.flags.toNat]) (by
    intro i hi
    simp only [newFrameHeader, List.cons_append, List.nil_append, List.mem_cons, List.not_mem_nil,
      or_false] at hi
    rcases hi with rfl | rfl | rfl | rfl | rfl | rfl | rfl | rfl | rfl | rfl <;>
      exact ⟨rfl, by simp [Revoq.IsPrivate, FrameField.length, FrameField.msgType, FrameField.flags,
        FrameField.sequence, FrameField.genTime, FrameField.eventTime]⟩)
  have hf₁ : l₁.frameHeader = tail := t₁.frameHeader
  have hl₁ : Loose P tail log
      ({ w₁ with writer := { w₁.writer with currentSequence := w₁.writer.currentSequence + 1 } },
        { l₁ with meant := { l₁.meant with sequence := w₁.writer.currentSequence } }) :=
    ⟨p₁.live, p₁.log, p₁.page, p₁.address⟩
  obtain ⟨⟨w₂, l₂⟩, h₂, p₂, t₂⟩ := hl₁.stores (c := [.putSeq, .put FrameField.length 0]) (by
    intro i hi
    simp only [List.mem_cons, List.not_mem_nil, or_false] at hi
    rcases hi with rfl | rfl
    · exact hf₁
    · exact ⟨hf₁, Or.inr ⟨rfl, rfl, rfl⟩⟩)
  have hf₂ : l₂.frameHeader = tail := t₂.frameHeader.trans hf₁
  have hopen : Stmt.setOpen.exec P (w₂, l₂) =
      .next ({ w₂ with writer := { w₂.writer with openFrameHeader := some tail } },
        { l₂ with reference := tail, opened := l₂.meant }) [] := by
    rw [← hf₂]
    rfl
  have hl₂ :
      Loose P tail log ({ w₂ with writer := { w₂.writer with openFrameHeader := some tail } },
      { l₂ with reference := tail, opened := l₂.meant }) :=
    ⟨p₂.live, p₂.log, p₂.page, p₂.address⟩
  obtain ⟨s₃, h₃, p₃, t₃⟩ := hl₂.stores (c := payload.mapIdx Stmt.fillByte) (by
    intro i hi
    obtain ⟨k, hk, rfl⟩ := List.mem_mapIdx.mp hi
    rfl)
  refine ⟨s₃, ?_, p₃, by rw [t₃.writer]⟩
  have hheader := h₁.append (.cons (i := .nextSeq) rfl h₂)
  have := Ends.cons hborder (.cons htake (hheader.append (.cons hopen h₃)))
  simpa only [Action.code, Call.code, openFrame, fillHeader, hh, Bool.false_eq_true, if_false,
    List.nil_append, List.cons_append, List.append_assoc] using this

theorem Track.reopen (h : Loose P tail log s) (ho : u.opened.isSome = true) (hr : Recorded u log)
    {now timestamp : Int64} {msgType : MsgType} {flags : UInt16} {payload : List UInt8}
    (hc : ¬ Crosses P s.1.writer payload.length) :
    Moves P u (.open now timestamp msgType flags payload) s := by
  obtain ⟨s', he, hl, hh⟩ := h.open now timestamp msgType flags hc
  exact Or.inl ⟨s', he, .lost hl hh rfl (by simp [User.after, ho]) ⟨hr.data, hr.time⟩⟩

/-- A hook throws on a frame that is no longer the user's first. -/
theorem Track.close_lost (h : Loose P tail log s) (hh : s.1.writer.openFrameHeader = some tail)
    (ho : u.opened.isSome = true) (hg : u.givenUp = true) (hr : Recorded u log) {k : Hook}
    (hk : k.throws = true) (size : Nat) : Moves P u (.close size k) s := by
  obtain ⟨w, l⟩ := s
  have hh : w.writer.openFrameHeader = some tail := hh
  have htake : Stmt.takeOpen.exec P (w, l) =
      .next (w, { l with frameHeader := tail, meant := l.opened }) [] := by
    simp only [Stmt.exec, hh]
  have hthrow := exec_hook (P := P) k (w, { l with frameHeader := tail, meant := l.opened })
  rw [hk, if_pos rfl] at hthrow
  obtain ⟨f, hf⟩ := Option.isSome_iff_exists.mp ho
  have hafter : u.after false (.close size k) = { u with opened := some (k.apply f) } := by
    simp only [User.after, hf, Bool.false_eq_true, if_false]
  refine Or.inr ⟨_, .cons htake (.throw hthrow), ?_⟩
  rw [hafter]
  refine @Track.lost _ _ _ tail log ⟨?_, ?_, ?_, ?_⟩ ?_ rfl hg ⟨hr.data, hr.time⟩
  all_goals unfold hooked; split
  · exact h.live
  · exact h.live.write_tail (Or.inl (by decide))
  · exact h.log
  · exact h.log
  · exact h.page
  · exact h.page
  · exact h.address
  · exact h.address
  · exact hh
  · exact hh

/-- **One action** of a user who publishes nothing after giving up a frame. -/
theorem Track.moves (h : Track P u s) {a : Action} (hl : u.Legal P a) (hq : u.Quiet P s a) :
    Moves P u a s := by
  cases h with
  | idle hi hh ho hk hr =>
    cases a with
    | «open» => exact Track.open hi ho hk hr hl
    | close size k => exact Track.close_none hi hh ho hk hr size k
    | write w => exact Track.write hi hh ho hk hr hl
  | @filled tail log f hb hslot ho hk hc hr =>
    have hsome : u.opened.isSome = true := by rw [ho]; rfl
    cases a with
    | «open» now timestamp msgType flags payload =>
      exact Track.reopen ⟨hb.state.live, hb.state.log, hb.cursor.page, hb.cursor.address⟩ hsome hr
        (hq (Or.inr ⟨hsome, trivial⟩))
    | close size k =>
      cases hk' : k.throws with
      | true => exact Track.close_throws hb hslot ho hk hc hr hk' size
      | false =>
        rw [← hl f.content ho]
        exact Track.close hb hslot ho hk hc hr hk'
    | write w => exact absurd trivial (hq (Or.inr ⟨hsome, trivial⟩))
  | lost hloose hh ho hg hr =>
    cases a with
    | «open» => exact Track.reopen hloose ho hr (hq (Or.inl hg))
    | close size k =>
      refine Track.close_lost hloose hh ho hg hr ?_ size
      exact Bool.not_eq_false _ ▸ hq (Or.inl hg)
    | write w => exact absurd trivial (hq (Or.inl hg))

/-- **Every run.** -/
theorem Uses.track {s₀ : World × Local} (h₀ : Track P {} s₀) (h : Uses P (User.Quiet P) s₀ u s) :
    Track P u s := by
  induction h with
  | start => exact h₀
  | returned _ legal quiet ends ih =>
    rcases ih.moves legal quiet with ⟨t, ht, htrack⟩ | ⟨t, ht, -⟩
    · cases ends.unique ht
      exact htrack
    · cases ends.unique ht
  | threw _ legal quiet ends ih =>
    rcases ih.moves legal quiet with ⟨t, ht, -⟩ | ⟨t, ht, htrack⟩
    · cases ends.unique ht
    · cases ends.unique ht
      exact htrack

/-! ## The result -/

/-- What the user has on disk, wherever it stands. -/
theorem Track.live (h : Track P u s) :
    ∃ tail, Live P (ctxOf P .empty) s.1.disk s.1.log tail ∧ Recorded u s.1.log := by
  cases h with
  | @idle tail log hi _ _ _ hr =>
    rw [hi.state.log]
    exact ⟨tail, hi.state.live, hr⟩
  | @filled tail log f hb _ _ _ _ hr =>
    rw [hb.state.log]
    exact ⟨tail, hb.state.live, hr⟩
  | @lost tail log hl _ _ _ hr =>
    rw [hl.log]
    exact ⟨tail, hl.live, hr⟩

theorem Track.noTrace (h : Track P u s) (prefault : Bool) : NoTrace P prefault u s.1 := by
  obtain ⟨tail, hlive, hr⟩ := h.live
  have hread := hlive.readable fun _ _ => wordsZero_blank P
  refine ⟨fun fuel hfuel => ?_, hr.data, fun i e he => ?_, ?_⟩
  · cases fuel with
    | zero => cases hfuel
    | succ fuel =>
      obtain ⟨r, hjoin, hat⟩ := hread.join hlive.head_listPageId
        (hlive.last 1 (Nat.le_refl 1) hlive.first_le) hr.time fuel prefault
      exact ⟨r, hjoin, hread.drain hat hfuel⟩
  · rw [hlive.sequence i e he, show (ctxOf P .empty).seq = 0 from rfl, UInt64.zero_add]
  · have hend : endOf ⟨1, pageHeaderSize⟩ s.1.log = tail := hlive.chain.endOf_eq
    rw [hend]
    exact hread.stop

end

/-- Only `setOpen` and `clearOpen` touch the open frame, and no statement brings one
of them with it. -/
theorem Stmt.exec_openFrameHeader {P : PageSize} {i : Stmt} {s s' : World × Local}
    {push : List Stmt} (h : i.exec P s = .next s' push) :
    (i ≠ .setOpen → i ≠ .clearOpen → s'.1.writer.openFrameHeader = s.1.writer.openFrameHeader) ∧
      .setOpen ∉ push ∧ .clearOpen ∉ push := by
  obtain ⟨w, l⟩ := s
  cases i with
  | scan env p => cases p <;> cases h <;> simp
  | scanLoad env p rest | seqLoad p rest =>
    cases rest <;> simp only [exec] at h <;> (repeat' split at h) <;> cases h <;> simp
  | hook h' =>
    cases h'.eventTime <;> simp only [exec] at h <;> (repeat' split at h) <;> cases h <;>
      simp [World.store]
  | border n now env =>
    simp only [exec] at h
    split at h <;> cases h <;> simp [rotatePage, sealPage, fillHeader, newFrameHeader]
  | _ =>
    simp only [exec] at h
    (repeat' split at h) <;> cases h <;> simp [World.store]

/-- Code without `setOpen` and `clearOpen` leaves the open frame alone. -/
theorem runs_openFrameHeader {P : PageSize} {c d : List Stmt × (World × Local)}
    (h : Runs (Stmt.exec P) c d) (hs : .setOpen ∉ c.1) (hc : .clearOpen ∉ c.1) :
    d.2.1.writer.openFrameHeader = c.2.1.writer.openFrameHeader ∧ .setOpen ∉ d.1 ∧
      .clearOpen ∉ d.1 := by
  induction h with
  | refl => exact ⟨rfl, hs, hc⟩
  | tail _ hstep ih =>
    obtain ⟨hsame, hs, hc⟩ := ih
    cases hstep with
    | @next i is push s s' he =>
      obtain ⟨hkeep, hs', hc'⟩ := Stmt.exec_openFrameHeader he
      rw [List.mem_cons, not_or] at hs hc
      refine ⟨(hkeep (Ne.symm hs.1) (Ne.symm hc.1)).trans hsame, ?_, ?_⟩
      · rw [List.mem_append, not_or]
        exact ⟨hs', hs.2⟩
      · rw [List.mem_append, not_or]
        exact ⟨hc', hc.2⟩

/-- **A frame that is given up leaves no trace as long as nothing is published after
it.**  A user constructs a writer in an empty directory and opens, fills, closes and
publishes frames as it likes; hooks may throw and frames may be left open. -/
theorem abandoned_frames_no_trace (P : PageSize) (writerPrefault readerPrefault : Bool)
    (s₀ : World × Local)
    (h₀ : Runs (Stmt.exec P) (construct .succeeds 0, fresh writerPrefault) ([], s₀)) (u : User)
    (s : World × Local) (h : Uses P (User.Quiet P) s₀ u s) : NoTrace P readerPrefault u s.1 := by
  obtain ⟨t, ht, hi⟩ := construct_returns P writerPrefault
  cases Runs.final_unique h₀ ht
  obtain ⟨hnone, -⟩ := runs_openFrameHeader h₀ (by simp [construct, loadInitialPage])
    (by simp [construct, loadInitialPage])
  have htrack : Track P {} s₀ := .idle hi hnone rfl rfl ⟨rfl, fun e he => by cases he⟩
  exact (h.track htrack).noTrace readerPrefault

/-- A frame is opened, and the hook of its `closeData` throws. -/
theorem abandoned_frames_hook :
    ∃ s₀ u s, Runs (Stmt.exec pageSizeDefault) (construct .succeeds 0, fresh true) ([], s₀) ∧
      Uses pageSizeDefault (User.Quiet pageSizeDefault) s₀ u s ∧ u.opened.isSome = true ∧
      NoTrace pageSizeDefault false u s.1 := by
  obtain ⟨s₀, h₀, hi⟩ := construct_returns pageSizeDefault true
  obtain ⟨hnone, -⟩ := runs_openFrameHeader h₀ (by simp [construct, loadInitialPage])
    (by simp [construct, loadInitialPage])
  have htrack : Track pageSizeDefault {} s₀ := .idle hi hnone rfl rfl ⟨rfl, fun e he => by cases he⟩
  have hlegal : ({} : User).Legal pageSizeDefault (.open 5 1 7 0 [1, 2, 3]) :=
    ⟨by decide, by decide, by decide⟩
  have hquiet : ({} : User).Quiet pageSizeDefault s₀ (.open 5 1 7 0 [1, 2, 3]) := by
    rintro (h | ⟨h, -⟩) <;> cases h
  have hopen : ∃ b s, Uses pageSizeDefault (User.Quiet pageSizeDefault) s₀
      (({} : User).after b (.open 5 1 7 0 [1, 2, 3])) s := by
    rcases htrack.moves hlegal hquiet with ⟨s, hs, -⟩ | ⟨s, hs, -⟩
    · exact ⟨true, s, .returned .start hlegal hquiet hs⟩
    · exact ⟨false, s, .threw .start hlegal hquiet hs⟩
  obtain ⟨b, s₁, h₁⟩ := hopen
  have hlegal' : (({} : User).after b (.open 5 1 7 0 [1, 2, 3])).Legal pageSizeDefault
      (.close 3 { throws := true }) := fun f hf => by
    cases hf
    rfl
  have hquiet' : (({} : User).after b (.open 5 1 7 0 [1, 2, 3])).Quiet pageSizeDefault s₁
      (.close 3 { throws := true }) := fun _ h => by cases h
  have hclose : ∃ u s, Uses pageSizeDefault (User.Quiet pageSizeDefault) s₀ u s ∧
      u.opened.isSome = true := by
    rcases (h₁.track htrack).moves hlegal' hquiet' with ⟨s, hs, -⟩ | ⟨s, hs, -⟩
    · exact ⟨_, s₁, h₁, rfl⟩
    · exact ⟨_, s, .threw h₁ hlegal' hquiet' hs, rfl⟩
  obtain ⟨u, s, hu, ho⟩ := hclose
  exact ⟨s₀, u, s, h₀, hu, ho, abandoned_frames_no_trace pageSizeDefault true false s₀ h₀ u s hu⟩

/-- A frame is opened and a `mark` is made instead: the number it took is missing
from the journal. -/
theorem abandoned_frame_leaves_gap :
    ∃ s₀ u s, Runs (Stmt.exec pageSizeDefault) (construct .succeeds 0, fresh true) ([], s₀) ∧
      Uses pageSizeDefault (fun _ _ _ => True) s₀ u s ∧ ¬ NoTrace pageSizeDefault false u s.1 := by
  let start : Action := .open 5 1 7 0 [1, 2, 3]
  let mark : Action := .write (.mark 5 1 7)
  have h : (run (Stmt.exec pageSizeDefault) 30 (construct .succeeds 0) (fresh true)).ended.bind
      (fun s₀ =>
      (run (Stmt.exec pageSizeDefault) 30 start.code s₀).ended.bind fun s₁ =>
        (run (Stmt.exec pageSizeDefault) 30 mark.code s₁).ended.map fun s₂ =>
          s₂.1.log.map fun e => e.frame.sequence) = some [1] := by decide +kernel
  obtain ⟨s₀, h₀, h⟩ := Option.bind_eq_some_iff.mp h
  obtain ⟨s₁, h₁, h⟩ := Option.bind_eq_some_iff.mp h
  obtain ⟨s₂, h₂, h⟩ := Option.map_eq_some_iff.mp h
  have hopen : Uses pageSizeDefault (fun _ _ _ => True) s₀ (({} : User).after true start) s₁ :=
    .returned .start ⟨by decide, by decide, by decide⟩ trivial (.of_runs (runs_of_ended h₁))
  have hmark := Uses.returned (a := mark) hopen ⟨by decide, by decide, by decide⟩ trivial
    (.of_runs (runs_of_ended h₂))
  refine ⟨s₀, _, s₂, runs_of_ended h₀, hmark, fun hn => ?_⟩
  cases hlog : s₂.1.log with
  | nil => rw [hlog] at h; cases h
  | cons e es =>
    have hseq := hn.sequence 0 e (by rw [hlog]; rfl)
    rw [hlog, List.map_cons, hseq] at h
    exact absurd (List.cons.inj h).1 (by decide)

end Revoq
