import Revoq.Calls

/-! # Runs of a writer

A `Write` is one complete publication: `openData` filled and closed, `writeBytes`
or `mark`.  A session makes its writes one after the other; from an `Idle` state
the session's code is `Safely` executed, and the journal it leaves is the one that
`layOut` describes.
-/
namespace Revoq
open ByteImage StmtMachine

/-- One complete publication; `now` is the clock it would meet in a rotation. -/
inductive Write where
  | data (now timestamp : Int64) (msgType : MsgType) (flags : UInt16) (payload : List UInt8)
      (eventTime : Option Int64)
  | bytes (now timestamp : Int64) (msgType : MsgType) (payload : List UInt8)
  | mark (now timestamp : Int64) (msgType : MsgType)
deriving DecidableEq

namespace Write

def now : Write → Int64
  | data now .. | bytes now .. | mark now .. => now

def timestamp : Write → Int64
  | data _ timestamp .. | bytes _ timestamp .. | mark _ timestamp _ => timestamp

def msgType : Write → MsgType
  | data _ _ msgType .. | bytes _ _ msgType _ | mark _ _ msgType => msgType

def payload : Write → List UInt8
  | data _ _ _ _ payload _ | bytes _ _ _ payload => payload
  | mark .. => []

def flags : Write → UInt16
  | data _ _ _ flags .. => flags
  | bytes .. | mark .. => frameNormal

def eventTime : Write → Int64
  | data _ _ _ _ _ eventTime => eventTime.getD 0
  | bytes .. | mark .. => 0

/-- The calls that make the write. -/
def calls : Write → List Call
  | data _ timestamp msgType flags payload eventTime =>
      [.openData timestamp msgType payload.length flags, .fill payload,
        .closeData payload.length { eventTime }]
  | bytes _ timestamp msgType payload => [.writeBytes timestamp msgType payload]
  | mark _ timestamp msgType => [.mark timestamp msgType]

/-- The statements of the write, when every page load succeeds. -/
def code (serialize : Bool) (w : Write) : List Stmt :=
  w.calls.flatMap (Call.code serialize w.now .succeeds)

/-- What the write asks to have in the journal. -/
def request (w : Write) : Request where
  header := { headerOf w.timestamp w.msgType w.flags with eventTime := w.eventTime }
  payload := w.payload
  now := w.now

/-- The message type is in `1..65535` and not that of a sentinel, and the frame fits
a page. -/
structure Ok (P : PageSize) (w : Write) : Prop where
  low : 1 ≤ w.msgType.toInt
  high : w.msgType.toInt ≤ 65535
  data : w.msgType ≠ MsgType.pageEnd
  fits : alignUp (frameHeaderSize + w.payload.length) frameAlignment ≤ P.bytes - 128

instance (P : PageSize) (w : Write) : Decidable (w.Ok P) :=
  decidable_of_iff (1 ≤ w.msgType.toInt ∧ w.msgType.toInt ≤ 65535 ∧ w.msgType ≠ MsgType.pageEnd ∧
    alignUp (frameHeaderSize + w.payload.length) frameAlignment ≤ P.bytes - 128)
    ⟨fun ⟨h1, h2, h3, h4⟩ => ⟨h1, h2, h3, h4⟩, fun h => ⟨h.low, h.high, h.data, h.fits⟩⟩

theorem Ok.request_fits {P : PageSize} {w : Write} (h : w.Ok P) : w.request.Fits P := by
  have h1 := h.fits
  have h2 := P.roomy
  show alignUp (frameHeaderSize + w.payload.length) frameAlignment + 128 ≤ P.bytes
  omega

end Write

/-- A message type in the 16-bit range keeps its value in the header. -/
theorem MsgType.toHeader_toNat {t : MsgType} (h : 0 ≤ t.toInt) (h' : t.toInt ≤ 65535) :
    t.toHeader.toNat = t.toInt.toNat := by
  have hle : (0 : Int32) ≤ t := Int32.le_iff_toInt_le.mpr h
  rw [toHeader, UInt32.toNat_toUInt16, Int32.toNat_toUInt32_of_le hle, ← Int32.toNat_toInt]
  omega

theorem Write.Ok.isData {P : PageSize} {w : Write} (h : w.Ok P) : w.request.IsData := by
  have hnat := MsgType.toHeader_toNat (by have := h.low; omega) h.high
  constructor
  · intro h0
    have : w.msgType.toHeader = 0 := h0
    have hz : (0 : UInt16).toNat = 0 := rfl
    rw [this, hz] at hnat
    have := h.low
    omega
  · intro h0
    have : w.msgType.toHeader = MsgType.pageEnd.toHeader := h0
    rw [this] at hnat
    refine h.data (Int32.toInt_inj.mp ?_)
    have hp : MsgType.pageEnd.toHeader.toNat = 10000 := by decide
    have hq : MsgType.pageEnd.toInt = 10000 := by decide
    have := h.low
    omega

section
variable {P : PageSize} {C : Ctx} {full log : List Entry} {tail : Slot} {s : World × Local}
variable {Q : World × Local → Prop} {rest : List Stmt}

/-- **One write**, from `Idle` to `Idle`. -/
theorem Idle.write (hi : Idle P C tail log s) {w : Write} (hw : w.Ok P)
    {es : List Entry}
    (hes : place P s.2.thread tail (C.seq + UInt64.ofNat log.length) w.request = es)
    (hfull : log ++ es <+: full)
    (next : ∀ s', Idle P C (endOf tail es) (log ++ es) s' →
      s'.1.writer.writing = s.1.writer.writing → s'.2.thread = s.2.thread →
        Safe P C full Q rest s') :
    Safe P C full Q (w.code false ++ rest) s := by
  obtain ⟨visible, data⟩ := hw.isData
  have fits := hw.request_fits
  generalize hroom : makeRoom P s.2.thread tail (C.seq + UInt64.ofNat log.length)
    w.request.stride w.request.now = room
  have hseq : C.seq + UInt64.ofNat log.length + UInt64.ofNat room.length =
      C.seq + UInt64.ofNat (log ++ room).length := by
    rw [List.length_append, UInt64.ofNat_add, UInt64.add_assoc]
  have hes' : es = room ++ [⟨endOf tail room,
      w.request.frame (C.seq + UInt64.ofNat (log ++ room).length), s.2.thread⟩] := by
    rw [← hes, place, hroom, hseq]
  have hend : endOf tail es = (endOf tail room).after
      (w.request.frame (C.seq + UInt64.ofNat (log ++ room).length)) := by
    rw [hes', endOf_append]
    rfl
  rw [hend] at next
  rw [hes', ← List.append_assoc] at hfull next
  have hpre : log ++ room <+: full := (List.prefix_append ..).trans hfull
  cases w with
  | data now timestamp msgType flags payload eventTime =>
    simp only [Write.code, Write.calls, List.flatMap_cons, List.flatMap_nil, List.append_nil,
      List.append_assoc, Write.now]
    refine hi.openData (n := payload.length) fits hroom hpre fun s₁ hb hslot hwr hth hfit => ?_
    have hidx : Stmt.fillByte = fun i b => Stmt.fillByte (0 + i) b := by
      funext i b
      rw [Nat.zero_add]
    rw [Call.code, hidx]
    refine hb.fillBytes hpre rfl hslot fun s₂ hb₂ hslot₂ hwr₂ hth₂ => ?_
    rw [List.nil_append] at hb₂ hslot₂
    generalize hf : (⟨{ headerOf timestamp msgType flags with
      sequence := C.seq + UInt64.ofNat (log ++ room).length }, payload⟩ : Frame) = f at hb₂ hslot₂
    have happly : (Write.data now timestamp msgType flags payload eventTime).request.frame
        (C.seq + UInt64.ofNat (log ++ room).length) = Hook.apply { eventTime } f := by
      rw [← hf]
      cases eventTime <;> rfl
    have hlen : payload.length = f.payload.length := by rw [← hf]
    have hstride : f.stride = alignUp (frameHeaderSize + payload.length) frameAlignment := by
      rw [Frame.stride, Frame.length, hlen]
    rw [happly, ← hth, ← hth₂] at hfull next
    rw [hlen]
    refine hb₂.closeData (h := { eventTime }) rfl (hf ▸ visible) (hf ▸ data) (hstride ▸ fits)
      (hstride ▸ hfit) hfull hslot₂ fun s₃ hi₃ hwr₃ hth₃ => next s₃ hi₃ ?_ hth₃
    rw [hwr₃, hwr₂, hwr]
  | bytes now timestamp msgType payload =>
    simp only [Write.code, Write.calls, List.flatMap_cons, List.flatMap_nil,
      List.append_nil, Call.code, Bool.false_eq_true, if_false, List.nil_append, List.append_assoc]
    exact hi.writeFrame rfl visible data fits hroom hfull next
  | mark now timestamp msgType =>
    simp only [Write.code, Write.calls, List.flatMap_cons, List.flatMap_nil,
      List.append_nil, Call.code, Bool.false_eq_true, if_false, List.nil_append, List.append_assoc]
    exact hi.writeFrame rfl visible data fits hroom hfull next

/-- The journal that a thread's writes make, from a tail on. -/
def journal (P : PageSize) (thread : Nat) (tail : Slot) (seq : UInt64)
    (ws : List Write) : List Entry :=
  layOut P tail seq (ws.map fun w => (thread, w.request))

theorem journal_cons (P : PageSize) (thread : Nat) (tail : Slot) (seq : UInt64) (w : Write)
    (ws : List Write) :
    journal P thread tail seq (w :: ws) =
      place P thread tail seq w.request ++
        journal P thread (endOf tail (place P thread tail seq w.request))
          (seq + UInt64.ofNat (place P thread tail seq w.request).length) ws := rfl

/-- The frames of a journal, sentinels aside, are those of the writes. -/
theorem dataOf_journal {thread : Nat} {t : Slot} {seq : UInt64} {ws : List Write}
    (hws : ∀ w ∈ ws, w.Ok P) :
    dataOf (journal P thread t seq ws) = ws.map fun w => w.request.frame 0 := by
  rw [journal, dataOf_layOut, List.map_map]
  · rfl
  · intro r hr
    obtain ⟨w, hw, rfl⟩ := List.mem_map.mp hr
    exact (hws w hw).isData

/-- What holds of the times of the writes, and of the clock they meet, holds of the frames'. -/
theorem layOut_times {p : Int64 → Prop} {t : Slot} {seq : UInt64} {rs : List (Nat × Write)}
    (hrs : ∀ r ∈ rs, p r.2.timestamp ∧ p r.2.now) :
    ∀ e ∈ layOut P t seq (rs.map fun r => (r.1, r.2.request)), p e.frame.genTime := by
  intro e he
  obtain ⟨r, hr, -, hor⟩ := mem_layOut he
  obtain ⟨w, hw, rfl⟩ := List.mem_map.mp hr
  rcases hor with h | h <;> rw [h]
  · exact (hrs w hw).1
  · exact (hrs w hw).2

theorem journal_times {p : Int64 → Prop} {thread : Nat} {t : Slot} {seq : UInt64} {ws : List Write}
    (hws : ∀ w ∈ ws, p w.timestamp ∧ p w.now) :
    ∀ e ∈ journal P thread t seq ws, p e.frame.genTime := by
  have h : ∀ e ∈ layOut P t seq ((ws.map fun w => (thread, w)).map fun r => (r.1, r.2.request)),
      p e.frame.genTime := layOut_times fun r hr => by
    obtain ⟨w, hw, rfl⟩ := List.mem_map.mp hr
    exact hws w hw
  rw [List.map_map] at h
  exact h

/-- **A whole session**, from `Idle` to `Idle`. -/
theorem Idle.writes {ws : List Write} (hi : Idle P C tail log s) (hws : ∀ w ∈ ws, w.Ok P)
    {es : List Entry} (hes : journal P s.2.thread tail (C.seq + UInt64.ofNat log.length) ws = es)
    (hfull : log ++ es <+: full)
    (next : ∀ s', Idle P C (endOf tail es) (log ++ es) s' →
      s'.1.writer.writing = s.1.writer.writing → s'.2.thread = s.2.thread →
        Safe P C full Q rest s') :
    Safe P C full Q (ws.flatMap (Write.code false) ++ rest) s := by
  induction ws generalizing tail log s es with
  | nil =>
    obtain rfl : [] = es := hes
    rw [List.append_nil] at next
    exact next s hi rfl rfl
  | cons w ws ih =>
    rw [journal_cons] at hes
    generalize hplace :
      place P s.2.thread tail (C.seq + UInt64.ofNat log.length) w.request = es₁ at hes
    subst hes
    rw [← List.append_assoc] at hfull next
    rw [List.flatMap_cons, List.append_assoc]
    refine hi.write (hws w List.mem_cons_self) hplace ((List.prefix_append ..).trans hfull)
      fun s₁ hi₁ hwr hth => ?_
    rw [← hwr, ← hth] at next
    rw [← hth] at hfull
    refine ih hi₁ (fun x hx => hws x (List.mem_cons_of_mem _ hx)) ?_ hfull fun s' h1 => ?_
    · rw [List.length_append, UInt64.ofNat_add, ← UInt64.add_assoc]
    · rw [endOf_append] at next
      exact next s' h1

/-- A session that ends after its writes. -/
theorem Idle.safe {ws : List Write} (hi : Idle P C tail log s) (hws : ∀ w ∈ ws, w.Ok P)
    {es : List Entry} (hes : journal P s.2.thread tail (C.seq + UInt64.ofNat log.length) ws = es) :
    Safe P C (log ++ es) (Idle P C (endOf tail es) (log ++ es))
      (ws.flatMap (Write.code false)) s := by
  rw [← List.append_nil (ws.flatMap (Write.code false))]
  refine hi.writes hws hes (List.prefix_refl _) fun s' hi' _ _ => ?_
  exact .nil (fun t ht => (hi'.stable ht).state.cut (List.prefix_refl _)) fun t ht => hi'.stable ht

end
end Revoq
