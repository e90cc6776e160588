import Revoq.LiveReader
import Revoq.SharedLog

/-! # Any number of readers beside a journal that grows

Readers of other processes, each with its own `JournalReader` on the same journal,
while somebody writes.  Each statement of the writing side, and each call of a reader,
is one step; the observed events are the frames that are committed and what the readers
are shown and take.

Who writes does not matter (`Feed`): it is enough that at every moment the journal is
`Followable` and the log is only appended to.  Then the readers cannot tell the page
files from a log all of them share (`Broadcast`).
-/
namespace Revoq
open ByteImage StmtMachine SharedLog

/-- **A journal that readers can follow.** -/
structure Followable (P : PageSize) (w : World) : Prop where
  readable : ∃ tail, Readable P w.disk ⟨1, pageHeaderSize⟩ w.log tail ∧ tail.offset + 64 ≤ P.bytes
  first : w.disk.listPageId.head? = some 1
  last : lastFramePosition (w.disk.image 1) = pageHeaderSize ∨
    ∃ e ∈ w.log, e.slot = ⟨1, lastFramePosition (w.disk.image 1)⟩
  times : ∀ e ∈ w.log, 0 ≤ e.frame.genTime

/-- The writing side: a state that has the world in it, and steps. -/
structure Feed (σ : Type) where
  world : σ → World
  /-- A reader has left the page files like this. -/
  put : σ → Disk → σ
  next : σ → σ → Prop

/-- In the states `I`, the journal can be followed and grows. -/
structure Feed.Grows {σ : Type} (F : Feed σ) (P : PageSize) (I : σ → Prop) : Prop where
  put : ∀ s, F.put s (F.world s).disk = s
  next : ∀ s s', I s → F.next s s' → I s' ∧ (F.world s).log <+: (F.world s').log
  followable : ∀ s, I s → Followable P (F.world s)

/-- One reader. -/
structure Seat where
  /-- Absent until `join` has returned. -/
  reader : Option Reader := none
  view : Option FrameView := none

/-- A journal that is being written, and its readers. -/
structure Audience (σ ι : Type) where
  feed : σ
  seat : ι → Seat := fun _ => {}

namespace Audience
variable {σ ι : Type} [DecidableEq ι]

/-- The frames that `after` has and `before` has not. -/
def news (before after : World) : List (SharedLog.Event ι Frame) :=
  (after.log.drop before.log.length).map fun e => .appended e.frame

/-- What a reader is told by `tryCurrentFrame`. -/
def told (i : ι) (r : Reader) (d : Disk) : Option FrameView → SharedLog.Event ι Frame
  | none => .nothing i
  | some v => .shown i (r.frame v d)

/-- **One step**: of the writing side, or one call of a reader. -/
inductive Step (F : Feed σ) (P : PageSize) (prefault : ι → Bool) :
    Audience σ ι → List (SharedLog.Event ι Frame) → Audience σ ι → Prop where
  | write {A : Audience σ ι} {s : σ} (h : F.next A.feed s) :
      Step F P prefault A (news (F.world A.feed) (F.world s)) { A with feed := s }
  | join {A : Audience σ ι} {i : ι} {fuel : Nat} {d : Disk} {r : Reader}
      (hnone : (A.seat i).reader = none)
      (h : Reader.join P fuel (prefault i) 0 (F.world A.feed).disk = .ok (d, r)) :
      Step F P prefault A [] ⟨F.put A.feed d, Function.update A.seat i ⟨some r, none⟩⟩
  | tryCurrentFrame {A : Audience σ ι} {i : ι} {r : Reader} (hr : (A.seat i).reader = some r) :
      Step F P prefault A [told i r (F.world A.feed).disk (r.tryCurrentFrame (F.world A.feed).disk)]
        { A with
          seat := Function.update A.seat i ⟨some r, r.tryCurrentFrame (F.world A.feed).disk⟩ }
  | advance {A : Audience σ ι} {i : ι} {r r' : Reader} {v : FrameView} {d : Disk}
      (hr : (A.seat i).reader = some r) (hv : (A.seat i).view = some v)
      (h : r.advance P v (F.world A.feed).disk = .ok (d, r')) :
      Step F P prefault A [.taken i (r.frame v (F.world A.feed).disk)]
        ⟨F.put A.feed d, Function.update A.seat i ⟨some r', none⟩⟩

end Audience

/-- The reader's frame header, and the frame it was shown, lie inside a page that is in
place. -/
def Seat.Inside (P : PageSize) (d : Disk) (x : Seat) : Prop :=
  ∀ r, x.reader = some r → ∃ p size, r.page = some p ∧ d.size p = some size ∧ P.bytes ≤ size ∧
    r.offset + frameHeaderSize ≤ P.bytes ∧ ∀ v, x.view = some v → r.offset + v.frameLength ≤ P.bytes

/-- **What any number of readers can rely on.** -/
structure Broadcast {σ ι : Type} [DecidableEq ι] (F : Feed σ) (P : PageSize) (prefault : ι → Bool)
    (log₀ : List Frame) (es : List (SharedLog.Event ι Frame)) (A : Audience σ ι) : Prop where
  /-- The events are those of a log that all share, where every call is one step. -/
  consistent : Consistent (log₀.map .appended ++ es)
  /-- The log is what is committed. -/
  appended : log₀ ++ appends es = (F.world A.feed).log.map Entry.frame
  /-- No call fails. -/
  joins : ∀ i, (A.seat i).reader = none →
    ∃ d r, Reader.join P 1 (prefault i) 0 (F.world A.feed).disk = .ok (d, r)
  advances : ∀ i r v, (A.seat i).reader = some r → (A.seat i).view = some v →
    ∃ d r', r.advance P v (F.world A.feed).disk = .ok (d, r')
  /-- No reader looks outside its pages. -/
  inside : ∀ i, (A.seat i).Inside P (F.world A.feed).disk
  /-- If the writing side dies here, each reader comes to the end of what is committed, -/
  drains : ∀ i r fuel, (A.seat i).reader = some r → (F.world A.feed).log.length < fuel →
    r.drain P fuel (F.world A.feed).disk =
      .ok (((F.world A.feed).log.map Entry.frame).drop (takes i es).length)
  /-- and so does one that joins afterwards. -/
  recovers : ∀ pre fuel, (F.world A.feed).log.length < fuel →
    ∃ d r, Reader.join P 1 pre 0 (F.world A.feed).disk = .ok (d, r) ∧
      r.drain P fuel d = .ok ((F.world A.feed).log.map Entry.frame)

section
variable {P : PageSize} {w w' : World} {r : Reader} {view : Option FrameView}
  {delivered : List Frame} {n : Nat}

theorem Live.followable {tail : Slot} (h : Live P (ctxOf P .empty) w.disk w.log tail)
    (htimes : ∀ e ∈ w.log, 0 ≤ e.frame.genTime) : Followable P w :=
  ⟨⟨tail, h.readable fun _ _ => wordsZero_blank P, h.room⟩, h.head_listPageId,
    h.last 1 (Nat.le_refl 1) h.first_le, htimes⟩

/-- A reader that has taken `n` frames stands behind them. -/
def Seat.Follows (log : List Entry) (n : Nat) (x : Seat) : Prop :=
  (x.reader = none → n = 0 ∧ x.view = none) ∧
    ∀ r, x.reader = some r → Reads log r x.view ((log.take n).map Entry.frame)

theorem Seat.Follows.mono {log log' : List Entry} {x : Seat} (h : x.Follows log n)
    (hn : n ≤ log.length) (hlog : log <+: log') : x.Follows log' n := by
  obtain ⟨ext, rfl⟩ := hlog
  refine ⟨h.1, fun r hr => ?_⟩
  rw [List.take_append_of_le_length hn]
  exact (h.2 r hr).mono (List.prefix_append ..)

/-- A reader that joins from time 0 has everything before it. -/
theorem Followable.join (h : Followable P w) (fuel : Nat) (prefault : Bool) :
    ∃ r, Reader.join P (fuel + 1) prefault 0 w.disk = .ok (w.disk, r) ∧ Reads w.log r none [] := by
  obtain ⟨tail, hread, -⟩ := h.readable
  obtain ⟨r, hj, hr⟩ := hread.join h.first h.last h.times fuel prefault
  exact ⟨r, hj, [], w.log, _, rfl, rfl, rfl, hr, fun v hv => by cases hv⟩

theorem Reads.length_le {log : List Entry} (h : Reads log r view delivered) :
    delivered.length ≤ log.length := by
  obtain ⟨done, rest, -, rfl, rfl, -⟩ := h.split
  simp

theorem Reads.look {d : Disk} {log : List Entry} {tail : Slot} (h : Reads log r view delivered)
    (hread : Readable P d ⟨1, pageHeaderSize⟩ log tail) :
    Reads log r (r.tryCurrentFrame d) delivered := by
  obtain ⟨done, rest, slot, hlog, hdel, hchain, hat, -⟩ := h.split
  refine ⟨done, rest, slot, hlog, hdel, hchain, hat, fun v hv => ?_⟩
  have hrest := (hlog ▸ hread).drop hchain
  cases rest with
  | nil =>
    have hst : slot = tail := hrest.chain
    rw [hat.look_none (hst ▸ hrest.stop)] at hv
    cases hv
  | cons e rest =>
    obtain ⟨hlook, -⟩ := hrest.advance hat
    cases hlook.symm.trans hv
    exact ⟨e, rest, rfl, rfl⟩

/-- A reader that is left alone delivers what it has not delivered yet. -/
theorem Reads.drain {d : Disk} {log : List Entry} {tail : Slot} {fuel : Nat}
    (h : Reads log r view delivered) (hread : Readable P d ⟨1, pageHeaderSize⟩ log tail)
    (hfuel : log.length < fuel) :
    r.drain P fuel d = .ok ((log.map Entry.frame).drop delivered.length) := by
  obtain ⟨done, rest, slot, rfl, rfl, hchain, hat, -⟩ := h.split
  rw [(hread.drop hchain).drain hat (by rw [List.length_append] at hfuel; omega), List.map_append,
    List.drop_left]

/-- Where a reader stands there is room for a header, and for the frame it is shown. -/
theorem Reads.inside (h : Followable P w) (hreads : Reads w.log r view delivered) :
    Seat.Inside P w.disk ⟨some r, view⟩ := by
  intro q hq
  cases hq
  obtain ⟨tail, hread, hroom⟩ := h.readable
  obtain ⟨done, rest, slot, hlog, -, hchain, hat, hview⟩ := hreads.split
  have hrest := (hlog ▸ hread).drop hchain
  have hle : (1 : Nat) ≤ slot.page := hchain.page_le
  obtain ⟨size, hsize, hbytes⟩ := (hread.used slot.page hle hrest.chain.page_le).ready.size
  have hroomy : slot.offset + 64 ≤ P.bytes ∧ ∀ v, view = some v →
      slot.offset + v.frameLength ≤ P.bytes := by
    cases rest with
    | nil =>
      obtain rfl : slot = tail := hrest.chain
      refine ⟨hroom, fun v hv => ?_⟩
      obtain ⟨e, rest', he, -⟩ := hview v hv
      cases he
    | cons e rest =>
      have hslot : e.slot = slot := hrest.chain.1
      have hw := hrest.placed e List.mem_cons_self
      rw [← hslot]
      have hfits : e.slot.offset + 64 ≤ P.bytes ∧ e.slot.offset + e.frame.length ≤ P.bytes := by
        by_cases hp : e.frame.IsPageEnd
        · obtain ⟨hnil, hle⟩ := hw.sentinel hp
          have hlen : e.frame.length = 32 := by rw [Frame.length, hnil]; rfl
          exact ⟨hle, by omega⟩
        · have := hw.data hp
          have := e.frame.length_le_stride
          exact ⟨by omega, by omega⟩
      refine ⟨hfits.1, fun v hv => ?_⟩
      obtain ⟨e', rest', he, rfl⟩ := hview v hv
      cases he
      exact hfits.2
  refine ⟨slot.page, size, hat.page, hsize, hbytes, ?_, ?_⟩
  · rw [hat.offset, show frameHeaderSize = 32 from rfl]
    omega
  · rw [hat.offset]
    exact hroomy.2

end

/-! ## The simulation -/

namespace Audience
variable {σ ι : Type} [DecidableEq ι] {F : Feed σ} {P : PageSize} {I : σ → Prop}
  {prefault : ι → Bool}
variable {A A' : Audience σ ι} {s s' : State ι Frame} {es : List (SharedLog.Event ι Frame)}

/-- **The readers' view**: the log is what is committed, and each reader stands behind
what it has taken. -/
structure Shares (F : Feed σ) (I : σ → Prop) (A : Audience σ ι) (s : State ι Frame) : Prop where
  feed : I A.feed
  log : s.log = (F.world A.feed).log.map Entry.frame
  seats : ∀ i, (A.seat i).Follows (F.world A.feed).log (s.position i)
  inside : ∀ i, s.position i ≤ (F.world A.feed).log.length

/-- Reader `i` has a new seat. -/
theorem Shares.seat (h : Shares F I A s) {i : ι} {x : Seat}
    (hx : x.Follows (F.world A.feed).log (s.position i)) :
    Shares F I { A with seat := Function.update A.seat i x } s := by
  refine ⟨h.feed, h.log, fun k => ?_, h.inside⟩
  by_cases hk : k = i
  · subst hk
    simpa only [Function.update_self] using hx
  · simpa only [Function.update_of_ne hk] using h.seats k

/-- **Each step of the readers and the writing side is one of the shared log.** -/
theorem simulates (hF : F.Grows P I) :
    Observed.Simulates (Step F P prefault) SharedLog.Step (Shares F I) := by
  intro A es A' s h hstep
  have hfollow := hF.followable _ h.feed
  obtain ⟨tail, hread, hroom⟩ := hfollow.readable
  cases hstep with
  -- the frames that the writing side has committed are appended one by one
  | @write u hnext =>
    obtain ⟨hu, hlog⟩ := hF.next _ _ h.feed hnext
    have happends :=
      trace_appends s (((F.world u).log.drop (F.world A.feed).log.length).map Entry.frame)
    rw [List.map_map] at happends
    refine ⟨_, happends, hu, ?_, fun i => (h.seats i).mono (h.inside i) hlog, fun i => ?_⟩
    · show s.log ++ _ = _
      rw [h.log, ← List.map_append]
      obtain ⟨ext, hext⟩ := hlog
      rw [← hext, List.drop_left]
    · exact Nat.le_trans (h.inside i) hlog.length_le
  -- a reader without a cursor has taken nothing, so it joins unseen
  | @join i fuel d r hnone hj =>
    cases fuel with
    | zero => exact absurd hj Reader.join_zero
    | succ fuel =>
      obtain ⟨r', hj', hreads⟩ := hfollow.join fuel (prefault i)
      cases hj.symm.trans hj'
      rw [hF.put]
      refine ⟨s, .nil, h.seat ⟨fun hc => (by cases hc), fun q hq => ?_⟩⟩
      cases hq
      rw [((h.seats i).1 hnone).1]
      exact hreads
  -- the frame at the position of this reader, or none is left
  | @tryCurrentFrame i r hr =>
    have hreads := (h.seats i).2 r hr
    have hlen : ((F.world A.feed).log.take (s.position i)).length = s.position i := by
      rw [List.length_take, Nat.min_eq_left (h.inside i)]
    have hseat : Seat.Follows (F.world A.feed).log (s.position i)
        ⟨some r, r.tryCurrentFrame (F.world A.feed).disk⟩ := by
      refine ⟨fun hc => (by cases hc), fun q hq => ?_⟩
      cases hq
      exact hreads.look hread
    refine ⟨s, .single ?_, h.seat hseat⟩
    rcases hreads.next hread with ⟨e, hget, hlook, -, hframe, -⟩ | ⟨hall, hlook, -⟩
    · rw [hlook]
      rw [List.length_map, hlen] at hget
      refine .look ?_
      rw [h.log, List.getElem?_map, hget, hframe]
      rfl
    · rw [hlook]
      refine .nothing ?_
      have := congrArg List.length hall
      rw [List.length_map, List.length_map, hlen] at this
      rw [h.log, List.getElem?_eq_none_iff, List.length_map]
      omega
  -- a view is there only in front of a frame
  | @advance i r r' v d hr hv hadv =>
    have hreads := (h.seats i).2 r hr
    have hlen : ((F.world A.feed).log.take (s.position i)).length = s.position i := by
      rw [List.length_take, Nat.min_eq_left (h.inside i)]
    rcases hreads.next hread with ⟨e, hget, -, hview, hframe, r'', hadv', hreads'⟩ | ⟨-, -, hnone⟩
    · obtain rfl := hview v hv
      cases hadv.symm.trans hadv'
      rw [List.length_map, hlen] at hget
      rw [hF.put, hframe]
      have htake : (F.world A.feed).log.take (s.position i + 1) =
          (F.world A.feed).log.take (s.position i) ++ [e] := by
        rw [List.take_add_one, hget]
        rfl
      refine ⟨_, .single (.take ?_), h.feed, h.log, fun k => ?_, fun k => ?_⟩
      · rw [h.log, List.getElem?_map, hget]
        rfl
      · by_cases hk : k = i
        · subst hk
          simp only [Function.update_self]
          refine ⟨fun hc => (by cases hc), fun q hq => ?_⟩
          cases hq
          rw [htake, List.map_append]
          exact hreads'
        · simpa only [Function.update_of_ne hk] using h.seats k
      · by_cases hk : k = i
        · subst hk
          simp only [Function.update_self]
          exact (List.getElem?_eq_some_iff.mp hget).1
        · simpa only [Function.update_of_ne hk] using h.inside k
    · rw [hnone] at hv
      cases hv

/-- The audience before anybody has joined. -/
def start (s : σ) : Audience σ ι := { feed := s }

/-- **Broadcast**, for whoever writes. -/
theorem broadcast (hF : F.Grows P I) {s₀ : σ} (h₀ : I s₀)
    (h : Observed.Trace (Step F P prefault) (start s₀) es A) :
    I A.feed ∧ Broadcast F P prefault ((F.world s₀).log.map Entry.frame) es A := by
  let log₀ := (F.world s₀).log.map Entry.frame
  have hstart : Shares F I (start s₀ : Audience σ ι) { log := [] ++ log₀ } :=
    ⟨h₀, rfl, fun i => ⟨fun _ => ⟨rfl, rfl⟩, fun r hr => (by cases hr)⟩, fun _ => Nat.zero_le _⟩
  obtain ⟨s, htrace, hs⟩ := (simulates hF).trace hstart h
  obtain ⟨hm, hc⟩ := Trace.consistent ((trace_appends {} log₀).trans htrace)
  have hfollow := hF.followable _ hs.feed
  obtain ⟨tail, hread, hroom⟩ := hfollow.readable
  have htakes : ∀ i, takes i es = s.log.take (s.position i) := by
    intro i
    rw [← hm.taken i, takes_append, takes_appended, List.nil_append]
  refine ⟨hs.feed, hc, ?_, fun i hi => ?_, fun i r v hr hv => ?_, fun i r hr => ?_,
    fun i r fuel hr hfuel => ?_, fun pre fuel hfuel => ?_⟩
  · rw [← hs.log, ← hm.log, appends_append, appends_appended]
  · obtain ⟨r, hj, -⟩ := hfollow.join 0 (prefault i)
    exact ⟨_, r, hj⟩
  · rcases ((hs.seats i).2 r hr).next hread with ⟨e, -, -, hview, -, r', hadv, -⟩ | ⟨-, -, hnone⟩
    · exact ⟨_, r', hview v hv ▸ hadv⟩
    · rw [hnone] at hv
      cases hv
  · exact ((hs.seats i).2 r hr).inside hfollow r rfl
  · rw [((hs.seats i).2 r hr).drain hread hfuel, htakes i, hs.log, List.map_take]
  · obtain ⟨r, hj, hreads⟩ := hfollow.join 0 pre
    exact ⟨_, r, hj, hreads.drain hread hfuel⟩

/-! ## A reader that is left alone -/

/-- The writing side goes on, and nobody reads. -/
theorem writes (A : Audience σ ι) {u : σ} (h : Relation.ReflTransGen F.next A.feed u) :
    ∃ es, Observed.Trace (Step F P prefault) A es { A with feed := u } := by
  induction h with
  | refl => exact ⟨[], .nil⟩
  | tail _ hnext ih =>
    obtain ⟨es, htrace⟩ := ih
    exact ⟨_, htrace.snoc (.write hnext)⟩

/-- What a reader has taken is a first part of what is committed. -/
theorem takes_prefix {log₀ : List Frame} (h : Broadcast F P prefault log₀ es A) (i : ι) :
    takes i es <+: (F.world A.feed).log.map Entry.frame := by
  have := h.consistent.taken i _ [] (List.append_nil _).symm
  rwa [takes_append, takes_appended, appends_append, appends_appended, List.nil_append,
    h.appended] at this

/-- A reader that has not taken everything is not told that there is nothing. -/
theorem look_some {log₀ : List Frame} {i : ι} {r : Reader}
    (h : Broadcast F P prefault log₀ (es ++ [told i r (F.world A.feed).disk
      (r.tryCurrentFrame (F.world A.feed).disk)]) A') (hA : A'.feed = A.feed)
    (hlt : (takes i es).length < (F.world A.feed).log.length) :
    ∃ v, r.tryCurrentFrame (F.world A.feed).disk = some v := by
  cases hlook : r.tryCurrentFrame (F.world A.feed).disk with
  | some v => exact ⟨v, rfl⟩
  | none =>
    rw [hlook] at h
    have hall := h.consistent.nothing i (log₀.map .appended ++ es) [] (List.append_assoc ..).symm
    rw [takes_append, takes_appended, List.nil_append, appends_append, appends_appended] at hall
    have happended := h.appended
    rw [appends_append, ← List.append_assoc, ← hall, hA] at happended
    have hlen := congrArg List.length happended
    rw [List.length_append, List.length_map] at hlen
    exact absurd hlen (Nat.ne_of_lt hlt)

/-- **Left alone, a reader takes all that is committed.** -/
theorem catchesUp (hF : F.Grows P I) {s₀ : σ} (h₀ : I s₀) {i : ι} {r : Reader}
    (h : Observed.Trace (Step F P prefault) (start s₀) es A) (hr : (A.seat i).reader = some r) :
    ∃ fs A', Observed.Trace (Step F P prefault) (start s₀) (es ++ fs) A' ∧
      (F.world A'.feed).log.map Entry.frame = (F.world A.feed).log.map Entry.frame ∧
      takes i (es ++ fs) = (F.world A.feed).log.map Entry.frame := by
  have hprefix := takes_prefix (broadcast hF h₀ h).2 i
  obtain ⟨n, hn⟩ := Nat.exists_eq_add_of_le hprefix.length_le
  rw [List.length_map] at hn
  induction n generalizing es A r with
  | zero =>
    refine ⟨[], A, ?_, rfl, ?_⟩
    · rwa [List.append_nil]
    · rw [List.append_nil]
      exact hprefix.eq_of_length (by rw [List.length_map]; exact hn.symm)
  | succ n ih =>
    -- it is shown the next frame, and moves over it
    have hlook := h.snoc (.tryCurrentFrame hr)
    obtain ⟨v, hv⟩ := look_some (broadcast hF h₀ hlook).2 rfl (by omega)
    rw [hv] at hlook
    have hseat : (Function.update A.seat i ⟨some r, some v⟩) i = ⟨some r, some v⟩ :=
      Function.update_self ..
    have hreader := congrArg Seat.reader hseat
    have hview := congrArg Seat.view hseat
    obtain ⟨d, r', hadv⟩ := (broadcast hF h₀ hlook).2.advances i r v hreader hview
    have hmoved := hlook.snoc (.advance hreader hview hadv)
    rw [List.append_assoc] at hmoved
    have hlog := (broadcast hF h₀ hmoved).2.appended
    rw [appends_append, ← List.append_assoc, (broadcast hF h₀ h).2.appended] at hlog
    have hlog := (List.append_nil _).symm.trans hlog
    have hlen := congrArg List.length hlog
    rw [List.length_map, List.length_map] at hlen
    have hbehind : (takes i (es ++ [.shown i (r.frame v (F.world A.feed).disk),
        .taken i (r.frame v (F.world A.feed).disk)])).length + n = (F.world A.feed).log.length := by
      rw [takes_append, takes_shown_taken, List.length_append, List.length_singleton]
      omega
    have hnext := congrArg Seat.reader (Function.update_self i (⟨some r', none⟩ : Seat)
      (Function.update A.seat i ⟨some r, some v⟩))
    have hprefix' := takes_prefix (broadcast hF h₀ hmoved).2 i
    obtain ⟨fs, A', htrace, hsame, hall⟩ := ih hmoved hnext hprefix' (hlen.symm.trans hbehind.symm)
    rw [List.append_assoc] at htrace hall
    exact ⟨_, A', htrace, hsame.trans hlog.symm, hall.trans hlog.symm⟩

/-- A reader joins, the writing side goes on, and the reader takes what there is. -/
theorem follows_along (hF : F.Grows P I) {s₀ u : σ} (h₀ : I s₀)
    (h : Relation.ReflTransGen F.next s₀ u) (i : ι) :
    ∃ es A, Observed.Trace (Step F P prefault) (start s₀) es A ∧
      (F.world A.feed).log.map Entry.frame = (F.world u).log.map Entry.frame ∧
      takes i es = (F.world A.feed).log.map Entry.frame := by
  obtain ⟨r, hjoin, -⟩ := (hF.followable _ h₀).join 0 (prefault i)
  let A₁ : Audience σ ι := ⟨s₀, Function.update (start s₀).seat i ⟨some r, none⟩⟩
  have hjoined : Observed.Trace (Step F P prefault) (start s₀) [] A₁ := by
    have hstep : Step F P prefault (start s₀) [] _ := .join rfl hjoin
    rw [show F.put (start s₀ : Audience σ ι).feed _ = s₀ from hF.put s₀] at hstep
    exact .single hstep
  obtain ⟨es, hwrites⟩ : ∃ es, Observed.Trace (Step F P prefault) A₁ es { A₁ with feed := u } :=
    writes A₁ h
  have hseat : A₁.seat i = ⟨some r, none⟩ := Function.update_self ..
  obtain ⟨fs, A, htrace, hlog, hall⟩ :=
    catchesUp hF h₀ (hjoined.trans hwrites) (congrArg Seat.reader hseat)
  exact ⟨_, A, htrace, hlog, hall.trans hlog.symm⟩

end Audience
end Revoq
