import Revoq.LiveReader
import Revoq.Restart

/-! # Reading a journal that was written in several sessions

A reader leaves a page only over the sentinel at its end.  A session that ends
stores none, and the next one starts on a page of its own, so a reader that joins
from time 0 comes to a stop behind the first session.  The one way over is a first
session with a single frame on its last page: the next session takes that page for
an empty one, and its frames stand where that frame was.
-/
namespace Revoq
open ByteImage StmtMachine

/-! ## Walking along a chain -/

/-- The frames `es` stand on disk from slot `s` to slot `t`, whatever is at `t`. -/
structure Walk (P : PageSize) (d : Disk) (s : Slot) (es : List Entry) (t : Slot) : Prop where
  chain : Chained s es t
  frames : ∀ e ∈ es, FrameAt (d.image e.slot.page) e.slot.offset e.frame
  placed : ∀ e ∈ es, e.WellPlaced P
  used : ∀ p, s.page ≤ p → p ≤ t.page → InUse P d p

section
variable {P : PageSize} {d d' : Disk} {s t : Slot} {e : Entry} {es : List Entry} {r r' : Reader}
variable {fuel fuel' : Nat} {fs : List Frame} {f : Frame}

/-- What a drain that ends has delivered first. -/
theorem Reader.At.drain_frame (h : r.At e.slot)
    (hf : FrameAt (d.image e.slot.page) e.slot.offset e.frame) (hw : e.WellPlaced P)
    (hd : r.drain P fuel d = .ok fs) :
    ∃ fuel' d' r' rest, r.advance P (viewOf e.frame) d = .ok (d', r') ∧
      r'.drain P fuel' d' = .ok rest ∧ fs = e.frame :: rest := by
  cases fuel with
  | zero => cases hd
  | succ fuel =>
    rw [Reader.drain, h.look_some hf hw] at hd
    simp only at hd
    obtain ⟨⟨d', r'⟩, hadv, hmap⟩ := Except.bind_eq_ok.mp hd
    obtain ⟨rest, hrest, hcons⟩ := Except.map_eq_ok.mp hmap
    refine ⟨fuel, d', r', rest, hadv, hrest, ?_⟩
    rw [← hcons, h.frame_eq hf]

/-- **A drain delivers the frames it walks along**, and goes on where they end. -/
theorem Walk.drain (h : Walk P d s es t) (hr : r.At s) (hd : r.drain P fuel d = .ok fs) :
    ∃ (fuel' : Nat) (r' : Reader) (rest : List Frame), r'.At t ∧ r'.drain P fuel' d = .ok rest ∧
      fs = es.map Entry.frame ++ rest := by
  induction es generalizing s r fuel fs with
  | nil =>
    obtain rfl : s = t := h.chain
    exact ⟨fuel, r, fs, hr, hd, rfl⟩
  | cons e es ih =>
    have hslot : e.slot = s := h.chain.1
    have hw := h.placed e List.mem_cons_self
    have hle : (s.after e.frame).page ≤ t.page := h.chain.2.page_le
    obtain ⟨fuel₁, d₁, r₁, rest₁, hadv, hrest, rfl⟩ :=
      Reader.At.drain_frame (hslot.symm ▸ hr) (h.frames e List.mem_cons_self) hw hd
    obtain ⟨r₂, hadv', hr₂⟩ := Reader.At.advance (d := d) (hslot.symm ▸ hr) hw fun hp => by
      rw [Slot.after_pageEnd hp] at hle
      rw [hslot]
      exact h.used _ (Nat.le_succ _) hle
    cases hadv.symm.trans hadv'
    have hpage : s.page ≤ (s.after e.frame).page := by
      rcases s.after_page e.frame with ⟨heq, -⟩ | heq <;> omega
    have htail : Walk P d (s.after e.frame) es t :=
      ⟨h.chain.2, fun x hx => h.frames x (List.mem_cons_of_mem _ hx),
        fun x hx => h.placed x (List.mem_cons_of_mem _ hx), fun p h1 h2 => h.used p (by omega) h2⟩
    obtain ⟨fuel₃, r₃, rest, hr₃, hd₃, rfl⟩ := ih htail (hslot ▸ hr₂) hrest
    exact ⟨fuel₃, r₃, rest, hr₃, hd₃, rfl⟩

theorem Reader.At.drain_nil (h : r.At s) (hz : getFrameLength (d.image s.page) s.offset = 0)
    (hd : r.drain P fuel d = .ok fs) : fs = [] := by
  cases fuel with
  | zero => cases hd
  | succ fuel =>
    rw [Reader.drain, h.look_none hz] at hd
    cases hd
    rfl

/-! ## What `join` skips -/

/-- The frame loop of `seekToTime` does not stop at a frame from before the time. -/
theorem Reader.skipFrames_stops {time : Int64} (h : r.skipFrames P time fuel d = .ok (d', r')) :
    ¬ ((r'.tryCurrentFrame d').isSome ∧ (readHeader (r'.image d') r'.offset).genTime < time) := by
  induction fuel generalizing r d with
  | zero => cases h
  | succ fuel ih =>
    rw [Reader.skipFrames] at h
    split at h
    · obtain ⟨⟨d₁, r₁⟩, -, h⟩ := Except.bind_eq_ok.mp h
      exact ih h
    · rename_i hstop
      cases h
      exact hstop

/-- **The first frame delivered after a `join` is not from before its time.** -/
theorem Reader.join_drain_time {prefault : Bool} {time : Int64}
    (hj : Reader.join P fuel prefault time d = .ok (d', r))
    (hd : r.drain P fuel' d' = .ok (f :: fs)) :
    ¬ f.genTime < time := by
  obtain ⟨⟨d₁, p⟩, -, h₁⟩ := Except.bind_eq_ok.mp hj
  obtain ⟨⟨d₂, r₂⟩, -, h₂⟩ := Except.bind_eq_ok.mp h₁
  obtain ⟨⟨d₃, r₃⟩, -, h₃⟩ := Except.bind_eq_ok.mp h₂
  have hstop := Reader.skipFrames_stops h₃
  cases fuel' with
  | zero => cases hd
  | succ fuel' =>
    rw [Reader.drain] at hd
    cases hv : r.tryCurrentFrame d' with
    | none => rw [hv] at hd; cases hd
    | some v =>
      rw [hv] at hd
      obtain ⟨x, -, hx⟩ := Except.bind_eq_ok.mp hd
      obtain ⟨rest, -, hcons⟩ := Except.map_eq_ok.mp hx
      obtain ⟨rfl, -⟩ := List.cons.inj hcons
      intro hlt
      exact hstop ⟨by rw [hv]; rfl, hlt⟩

end

/-! ## The frames of one session -/

section
variable {P : PageSize} {d : Disk} {j : Job} {s : World × Local} {tail : Slot}

/-- A sentinel is never the first frame of a page, since a request fits an empty one,
and it is stamped by the clock. -/
theorem pageEnd_mem {t : Slot} {seq : UInt64} {rs : List (Nat × Request)}
    (hrs : ∀ r ∈ rs, r.2.Fits P ∧ r.2.IsData) {e : Entry} (he : e ∈ layOut P t seq rs)
    (hp : e.frame.IsPageEnd) : pageHeaderSize < e.slot.offset ∧
    ∃ r ∈ rs, e.frame.genTime = r.2.now := by
  induction rs generalizing t seq with
  | nil => cases he
  | cons r rs ih =>
    obtain ⟨hfit, hdata⟩ := hrs r List.mem_cons_self
    rcases List.mem_append.mp he with he | he
    · rcases List.mem_append.mp he with he | he
      · unfold makeRoom at he
        split at he
        · rename_i hover
          rw [List.mem_singleton.mp he]
          have h1 : r.2.stride + 128 ≤ P.bytes := hfit
          have h2 : t.offset + r.2.stride > P.bytes - 64 := hover
          refine ⟨?_, r, List.mem_cons_self, rfl⟩
          show 64 < t.offset
          omega
        · cases he
      · rw [List.mem_singleton.mp he] at hp
        exact absurd hp (hdata.not_pageEnd _)
    · obtain ⟨hoff, x, hx, htime⟩ := ih (fun x hx => hrs x (List.mem_cons_of_mem _ hx)) he
      exact ⟨hoff, x, List.mem_cons_of_mem _ hx, htime⟩

/-- The last frame of a journal is one that was asked for. -/
theorem layOut_last {t : Slot} {seq : UInt64} {rs : List (Nat × Request)} (hne : rs ≠ [])
    (hrs : ∀ r ∈ rs, r.2.IsData) :
    ∃ init b, layOut P t seq rs = init ++ [b] ∧ ¬ b.frame.IsPageEnd := by
  obtain ⟨rs', ⟨thread, r⟩, rfl⟩ := (List.eq_nil_or_concat rs).resolve_left hne
  rw [List.concat_eq_append] at hrs ⊢
  rw [layOut_concat, place, ← List.append_assoc]
  exact ⟨_, _, rfl, (hrs (thread, r) (by simp)).not_pageEnd _⟩

theorem Job.Ok.requests (hj : j.Ok P) (thread : Nat) :
    ∀ r ∈ j.writes.map fun w => (thread, w.request), r.2.Fits P ∧ r.2.IsData := by
  intro r hr
  obtain ⟨w, hw, rfl⟩ := List.mem_map.mp hr
  exact ⟨(hj.writes w hw).request_fits, (hj.writes w hw).isData⟩

/-- The first frame of a session carries the time of its first write. -/
theorem Job.plan_head {thread : Nat} {e : Entry} {w : Write}
    (he : (j.plan P d thread).head? = some e) (hdata : ¬ e.frame.IsPageEnd)
    (hw : j.writes.head? = some w) : e.frame.genTime = w.timestamp := by
  obtain ⟨ws, hws⟩ := List.head?_eq_some_iff.mp hw
  rw [Job.plan, hws, journal_cons, place, makeRoom] at he
  split at he
  · cases he
    exact absurd (pageEndFrame_isPageEnd ..) hdata
  · cases he
    rfl

/-- A session commits at least its writes. -/
theorem Job.Ok.length_plan (hj : j.Ok P) (thread : Nat) :
    j.writes.length ≤ (j.plan P d thread).length := by
  have hdata := congrArg List.length (@dataOf_layOut P ⟨lastWritten d + 1, pageHeaderSize⟩
    (nextSequence P d) _ fun r hr => (hj.requests thread r hr).2)
  rw [dataOf, List.length_map, List.length_map, List.length_map] at hdata
  rw [← hdata]
  exact List.length_filter_le ..

/-- **How a session with two writes or more begins**: with a data frame on its first
page, and another frame behind it. -/
structure BeginsWith (C : Ctx) (log : List Entry) (e₀ e₁ : Entry) (rest : List Entry) : Prop where
  log : log = e₀ :: e₁ :: rest
  first : e₀.slot = ⟨C.first, pageHeaderSize⟩
  second : e₁.slot = ⟨C.first, pageHeaderSize + e₀.frame.stride⟩
  data : ¬ e₀.frame.IsPageEnd

/-- **How it ends**: with a data frame, which the tail is behind. -/
structure EndsWith (log : List Entry) (tail : Slot) (init : List Entry) (b : Entry) : Prop where
  log : log = init ++ [b]
  data : ¬ b.frame.IsPageEnd
  tail : tail = b.slot.after b.frame

theorem Job.beginsWith (hj : j.Ok P) (htwo : 2 ≤ j.writes.length) {thread : Nat}
    (hchain : Chained ⟨lastWritten d + 1, pageHeaderSize⟩ (j.plan P d thread) tail) :
    ∃ e₀ e₁ rest, BeginsWith (ctxOf P d) (j.plan P d thread) e₀ e₁ rest := by
  have hlen := hj.length_plan (d := d) thread
  cases hlog : j.plan P d thread with
  | nil => rw [hlog, List.length_nil] at hlen; omega
  | cons e₀ log =>
    cases log with
    | nil => rw [hlog, List.length_singleton] at hlen; omega
    | cons e₁ rest =>
      rw [hlog] at hchain
      obtain ⟨h₀, h₁, -⟩ := hchain
      have hdata : ¬ e₀.frame.IsPageEnd := by
        intro hp
        have :=
          (pageEnd_mem (hj.requests thread) (show e₀ ∈ j.plan P d thread by rw [hlog]; simp) hp).1
        rw [h₀] at this
        exact Nat.lt_irrefl _ this
      rw [Slot.after_data hdata] at h₁
      exact ⟨e₀, e₁, rest, rfl, h₀, h₁, hdata⟩

theorem Job.endsWith (hj : j.Ok P) (hne : j.writes ≠ []) {thread : Nat}
    (hchain : Chained ⟨lastWritten d + 1, pageHeaderSize⟩ (j.plan P d thread) tail) :
    ∃ init b, EndsWith (j.plan P d thread) tail init b := by
  obtain ⟨init, b, hlog, hb⟩ :=
    @layOut_last P ⟨lastWritten d + 1, pageHeaderSize⟩ (nextSequence P d)
    (j.writes.map fun w => (thread, w.request)) (by simpa using hne)
    fun r hr => (hj.requests thread r hr).2
  have hplan : j.plan P d thread = init ++ [b] := hlog
  rw [hplan] at hchain
  obtain ⟨u, -, hu, htail⟩ := hchain.split
  exact ⟨init, b, hplan, hb, by rw [hu]; exact htail.symm⟩

/-! ## The page the next session takes for the last written one -/

theorem lastWritten_eq {p : Nat} (hp : Written d p) (habove : ∀ q, p < q → ¬ Written d q) :
    lastWritten d = p := by
  refine Nat.le_antisymm (Nat.le_of_not_lt fun hlt => ?_) (Nat.le_of_not_lt fun hlt => ?_)
  · exact habove _ hlt (lastWritten_spec (Nat.lt_of_le_of_lt (Nat.zero_le p) hlt))
  · exact not_written_of_lt hlt hp

theorem Ahead.not_written {b : Image} {p : Nat} (h : Ahead P b d p) : ¬ Written d p := by
  rintro ⟨hs, hl⟩
  have hl' : 64 < lastFramePosition (d.image p) := hl
  obtain ⟨size, hs⟩ := Option.isSome_iff_exists.mp hs
  rcases h.header size hs with h0 | ⟨-, h64, -⟩
  · omega
  · have : lastFramePosition (d.image p) = 64 := h64
    omega

theorem Live.written_iff {C : Ctx} {log : List Entry} (h : Live P C d log tail)
    (hl : Lasts C log tail.page d) {p : Nat} (h1 : C.first ≤ p) (h2 : p ≤ tail.page) :
    Written d p ↔ pageHeaderSize < lastOn log p := by
  obtain ⟨size, hs, -⟩ := (h.ready p h1 h2).size
  rw [Written, hl p h1 h2, hs]
  exact ⟨fun hw => hw.2, fun hw => ⟨rfl, hw⟩⟩

/-- A frame of the page whose offset is `lastOn`. -/
theorem lastOn_mem {log : List Entry} {p : Nat} (h : onPage log p ≠ []) :
    ∃ e ∈ log, e.slot = ⟨p, lastOn log p⟩ := by
  have hlast := List.getLast?_eq_some_getLast h
  have hmem := List.mem_filter.mp (List.getLast_mem h)
  refine ⟨_, hmem.1, ?_⟩
  have hpage : ((onPage log p).getLast h).slot.page = p := by simpa using hmem.2
  rw [lastOn, hlast]
  exact congrArg (fun q => (⟨q, _⟩ : Slot)) hpage

/-- Behind a first frame there is another one, so the first page counts as written. -/
theorem BeginsWith.lastOn_first {C : Ctx} {log : List Entry} {e₀ e₁ : Entry} {rest : List Entry}
    (h : BeginsWith C log e₀ e₁ rest) (hchain : Chained ⟨C.first, pageHeaderSize⟩ log tail) :
    pageHeaderSize < lastOn log C.first := by
  obtain ⟨rfl, hfirst, hsecond, hdata⟩ := h
  have hrest : Chained ⟨C.first, pageHeaderSize + e₀.frame.stride⟩ (e₁ :: rest) tail := by
    have := hchain.2
    rwa [Slot.after_data hdata] at this
  have hon : onPage (e₁ :: rest) C.first ≠ [] := by
    rw [onPage, List.filter_cons_of_pos (by simp [hsecond])]
    exact List.cons_ne_nil _ _
  have hcons : lastOn (e₀ :: e₁ :: rest) C.first = lastOn (e₁ :: rest) C.first := by
    have : onPage (e₀ :: e₁ :: rest) C.first = e₀ :: onPage (e₁ :: rest) C.first :=
      List.filter_cons_of_pos (by simp [hfirst])
    rw [lastOn, lastOn, this, List.getLast?_cons_of_ne_nil hon]
  obtain ⟨e, he, hslot⟩ := lastOn_mem hon
  have hpos := e₀.frame.stride_pos
  rw [hcons]
  rcases hrest.after_start he with hlt | ⟨-, hle⟩
  · rw [hslot] at hlt
    exact absurd hlt (Nat.lt_irrefl _)
  · rw [hslot] at hle
    exact Nat.lt_of_lt_of_le (Nat.lt_add_of_pos_right (Nat.lt_of_lt_of_le (by decide) hpos)) hle

/-- **The two ways a session can be resumed.**  The next session starts behind its
tail; or its last page has a single frame, and the next session starts there. -/
theorem EndsWith.lastWritten {C : Ctx} {log init : List Entry} {b : Entry}
    (h : EndsWith log tail init b) (hlive : Live P C d log tail) (hl : Lasts C log tail.page d)
    (hinit : init ≠ []) (hends : ∀ e ∈ log, e.frame.IsPageEnd → pageHeaderSize < e.slot.offset) :
    lastWritten d = tail.page ∨
      b.slot = ⟨lastWritten d + 1, pageHeaderSize⟩ ∧ C.first ≤ lastWritten d := by
  obtain ⟨rfl, hdata, htail⟩ := h
  have hpage : tail.page = b.slot.page := by rw [htail, Slot.after_data hdata]
  have habove : ∀ q, tail.page < q → ¬ Written d q := fun q hq => (hlive.ahead q hq).not_written
  have hlastb : lastOn (init ++ [b]) tail.page = b.slot.offset := by
    rw [lastOn_concat, if_pos hpage.symm]
  have hwb := hlive.written_iff hl hlive.first_le (Nat.le_refl _)
  rw [hlastb] at hwb
  by_cases hoff : pageHeaderSize < b.slot.offset
  · exact Or.inl (lastWritten_eq (hwb.mpr hoff) habove)
  · right
    have h64 : b.slot.offset = pageHeaderSize := by
      have : 64 ≤ b.slot.offset := (hlive.entry_grid (e := b) (by simp)).2
      have : ¬ 64 < b.slot.offset := hoff
      show b.slot.offset = 64
      omega
    -- the frame before it is a sentinel, at the end of a page that counts as written
    obtain ⟨init, e, rfl⟩ := (List.eq_nil_or_concat init).resolve_left hinit
    rw [List.concat_eq_append] at *
    obtain ⟨u, hinit', hbu, -⟩ := hlive.chain.split
    obtain ⟨v, -, hev, heu⟩ := hinit'.split
    have he : e ∈ init ++ [e] ++ [b] := by simp
    have heb : e.slot.after e.frame = b.slot := by rw [hev, hbu]; exact heu
    have hpe : e.frame.IsPageEnd := by
      by_contra hdata'
      have hstride := e.frame.stride_pos
      have hgrid : 64 ≤ e.slot.offset := (hlive.entry_grid he).2
      rw [← heb, Slot.after_data hdata'] at h64
      have : e.slot.offset + e.frame.stride = 64 := h64
      omega
    have hpages : e.slot.page + 1 = b.slot.page := by rw [← heb, Slot.after_pageEnd hpe]
    have hfirst := hlive.entry_first_le he
    have hlaste : lastOn (init ++ [e] ++ [b]) e.slot.page = e.slot.offset := by
      rw [lastOn_concat, if_neg (by omega), lastOn_concat, if_pos rfl]
    have hw : Written d e.slot.page :=
      (hlive.written_iff hl hfirst (by omega)).mpr (by rw [hlaste]; exact hends e he hpe)
    have heq : Revoq.lastWritten d = e.slot.page := by
      refine lastWritten_eq hw fun q hq => ?_
      rcases Nat.lt_or_ge tail.page q with hlt | hge
      · exact habove q hlt
      · obtain rfl : q = tail.page := by omega
        exact fun hw => hoff (hwb.mp hw)
    rw [heq]
    refine ⟨?_, hfirst⟩
    rw [hpages, ← h64]

end

/-! ## Sessions one after the other -/

/-- **A session that has ended**, with two writes or more. -/
structure Finished (P : PageSize) (d : Disk) (j : Job) (s : World × Local)
    (tail : Slot) : Prop where
  live : Live P (ctxOf P d) s.1.disk s.1.log tail
  lasts : Lasts (ctxOf P d) s.1.log tail.page s.1.disk
  begins : ∃ e₀ e₁ rest, BeginsWith (ctxOf P d) s.1.log e₀ e₁ rest
  ends : ∃ init b, EndsWith s.1.log tail init b
  sentinels : ∀ e ∈ s.1.log, e.frame.IsPageEnd →
    pageHeaderSize < e.slot.offset ∧ ∃ w ∈ j.writes, e.frame.genTime = w.now
  stamped : ∀ e w, s.1.log.head? = some e → j.writes.head? = some w → e.frame.genTime = w.timestamp
  mapped : Mapped P s.1.disk

/-- Sessions on one journal, from the directory `d` to `d'`, each destructed after its
writes; `logs` has what each of them committed. -/
inductive Sessions (P : PageSize) : Disk → List Job → List (List Entry) → Disk → Prop where
  | nil {d : Disk} : Sessions P d [] [] d
  | cons {d d' : Disk} {j : Job} {js : List Job} {logs : List (List Entry)} {s : World × Local}
      (h : j.Reaches P d ([], s)) (rest : Sessions P s.1.disk js logs d') :
      Sessions P d (j :: js) (s.1.log :: logs) d'

section
variable {P : PageSize} {d d' : Disk} {j : Job} {js : List Job} {logs : List (List Entry)}
variable {s : World × Local} {tail : Slot}

theorem Job.Reaches.finished (hmap : Mapped P d) (hj : j.Ok P) (htwo : 2 ≤ j.writes.length)
    (h : j.Reaches P d ([], s)) : ∃ tail, Finished P d j s tail := by
  have hat := h.at hmap hj
  obtain ⟨thread, tail, hlog, hi⟩ := hat.ended
  have hlive := hi.state.live
  have hchain : Chained ⟨lastWritten d + 1, pageHeaderSize⟩ (j.plan P d thread) tail :=
    hlog ▸ hlive.chain
  obtain ⟨e₀, e₁, rest, hbegin⟩ := Job.beginsWith hj htwo hchain
  refine ⟨tail, hlive, hi.state.extra.lasts, ?_, ?_, ?_, ?_, hat.mapped hmap⟩
  · rw [hlog]
    exact ⟨e₀, e₁, rest, hbegin⟩
  · rw [hlog]
    exact Job.endsWith hj (fun hnil => by rw [hnil] at htwo; cases htwo) hchain
  · intro e he hp
    rw [hlog] at he
    obtain ⟨hoff, r, hr, htime⟩ := pageEnd_mem (hj.requests thread) he hp
    obtain ⟨w, hw, rfl⟩ := List.mem_map.mp hr
    exact ⟨hoff, w, hw, htime⟩
  · intro e w he hw
    have hhead := hlog ▸ he
    refine Job.plan_head hhead ?_ hw
    rw [hbegin.log] at hhead
    cases hhead
    exact hbegin.data

/-- The first page of a session counts as written once it has ended. -/
theorem Finished.lastWritten_lt (h : Finished P d j s tail) :
    lastWritten d < lastWritten s.1.disk := by
  obtain ⟨e₀, e₁, rest, hbegin⟩ := h.begins
  have hw := (h.live.written_iff h.lasts (Nat.le_refl _) h.live.first_le).mpr
    (hbegin.lastOn_first h.live.chain)
  exact Nat.lt_of_not_le fun hle => not_written_of_lt (Nat.lt_succ_of_le hle) hw

/-- **Later sessions keep the pages up to the last written one.** -/
theorem Sessions.kept (h : Sessions P d js logs d') (hmap : Mapped P d)
    (hjs : ∀ j ∈ js, j.Ok P ∧ 2 ≤ j.writes.length) {p : Nat} (hp : p ≤ lastWritten d) :
    d.SameFile d' p := by
  induction h with
  | nil => exact .refl _ p
  | @cons d d' j js logs s hreach rest ih =>
    obtain ⟨hj, htwo⟩ := hjs j List.mem_cons_self
    obtain ⟨tail, hfin⟩ := hreach.finished hmap hj htwo
    have hlt := hfin.lastWritten_lt
    exact ((hreach.at hmap hj).kept hp).trans
      (ih hfin.mapped (fun x hx => hjs x (List.mem_cons_of_mem _ hx)) (by omega))

/-- Frames that stand on pages two directories share. -/
theorem Walk.of_same {u t : Slot} {es : List Entry} (h : Walk P d u es t)
    (hsame : ∀ p, p ≤ t.page → d.SameFile d' p) : Walk P d' u es t := by
  refine ⟨h.chain, fun e he => ?_, h.placed, fun p h1 h2 => (h.used p h1 h2).of_same (hsame p h2)⟩
  have hpage : e.slot.page ≤ t.page := by
    rcases h.chain.before he with hlt | ⟨heq, -⟩
    · exact Nat.le_of_lt hlt
    · exact Nat.le_of_eq heq
  rw [(hsame _ hpage).2]
  exact h.frames e he

theorem Live.walk {C : Ctx} {log : List Entry} (h : Live P C d log tail) :
    Walk P d ⟨C.first, pageHeaderSize⟩ log tail :=
  ⟨h.chain, h.frames, h.placed, fun _ h1 h2 => h.inUse h1 h2⟩

theorem Walk.append {u v t : Slot} {es es' : List Entry} (h : Walk P d u es v)
    (h' : Walk P d v es' t) :
    Walk P d u (es ++ es') t := by
  refine ⟨h.chain.append h'.chain, fun e he => ?_, fun e he => ?_, fun p h1 h2 => ?_⟩
  · exact (List.mem_append.mp he).elim (h.frames e) (h'.frames e)
  · exact (List.mem_append.mp he).elim (h.placed e) (h'.placed e)
  · rcases Nat.le_total p v.page with hle | hge
    · exact h.used p h1 hle
    · exact h'.used p hge h2

/-! ## What a reader finds -/

/-- A reader that joins from time 0 and drains delivers these frames. -/
def Delivers (P : PageSize) (prefault : Bool) (d : Disk) (fs : List Frame) : Prop :=
  ∃ fuel fuel' d' r, Reader.join P fuel prefault 0 d = .ok (d', r) ∧ r.drain P fuel' d' = .ok fs

/-- A reader delivers what was committed, all of it and in the order of its sequence
numbers. -/
structure ReadsBack (P : PageSize) (prefault : Bool) (d : Disk) (es : List Entry) : Prop where
  delivers : Delivers P prefault d (es.map Entry.frame)
  inOrder : ∀ i e, es[i]? = some e → e.frame.sequence = UInt64.ofNat i

/-- The end of a page is not from before time 0, unless the page has room left. -/
theorem Finished.not_skipped (h : Finished P .empty j s tail) (hnow : ∀ w ∈ j.writes, 0 ≤ w.now) :
    ¬ (Page.isFull (s.1.disk.image 1) ∧ Page.endTime (s.1.disk.image 1) < 0) := by
  obtain ⟨e₀, e₁, rest, hbegin⟩ := h.begins
  have hon : onPage s.1.log 1 ≠ [] := by
    refine List.ne_nil_of_mem (a := e₀) (List.mem_filter.mpr ⟨by rw [hbegin.log]; simp, ?_⟩)
    rw [hbegin.first]
    rfl
  have hl : lastFramePosition (s.1.disk.image 1) = lastOn s.1.log 1 :=
    h.lasts 1 (Nat.le_refl 1) h.live.first_le
  obtain ⟨x, hx, hslot⟩ := lastOn_mem hon
  have hf := h.live.frames x hx
  have hw := h.live.placed x hx
  rw [hslot] at hf
  rintro ⟨hfull, htime⟩
  by_cases hp : x.frame.IsPageEnd
  · obtain ⟨-, w, hw, hgen⟩ := h.sentinels x hx hp
    rw [Page.endTime, hl] at htime
    split at htime
    · exact absurd htime (by decide)
    · rw [hf.header] at htime
      have hgen' : x.frame.toFrameHeader.genTime = w.now := hgen
      rw [hgen'] at htime
      exact Int64.not_lt.mpr (hnow w hw) htime
  · have hroom := hw.data hp
    rw [hslot] at hroom
    have hsize : PageField.pageSize.get (s.1.disk.image 1) 0 = P.bytes :=
      (h.live.ready 1 (Nat.le_refl 1) h.live.first_le).header.pageSize
    rw [Page.isFull, hl, hf.length, hw.stride_eq, Page.addressBorder, hsize,
      decide_eq_true_eq] at hfull
    have : lastOn s.1.log 1 + x.frame.stride > P.bytes - 64 := hfull
    have : lastOn s.1.log 1 + x.frame.stride + 64 ≤ P.bytes := hroom
    omega

/-- **`join` finds the first session**, whatever came after it. -/
theorem Finished.join (h : Finished P .empty j s tail) (hnow : ∀ w ∈ j.writes, 0 ≤ w.now)
    (htime : ∀ e, s.1.log.head? = some e → 0 ≤ e.frame.genTime) (h0 : d'.size 0 = none)
    (hsame : s.1.disk.SameFile d' 1) (fuel : Nat) (prefault : Bool) :
    ∃ r, Reader.join P (fuel + 1) prefault 0 d' = .ok (d', r) ∧ r.At ⟨1, pageHeaderSize⟩ := by
  have hu : InUse P d' 1 := (h.live.inUse (Nat.le_refl 1) h.live.first_le).of_same hsame
  obtain ⟨size, hs, -⟩ := hu.ready.size
  obtain ⟨e₀, e₁, rest, hbegin⟩ := h.begins
  have hf : FrameAt (s.1.disk.image 1) pageHeaderSize e₀.frame := by
    have := h.live.frames e₀ (by rw [hbegin.log]; simp)
    rwa [hbegin.first] at this
  refine Reader.join_first hu (Disk.head_listPageId h0 (by rw [hs]; rfl)) ?_
    (Or.inr ?_) fuel prefault
  · rw [hsame.2]
    exact h.not_skipped hnow
  · rw [hsame.2, hf.header]
    exact Int64.not_lt.mpr (htime e₀ (by rw [hbegin.log]; rfl))

/-- One session is read back. -/
theorem Finished.readsBack (h : Finished P .empty j s tail) (hnow : ∀ w ∈ j.writes, 0 ≤ w.now)
    (htime : ∀ e, s.1.log.head? = some e → 0 ≤ e.frame.genTime) (prefault : Bool) :
    ReadsBack P prefault s.1.disk s.1.log := by
  have hread := h.live.readable fun _ _ => wordsZero_blank P
  obtain ⟨r, hj, hr⟩ :=
    h.join hnow htime (h.live.below 0 (show 0 < 1 by decide)).1 (.refl _ 1) 0 prefault
  refine ⟨⟨1, s.1.log.length + 1, _, r, hj, hread.drain hr (Nat.lt_succ_self _)⟩, fun i e he => ?_⟩
  have := h.live.sequence i e he
  rwa [ctxOf_empty, UInt64.zero_add] at this

/-- The frames before the last one, when that one stands alone on its page. -/
theorem Finished.walk_init (h : Finished P d j s tail) {init : List Entry} {b : Entry}
    (hend : EndsWith s.1.log tail init b) (hb : b.slot = ⟨lastWritten s.1.disk + 1, pageHeaderSize⟩)
    (hkept : ∀ p, p ≤ lastWritten s.1.disk → s.1.disk.SameFile d' p)
    (hused : InUse P d' (lastWritten s.1.disk + 1)) :
    Walk P d' ⟨lastWritten d + 1, pageHeaderSize⟩ init
      ⟨lastWritten s.1.disk + 1, pageHeaderSize⟩ := by
  have hmem : ∀ e ∈ init, e ∈ s.1.log := fun e he => by rw [hend.log]; simp [he]
  have hchain := h.live.chain
  rw [hend.log] at hchain
  obtain ⟨u, hchain, hbu, -⟩ := hchain.split
  rw [← hbu, hb] at hchain
  refine ⟨hchain, fun e he => ?_, fun e he => h.live.placed e (hmem e he), fun p h1 h2 => ?_⟩
  · have hpage : e.slot.page ≤ lastWritten s.1.disk := by
      have hstride := e.frame.stride_pos
      have hgrid := (h.live.entry_grid (hmem e he)).2
      rcases hchain.before he with hlt | ⟨-, hle⟩
      · exact Nat.le_of_lt_succ hlt
      · have : e.slot.offset + e.frame.stride ≤ 64 := hle
        omega
    rw [(hkept _ hpage).2]
    exact h.live.frames e (hmem e he)
  · rcases Nat.lt_or_ge (lastWritten s.1.disk) p with hgt | hle
    · obtain rfl : p = lastWritten s.1.disk + 1 := Nat.le_antisymm h2 hgt
      exact hused
    · refine (h.live.inUse h1 ?_).of_same (hkept p hle)
      have htail := h.live.entry_page_le (e := b) (by rw [hend.log]; simp)
      rw [hb] at htail
      exact Nat.le_trans hle (Nat.le_of_succ_le htail)

/-- The first frame of a session, up to the second one. -/
theorem Finished.walk_first (h : Finished P d j s tail) {f₀ f₁ : Entry} {rest : List Entry}
    (hbegin : BeginsWith (ctxOf P d) s.1.log f₀ f₁ rest)
    (hsame : s.1.disk.SameFile d' (lastWritten d + 1)) :
    Walk P d' ⟨lastWritten d + 1, pageHeaderSize⟩ [f₀] f₁.slot ∧
      FrameAt (d'.image f₁.slot.page) f₁.slot.offset f₁.frame ∧ f₁.WellPlaced P := by
  have hframe : ∀ e, e ∈ s.1.log → e.slot.page = lastWritten d + 1 →
      FrameAt (d'.image e.slot.page) e.slot.offset e.frame ∧ e.WellPlaced P := by
    intro e he hpage
    rw [hpage, hsame.2, ← hpage]
    exact ⟨h.live.frames e he, h.live.placed e he⟩
  have hf₀ := hframe f₀ (by rw [hbegin.log]; simp) (by rw [hbegin.first]; rfl)
  have hf₁ := hframe f₁ (by rw [hbegin.log]; simp) (by rw [hbegin.second]; rfl)
  refine ⟨⟨⟨hbegin.first, ?_⟩, fun e he => ?_, fun e he => ?_, fun p h1 h2 => ?_⟩, hf₁⟩
  · rw [Slot.after_data hbegin.data, hbegin.second]
    rfl
  · rw [List.mem_singleton.mp he]
    exact hf₀.1
  · rw [List.mem_singleton.mp he]
    exact hf₀.2
  · rw [hbegin.second] at h2
    obtain rfl : p = lastWritten d + 1 := Nat.le_antisymm h2 h1
    exact (h.live.inUse (Nat.le_refl _) h.live.first_le).of_same hsame

/-- **With a second session, a drain does not deliver everything.** -/
theorem Finished.not_delivers (h : Finished P .empty j s tail) {j₂ : Job}
    {s₂ : World × Local} {tail₂ : Slot} (h₂ : Finished P s.1.disk j₂ s₂ tail₂)
    (hkept : ∀ p, p ≤ lastWritten s.1.disk → s.1.disk.SameFile d' p)
    (hkept₂ : ∀ p, p ≤ lastWritten s₂.1.disk → s₂.1.disk.SameFile d' p) {r : Reader} {fuel : Nat}
    (hr : r.At ⟨1, pageHeaderSize⟩) {logs : List (List Entry)}
    (hd : r.drain P fuel d' = .ok ((s.1.log ++ (s₂.1.log ++ logs.flatten)).map Entry.frame)) :
    False := by
  obtain ⟨f₀, f₁, rest₂, hbegin₂⟩ := h₂.begins
  obtain ⟨init, b, hend⟩ := h.ends
  obtain ⟨e₀, e₁, rest, hbegin⟩ := h.begins
  have hinit : init ≠ [] := by
    rintro rfl
    have := hend.log.symm.trans hbegin.log
    cases this
  rcases hend.lastWritten h.live h.lasts hinit fun e he hp => (h.sentinels e he hp).1
    with hA | ⟨hb, -⟩
  · -- the second session starts behind the tail, where the reader stops
    have hwalk := h.live.walk.of_same fun p hp => hkept p (hA ▸ hp)
    obtain ⟨fuel', r', rest', hr', hd', hlist⟩ := hwalk.drain hr hd
    have hstop : getFrameLength (d'.image tail.page) tail.offset = 0 := by
      rw [(hkept tail.page (Nat.le_of_eq hA.symm)).2]
      exact h.live.tail_zero fun _ _ => wordsZero_blank P
    rw [hr'.drain_nil hstop hd', List.append_nil, List.map_append] at hlist
    have hnil := List.append_right_eq_self.mp hlist
    rw [hbegin₂.log] at hnil
    cases hnil
  · -- it starts where the last frame of the first one was
    obtain ⟨hwalk₂, hf₁, hw₁⟩ :=
      h₂.walk_first hbegin₂ (hkept₂ _ (Nat.succ_le_of_lt h₂.lastWritten_lt))
    have hwalk :=
      (h.walk_init hend hb hkept (hwalk₂.used _ (Nat.le_refl _) hwalk₂.chain.page_le)).append hwalk₂
    obtain ⟨fuel', r', rest', hr', hd', hlist⟩ := hwalk.drain hr hd
    obtain ⟨-, -, -, rest'', -, -, rfl⟩ := hr'.drain_frame hf₁ hw₁ hd'
    -- so its second frame would be its first one
    rw [hend.log, hbegin₂.log] at hlist
    simp only [List.map_append, List.map_cons, List.map_nil, List.append_assoc, List.cons_append,
      List.nil_append, List.append_cancel_left_eq, List.cons.injEq] at hlist
    have hseq₀ := h₂.live.sequence 0 f₀ (by rw [hbegin₂.log]; rfl)
    have hseq₁ := h₂.live.sequence 1 f₁ (by rw [hbegin₂.log]; rfl)
    rw [← hlist.2.1, hseq₀] at hseq₁
    have := (UInt64.add_right_inj _).mp hseq₁
    cases this

/-- The first frame of a session is from the time of its first write. -/
theorem Finished.first_time (h : Finished P d j s tail) (htwo : 2 ≤ j.writes.length) :
    ∃ e rest w, s.1.log = e :: rest ∧ j.writes.head? = some w ∧ e.frame.genTime = w.timestamp := by
  obtain ⟨e₀, e₁, rest, hbegin⟩ := h.begins
  cases hws : j.writes with
  | nil => rw [hws] at htwo; cases htwo
  | cons w ws =>
    refine ⟨e₀, e₁ :: rest, w, hbegin.log, rfl, h.stamped e₀ w (by rw [hbegin.log]; rfl)
      (by rw [hws]; rfl)⟩

/-- What was read back was written in one session. -/
theorem Sessions.single (h : Sessions P .empty js logs d) (hne : js ≠ [])
    (hjs : ∀ j ∈ js, j.Ok P ∧ 2 ≤ j.writes.length) (hnow : ∀ j ∈ js, ∀ w ∈ j.writes, 0 ≤ w.now)
    {prefault : Bool} (hread : ReadsBack P prefault d logs.flatten) :
    ∃ j, js = [j] ∧ ∀ w, j.writes.head? = some w → 0 ≤ w.timestamp := by
  have hzero := h.kept (mapped_empty P) hjs (p := 0) (Nat.zero_le _)
  obtain ⟨fuel, fuel', d', r, hjoin, hdrain⟩ := hread.delivers
  cases h with
  | nil => exact absurd rfl hne
  | @cons _ _ j js logs s hreach rest =>
    obtain ⟨hj, htwo⟩ := hjs j List.mem_cons_self
    obtain ⟨tail, hfin⟩ := hreach.finished (mapped_empty P) hj htwo
    obtain ⟨e₀, rest₀, w₀, hlog, hw₀, hstamp⟩ := hfin.first_time htwo
    have htime : 0 ≤ e₀.frame.genTime := by
      rw [List.flatten_cons, hlog] at hdrain
      exact Int64.not_lt.mp (Reader.join_drain_time hjoin hdrain)
    refine ⟨j, ?_, fun w hw => by rw [hw₀] at hw; cases hw; exact hstamp ▸ htime⟩
    cases rest with
    | nil => rfl
    | @cons _ _ j₂ js logs s₂ hreach₂ rest =>
      exfalso
      have hrest : ∀ x ∈ j₂ :: js, x.Ok P ∧ 2 ≤ x.writes.length :=
        fun x hx => hjs x (List.mem_cons_of_mem _ hx)
      obtain ⟨hj₂, htwo₂⟩ := hrest j₂ List.mem_cons_self
      obtain ⟨tail₂, hfin₂⟩ := hreach₂.finished hfin.mapped hj₂ htwo₂
      have hkept : ∀ p, p ≤ lastWritten s.1.disk → s.1.disk.SameFile d p :=
        fun _ => (Sessions.cons hreach₂ rest).kept hfin.mapped hrest
      have hlt : 0 < lastWritten s.1.disk := Nat.lt_of_le_of_lt (Nat.zero_le _) hfin.lastWritten_lt
      cases fuel with
      | zero => exact absurd hjoin Reader.join_zero
      | succ fuel =>
        obtain ⟨r', hjoin', hr'⟩ := hfin.join (hnow j List.mem_cons_self)
          (fun e he => by rw [hlog] at he; cases he; exact htime) hzero.1
          (hkept 1 hlt) fuel prefault
        cases hjoin.symm.trans hjoin'
        exact hfin.not_delivers hfin₂ hkept
          (fun _ => rest.kept hfin₂.mapped fun x hx => hrest x (List.mem_cons_of_mem _ hx)) hr'
          hdrain

/-- What was written in one session is read back. -/
theorem Sessions.readsBack {j : Job} (h : Sessions P .empty [j] logs d) (hj : j.Ok P)
    (htwo : 2 ≤ j.writes.length) (hnow : ∀ w ∈ j.writes, 0 ≤ w.now)
    (htime : ∀ w, j.writes.head? = some w → 0 ≤ w.timestamp) (prefault : Bool) :
    ReadsBack P prefault d logs.flatten := by
  cases h with
  | cons hreach rest =>
    cases rest
    obtain ⟨tail, hfin⟩ := hreach.finished (mapped_empty P) hj htwo
    obtain ⟨e₀, rest₀, w₀, hlog, hw₀, hstamp⟩ := hfin.first_time htwo
    rw [List.flatten_cons, List.flatten_nil, List.append_nil]
    refine hfin.readsBack hnow (fun e he => ?_) prefault
    rw [hlog] at he
    cases he
    exact hstamp ▸ htime w₀ hw₀

end

/-- **Reading across restarts.**  When every session makes two writes or more and ends
by destruction, a reader that joins from time 0 delivers all that was committed
exactly if there was one session, and its first frame is not from before time 0. -/
theorem read_across_restarts (P : PageSize) (prefault : Bool) (js : List Job)
    (logs : List (List Entry)) (d : Disk) (hne : js ≠ [])
    (hjs : ∀ j ∈ js, j.Ok P ∧ 2 ≤ j.writes.length) (hnow : ∀ j ∈ js, ∀ w ∈ j.writes, 0 ≤ w.now)
    (h : Sessions P .empty js logs d) :
    ReadsBack P prefault d logs.flatten ↔
      ∃ j, js = [j] ∧ ∀ w, j.writes.head? = some w → 0 ≤ w.timestamp := by
  constructor
  · exact h.single hne hjs hnow
  · rintro ⟨j, rfl, htime⟩
    obtain ⟨hj, htwo⟩ := hjs j List.mem_cons_self
    exact h.readsBack hj htwo (hnow j List.mem_cons_self) htime prefault

/-- Any number of sessions with two writes can follow one another. -/
theorem twoWrites_sessions (n : Nat) {d : Disk} (hmap : Mapped pageSizeDefault d) :
    ∃ logs d', Sessions pageSizeDefault d (List.replicate n twoWrites) logs d' := by
  induction n generalizing d with
  | zero => exact ⟨[], d, .nil⟩
  | succ n ih =>
    have hok : twoWrites.Ok pageSizeDefault := by decide
    obtain ⟨s, hs⟩ := Job.returns hmap hok (Or.inl rfl)
    obtain ⟨logs, d', h⟩ := ih ((hs.at hmap hok).mapped hmap)
    exact ⟨_, d', .cons hs h⟩

/-- One session is read back. -/
theorem read_across_restarts_one :
    ∃ logs d, Sessions pageSizeDefault .empty [twoWrites] logs d ∧
      ReadsBack pageSizeDefault true d logs.flatten := by
  obtain ⟨logs, d, h⟩ := twoWrites_sessions 1 (mapped_empty _)
  refine ⟨logs, d, h, (read_across_restarts _ true [twoWrites] logs d (by simp) ?_ ?_ h).mpr
    ⟨twoWrites, rfl, ?_⟩⟩
  · decide
  · decide
  · decide

/-- Two sessions are not: the reader never sees the frames of the second one. -/
theorem restart_not_read :
    ∃ logs d, Sessions pageSizeDefault .empty [twoWrites, twoWrites] logs d ∧
      ¬ ReadsBack pageSizeDefault true d logs.flatten := by
  obtain ⟨logs, d, h⟩ := twoWrites_sessions 2 (mapped_empty _)
  refine ⟨logs, d, h, fun hread => ?_⟩
  obtain ⟨j, hj, -⟩ := h.single (by simp) (by decide) (by decide) hread
  cases hj

end Revoq
