import Mathlib.Data.List.Induction
import Revoq.Writer

/-! # Where frames go

The abstract journal.  Frames follow one another from a first slot on: after a
data frame the next one starts where its stride ends, after a sentinel it starts
at the beginning of the next page (`Slot.after`, `Chained`).  A request is placed
at the tail if its stride leaves room for a sentinel, else a sentinel closes the
page and the request opens the next one (`place`, `layOut`).

This is what the writer is for; `Session` shows that its statements realise it.
-/
namespace Revoq

/-- The slot after a frame. -/
def Slot.after (s : Slot) (f : Frame) : Slot :=
  if f.IsPageEnd then ⟨s.page + 1, pageHeaderSize⟩ else ⟨s.page, s.offset + f.stride⟩

theorem Slot.after_pageEnd {s : Slot} {f : Frame} (h : f.IsPageEnd) :
    s.after f = ⟨s.page + 1, pageHeaderSize⟩ := if_pos h

theorem Slot.after_data {s : Slot} {f : Frame} (h : ¬ f.IsPageEnd) :
    s.after f = ⟨s.page, s.offset + f.stride⟩ := if_neg h

/-- The entries lead from the first slot to the second, without a gap. -/
def Chained : Slot → List Entry → Slot → Prop
  | s, [], t => s = t
  | s, e :: es, t => e.slot = s ∧ Chained (s.after e.frame) es t

namespace Chained
variable {s t u : Slot} {es es' : List Entry} {e : Entry}

theorem append (h : Chained s es t) (h' : Chained t es' u) : Chained s (es ++ es') u := by
  induction es generalizing s with
  | nil => exact (show s = t from h) ▸ h'
  | cons e es ih => exact ⟨h.1, ih h.2⟩

theorem split (h : Chained s (es ++ es') u) : ∃ t, Chained s es t ∧ Chained t es' u := by
  induction es generalizing s with
  | nil => exact ⟨s, rfl, h⟩
  | cons e es ih =>
    obtain ⟨t, h1, h2⟩ := ih h.2
    exact ⟨t, ⟨h.1, h1⟩, h2⟩

theorem concat (h : Chained s es t) (f : Frame) (i : Nat) :
    Chained s (es ++ [⟨t, f, i⟩]) (t.after f) := h.append ⟨rfl, rfl⟩

/-- Slots come one after the other: an entry ends before the end of the chain. -/
theorem before (h : Chained s es t) (he : e ∈ es) :
    e.slot.page < t.page ∨ e.slot.page = t.page ∧ e.slot.offset + e.frame.stride ≤ t.offset := by
  induction es using List.reverseRecOn generalizing t with
  | nil => cases he
  | append_singleton es x ih =>
    obtain ⟨u, h1, hx, (ht : u.after x.frame = t)⟩ := h.split
    have hlast : x.slot.page < t.page ∨
        x.slot.page = t.page ∧ x.slot.offset + x.frame.stride ≤ t.offset := by
      rw [← ht, hx]
      by_cases hp : x.frame.IsPageEnd
      · rw [Slot.after_pageEnd hp]
        exact Or.inl (Nat.lt_succ_self _)
      · rw [Slot.after_data hp]
        exact Or.inr ⟨rfl, Nat.le_refl _⟩
    rcases List.mem_append.mp he with he | he
    · rcases ih h1 he with hlt | ⟨heq, hle⟩
      · left
        rw [← hx] at hlt
        omega
      · rw [← hx] at heq hle
        rcases hlast with hlt | ⟨heq', hle'⟩
        · left; omega
        · right
          refine ⟨heq.trans heq', ?_⟩
          omega
    · rw [List.mem_singleton.mp he]
      exact hlast

/-- No entry is before the start of its chain. -/
theorem after_start (h : Chained s es t) (he : e ∈ es) :
    s.page < e.slot.page ∨ s.page = e.slot.page ∧ s.offset ≤ e.slot.offset := by
  induction es generalizing s with
  | nil => cases he
  | cons x es ih =>
    obtain ⟨hx, htail⟩ := h
    rcases List.mem_cons.mp he with rfl | he
    · exact Or.inr ⟨by rw [hx], by rw [hx]⟩
    · have := ih htail he
      by_cases hp : x.frame.IsPageEnd
      · rw [Slot.after_pageEnd hp] at this
        left
        simp only at this
        omega
      · rw [Slot.after_data hp] at this
        simp only at this
        omega

/-- A chain that starts on the frame grid stays on it. -/
theorem on_grid (h : Chained s es t) (hs : 64 ∣ s.offset) (hs' : 64 ≤ s.offset) :
    64 ∣ t.offset ∧ 64 ≤ t.offset ∧ ∀ e ∈ es, 64 ∣ e.slot.offset ∧ 64 ≤ e.slot.offset := by
  induction es generalizing s with
  | nil => exact (show s = t from h) ▸ ⟨hs, hs', fun _ he => by cases he⟩
  | cons x es ih =>
    obtain ⟨hx, htail⟩ := h
    have hnext : 64 ∣ (s.after x.frame).offset ∧ 64 ≤ (s.after x.frame).offset := by
      by_cases hp : x.frame.IsPageEnd
      · rw [Slot.after_pageEnd hp]
        exact ⟨Nat.dvd_refl 64, Nat.le_refl 64⟩
      · rw [Slot.after_data hp]
        exact ⟨Nat.dvd_add hs x.frame.stride_dvd, Nat.le_trans hs' (Nat.le_add_right ..)⟩
    obtain ⟨h1, h2, h3⟩ := ih htail hnext.1 hnext.2
    refine ⟨h1, h2, fun e he => ?_⟩
    rcases List.mem_cons.mp he with rfl | he
    · rw [hx]; exact ⟨hs, hs'⟩
    · exact h3 e he

theorem page_le (h : Chained s es t) : s.page ≤ t.page := by
  induction es generalizing s with
  | nil => exact (show s = t from h) ▸ Nat.le_refl _
  | cons x es ih =>
    refine Nat.le_trans ?_ (ih h.2)
    by_cases hp : x.frame.IsPageEnd
    · rw [Slot.after_pageEnd hp]; exact Nat.le_succ _
    · rw [Slot.after_data hp]

end Chained

/-! ## One page of a chain -/

/-- The entries on page `p`. -/
def onPage (es : List Entry) (p : Nat) : List Entry := es.filter fun e => e.slot.page = p

/-- Offsets on one page follow one another from `o` to `o'`. -/
def Abut : Nat → List Entry → Nat → Prop
  | o, [], o' => o = o'
  | o, e :: es, o' => e.slot.offset = o ∧ Abut (o + e.frame.stride) es o'

theorem Abut.getElem {o o' : Nat} {es : List Entry} (h : Abut o es o') {i : Nat} {e e' : Entry}
    (he : es[i]? = some e) (he' : es[i + 1]? = some e') :
    e'.slot.offset = e.slot.offset + e.frame.stride := by
  induction es generalizing o i with
  | nil => cases he
  | cons x es ih =>
    obtain ⟨hx, htail⟩ := h
    cases i with
    | zero =>
      cases he
      cases es with
      | nil => cases he'
      | cons y es =>
        cases he'
        rw [hx]
        exact htail.1
    | succ i => exact ih htail he he'

theorem Abut.head {o o' : Nat} {e : Entry} {es : List Entry} (h : Abut o es o')
    (he : es.head? = some e) : e.slot.offset = o := by
  cases es with
  | nil => cases he
  | cons x es =>
    cases he
    exact h.1

namespace Chained
variable {s t : Slot} {es : List Entry} {p : Nat}

/-- Where a chain from `s` starts on page `p`. -/
def startOn (s : Slot) (p : Nat) : Nat := if p = s.page then s.offset else pageHeaderSize

theorem onPage_eq_nil (h : Chained s es t) (hp : p < s.page) : onPage es p = [] := by
  rw [onPage, List.filter_eq_nil_iff]
  intro e he
  have := h.after_start he
  simp only [decide_eq_true_eq]
  omega

theorem startOn_after_data {f : Frame} (hf : ¬ f.IsPageEnd) (hp : p ≠ s.page) :
    startOn (s.after f) p = startOn s p := by
  rw [Slot.after_data hf, startOn, startOn, if_neg hp, if_neg hp]

theorem startOn_after_pageEnd {f : Frame} (hf : f.IsPageEnd) (hp : p ≠ s.page) :
    startOn (s.after f) p = startOn s p := by
  rw [Slot.after_pageEnd hf, startOn, startOn, if_neg hp]
  split <;> rfl

/-- **The last page of a chain**: entries abut up to the tail, and none is a
sentinel. -/
theorem onPage_tail (h : Chained s es t) :
    Abut (startOn s t.page) (onPage es t.page) t.offset ∧
      ∀ e ∈ onPage es t.page, ¬ e.frame.IsPageEnd := by
  induction es generalizing s with
  | nil =>
    obtain rfl : s = t := h
    exact ⟨by simp [startOn, onPage, Abut], fun e he => by cases he⟩
  | cons x es ih =>
    obtain ⟨hx, htail⟩ := h
    obtain ⟨ih1, ih2⟩ := ih htail
    by_cases hp : t.page = s.page
    · have hdata : ¬ x.frame.IsPageEnd := by
        intro hpe
        rw [Slot.after_pageEnd hpe] at htail
        have := htail.page_le
        simp only at this
        omega
      have hmem : onPage (x :: es) t.page = x :: onPage es t.page := by
        rw [onPage, List.filter_cons_of_pos (by rw [hx]; simpa using hp.symm)]
        rfl
      rw [hmem]
      refine ⟨⟨by rw [hx, startOn, if_pos hp], ?_⟩, fun e he => ?_⟩
      · rw [Slot.after_data hdata, startOn, if_pos hp] at ih1
        rwa [startOn, if_pos hp]
      · rcases List.mem_cons.mp he with rfl | he
        · exact hdata
        · exact ih2 e he
    · have hmem : onPage (x :: es) t.page = onPage es t.page := by
        rw [onPage, List.filter_cons_of_neg (by rw [hx]; simpa using Ne.symm hp)]
        rfl
      rw [hmem]
      refine ⟨?_, ih2⟩
      by_cases hpe : x.frame.IsPageEnd
      · rwa [startOn_after_pageEnd hpe hp] at ih1
      · rwa [startOn_after_data hpe hp] at ih1

/-- **A page before the last one of a chain**: entries abut, and the last one is its
only sentinel. -/
theorem onPage_closed (h : Chained s es t) (h1 : s.page ≤ p) (h2 : p < t.page) :
    ∃ init e o, onPage es p = init ++ [e] ∧ e.frame.IsPageEnd ∧ (∀ x ∈ init, ¬ x.frame.IsPageEnd) ∧
      Abut (startOn s p) (init ++ [e]) o := by
  induction es generalizing s with
  | nil =>
    obtain rfl : s = t := h
    omega
  | cons x es ih =>
    obtain ⟨hx, htail⟩ := h
    by_cases hp : p = s.page
    · have hmem : onPage (x :: es) p = x :: onPage es p := by
        rw [onPage, List.filter_cons_of_pos (by rw [hx]; simpa using hp.symm)]
        rfl
      -- the sentinel closes the page, and what follows lies on later ones
      by_cases hpe : x.frame.IsPageEnd
      · rw [Slot.after_pageEnd hpe] at htail
        have hlater : onPage es p = [] := htail.onPage_eq_nil (by simp only; omega)
        refine ⟨[], x, _, by rw [hmem, hlater]; rfl, hpe, (fun y hy => ?_), ?_, rfl⟩
        · cases hy
        · rw [hx, startOn, if_pos hp]
      · have hsame : (s.after x.frame).page = s.page := by rw [Slot.after_data hpe]
        obtain ⟨init, e, o, he, hend, hinit, habut⟩ := ih htail (by omega)
        refine ⟨x :: init, e, o, by rw [hmem, he]; rfl, hend, fun y hy => ?_, ?_, ?_⟩
        · rcases List.mem_cons.mp hy with rfl | hy
          · exact hpe
          · exact hinit y hy
        · rw [hx, startOn, if_pos hp]
        · rw [Slot.after_data hpe, startOn, if_pos hp] at habut
          rwa [startOn, if_pos hp]
    · have hmem : onPage (x :: es) p = onPage es p := by
        rw [onPage, List.filter_cons_of_neg (by rw [hx]; simpa using Ne.symm hp)]
        rfl
      have hle : (s.after x.frame).page ≤ p := by
        by_cases hpe : x.frame.IsPageEnd
        · rw [Slot.after_pageEnd hpe]
          show s.page + 1 ≤ p
          omega
        · rw [Slot.after_data hpe]
          exact h1
      obtain ⟨init, e, o, he, hend, hinit, habut⟩ := ih htail hle
      refine ⟨init, e, o, hmem.trans he, hend, hinit, ?_⟩
      by_cases hpe : x.frame.IsPageEnd
      · rwa [startOn_after_pageEnd hpe hp] at habut
      · rwa [startOn_after_data hpe hp] at habut

end Chained

/-! ## Placing requests -/

/-- A frame to be written: its metadata, except for the sequence number, which
the writer assigns; its payload; and the clock, should the write have to
rotate. -/
structure Request where
  header : FrameHeader
  payload : List UInt8
  now : Int64
deriving DecidableEq

namespace Request

/-- The frame written for the request. -/
def frame (r : Request) (seq : UInt64) : Frame := ⟨{ r.header with sequence := seq }, r.payload⟩

/-- `32 + payload size`, rounded up to a multiple of 64. -/
def stride (r : Request) : Nat := alignUp (frameHeaderSize + r.payload.length) frameAlignment

/-- The request fits a page together with a header and a sentinel. -/
def Fits (P : PageSize) (r : Request) : Prop := r.stride + 128 ≤ P.bytes

/-- The request is no sentinel, and a reader will see it. -/
structure IsData (r : Request) : Prop where
  visible : r.header.msgType ≠ 0
  data : r.header.msgType ≠ MsgType.pageEnd.toHeader

instance (P : PageSize) (r : Request) : Decidable (r.Fits P) := inferInstanceAs (Decidable (_ ≤ _))

@[simp] theorem frame_stride (r : Request) (seq : UInt64) : (r.frame seq).stride = r.stride := rfl

theorem IsData.not_pageEnd {r : Request} (h : r.IsData) (seq : UInt64) :
    ¬ (r.frame seq).IsPageEnd := h.data

end Request

/-- The sentinel written by a rotation. -/
def pageEndFrame (now : Int64) (seq : UInt64) : Frame :=
  ⟨{ pageEndHeader now with sequence := seq }, []⟩

theorem pageEndFrame_isPageEnd (now : Int64) (seq : UInt64) :
    (pageEndFrame now seq).IsPageEnd := rfl

@[simp] theorem pageEndFrame_stride (now : Int64) (seq : UInt64) :
    (pageEndFrame now seq).stride = 64 := by
  show alignUp (frameHeaderSize + 0) frameAlignment = 64
  decide

/-- A frame of this stride does not fit behind the tail. -/
def Overflows (P : PageSize) (t : Slot) (stride : Nat) : Prop :=
  t.offset + stride > P.bytes - frameAlignment

instance (P : PageSize) (t : Slot) (stride : Nat) : Decidable (Overflows P t stride) :=
  inferInstanceAs (Decidable (_ > _))

/-- The slot after the last of some entries. -/
def endOf (t : Slot) (es : List Entry) : Slot := es.foldl (fun _ e => e.slot.after e.frame) t

theorem endOf_append (t : Slot) (es es' : List Entry) :
    endOf t (es ++ es') = endOf (endOf t es) es' := List.foldl_append ..

theorem Chained.endOf_eq {s t : Slot} {es : List Entry} (h : Chained s es t) : endOf s es = t := by
  induction es generalizing s with
  | nil => exact h
  | cons e es ih =>
    rw [endOf, List.foldl_cons, h.1]
    exact ih h.2

/-- The sentinel that is needed before a frame of this stride, if any. -/
def makeRoom (P : PageSize) (thread : Nat) (t : Slot) (seq : UInt64) (stride : Nat) (now : Int64) :
    List Entry :=
  if Overflows P t stride then [⟨t, pageEndFrame now seq, thread⟩] else []

/-- The entries one request adds at tail `t`, with sequence numbers from `seq`. -/
def place (P : PageSize) (thread : Nat) (t : Slot) (seq : UInt64) (r : Request) : List Entry :=
  let room := makeRoom P thread t seq r.stride r.now
  room ++ [⟨endOf t room, r.frame (seq + UInt64.ofNat room.length), thread⟩]

/-- The journal of a list of requests, each with the thread that makes it. -/
def layOut (P : PageSize) : Slot → UInt64 → List (Nat × Request) → List Entry
  | _, _, [] => []
  | t, seq, (thread, r) :: rs =>
      place P thread t seq r ++
        layOut P (endOf t (place P thread t seq r))
          (seq + UInt64.ofNat (place P thread t seq r).length) rs

theorem layOut_append (P : PageSize) (t : Slot) (seq : UInt64) (rs rs' : List (Nat × Request)) :
    layOut P t seq (rs ++ rs') =
      layOut P t seq rs ++ layOut P (endOf t (layOut P t seq rs))
        (seq + UInt64.ofNat (layOut P t seq rs).length) rs' := by
  induction rs generalizing t seq with
  | nil => simp [layOut, endOf]
  | cons r rs ih =>
    rw [List.cons_append, layOut, ih, layOut, endOf_append, List.append_assoc, List.length_append,
      UInt64.ofNat_add, UInt64.add_assoc]

theorem layOut_concat (P : PageSize) (t : Slot) (seq : UInt64) (rs : List (Nat × Request))
    (thread : Nat) (r : Request) :
    layOut P t seq (rs ++ [(thread, r)]) =
      layOut P t seq rs ++ place P thread (endOf t (layOut P t seq rs))
        (seq + UInt64.ofNat (layOut P t seq rs).length) r := by
  rw [layOut_append, layOut, layOut, List.append_nil]

/-! ## What is in a journal -/

/-- A frame without the sequence number the writer gave it. -/
def Frame.content (f : Frame) : Frame := { f with sequence := 0 }

/-- The frames the writer was asked for, in order: everything but sentinels. -/
def dataOf (es : List Entry) : List Frame :=
  (es.filter fun e => ¬ e.frame.IsPageEnd).map fun e => e.frame.content

/-- It is only the frames that matter. -/
theorem dataOf_congr {es es' : List Entry} (h : es.map Entry.frame = es'.map Entry.frame) :
    dataOf es = dataOf es' := by
  have hframes : ∀ es : List Entry, dataOf es =
      ((es.map Entry.frame).filter fun f => ¬ f.IsPageEnd).map Frame.content := by
    intro es
    rw [dataOf, List.filter_map, List.map_map]
    rfl
  rw [hframes, hframes, h]

theorem dataOf_append (es es' : List Entry) : dataOf (es ++ es') = dataOf es ++ dataOf es' := by
  simp [dataOf]

theorem dataOf_place {P : PageSize} {thread : Nat} {t : Slot} {seq : UInt64} {r : Request}
    (h : r.IsData) : dataOf (place P thread t seq r) = [r.frame 0] := by
  have hroom : dataOf (makeRoom P thread t seq r.stride r.now) = [] := by
    unfold makeRoom
    split
    · rfl
    · rfl
  rw [place, dataOf_append, hroom]
  have hd := h.not_pageEnd (seq + UInt64.ofNat (makeRoom P thread t seq r.stride r.now).length)
  simp only [dataOf, List.filter_cons, hd, not_false_eq_true, decide_true, if_true, List.filter_nil,
    List.map_cons, List.map_nil, List.nil_append]
  rfl

/-- **A journal holds what it was asked for**, each once and in order. -/
theorem dataOf_layOut {P : PageSize} {t : Slot} {seq : UInt64} {rs : List (Nat × Request)}
    (h : ∀ r ∈ rs, r.2.IsData) : dataOf (layOut P t seq rs) = rs.map fun r => r.2.frame 0 := by
  induction rs generalizing t seq with
  | nil => rfl
  | cons r rs ih =>
    rw [layOut, dataOf_append, dataOf_place (h r List.mem_cons_self),
      ih fun x hx => h x (List.mem_cons_of_mem _ hx)]
    rfl

theorem dataOf_prefix {es es' : List Entry} (h : es <+: es') : dataOf es <+: dataOf es' :=
  (h.filter _).map _

/-- Every entry of a journal belongs to the thread of a request, and carries its time
or that of the clock it met. -/
theorem mem_place {P : PageSize} {thread : Nat} {t : Slot} {seq : UInt64} {r : Request} {e : Entry}
    (he : e ∈ place P thread t seq r) :
    e.thread = thread ∧ (e.frame.genTime = r.header.genTime ∨ e.frame.genTime = r.now) := by
  rcases List.mem_append.mp he with he | he
  · unfold makeRoom at he
    split at he
    · rw [List.mem_singleton.mp he]
      exact ⟨rfl, Or.inr rfl⟩
    · cases he
  · rw [List.mem_singleton.mp he]
    exact ⟨rfl, Or.inl rfl⟩

theorem mem_layOut {P : PageSize} {t : Slot} {seq : UInt64} {rs : List (Nat × Request)} {e : Entry}
    (he : e ∈ layOut P t seq rs) :
    ∃ r ∈ rs, e.thread = r.1 ∧
      (e.frame.genTime = r.2.header.genTime ∨ e.frame.genTime = r.2.now) := by
  induction rs generalizing t seq with
  | nil => cases he
  | cons r rs ih =>
    rcases List.mem_append.mp he with he | he
    · exact ⟨r, List.mem_cons_self, mem_place he⟩
    · obtain ⟨x, hx, h⟩ := ih he
      exact ⟨x, List.mem_cons_of_mem _ hx, h⟩

/-- What one of several threads has in a journal. -/
theorem dataOf_thread_layOut {P : PageSize} {t : Slot} {seq : UInt64} {rs : List (Nat × Request)}
    (h : ∀ r ∈ rs, r.2.IsData) (thread : Nat) :
    dataOf ((layOut P t seq rs).filter fun e => e.thread = thread) =
      (rs.filter fun r => r.1 = thread).map fun r => r.2.frame 0 := by
  induction rs generalizing t seq with
  | nil => rfl
  | cons r rs ih =>
    rw [layOut, List.filter_append, dataOf_append, ih fun r' hr' =>
      h r' (List.mem_cons_of_mem r hr')]
    by_cases hr : r.1 = thread
    · rw [List.filter_eq_self.mpr fun e he => by rw [(mem_place he).1, hr, decide_eq_true rfl],
        dataOf_place (h r List.mem_cons_self), List.filter_cons_of_pos
          (by rw [hr, decide_eq_true rfl])]
      rfl
    · rw [List.filter_eq_nil_iff.mpr
        fun e he => by rw [(mem_place he).1, decide_eq_true_eq]; exact hr,
          List.filter_cons_of_neg (by rw [decide_eq_true_eq]; exact hr)]
      rfl

end Revoq
