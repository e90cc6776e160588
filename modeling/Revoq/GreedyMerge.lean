import Mathlib.Algebra.GroupWithZero.Nat
import Mathlib.Data.List.Basic
import Mathlib.Data.Prod.Lex
import Mathlib.Order.Defs.LinearOrder

/-! # Greedy merges

Several lists are merged by taking the head of one of them, again and again, until
all are empty.  A rule `pick` says which head may be taken; the greedy rule takes a
least one.

Whatever the rule, nothing is lost or repeated and every source keeps its own order
(`Merges.ofSource`).

The sources need not be sorted.  A head that is too large holds back what is behind
it, so the greedy rule goes by *levels*, the largest key up to an element in its own
source (`Merges.level_pairwise`), and `Merges.sorted_iff` says when the elements one
cares about come sorted by their keys all the same.
-/
namespace GreedyMerge

variable {α κ : Type}

/-- The element heads the source, with the rest behind it. -/
def Heads (srcs : List (List α)) (i : Nat) (a : α) (rest : List α) : Prop :=
  srcs[i]? = some (a :: rest)

/-- **A least head** under `key`. -/
structure Least [LinearOrder κ] (key : α → κ) (srcs : List (List α)) (i : Nat) (a : α)
    (rest : List α) : Prop where
  head : Heads srcs i a rest
  least : ∀ j b l, Heads srcs j b l → key a ≤ key b

/-- A least head, and of several the one of the first source. -/
structure FirstLeast [LinearOrder κ] (key : α → κ) (srcs : List (List α)) (i : Nat) (a : α)
    (rest : List α) : Prop extends Least key srcs i a rest where
  first : ∀ j b l, j < i → Heads srcs j b l → key a < key b

/-- What is taken, with the source it came from, until every source is empty. -/
inductive Merges (pick : List (List α) → Nat → α → List α → Prop) :
    List (List α) → List (Nat × α) → Prop where
  | done {srcs : List (List α)} (h : ∀ l ∈ srcs, l = []) : Merges pick srcs []
  | take {srcs : List (List α)} {i : Nat} {a : α} {rest : List α} {out : List (Nat × α)}
      (h : pick srcs i a rest) (tail : Merges pick (srcs.set i rest) out) :
      Merges pick srcs ((i, a) :: out)

/-- The part of a merge that came from source `i`. -/
def ofSource (i : Nat) (out : List (Nat × α)) : List α := (out.filter fun x => x.1 = i).map Prod.snd

variable {pick : List (List α) → Nat → α → List α → Prop} {srcs : List (List α)}
  {out : List (Nat × α)} {i : Nat} {a : α} {rest : List α}

theorem Heads.lt_length (h : Heads srcs i a rest) : i < srcs.length := by
  by_contra hge
  rw [Heads, List.getElem?_eq_none (by omega)] at h
  cases h

theorem Heads.getElem?_set_self (h : Heads srcs i a rest) : (srcs.set i rest)[i]? = some rest :=
  List.getElem?_set_self h.lt_length

/-- How many elements there are to take. -/
def total (srcs : List (List α)) : Nat := (srcs.map List.length).sum

theorem Heads.total_eq (h : Heads srcs i a rest) : total srcs = total (srcs.set i rest) + 1 := by
  unfold total
  induction srcs generalizing i with
  | nil => cases h
  | cons l srcs ih =>
    cases i with
    | zero =>
      cases h
      simp only [List.map_cons, List.sum_cons, List.set_cons_zero, List.length_cons]
      omega
    | succ i =>
      have := ih (i := i) h
      simp only [List.map_cons, List.sum_cons, List.set_cons_succ]
      omega

/-- **Nothing is lost or repeated, and every source keeps its own order.** -/
theorem Merges.ofSource (h : Merges pick srcs out)
    (hpick : ∀ srcs i a rest, pick srcs i a rest → Heads srcs i a rest) {l : List α}
    (hl : srcs[i]? = some l) : GreedyMerge.ofSource i out = l := by
  induction h generalizing l with
  | done hempty => exact (hempty l (List.mem_of_getElem? hl)).symm
  | @take srcs k a rest out hp _ ih =>
    have hk := hpick _ _ _ _ hp
    by_cases hik : k = i
    · subst hik
      cases hk.symm.trans hl
      have := ih (hk.getElem?_set_self)
      simp only [GreedyMerge.ofSource, List.filter_cons, decide_true, if_true,
        List.map_cons] at this ⊢
      rw [this]
    · have := ih (l := l) (by rw [List.getElem?_set_ne hik]; exact hl)
      simpa only [GreedyMerge.ofSource, List.filter_cons, decide_eq_false hik, Bool.false_eq_true,
        if_false] using this

/-- What is taken comes from one of the sources. -/
theorem Merges.mem_source (h : Merges pick srcs out)
    (hpick : ∀ srcs i a rest, pick srcs i a rest → Heads srcs i a rest) {x : Nat × α}
    (hx : x ∈ out) :
    ∃ l, srcs[x.1]? = some l := by
  induction h with
  | done _ => cases hx
  | @take srcs k a rest out hp _ ih =>
    have hk := hpick _ _ _ _ hp
    rcases List.mem_cons.mp hx with rfl | hx
    · exact ⟨_, hk⟩
    · obtain ⟨l, hl⟩ := ih hx
      have hlt := (List.getElem?_eq_some_iff.mp hl).1
      rw [List.length_set] at hlt
      exact ⟨_, List.getElem?_eq_getElem hlt⟩

/-! ## The order of a greedy merge -/

section Order
variable [LinearOrder κ] (key : α → κ)

/-- Each element with its level, counting from `m`. -/
def leveled (m : κ) : List α → List (κ × α)
  | [] => []
  | a :: l => (max m (key a), a) :: leveled (max m (key a)) l

/-- The levels in a merge; `ms i` is the level source `i` has reached before. -/
def relevel (ms : Nat → κ) : List (Nat × α) → List (κ × Nat × α)
  | [] => []
  | (i, a) :: out =>
      (max (ms i) (key a), i, a) :: relevel (Function.update ms i (max (ms i) (key a))) out

theorem relevel_map (ms : Nat → κ) (out : List (Nat × α)) :
    (relevel key ms out).map Prod.snd = out := by
  induction out generalizing ms with
  | nil => rfl
  | cons x out ih =>
    rw [relevel, List.map_cons, ih]

/-- Each source has its own levels. -/
theorem relevel_ofSource (ms : Nat → κ) (out : List (Nat × α)) (i : Nat) :
    ((relevel key ms out).filter fun x => x.2.1 = i).map (fun x => (x.1, x.2.2)) =
      leveled key (ms i) (ofSource i out) := by
  induction out generalizing ms with
  | nil => rfl
  | cons x out ih =>
    obtain ⟨k, a⟩ := x
    by_cases hk : k = i
    · subst hk
      have := ih (Function.update ms k (max (ms k) (key a)))
      rw [Function.update_self] at this
      simp only [relevel, ofSource, List.filter_cons, decide_true, if_true, List.map_cons,
        leveled] at this ⊢
      rw [this]
    · have := ih (Function.update ms k (max (ms k) (key a)))
      rw [Function.update_of_ne (Ne.symm hk)] at this
      simpa only [relevel, ofSource, List.filter_cons, decide_eq_false hk, Bool.false_eq_true,
        if_false] using this

/-- **After an element of level `top` was taken from source `i`**: every other head is
behind it. -/
structure Ripe (ms : Nat → κ) (srcs : List (List α)) (top : κ) (i : Nat) : Prop where
  reached : ms i = top
  below : ∀ j, ms j ≤ top
  behind : ∀ j b l, j ≠ i → Heads srcs j b l → top ≤ key b ∧ (j < i → top < key b)

variable {key} {ms : Nat → κ}

theorem Heads.of_set {j k : Nat} {b : α} {l rest : List α} (hjk : j ≠ k)
    (h : Heads (srcs.set k rest) j b l) : Heads srcs j b l := by
  rwa [Heads, List.getElem?_set_ne (Ne.symm hjk)] at h

variable (ms) in
/-- Taking a new largest element. -/
theorem FirstLeast.ripe {k : Nat} (h : FirstLeast key srcs k a rest) (hms : ∀ j, ms j ≤ key a) :
    Ripe key (Function.update ms k (max (ms k) (key a))) (srcs.set k rest)
      (max (ms k) (key a)) k := by
  rw [max_eq_right (hms k)]
  refine ⟨Function.update_self .., fun j => ?_, fun j b l hj hb => ?_⟩
  · by_cases hj : j = k
    · rw [hj, Function.update_self]
    · rw [Function.update_of_ne hj]
      exact hms j
  · exact ⟨h.least j b l (hb.of_set hj), fun hlt => h.first j b l hlt (hb.of_set hj)⟩

/-- **The next element** is not before the last one, by level and source. -/
theorem Ripe.take {top : κ} {k : Nat} (hr : Ripe key ms srcs top i)
    (h : FirstLeast key srcs k a rest) :
    toLex (top, i) ≤ toLex (max (ms k) (key a), k) ∧
      Ripe key (Function.update ms k (max (ms k) (key a))) (srcs.set k rest)
        (max (ms k) (key a)) k := by
  rcases le_or_gt top (key a) with hle | hlt
  · refine ⟨?_, h.ripe ms fun j => (hr.below j).trans hle⟩
    rw [max_eq_right ((hr.below k).trans hle), Prod.Lex.toLex_le_toLex]
    rcases hle.lt_or_eq with hlt | heq
    · exact Or.inl hlt
    · refine Or.inr ⟨heq, ?_⟩
      -- of a source joined earlier the head would be larger
      by_contra hk
      have := (hr.behind k a rest (by omega) h.head).2 (by omega)
      exact absurd heq this.ne
  · -- only the source that was taken from last has a head this small
    obtain rfl : k = i := by
      by_contra hk
      exact absurd (hr.behind k a rest hk h.head).1 (not_le.mpr hlt)
    rw [hr.reached, max_eq_left hlt.le]
    refine ⟨le_refl _, Function.update_self .., fun j => ?_, fun j b l hj hb => ?_⟩
    · by_cases hj : j = k
      · rw [hj, Function.update_self]
      · rw [Function.update_of_ne hj]
        exact hr.below j
    · exact hr.behind j b l hj (hb.of_set hj)

theorem Merges.level_pairwise_of_ripe (h : Merges (FirstLeast key) srcs out) {top : κ}
    (hr : Ripe key ms srcs top i) :
    (∀ x ∈ relevel key ms out, toLex (top, i) ≤ toLex (x.1, x.2.1)) ∧
      (relevel key ms out).Pairwise fun x y => toLex (x.1, x.2.1) ≤ toLex (y.1, y.2.1) := by
  induction h generalizing ms top i with
  | done _ => exact ⟨fun x hx => (by cases hx), .nil⟩
  | @take srcs k a rest out hp _ ih =>
    obtain ⟨hle, hr'⟩ := hr.take hp
    obtain ⟨hall, hpw⟩ := ih hr'
    refine ⟨fun x hx => ?_, List.pairwise_cons.mpr ⟨hall, hpw⟩⟩
    rcases List.mem_cons.mp hx with rfl | hx
    · exact hle
    · exact hle.trans (hall x hx)

/-- **A greedy merge goes by level**, and of equal levels by source. -/
theorem Merges.level_pairwise (h : Merges (FirstLeast key) srcs out) {m : κ}
    (hm : ∀ l ∈ srcs, ∀ a ∈ l, m ≤ key a) :
    (relevel key (fun _ => m) out).Pairwise fun x y => toLex (x.1, x.2.1) ≤ toLex (y.1, y.2.1) := by
  cases h with
  | done _ => exact .nil
  | @take _ k a rest out hp tail =>
    have hle : m ≤ key a := hm _ (List.mem_of_getElem? hp.head) a List.mem_cons_self
    obtain ⟨hall, hpw⟩ := tail.level_pairwise_of_ripe (hp.ripe (fun _ => m) fun _ => hle)
    exact List.pairwise_cons.mpr ⟨hall, hpw⟩

/-- **No element one cares about is overtaken**: of two in different sources, the one
with the lower level (or of equal levels the earlier source) has no larger key. -/
def InOrder (key : α → κ) (p : α → Prop) (m : κ) (srcs : List (List α)) : Prop :=
  ∀ (i j : Nat) (l l' : List α), srcs[i]? = some l → srcs[j]? = some l' → i ≠ j →
    ∀ x ∈ leveled key m l, ∀ y ∈ leveled key m l', p x.2 → p y.2 →
      toLex (y.1, j) < toLex (x.1, i) → key y.2 ≤ key x.2

/-- What is pairwise so within each source. -/
theorem pairwise_of_sources {β : Type} {R : β → β → Prop} {source : β → Nat} {xs : List β}
    (h : ∀ i, (xs.filter fun x => source x = i).Pairwise R) :
    xs.Pairwise fun x y => source x = source y → R x y := by
  induction xs with
  | nil => exact .nil
  | cons x xs ih =>
    refine List.pairwise_cons.mpr ⟨fun y hy hxy => ?_, ih fun i => ?_⟩
    · have := h (source x)
      rw [List.filter_cons, if_pos (by simp)] at this
      exact List.rel_of_pairwise_cons this (List.mem_filter.mpr ⟨hy, by simpa using hxy.symm⟩)
    · have := h i
      rw [List.filter_cons] at this
      split at this
      · exact (List.pairwise_cons.mp this).2
      · exact this

variable (key) in
theorem leveled_map (m : κ) (l : List α) : (leveled key m l).map Prod.snd = l := by
  induction l generalizing m with
  | nil => rfl
  | cons a l ih => rw [leveled, List.map_cons, ih]

/-- Of two elements of a pairwise ordered list, the one that is not behind the other. -/
theorem rel_of_mem_of_not {β : Type} {R S : β → β → Prop} {xs : List β} (hR : xs.Pairwise R)
    (hS : xs.Pairwise S) {x y : β} (hx : x ∈ xs) (hy : y ∈ xs) (hne : x ≠ y)
    (hnot : ¬ R y x) : S x y := by
  obtain ⟨p, hp, rfl⟩ := List.getElem_of_mem hx
  obtain ⟨q, hq, rfl⟩ := List.getElem_of_mem hy
  rcases Nat.lt_trichotomy p q with hlt | rfl | hgt
  · exact List.pairwise_iff_getElem.mp hS p q hp hq hlt
  · exact absurd rfl hne
  · exact absurd (List.pairwise_iff_getElem.mp hR q p hq hp hgt) hnot

/-- **When a greedy merge is sorted**, as far as the elements one cares about go, if each
source is. -/
theorem Merges.sorted_iff (h : Merges (FirstLeast key) srcs out) {m : κ}
    (hm : ∀ l ∈ srcs, ∀ a ∈ l, m ≤ key a) (p : α → Prop) [DecidablePred p]
    (hown : ∀ l ∈ srcs, (l.filter fun a => p a).Pairwise fun a b => key a ≤ key b) :
    ((out.map Prod.snd).filter fun a => p a).Pairwise (fun a b => key a ≤ key b) ↔
      InOrder key p m srcs := by
  have hlevel := h.level_pairwise hm
  -- a source's part of the leveled merge is the source with its own levels
  have hsrc : ∀ i l, srcs[i]? = some l →
      ((relevel key (fun _ => m) out).filter fun x => x.2.1 = i).map (fun x => (x.1, x.2.2)) =
        leveled key m l := fun i l hl => by
    rw [relevel_ofSource, h.ofSource (fun _ _ _ _ hp => hp.head) hl]
  have hmap : out.map Prod.snd = (relevel key (fun _ => m) out).map fun x => x.2.2 := by
    conv_lhs => rw [← relevel_map key (fun _ => m) out]
    rw [List.map_map]
    rfl
  have hpair : ((out.map Prod.snd).filter fun a => p a).Pairwise (fun a b => key a ≤ key b) ↔
      (relevel key (fun _ => m) out).Pairwise fun x y => p x.2.2 → p y.2.2 →
      key x.2.2 ≤ key y.2.2 := by
    rw [List.pairwise_filter, hmap, List.pairwise_map]
    simp only [decide_eq_true_eq]
  rw [hpair]
  have hin : ∀ x ∈ relevel key (fun _ => m) out, ∃ l, srcs[x.2.1]? = some l := by
    intro x hx
    refine h.mem_source (fun _ _ _ _ hp => hp.head) (x := x.2) ?_
    rw [← relevel_map key (fun _ => m) out]
    exact List.mem_map_of_mem hx
  generalize relevel key (fun _ => m) out = xs at hlevel hsrc hin
  have hmem : ∀ i l, srcs[i]? = some l → ∀ x, x ∈ leveled key m l ↔ (x.1, i, x.2) ∈ xs := by
    intro i l hl x
    rw [← hsrc i l hl, List.mem_map]
    constructor
    · rintro ⟨y, hy, rfl⟩
      obtain ⟨hmem, hi⟩ := List.mem_filter.mp hy
      rw [← of_decide_eq_true hi]
      exact hmem
    · intro hx
      exact ⟨_, List.mem_filter.mpr ⟨hx, decide_eq_true rfl⟩, rfl⟩
  constructor
  -- a higher level that comes later is not below: the merge follows the levels
  · intro hsorted i j l l' hl hl' hij x hx y hy hpx hpy hlt
    have hx' := (hmem i l hl x).mp hx
    have hy' := (hmem j l' hl' y).mp hy
    refine rel_of_mem_of_not hlevel hsorted hy' hx' (fun he => ?_) (not_le.mpr hlt) hpy hpx
    exact hij (congrArg (fun z => z.2.1) he).symm
  · intro hord
    -- within a source its own order decides
    have hsame : xs.Pairwise fun x y => x.2.1 = y.2.1 → p x.2.2 → p y.2.2 →
        key x.2.2 ≤ key y.2.2 := by
      refine pairwise_of_sources fun i => ?_
      cases hl : srcs[i]? with
      | none =>
        rw [List.filter_eq_nil_iff.mpr]
        · exact .nil
        · intro x hx hxi
          obtain ⟨l, hl'⟩ := hin x hx
          rw [of_decide_eq_true hxi, hl] at hl'
          cases hl'
      | some l =>
        have hlist := hown l (List.mem_of_getElem? hl)
        rw [List.pairwise_filter, ← leveled_map key m l, ← hsrc i l hl, List.map_map,
          List.pairwise_map] at hlist
        simpa using hlist
    refine (hlevel.and hsame).imp_of_mem fun {x y} hx hy hxy hpx hpy => ?_
    obtain ⟨hle, hown⟩ := hxy
    by_cases hsrcs : x.2.1 = y.2.1
    · exact hown hsrcs hpx hpy
    · obtain ⟨l, hl⟩ := hin x hx
      obtain ⟨l', hl'⟩ := hin y hy
      refine hord _ _ l' l hl' hl (Ne.symm hsrcs) (y.1, y.2.2)
        ((hmem _ l' hl' _).mpr hy) (x.1, x.2.2)
        ((hmem _ l hl _).mpr hx) hpy hpx (lt_of_le_of_ne hle fun he => hsrcs ?_)
      exact congrArg (fun z => (ofLex z).2) he

end Order

end GreedyMerge
