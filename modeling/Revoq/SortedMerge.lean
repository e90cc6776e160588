import Mathlib.Data.List.Sort
import Mathlib.Tactic.Order
import Revoq.GreedyMerge

/-! # The stable merge by key

A greedy merge of sorted sources is a stable sort: by key, of equal keys by source,
and each source in its own order (`sortedMerge`).  The sources need not be sorted for
that.  An element that stands behind a larger one is held back, and that goes unnoticed
unless an element of another source lies in between (`Unhindered`).

Then leaving elements out commutes with merging: the elements one cares about come as
if the others had never been there (`Merges.filter_eq`).
-/
namespace GreedyMerge

variable {α κ : Type}

/-! ## Sorting by key and source -/

/-- All elements with their sources, one source after the other. -/
def tagged (srcs : List (List α)) : List (Nat × α) :=
  srcs.zipIdx.flatMap fun x => x.1.map fun a => (x.2, a)

theorem ofSource_append (i : Nat) (xs ys : List (Nat × α)) :
    ofSource i (xs ++ ys) = ofSource i xs ++ ofSource i ys := by
  rw [ofSource, List.filter_append, List.map_append]
  rfl

theorem ofSource_cons_self (i : Nat) (a : α) (xs : List (Nat × α)) :
    ofSource i ((i, a) :: xs) = a :: ofSource i xs := by
  rw [ofSource, List.filter_cons_of_pos (by simp)]
  rfl

theorem ofSource_cons_ne {i j : Nat} (h : j ≠ i) (a : α) (xs : List (Nat × α)) :
    ofSource i ((j, a) :: xs) = ofSource i xs := by
  rw [ofSource, List.filter_cons_of_neg (by simpa using h)]
  rfl

theorem mem_ofSource {i : Nat} {a : α} {xs : List (Nat × α)} : a ∈ ofSource i xs ↔ (i, a) ∈ xs := by
  rw [ofSource, List.mem_map]
  constructor
  · rintro ⟨⟨j, b⟩, hb, rfl⟩
    obtain ⟨hmem, hj⟩ := List.mem_filter.mp hb
    rw [← show j = i from of_decide_eq_true hj]
    exact hmem
  · intro h
    exact ⟨(i, a), List.mem_filter.mpr ⟨h, decide_eq_true rfl⟩, rfl⟩

theorem ofSource_filter (p : α → Bool) (i : Nat) (xs : List (Nat × α)) :
    ofSource i (xs.filter fun x => p x.2) = (ofSource i xs).filter p := by
  rw [ofSource, ofSource, List.filter_map, List.filter_filter, List.filter_filter]
  congr 1
  exact List.filter_congr fun x _ => Bool.and_comm ..

theorem ofSource_eq_nil {i : Nat} {xs : List (Nat × α)} (h : ∀ x ∈ xs, x.1 ≠ i) :
    ofSource i xs = [] := by
  rw [ofSource, List.map_eq_nil_iff, List.filter_eq_nil_iff]
  intro x hx hi
  exact h x hx (of_decide_eq_true hi)

theorem ofSource_map_self (i : Nat) (l : List α) : ofSource i (l.map fun a => (i, a)) = l := by
  induction l with
  | nil => rfl
  | cons a l ih => rw [List.map_cons, ofSource_cons_self, ih]

/-- Of each source there is all of it. -/
theorem ofSource_tagged (srcs : List (List α)) (i : Nat) :
    ofSource i (tagged srcs) = srcs[i]?.getD [] := by
  have hmain : ∀ n, ofSource (n + i) ((srcs.zipIdx n).flatMap fun x => x.1.map fun a => (x.2, a)) =
      srcs[i]?.getD [] := by
    induction srcs generalizing i with
    | nil => exact fun n => rfl
    | cons l srcs ih =>
      intro n
      rw [List.zipIdx_cons, List.flatMap_cons, ofSource_append]
      cases i with
      | zero =>
        have hrest : ofSource n ((srcs.zipIdx (n + 1)).flatMap fun x => x.1.map fun a => (x.2, a)) =
            [] := by
          refine ofSource_eq_nil fun x hx => ?_
          obtain ⟨⟨l', k⟩, hk, hmem⟩ := List.mem_flatMap.mp hx
          obtain ⟨b, -, rfl⟩ := List.mem_map.mp hmem
          have hlt : n + 1 ≤ k := (List.mem_zipIdx hk).1
          exact Nat.ne_of_gt hlt
        rw [Nat.add_zero, ofSource_map_self, hrest, List.append_nil]
        rfl
      | succ i =>
        have hother : ofSource (n + (i + 1)) (l.map fun a => (n, a)) = [] := by
          refine ofSource_eq_nil fun x hx => ?_
          obtain ⟨b, -, rfl⟩ := List.mem_map.mp hx
          exact Nat.ne_of_lt (Nat.lt_add_of_pos_right (Nat.succ_pos i))
        rw [hother, List.nil_append, show n + (i + 1) = n + 1 + i by omega, ih i (n + 1)]
        rfl
  have := hmain 0
  rwa [Nat.zero_add] at this

section Order
variable [LinearOrder κ] (key : α → κ)

/-- By key, and of equal keys by source. -/
def KeyLe (x y : Nat × α) : Prop := toLex (key x.2, x.1) ≤ toLex (key y.2, y.1)

instance : DecidableRel (KeyLe key) := fun _ _ => inferInstanceAs (Decidable (_ ≤ _))

/-- **The stable merge**: all elements sorted by key and source. -/
def sortedMerge (srcs : List (List α)) : List (Nat × α) :=
  (tagged srcs).mergeSort fun x y => KeyLe key x y

variable {key}

theorem keyLe_iff {x y : Nat × α} :
    KeyLe key x y ↔ key x.2 < key y.2 ∨ key x.2 = key y.2 ∧ x.1 ≤ y.1 :=
  Prod.Lex.toLex_le_toLex

theorem KeyLe.antisymm {x y : Nat × α} (h : KeyLe key x y) (h' : KeyLe key y x) : x.1 = y.1 := by
  have := congrArg (fun z => (ofLex z).2) (le_antisymm h h')
  exact this

/-- **A stable merge is determined by its sources**: two lists sorted by key and source
that have the same elements of each source in the same order are the same. -/
theorem eq_of_keyLe {xs ys : List (Nat × α)} (hx : xs.Pairwise (KeyLe key))
    (hy : ys.Pairwise (KeyLe key)) (hsrc : ∀ i, ofSource i xs = ofSource i ys) : xs = ys := by
  induction xs generalizing ys with
  | nil =>
    cases ys with
    | nil => rfl
    | cons y ys =>
      have := hsrc y.1
      rw [ofSource_cons_self] at this
      cases this
  | cons x xs ih =>
    cases ys with
    | nil =>
      have := hsrc x.1
      rw [ofSource_cons_self] at this
      cases this
    | cons y ys =>
      have hle : ∀ {a b : Nat × α} {as bs : List (Nat × α)}, (b :: bs).Pairwise (KeyLe key) →
          ofSource a.1 (a :: as) = ofSource a.1 (b :: bs) → KeyLe key b a := by
        intro a b as bs hb heq
        have hmem : a ∈ b :: bs := by
          refine mem_ofSource.mp ?_
          rw [← heq, ofSource_cons_self]
          exact List.mem_cons_self
        rcases List.mem_cons.mp hmem with rfl | hmem
        · exact le_refl _
        · exact List.rel_of_pairwise_cons hb hmem
      have hsame : x.1 = y.1 := (hle hx (hsrc y.1).symm).antisymm (hle hy (hsrc x.1))
      have hhead := hsrc x.1
      obtain ⟨i, a⟩ := x
      obtain ⟨j, b⟩ := y
      obtain rfl : i = j := hsame
      simp only [ofSource_cons_self] at hhead
      obtain ⟨rfl, htail⟩ := List.cons.inj hhead
      rw [ih hx.of_cons hy.of_cons fun k => ?_]
      by_cases hk : i = k
      · rw [← hk]
        exact htail
      · have := hsrc k
        rwa [ofSource_cons_ne hk, ofSource_cons_ne hk] at this

theorem KeyLe.trans (x y z : Nat × α) :
    decide (KeyLe key x y) → decide (KeyLe key y z) → decide (KeyLe key x z) := by
  simp only [decide_eq_true_eq]
  exact fun h h' => le_trans h h'

theorem KeyLe.total (x y : Nat × α) : decide (KeyLe key x y) || decide (KeyLe key y x) := by
  rw [Bool.or_eq_true, decide_eq_true_eq, decide_eq_true_eq]
  exact le_total _ _

theorem pairwise_sortedMerge (srcs : List (List α)) : (sortedMerge key srcs).Pairwise (KeyLe key) :=
  (List.pairwise_mergeSort KeyLe.trans KeyLe.total (tagged srcs)).imp fun h => of_decide_eq_true h

/-- Each sorted source keeps its own order. -/
theorem ofSource_sortedMerge {srcs : List (List α)}
    (hsorted : ∀ l ∈ srcs, l.Pairwise fun a b => key a ≤ key b) (i : Nat) :
    ofSource i (sortedMerge key srcs) = srcs[i]?.getD [] := by
  rw [← ofSource_tagged]
  have hown : ((tagged srcs).filter fun x => x.1 = i).Pairwise fun x y =>
    decide (KeyLe key x y) := by
    have hl : (ofSource i (tagged srcs)).Pairwise fun a b => key a ≤ key b := by
      rw [ofSource_tagged]
      cases hi : srcs[i]? with
      | none => exact .nil
      | some l => exact hsorted l (List.mem_of_getElem? hi)
    refine (List.pairwise_map.mp hl).imp_of_mem fun {x y} hx hy hle =>
      decide_eq_true (keyLe_iff.mpr ?_)
    have hx := of_decide_eq_true (List.mem_filter.mp hx).2
    have hy := of_decide_eq_true (List.mem_filter.mp hy).2
    rcases hle.lt_or_eq with hlt | heq
    · exact Or.inl hlt
    · exact Or.inr ⟨heq, Nat.le_of_eq (hx.trans hy.symm)⟩
  have hsub := (List.sublist_mergeSort KeyLe.trans KeyLe.total hown List.filter_sublist).filter
    fun x => x.1 = i
  rw [List.filter_filter] at hsub
  simp only [Bool.and_self] at hsub
  have hlen := ((tagged srcs).mergeSort_perm fun x y => KeyLe key x y).filter
    (fun x => x.1 = i) |>.length_eq
  rw [ofSource, ofSource, hsub.eq_of_length hlen.symm]
  rfl

/-- The merge tells the sources. -/
theorem sortedMerge_inj {srcs srcs' : List (List α)}
    (h : ∀ l ∈ srcs, l.Pairwise fun a b => key a ≤ key b)
    (h' : ∀ l ∈ srcs', l.Pairwise fun a b => key a ≤ key b) (hlen : srcs.length = srcs'.length) :
    sortedMerge key srcs = sortedMerge key srcs' ↔ srcs = srcs' := by
  refine ⟨fun heq => List.ext_getElem hlen fun i hi hi' => ?_, congrArg _⟩
  have hsrc := congrArg (ofSource i) heq
  rwa [ofSource_sortedMerge h, ofSource_sortedMerge h', List.getElem?_eq_getElem hi,
    List.getElem?_eq_getElem hi'] at hsrc

/-- Leaving elements out first. -/
theorem sortedMerge_filter {srcs : List (List α)}
    (hsorted : ∀ l ∈ srcs, l.Pairwise fun a b => key a ≤ key b) (p : α → Bool) :
    (sortedMerge key srcs).filter (fun x => p x.2) = sortedMerge key
    (srcs.map (List.filter p)) := by
  refine eq_of_keyLe ((pairwise_sortedMerge srcs).sublist List.filter_sublist)
    (pairwise_sortedMerge _) fun i => ?_
  have hfilter : ∀ l ∈ srcs.map (List.filter p), l.Pairwise fun a b => key a ≤ key b := by
    intro l' hl'
    obtain ⟨l, hl, rfl⟩ := List.mem_map.mp hl'
    exact (hsorted l hl).sublist List.filter_sublist
  rw [ofSource_filter, ofSource_sortedMerge hsorted, ofSource_sortedMerge hfilter,
    List.getElem?_map]
  cases srcs[i]? <;> rfl

/-! ## Greedy merges -/

/-- **What holds an element back does no harm**: if it stands behind a larger one in its
source, then no element of another source lies in between. -/
def Unhindered (key : α → κ) (p : α → Prop) (srcs : List (List α)) : Prop :=
  ∀ (i j : Nat) (pre suf l : List α) (s x y : α), srcs[i]? = some (pre ++ s :: suf) →
    srcs[j]? = some l → i ≠ j →
    x ∈ suf → y ∈ l → p x → p y → ¬ (key x < key s ∧ key x ≤ key y ∧ key y ≤ key s)

/-- It passes to what is left of the sources. -/
theorem Unhindered.of_suffix {p : α → Prop} {srcs srcs' : List (List α)} (h : Unhindered key p srcs)
    (hs : List.Forall₂ (fun l' l => l' <:+ l) srcs' srcs) : Unhindered key p srcs' := by
  have hsrc : ∀ (i : Nat) (l' : List α), srcs'[i]? = some l' →
      ∃ front, srcs[i]? = some (front ++ l') := by
    intro i l' hi
    obtain ⟨hlt, rfl⟩ := List.getElem?_eq_some_iff.mp hi
    obtain ⟨front, hfront⟩ := (List.forall₂_iff_get.mp hs).2 i hlt (hs.length_eq ▸ hlt)
    exact ⟨front, List.getElem?_eq_some_iff.mpr ⟨hs.length_eq ▸ hlt, hfront.symm⟩⟩
  intro i j pre suf l s x y hi hj hij hx hy
  obtain ⟨front, hi⟩ := hsrc i _ hi
  obtain ⟨front', hj⟩ := hsrc j _ hj
  rw [← List.append_assoc] at hi
  exact h i j (front ++ pre) suf (front' ++ l) s x y hi hj hij hx (List.mem_append_right _ hy)

/-- Where an element is on another level than its own key, it stands behind a larger one. -/
theorem mem_leveled {m : κ} {l : List α} {x : κ × α} (hx : x ∈ leveled key m l) :
    key x.2 ≤ x.1 ∧ (x.1 = key x.2 ∨ (x.1 = m ∧ key x.2 < m) ∨
      ∃ pre s suf, l = pre ++ s :: suf ∧ x.2 ∈ suf ∧ x.1 = key s ∧ key x.2 < key s) := by
  induction l generalizing m with
  | nil => cases hx
  | cons a l ih =>
    rcases List.mem_cons.mp hx with rfl | hx
    · refine ⟨le_max_right .., ?_⟩
      rcases le_or_gt m (key a) with hle | hlt
      · exact Or.inl (max_eq_right hle)
      · exact Or.inr (Or.inl ⟨max_eq_left hlt.le, hlt⟩)
    · have hmem : x.2 ∈ l := by
        rw [← leveled_map key (max m (key a)) l]
        exact List.mem_map_of_mem hx
      obtain ⟨hle, h | ⟨h, hlt⟩ | ⟨pre, s, suf, rfl, hsuf, h, hlt⟩⟩ := ih hx
      · exact ⟨hle, Or.inl h⟩
      · refine ⟨hle, Or.inr ?_⟩
        rcases le_or_gt m (key a) with hma | hma
        · rw [max_eq_right hma] at h hlt
          exact Or.inr ⟨[], a, l, rfl, hmem, h, hlt⟩
        · rw [max_eq_left hma.le] at h hlt
          exact Or.inl ⟨h, hlt⟩
      · exact ⟨hle, Or.inr (Or.inr ⟨a :: pre, s, suf, rfl, hsuf, h, hlt⟩)⟩

variable {srcs : List (List α)} {out : List (Nat × α)} {m : κ}

/-- What is taken, with its level, is on that level in its source. -/
theorem Merges.mem_leveled (h : Merges (FirstLeast key) srcs out) {x : κ × Nat × α}
    (hx : x ∈ relevel key (fun _ => m) out) : ∃ l, srcs[x.2.1]? = some l ∧
    (x.1, x.2.2) ∈ leveled key m l := by
  have hmem : x.2 ∈ out := by
    rw [← relevel_map key (fun _ => m) out]
    exact List.mem_map_of_mem hx
  obtain ⟨l, hl⟩ := h.mem_source (fun _ _ _ _ hp => hp.head) hmem
  refine ⟨l, hl, ?_⟩
  rw [← h.ofSource (fun _ _ _ _ hp => hp.head) hl, ← relevel_ofSource key (fun _ => m) out x.2.1]
  exact List.mem_map.mpr ⟨x, List.mem_filter.mpr ⟨hx, decide_eq_true rfl⟩, rfl⟩

theorem Merges.ofSource_eq (h : Merges (FirstLeast key) srcs out) (i : Nat) :
    GreedyMerge.ofSource i out = srcs[i]?.getD [] := by
  cases hi : srcs[i]? with
  | none =>
    refine ofSource_eq_nil fun x hx hxi => ?_
    obtain ⟨l, hl⟩ := h.mem_source (fun _ _ _ _ hp => hp.head) hx
    rw [hxi, hi] at hl
    cases hl
  | some l => exact h.ofSource (fun _ _ _ _ hp => hp.head) hi

/-- Elements of one source come as the source has them. -/
theorem Merges.pairwise_own (h : Merges (FirstLeast key) srcs out) (p : α → Prop) [DecidablePred p]
    (hown : ∀ l ∈ srcs, (l.filter fun a => p a).Pairwise fun a b => key a ≤ key b) :
    out.Pairwise fun x y => x.1 = y.1 → p x.2 → p y.2 → key x.2 ≤ key y.2 := by
  refine pairwise_of_sources fun i => ?_
  have hl : ((GreedyMerge.ofSource i out).filter fun a => p a).Pairwise fun a b =>
    key a ≤ key b := by
    rw [h.ofSource_eq i]
    cases hi : srcs[i]? with
    | none => exact .nil
    | some l => exact hown l (List.mem_of_getElem? hi)
  rw [List.pairwise_filter, GreedyMerge.ofSource, List.pairwise_map] at hl
  simpa using hl

/-- **A greedy merge goes by key and source**, as far as the elements one cares about go,
if they are sorted in each source and nothing that holds them back does harm. -/
theorem Merges.pairwise_keyLe (h : Merges (FirstLeast key) srcs out)
    (hm : ∀ l ∈ srcs, ∀ a ∈ l, m ≤ key a) (p : α → Prop) [DecidablePred p]
    (hown : ∀ l ∈ srcs, (l.filter fun a => p a).Pairwise fun a b => key a ≤ key b)
    (hu : Unhindered key p srcs) :
    (out.filter fun x => p x.2).Pairwise (KeyLe key) := by
  have hlevel := h.level_pairwise hm
  have hsame := h.pairwise_own p hown
  rw [← relevel_map key (fun _ => m) out, List.pairwise_map] at hsame
  rw [List.pairwise_filter, ← relevel_map key (fun _ => m) out, List.pairwise_map]
  refine (hlevel.and hsame).imp_of_mem fun {x y} hx hy hxy hpx hpy => ?_
  obtain ⟨hle, hown⟩ := hxy
  have hpx := of_decide_eq_true hpx
  have hpy := of_decide_eq_true hpy
  by_cases hij : x.2.1 = y.2.1
  · rcases (hown hij hpx hpy).lt_or_eq with hlt | heq
    · exact keyLe_iff.mpr (Or.inl hlt)
    · exact keyLe_iff.mpr (Or.inr ⟨heq, Nat.le_of_eq hij⟩)
  · obtain ⟨l, hl, hxl⟩ := h.mem_leveled hx
    obtain ⟨l', hl', hyl⟩ := h.mem_leveled hy
    obtain ⟨hxle, -⟩ := GreedyMerge.mem_leveled hxl
    obtain ⟨hyle, hylevel⟩ := GreedyMerge.mem_leveled hyl
    have hbelow : m ≤ key y.2.2 := hm l' (List.mem_of_getElem? hl') _ (by
      rw [← leveled_map key m l']
      exact List.mem_map_of_mem hyl)
    rw [Prod.Lex.toLex_le_toLex] at hle
    rw [keyLe_iff]
    by_contra hnot
    rcases hylevel with heq | ⟨-, hlt⟩ | ⟨pre, s, suf, rfl, hsuf, heq, hlt⟩
    · -- on its own level `y` cannot be in front of `x`
      simp only [not_or, not_lt, not_and, not_le] at hnot hxle hyle heq hle
      rcases hle with hlt | ⟨hxy, hij'⟩
      · exact absurd hnot.1 (not_le.mpr (by rw [← heq]; exact hxle.trans_lt hlt))
      · have : key x.2.2 ≤ key y.2.2 := by rw [← heq, ← hxy]; exact hxle
        exact absurd hij' (not_le.mpr (hnot.2 (le_antisymm this hnot.1)))
    · exact absurd hbelow (not_le.mpr hlt)
    · simp only [not_or, not_lt, not_and, not_le] at hnot hxle hyle heq hle
      refine hu _ _ pre suf l s y.2.2 x.2.2 hl' hl (Ne.symm hij) hsuf ?_ hpy hpx ⟨hlt, hnot.1, ?_⟩
      · rw [← leveled_map key m l]
        exact List.mem_map_of_mem hxl
      · rw [← heq]
        rcases hle with hlt | ⟨hxy, -⟩
        · exact (hxle.trans_lt hlt).le
        · rw [← hxy]
          exact hxle

/-- **Merging, then leaving elements out**: the elements one cares about are those of the
stable merge of what is left of the sources. -/
theorem Merges.filter_eq (h : Merges (FirstLeast key) srcs out)
    (hm : ∀ l ∈ srcs, ∀ a ∈ l, m ≤ key a) (p : α → Prop) [DecidablePred p]
    (hown : ∀ l ∈ srcs, (l.filter fun a => p a).Pairwise fun a b => key a ≤ key b)
    (hu : Unhindered key p srcs) :
    (out.filter fun x => p x.2) = sortedMerge key (srcs.map fun l => l.filter fun a => p a) := by
  have hfilter : ∀ l ∈ srcs.map fun l => l.filter fun a => p a, l.Pairwise fun a b =>
    key a ≤ key b := by
    intro l' hl'
    obtain ⟨l, hl, rfl⟩ := List.mem_map.mp hl'
    exact hown l hl
  refine eq_of_keyLe (h.pairwise_keyLe hm p hown hu) (pairwise_sortedMerge _) fun i => ?_
  rw [ofSource_sortedMerge hfilter, ofSource_filter (fun a => p a), h.ofSource_eq i,
    List.getElem?_map]
  cases srcs[i]? <;> rfl

end Order

end GreedyMerge
