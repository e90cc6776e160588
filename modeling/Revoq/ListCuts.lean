import Mathlib.Data.List.Basic

/-! # Cutting a list at a separator

The pieces of a list between the occurrences of another list in it, where each occurrence
is the first one behind the last cut.  They are determined by the list and the separator,
and joined by the separator they are the list again.
-/
namespace ListCuts
variable {α : Type}

/-- **The pieces of a list**, cut at every first occurrence of `sep`. -/
inductive Cuts (sep : List α) : List α → List (List α) → Prop where
  | last {s : List α} (none : ∀ q t, s ≠ q ++ sep ++ t) : Cuts sep s [s]
  | cut {p rest : List α} {ps : List (List α)}
      (first : ∀ q t, p ++ sep ++ rest = q ++ sep ++ t → p.length ≤ q.length)
      (tail : Cuts sep rest ps) :
      Cuts sep (p ++ sep ++ rest) (p :: ps)

section
variable {sep s : List α} {ps ps' : List (List α)} {a : α}

theorem Cuts.ne_nil (h : Cuts sep s ps) : ps ≠ [] := by cases h <;> exact List.cons_ne_nil _ _

/-- Joined by the separator, the pieces are the list. -/
theorem Cuts.intercalate (h : Cuts sep s ps) : sep.intercalate ps = s := by
  induction h with
  | last => exact List.intercalate_singleton
  | @cut p rest ps _ tail ih =>
    obtain ⟨q, qs, rfl⟩ := List.exists_cons_of_ne_nil tail.ne_nil
    rw [List.intercalate_cons_cons, ih]

/-- **There is one way to cut.** -/
theorem Cuts.unique (h : Cuts sep s ps) (h' : Cuts sep s ps') : ps = ps' := by
  induction h generalizing ps' with
  | @last s none =>
    cases h' with
    | last => rfl
    | cut => exact absurd rfl (none _ _)
  | @cut p rest ps first tail ih =>
    generalize hs : p ++ sep ++ rest = s at h'
    cases h' with
    | last none => exact absurd hs.symm (none _ _)
    | @cut p' rest' ps' first' tail' =>
      have hlen : p.length = p'.length := Nat.le_antisymm (first _ _ hs) (first' _ _ hs.symm)
      rw [List.append_assoc, List.append_assoc] at hs
      obtain ⟨rfl, hrest⟩ := List.append_inj hs hlen
      obtain rfl := List.append_cancel_left hrest
      rw [ih tail']

/-- Pieces without the element are what is cut at it. -/
theorem cuts_of_notMem (hne : ps ≠ []) (h : ∀ p ∈ ps, a ∉ p) :
    Cuts [a] ([a].intercalate ps) ps := by
  induction ps with
  | nil => exact absurd rfl hne
  | cons p ps ih =>
    have hp := h p List.mem_cons_self
    cases ps with
    | nil =>
      rw [List.intercalate_singleton]
      refine .last fun q t he => hp ?_
      rw [he]
      simp
    | cons q qs =>
      rw [List.intercalate_cons_cons]
      refine .cut (fun q' t he => ?_)
        (ih (List.cons_ne_nil _ _) fun x hx => h x (List.mem_cons_of_mem p hx))
      -- an occurrence in front of the end of `p` would be in `p`
      by_contra hlt
      have hget := congrArg (fun l : List α => l[q'.length]?) he
      rw [List.append_assoc, List.append_assoc, List.getElem?_append_left (Nat.lt_of_not_le hlt),
        List.getElem?_append_right (Nat.le_refl _)] at hget
      simp only [Nat.sub_self, List.singleton_append, List.getElem?_cons_zero] at hget
      exact hp (List.mem_of_getElem? hget)

/-- What is in a piece is in the list. -/
theorem Cuts.mem (h : Cuts sep s ps) {p : List α} (hp : p ∈ ps) (ha : a ∈ p) : a ∈ s := by
  induction h with
  | last =>
    rw [List.mem_singleton] at hp
    exact hp ▸ ha
  | cut _ _ ih =>
    rcases List.mem_cons.mp hp with rfl | hp
    · simp [ha]
    · simp [ih hp]

end
end ListCuts
