import Mathlib.Data.List.Count
import Mathlib.Data.List.Nodup
import Mathlib.Data.List.Perm.Basic

/-! # Custody of resources

Resources are made one at a time, pass from place to place, and are given back.
`Custody` is the account: every resource that was made is in one place or was given
back once, and nothing else is anywhere.  It is kept as an equation between counts,
so that a step that moves resources between lists has only a sum to check.
-/
namespace Custody

variable {ρ : Type} [DecidableEq ρ] {made held held' back : List ρ}

theorem count_cons_eq (r : ρ) (rs : List ρ) (x : ρ) :
    (r :: rs).count x = [r].count x + rs.count x := by
  rw [← List.count_append, List.singleton_append]

/-- **The account** of the resources made, held and given back. -/
structure Account (made held back : List ρ) : Prop where
  balance : ∀ r, held.count r + back.count r = made.count r
  distinct : made.Nodup

theorem Account.empty : Account ([] : List ρ) [] [] := ⟨fun _ => rfl, .nil⟩

/-- Resources change their places. -/
theorem Account.move (h : Account made held back) (hc : ∀ r, held'.count r = held.count r) :
    Account made held' back :=
  ⟨fun r => by rw [hc, h.balance], h.distinct⟩

/-- A resource is made. -/
theorem Account.make (h : Account made held back) {r : ρ} (hr : r ∉ made)
    (hc : ∀ x, held'.count x = held.count x + [r].count x) : Account (r :: made) held' back := by
  refine ⟨fun x => ?_, List.nodup_cons.mpr ⟨hr, h.distinct⟩⟩
  have := h.balance x
  rw [hc, count_cons_eq r made]
  omega

/-- Resources are given back. -/
theorem Account.giveBack (h : Account made held back) (rs : List ρ)
    (hc : ∀ x, held.count x = held'.count x + rs.count x) : Account made held' (rs ++ back) := by
  refine ⟨fun x => ?_, h.distinct⟩
  have := h.balance x
  rw [hc] at this
  rw [List.count_append]
  omega

/-- **Each resource is in exactly one place** or was given back exactly once. -/
theorem Account.once (h : Account made held back) {r : ρ} (hr : r ∈ made) :
    held.count r + back.count r = 1 := by
  rw [h.balance, List.count_eq_one_of_mem h.distinct hr]

/-- Nothing is anywhere that was not made. -/
theorem Account.made_of_held (h : Account made held back) {r : ρ} (hr : r ∈ held) : r ∈ made := by
  have := h.balance r
  have hpos := List.count_pos_iff.mpr hr
  exact List.count_pos_iff.mp (by omega)

/-! ## Numbered places -/

variable {f g : Nat → Option ρ}

/-- What the first `n` places hold. -/
def placed (n : Nat) (f : Nat → Option ρ) : List ρ := (List.range n).filterMap f

omit [DecidableEq ρ] in
theorem placed_succ (n : Nat) (f : Nat → Option ρ) :
    placed (n + 1) f = placed n f ++ (f n).toList := by
  rw [placed, List.range_succ, List.filterMap_append, placed]
  cases hn : f n with
  | none => simp [hn]
  | some r => simp [hn]

omit [DecidableEq ρ] in
theorem placed_congr {n : Nat} (h : ∀ j, j < n → f j = g j) : placed n f = placed n g :=
  List.filterMap_congr fun j hj => h j (List.mem_range.mp hj)

/-- One place changes what it holds. -/
theorem count_placed_change {n k : Nat} (hk : k < n) (h : ∀ j, j ≠ k → f j = g j) (r : ρ) :
    (placed n f).count r + (g k).toList.count r = (placed n g).count r + (f k).toList.count r := by
  induction n with
  | zero => cases hk
  | succ n ih =>
    rw [placed_succ, placed_succ, List.count_append, List.count_append]
    rcases Nat.lt_succ_iff_lt_or_eq.mp hk with hlt | rfl
    · have := ih hlt
      rw [h n (by omega)]
      omega
    · rw [placed_congr fun j hj => h j (by omega)]
      omega

end Custody
