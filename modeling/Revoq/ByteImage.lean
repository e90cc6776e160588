import Mathlib.Data.Set.Function
import Mathlib.Order.Interval.Set.Basic
import Mathlib.Tactic.Ring

/-! # Byte images and little-endian words

A mapped file is a function from offsets to bytes.  Programs see it through
fixed-width little-endian words: `load` reads one, `store` replaces one, and
`store m a k 0` is also what clearing `k` bytes does.

Everything a proof needs of the two is how they compose: a word reads back
what was last stored to it, cut to its width (`load_store_self`), and a store
elsewhere does not disturb it (`load_store_disjoint`).  Both follow from the
fact that a word depends only on its own bytes (`load_congr`).
-/
namespace ByteImage

/-- The contents of a mapped file, one byte per offset. -/
abbrev Image := Nat → UInt8

/-- The image of a file nobody has written to. -/
def blank : Image := fun _ => 0

/-- The `k`-byte little-endian word at offset `a`. -/
def load (m : Image) (a : Nat) : Nat → Nat
  | 0 => 0
  | k + 1 => (m a).toNat + 256 * load m (a + 1) k

/-- Replaces the `k`-byte little-endian word at offset `a` by `v`. -/
def store (m : Image) (a k v : Nat) : Image :=
  fun x => if a ≤ x ∧ x < a + k then UInt8.ofNat (v / 256 ^ (x - a)) else m x

theorem store_apply_of_mem {m : Image} {a k v x : Nat} (h : a ≤ x) (h' : x < a + k) :
    store m a k v x = UInt8.ofNat (v / 256 ^ (x - a)) := if_pos ⟨h, h'⟩

theorem store_apply_of_notMem {m : Image} {a k v x : Nat} (h : x < a ∨ a + k ≤ x) :
    store m a k v x = m x := if_neg (by omega)

@[simp] theorem store_byte (m : Image) (a : Nat) (b : UInt8) :
    store m a 1 b.toNat a = b := by
  rw [store_apply_of_mem (Nat.le_refl a) (Nat.lt_succ_self a)]
  simp

/-- Storing zero clears the bytes. -/
theorem store_zero_apply {m : Image} {a k x : Nat} (h : a ≤ x) (h' : x < a + k) :
    store m a k 0 x = 0 := by
  rw [store_apply_of_mem h h', Nat.zero_div]
  rfl

/-- A store leaves the bytes outside its word alone. -/
theorem store_eqOn {m : Image} {a k v lo hi : Nat} (h : hi ≤ a ∨ a + k ≤ lo) :
    Set.EqOn (store m a k v) m (Set.Ico lo hi) := by
  intro x hx
  exact store_apply_of_notMem (by have := hx.1; have := hx.2; omega)

/-! ## Words -/

/-- A word depends only on its own bytes. -/
theorem load_congr {m m' : Image} {a k : Nat} (h : Set.EqOn m m' (Set.Ico a (a + k))) :
    load m a k = load m' a k := by
  induction k generalizing a with
  | zero => rfl
  | succ k ih =>
    have hhead : m a = m' a := h ⟨Nat.le_refl a, by omega⟩
    have htail : load m (a + 1) k = load m' (a + 1) k :=
      ih (h.mono (Set.Ico_subset_Ico (by omega) (by omega)))
    simp only [load, hhead, htail]

theorem load_lt (m : Image) (a k : Nat) : load m a k < 256 ^ k := by
  induction k generalizing a with
  | zero => simp [load]
  | succ k ih =>
    have hb : (m a).toNat < 256 := (m a).toNat_lt
    have := ih (a + 1)
    rw [load, Nat.pow_succ]
    omega

/-- A word of zero bytes is zero. -/
theorem load_eq_zero {m : Image} {a k : Nat} (h : ∀ x, a ≤ x → x < a + k → m x = 0) :
    load m a k = 0 := by
  induction k generalizing a with
  | zero => rfl
  | succ k ih =>
    have hhead : m a = 0 := h a (Nat.le_refl a) (by omega)
    have htail : load m (a + 1) k = 0 := ih fun x h1 h2 => h x (by omega) (by omega)
    rw [load, hhead, htail]
    rfl

theorem load_blank (a k : Nat) : load blank a k = 0 := load_eq_zero fun _ _ _ => rfl

/-- A store to another place leaves a word alone. -/
theorem load_store_disjoint {m : Image} {a k v b j : Nat} (h : b + j ≤ a ∨ a + k ≤ b) :
    load (store m a k v) b j = load m b j :=
  load_congr (store_eqOn h)

/-- The bytes of a stored word after its first are those of `v / 256`. -/
theorem store_succ_eqOn (m : Image) (a k v : Nat) :
    Set.EqOn (store m a (k + 1) v) (store m (a + 1) k (v / 256)) (Set.Ico (a + 1) (a + 1 + k)) := by
  intro x hx
  have h1 : a + 1 ≤ x := hx.1
  have h2 : x < a + 1 + k := hx.2
  obtain ⟨d, rfl⟩ := Nat.exists_eq_add_of_le h1
  rw [store_apply_of_mem (by omega) (by omega), store_apply_of_mem h1 h2,
    show a + 1 + d - a = d + 1 from by omega, show a + 1 + d - (a + 1) = d from by omega,
    Nat.pow_succ', Nat.div_div_eq_div_mul]

/-- **A word reads back what was stored to it**, cut to its width. -/
theorem load_store_self (m : Image) (a k v : Nat) :
    load (store m a k v) a k = v % 256 ^ k := by
  induction k generalizing a v with
  | zero => simp [load, Nat.mod_one]
  | succ k ih =>
    have hhead : (store m a (k + 1) v a).toNat = v % 256 := by
      rw [store_apply_of_mem (Nat.le_refl a) (by omega)]
      simp
    rw [load, hhead, load_congr (store_succ_eqOn m a k v), ih, Nat.pow_succ', Nat.mod_mul]

theorem load_store_self_of_lt {m : Image} {a k v : Nat} (h : v < 256 ^ k) :
    load (store m a k v) a k = v := by
  rw [load_store_self, Nat.mod_eq_of_lt h]

/-- A word inside a cleared range is zero. -/
theorem load_store_zero {m : Image} {a k b j : Nat} (h : a ≤ b) (h' : b + j ≤ a + k) :
    load (store m a k 0) b j = 0 :=
  load_eq_zero fun _ h1 h2 => store_zero_apply (by omega) (by omega)

end ByteImage
