import Mathlib.Logic.Function.Basic
import Mathlib.Tactic.Common

/-! # Mixing words

The steps that hash functions on machine words are made of: rotation, `x ^= x >> s`,
multiplication by an odd number.  Each can be undone.
-/
namespace WordMixing
variable {w : Nat}

/-- A rotation moves bits around. -/
theorem rotateLeft_injective (r : Nat) : Function.Injective fun x : BitVec w => x.rotateLeft r := by
  intro x y h
  refine BitVec.eq_of_getLsbD_eq fun i hi => ?_
  -- where the bit `i` has gone to
  have hr : r % w < w := Nat.mod_lt _ (by omega)
  by_cases hlow : i < w - r % w
  · have hbit := congrArg (fun z : BitVec w => z.getLsbD (i + r % w)) h
    have hwrap : ¬i + r % w < r % w := by omega
    simpa [BitVec.getLsbD_rotateLeft, hwrap, hi, show i + r % w < w by omega] using hbit
  · have hbit := congrArg (fun z : BitVec w => z.getLsbD (i - (w - r % w))) h
    have hback : w - r % w + (i - (w - r % w)) = i := by omega
    simpa [BitVec.getLsbD_rotateLeft, show i - (w - r % w) < r % w by omega, hback] using hbit

/-- The highest bits survive `x ^= x >> s`, and with them each lower one is known. -/
theorem xorShift_injective {s : Nat} (hs : 0 < s) :
    Function.Injective fun x : BitVec w => x ^^^ (x >>> s) := by
  intro x y h
  have hbit : ∀ i, (x.getLsbD i ^^ x.getLsbD (s + i)) =
      (y.getLsbD i ^^ y.getLsbD (s + i)) := fun i => by
    simpa using congrArg (fun z : BitVec w => z.getLsbD i) h
  have hall : ∀ n i, w ≤ i + n → x.getLsbD i = y.getLsbD i := by
    intro n
    induction n with
    | zero =>
      intro i hi
      rw [BitVec.getLsbD_of_ge x i hi, BitVec.getLsbD_of_ge y i hi]
    | succ n ih =>
      intro i hi
      have hhigh := ih (s + i) (by omega)
      have hxor := hbit i
      rw [hhigh] at hxor
      exact Bool.xor_left_inj.mp hxor
  exact BitVec.eq_of_getLsbD_eq fun i _ => hall w i (Nat.le_add_left _ _)

/-- So is a multiplication, by the inverse. -/
theorem mul_injective {c d : BitVec w} (h : c * d = 1) :
    Function.Injective fun x : BitVec w => x * c := by
  intro x y hxy
  have hd := congrArg (fun z : BitVec w => z * d) hxy
  simp only [BitVec.mul_assoc, h] at hd
  simpa using hd

end WordMixing
