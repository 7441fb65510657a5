import Mathlib.Tactic

/-! Rounding of naturals to doubles: to the nearest value with a significand of 53 bits, the even
one of two. Products and quotients with powers of two are exact. -/
namespace Float64

/-- The distance of neighbouring doubles from `n` on: `1` below `2 ^ 53`. -/
def ulp (n : ℕ) : ℕ := 2 ^ (n.log2-52)

def round (n : ℕ) : ℕ :=
  let q := n / ulp n
  let r := n % ulp n
  if 2*r < ulp n ∨ 2*r = ulp n ∧ q % 2 = 0 then q*ulp n else (q+1)*ulp n

example : round (2^53+1) = 2^53 := by decide

example : round (2^53+3) = 2^53+4 := by decide

theorem ulp_eq_one {n : ℕ} (h : n < 2^53) : ulp n = 1 := by
  rcases Nat.eq_zero_or_pos n with rfl | hn
  · rfl
  · have : n.log2 < 53 := (Nat.log2_lt hn.ne').mpr h
    rw [ulp,Nat.sub_eq_zero_of_le (by omega),pow_zero]

theorem round_eq_self {n : ℕ} (h : n ≤ 2^53) : round n = n := by
  rcases h.lt_or_eq with h | rfl
  · simp [round,ulp_eq_one h,Nat.mod_one]
  · decide

/-- `math.ceil` of a quotient. -/
def ceilDiv (n d : ℕ) : ℕ := (n+(d-1)) / d

end Float64
