import Mathlib

/-!
# Newton's iteration for the integer square root

The iteration `x ↦ (x + n / x) / 2` from a start above the root descends until
it reaches `Nat.sqrt n`, and does not descend further.  Its error is roughly
squared in each round, so the number of rounds grows with the logarithm of the
length of the root.
-/

namespace ClAmiga.Radix

def newtonStep (n x : Nat) : Nat :=
  (x + n / x) / 2

/-- The iteration, stopped after so many rounds or when it does not descend. -/
def newtonLoop (n : Nat) : Nat → Nat → Nat
  | 0, x => x
  | rounds + 1, x =>
      if x ≤ newtonStep n x then x else newtonLoop n rounds (newtonStep n x)

variable {n x : Nat}

theorem sqrt_le_newtonStep (positive : 0 < x) : n.sqrt ≤ newtonStep n x := by
  have square : n.sqrt * n.sqrt ≤ n := Nat.sqrt_le n
  have quotient : 2 * n.sqrt - x ≤ n / x := by
    rw [Nat.le_div_iff_mul_le positive]
    apply le_trans _ square
    by_cases small : 2 * n.sqrt ≤ x
    · rw [Nat.sub_eq_zero_of_le small, Nat.zero_mul]
      exact Nat.zero_le _
    · obtain ⟨rest, total⟩ : ∃ rest, 2 * n.sqrt = x + rest :=
        ⟨2 * n.sqrt - x, by omega⟩
      have difference : 2 * n.sqrt - x = rest := by omega
      rw [difference]
      nlinarith [sq_nonneg ((n.sqrt : Int) - x), sq_nonneg ((x : Int) - rest)]
  unfold newtonStep
  omega

theorem eq_sqrt_of_le_newtonStep (positive : 0 < x) (above : n.sqrt ≤ x)
    (stops : x ≤ newtonStep n x) : x = n.sqrt := by
  have quotient : x ≤ n / x := by
    unfold newtonStep at stops
    omega
  have square : x * x ≤ n := (Nat.le_div_iff_mul_le positive).mp quotient
  exact Nat.le_antisymm (Nat.le_sqrt.mpr square) above

theorem newtonStep_error (root error next : Nat)
    (isRoot : n.sqrt = root) (step : newtonStep n (root + error) = root + next) :
    2 * (root + error) * next ≤ error * error + 2 * root := by
  have upper : n ≤ root * root + 2 * root := by
    have below := Nat.lt_succ_sqrt n
    rw [isRoot] at below
    simp only [Nat.succ_eq_add_one] at below
    have expanded : (root + 1) * (root + 1) = root * root + 2 * root + 1 := by
      ring
    omega
  have doubled : 2 * (root + next) ≤ root + error + n / (root + error) := by
    unfold newtonStep at step
    omega
  have scaled : 2 * (root + next) * (root + error) ≤ (root + error) * (root + error) + n := by
    calc
      2 * (root + next) * (root + error) ≤ (root + error + n / (root + error)) * (root + error) :=
        Nat.mul_le_mul_right _ doubled
      _ = (root + error) * (root + error) +
            n / (root + error) * (root + error) := Nat.add_mul _ _ _
      _ ≤ (root + error) * (root + error) + n :=
        Nat.add_le_add_left (Nat.div_mul_le_self _ _) _
  nlinarith

theorem newtonLoop_of_close (rounds : Nat) (positive : 0 < n)
    (above : n.sqrt ≤ x) (close : x - n.sqrt < rounds) :
    newtonLoop n rounds x = n.sqrt := by
  have rootPositive : 0 < n.sqrt := Nat.sqrt_pos.mpr positive
  induction rounds generalizing x with
  | zero => omega
  | succ rounds induction =>
      rw [newtonLoop]
      split
      · rename_i stops
        exact eq_sqrt_of_le_newtonStep (by omega) above stops
      · have below := sqrt_le_newtonStep (n := n) (x := x) (by omega)
        exact induction below (by omega)

/-- One round squares the precision `2 ^ bits`, up to an error of four. -/
theorem newton_precision {root error next bits : Nat} (large : 8 ≤ root) (atLeastOne : 1 ≤ bits)
    (precise : 2 ^ bits * error ≤ root + 4 * 2 ^ bits)
    (step : 2 * (root + error) * next ≤ error * error + 2 * root) :
    2 ^ (2 * bits + 1) * next ≤ root + 4 * 2 ^ (2 * bits + 1) := by
  have base : 2 ≤ 2 ^ bits := by
    calc
      2 = 2 ^ 1 := rfl
      _ ≤ 2 ^ bits := Nat.pow_le_pow_right (by omega) atLeastOne
  have squared : 2 ^ (2 * bits + 1) = 2 * (2 ^ bits * 2 ^ bits) := by
    rw [pow_succ, two_mul, pow_add]
    ring
  rw [squared]
  generalize 2 ^ bits = scale at base precise ⊢
  have errorSquare : scale * error * (scale * error) ≤ (root + 4 * scale) * (root + 4 * scale) :=
    Nat.mul_le_mul precise precise
  have byRoot : root * (2 * (scale * scale) * next) ≤
      root * (root + 4 * (2 * (scale * scale))) := by
    calc
      root * (2 * (scale * scale) * next) ≤ scale * scale * (2 * (root + error) * next) := by
        have grow : root * next ≤ (root + error) * next :=
          Nat.mul_le_mul_right _ (Nat.le_add_right _ _)
        calc
          root * (2 * (scale * scale) * next)
              = 2 * (scale * scale) * (root * next) := by ring
          _ ≤ 2 * (scale * scale) * ((root + error) * next) :=
            Nat.mul_le_mul_left _ grow
          _ = scale * scale * (2 * (root + error) * next) := by ring
      _ ≤ scale * scale * (error * error + 2 * root) :=
        Nat.mul_le_mul_left _ step
      _ = scale * error * (scale * error) + 2 * (scale * scale) * root := by
        ring
      _ ≤ (root + 4 * scale) * (root + 4 * scale) +
            2 * (scale * scale) * root := Nat.add_le_add_right errorSquare _
      _ = root * root + (8 * (root * scale) + 16 * (scale * scale) +
            2 * (scale * scale * root)) := by ring
      _ ≤ root * root + 8 * (scale * scale * root) := by
        have linear : 2 * (root * scale) ≤ scale * (root * scale) :=
          Nat.mul_le_mul_right _ base
        have constant : 8 * (scale * scale) ≤ root * (scale * scale) :=
          Nat.mul_le_mul_right _ large
        have shape : scale * (root * scale) = scale * scale * root := by ring
        have shape' : root * (scale * scale) = scale * scale * root := by ring
        omega
      _ = root * (root + 4 * (2 * (scale * scale))) := by ring
  exact Nat.le_of_mul_le_mul_left byRoot (by omega)

/-- With precision `2 ^ bits` to start from, the length of the root is reached
after `doublings` rounds, and at most five more find it. -/
theorem newtonLoop_of_precise {length : Nat} (doublings rounds bits : Nat)
    (large : 8 ≤ n.sqrt) (short : n.sqrt < 2 ^ length) (above : n.sqrt ≤ x)
    (atLeastOne : 1 ≤ bits)
    (precise : 2 ^ bits * (x - n.sqrt) ≤ n.sqrt + 4 * 2 ^ bits)
    (reaches : length < (bits + 1) * 2 ^ doublings)
    (enough : doublings + 5 ≤ rounds) : newtonLoop n rounds x = n.sqrt := by
  have positive : 0 < n := Nat.sqrt_pos.mp (by omega)
  induction doublings generalizing x rounds bits with
  | zero =>
      have scale : n.sqrt < 2 ^ bits :=
        short.trans_le (Nat.pow_le_pow_right (by omega) (by omega))
      have few : x - n.sqrt < 5 := by
        have bounded : 2 ^ bits * (x - n.sqrt) < 2 ^ bits * 5 := by omega
        exact Nat.lt_of_mul_lt_mul_left bounded
      exact newtonLoop_of_close rounds positive above (by omega)
  | succ doublings induction =>
      obtain ⟨rounds, rfl⟩ : ∃ pred, rounds = pred + 1 :=
        ⟨rounds - 1, by omega⟩
      rw [newtonLoop]
      split
      · rename_i stops
        exact eq_sqrt_of_le_newtonStep (by omega) above stops
      · have below := sqrt_le_newtonStep (n := n) (x := x) (by omega)
        have step := newtonStep_error n.sqrt (x - n.sqrt) (newtonStep n x - n.sqrt) rfl
          (by rw [Nat.add_sub_cancel' above, Nat.add_sub_cancel' below])
        apply induction rounds (2 * bits + 1) below (by omega)
          (newton_precision large atLeastOne precise step) _ (by omega)
        calc
          length < (bits + 1) * 2 ^ (doublings + 1) := reaches
          _ = (2 * bits + 1 + 1) * 2 ^ doublings := by ring

/-- From a start of at most twice the root, every root of fewer than
`2 ^ (doublings + 1)` bits is found within `doublings + 12` rounds. -/
theorem newtonLoop_eq_sqrt {length : Nat} (doublings rounds : Nat)
    (positive : 0 < n) (short : n.sqrt < 2 ^ length)
    (reaches : length < 2 ^ (doublings + 1)) (above : n.sqrt ≤ x)
    (start : x ≤ 2 * n.sqrt) (enough : doublings + 12 ≤ rounds) :
    newtonLoop n rounds x = n.sqrt := by
  by_cases large : 8 ≤ n.sqrt
  · obtain ⟨rounds, rfl⟩ : ∃ pred, rounds = pred + 1 :=
      ⟨rounds - 1, by omega⟩
    rw [newtonLoop]
    split
    · rename_i stops
      exact eq_sqrt_of_le_newtonStep (by omega) above stops
    · have below := sqrt_le_newtonStep (n := n) (x := x) (by omega)
      have step := newtonStep_error n.sqrt (x - n.sqrt) (newtonStep n x - n.sqrt) rfl
        (by rw [Nat.add_sub_cancel' above, Nat.add_sub_cancel' below])
      have half : 2 ^ 1 * (newtonStep n x - n.sqrt) ≤ n.sqrt + 4 * 2 ^ 1 := by
        generalize newtonStep n x - n.sqrt = next at step ⊢
        obtain ⟨error, rfl⟩ := Nat.exists_eq_add_of_le above
        rw [Nat.add_sub_cancel_left] at step
        have errorSmall : error ≤ n.sqrt := by omega
        have square : error * error ≤ n.sqrt * n.sqrt :=
          Nat.mul_le_mul errorSmall errorSmall
        have scaled : n.sqrt * (2 * next) ≤ n.sqrt * (n.sqrt + 8) := by
          have grow : n.sqrt * next ≤ (n.sqrt + error) * next :=
            Nat.mul_le_mul_right _ (Nat.le_add_right _ _)
          nlinarith
        have := Nat.le_of_mul_le_mul_left scaled (by omega)
        omega
      apply newtonLoop_of_precise doublings rounds 1 large short below le_rfl half _ (by omega)
      rw [← pow_succ']
      exact reaches
  · exact newtonLoop_of_close rounds positive above (by omega)

end ClAmiga.Radix
