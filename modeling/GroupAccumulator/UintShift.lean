import GroupAccumulator.UintValue

/-!
# Shifts of fixed-width integers

`<<=` and `>>=` cut the amount into counts of at most a limb and hand each to GMP.
`shiftCounts` are these counts (`shlLoop_eq_foldl`, `shrLoop_eq_foldl`).  GMP shifts by
1 to 63 bits; a count of 64 is outside of that, and the result is whatever the
processor makes of it.  So amounts below a limb are shifted in one call, and all others
begin with a call GMP does not specify.
-/

namespace GroupAccumulator

open Theory

namespace Uint

variable (G : Gmp) {w : ℕ}

/-! ## The calls -/

/-- The counts a shift by `x` hands to GMP, in order. -/
def shiftCounts (x : ℕ) : List ℕ :=
  if _h : x ≠ 0 then
    let sz := min 64 x
    sz :: shiftCounts (x - sz)
  else []
termination_by x

theorem shiftCounts_zero : shiftCounts 0 = [] := by
  rw [shiftCounts, dif_neg (not_not.mpr rfl)]

theorem shiftCounts_of_pos {x : ℕ} (positive : 0 < x) :
    shiftCounts x = min 64 x :: shiftCounts (x - min 64 x) := by
  rw [shiftCounts, dif_pos positive.ne']

/-- One count for amounts up to a limb. -/
theorem shiftCounts_of_le {x : ℕ} (positive : 0 < x) (small : x ≤ 64) : shiftCounts x = [x] := by
  rw [shiftCounts_of_pos positive, Nat.min_eq_right small, Nat.sub_self, shiftCounts_zero]

/-- Amounts from a limb on begin with a count of 64. -/
theorem mem_shiftCounts_of_ge {x : ℕ} (large : 64 ≤ x) : 64 ∈ shiftCounts x := by
  rw [shiftCounts_of_pos (by omega), Nat.min_eq_left large]
  exact List.mem_cons_self

/-- A loop that takes the counts off one after the other folds over them. -/
theorem foldl_shiftCounts {loop : Limbs w → ℕ → Limbs w} {call : Limbs w → ℕ → Limbs w}
    (done : ∀ limbs, loop limbs 0 = limbs)
    (turn : ∀ limbs x, 0 < x → loop limbs x = loop (call limbs (min 64 x)) (x - min 64 x))
    (limbs : Limbs w) (x : ℕ) : loop limbs x = (shiftCounts x).foldl call limbs := by
  induction x using Nat.strong_induction_on generalizing limbs with
  | _ x ih =>
    rcases Nat.eq_zero_or_pos x with rfl | positive
    · rw [done, shiftCounts_zero, List.foldl_nil]
    · rw [turn limbs x positive, shiftCounts_of_pos positive, List.foldl_cons]
      exact ih _ (by omega) _

theorem shlLoop_eq_foldl (limbs : Limbs w) (x : ℕ) :
    shlLoop G limbs x = (shiftCounts x).foldl
      (fun limbs sz => BitVec.ofNat (64 * w) (G.mpnLshift w limbs.toNat sz)) limbs := by
  refine foldl_shiftCounts (fun limbs => ?_) (fun limbs x positive => ?_) limbs x
  · rw [shlLoop, dif_neg (not_not.mpr rfl)]
  · rw [shlLoop, dif_pos positive.ne']

theorem shrLoop_eq_foldl (limbs : Limbs w) (x : ℕ) :
    shrLoop G limbs x = (shiftCounts x).foldl
      (fun limbs sz => BitVec.ofNat (64 * w) (G.mpnRshift w limbs.toNat sz)) limbs := by
  refine foldl_shiftCounts (fun limbs => ?_) (fun limbs x positive => ?_) limbs x
  · rw [shrLoop, dif_neg (not_not.mpr rfl)]
  · rw [shrLoop, dif_pos positive.ne']

/-! ## Amounts below a limb -/

/-- Both shifts by `k` are those of the number, and GMP is called within its bounds. -/
def ShiftsBy (x : Uint w) (k : ℕ) : Prop :=
  shl G x k = ofNat w (x.toNat * 2 ^ k % 2 ^ (64 * w)) ∧ shr G x k = ofNat w (x.toNat / 2 ^ k) ∧
    ∀ count ∈ shiftCounts k, 1 ≤ count ∧ count ≤ 63

theorem shiftsBy_zero {x : Uint w} (hx : Normal x) : ShiftsBy G x 0 := by
  have left : shl G x 0 = x := by
    rw [shl, shlLoop_eq_foldl, shiftCounts_zero, List.foldl_nil]
    exact hx.eq_ofNat ▸ rfl
  have right : shr G x 0 = x := by
    rw [shr, shrLoop_eq_foldl, shiftCounts_zero, List.foldl_nil]
    exact hx.eq_ofNat ▸ rfl
  refine ⟨?_, ?_, ?_⟩
  · rw [left, pow_zero, Nat.mul_one, Nat.mod_eq_of_lt x.toNat_lt]
    exact hx.eq_ofNat
  · rw [right, pow_zero, Nat.div_one]
    exact hx.eq_ofNat
  · rw [shiftCounts_zero]
    intro count never
    cases never

theorem shiftsBy_of_le {x : Uint w} (hx : Normal x) {k : ℕ} (small : k ≤ 63) : ShiftsBy G x k := by
  rcases Nat.eq_zero_or_pos k with rfl | positive
  · exact shiftsBy_zero G hx
  · refine ⟨?_, ?_, ?_⟩
    · rw [← shl_ofNat G x.toNat_lt positive small, ← hx.eq_ofNat]
    · rw [← shr_ofNat G x.toNat_lt positive small, ← hx.eq_ofNat]
    · rw [shiftCounts_of_le positive (by omega)]
      intro count member
      rw [List.mem_singleton.mp member]
      exact ⟨positive, small⟩

/-- A shift makes the calls of `shiftCounts`, and is right with all of them admissible
exactly for amounts below a limb. -/
theorem shiftsBy_iff (G : Gmp) :
    (∀ {w : ℕ} (limbs : Limbs w) (k : ℕ),
      shlLoop G limbs k = (shiftCounts k).foldl
          (fun limbs sz => BitVec.ofNat (64 * w) (G.mpnLshift w limbs.toNat sz)) limbs ∧
        shrLoop G limbs k = (shiftCounts k).foldl
          (fun limbs sz => BitVec.ofNat (64 * w) (G.mpnRshift w limbs.toNat sz)) limbs) ∧
    ∀ {w : ℕ} (x : Uint w), Normal x → ∀ k : ℕ, ShiftsBy G x k ↔ k ≤ 63 := by
  refine ⟨fun limbs k => ⟨shlLoop_eq_foldl G limbs k, shrLoop_eq_foldl G limbs k⟩, ?_⟩
  intro w x hx k
  refine ⟨fun shifts => ?_, shiftsBy_of_le G hx⟩
  by_contra large
  have admissible := shifts.2.2 64 (mem_shiftCounts_of_ge (by omega))
  omega

/-! ## A limb at once -/

/-- A GMP that shifts as most processors do: by the count modulo the limb. -/
def maskedGmp : Gmp :=
  { Gmp.reference with
    mpnLshift := fun n a count => a * 2 ^ (count % 64) % 2 ^ (64 * n)
    mpnRshift := fun _ a count => a / 2 ^ (count % 64)
    lshift_eq := fun {_ _ count} _ _ small => by
      have kept : count % 64 = count := Nat.mod_eq_of_lt (by omega)
      rw [kept]
    rshift_eq := fun {_ _ count} _ _ small => by
      have kept : count % 64 = count := Nat.mod_eq_of_lt (by omega)
      rw [kept] }

/-- A shift by 64 calls GMP with a count of 64; one shifted left by a limb may stay one. -/
theorem shl_limb_unspecified :
    (∀ G : Gmp, ¬ ShiftsBy G (one : U256) 64) ∧ shiftCounts 64 = [64] ∧
      shl maskedGmp (one : U256) 64 = one ∧ (ofNat 4 (2 ^ 64) : U256) ≠ one := by
  have single : shiftCounts 64 = [64] := shiftCounts_of_le (by omega) le_rfl
  refine ⟨fun G shifts => ?_, single, ?_, by decide⟩
  · have admissible := shifts.2.2 64 (mem_shiftCounts_of_ge le_rfl)
    omega
  · rw [shl, shlLoop_eq_foldl, single]
    decide

end Uint

end GroupAccumulator
