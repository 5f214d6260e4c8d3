import Mathlib.Data.Int.Bitwise
import MiniC.Proofs.Preservation.Steps

/-! # Operators on integers of any size

The operators wrap around to 32 bits.  Without that a quotient is truncated, a comparison gives one
or zero, and an integer has infinitely many bits in two's complement.

The number above the greatest integer has the 32 bits of the least one, its negative.  Operators
that keep lower bits do not tell the two apart; a quotient, a remainder or a comparison mostly does.
-/
namespace MiniC
set_option autoImplicit false

namespace BinaryOp

/-- The result of an operator on integers without a bound. -/
def exact (op : BinaryOp) (a b : Int) : Int :=
  match op with
  | add => a + b
  | sub => a - b
  | mul => a * b
  | div => a.tdiv b
  | rem => a.tmod b
  | eq => if a = b then 1 else 0
  | ne => if a ≠ b then 1 else 0
  | lt => if a < b then 1 else 0
  | gt => if a > b then 1 else 0
  | le => if a ≤ b then 1 else 0
  | ge => if a ≥ b then 1 else 0
  | logicalAnd | bitAnd => a.land b
  | logicalOr | bitOr => a.lor b
  | xor => a.xor b

/-- There is no quotient, or it is too large. -/
def Traps (op : BinaryOp) (a b : Int32) : Prop :=
  (op = div ∧ (b = 0 ∨ (a = .minValue ∧ b = -1))) ∨ (op = rem ∧ b = 0)

instance (op : BinaryOp) (a b : Int32) : Decidable (op.Traps a b) :=
  inferInstanceAs (Decidable (_ ∨ _))

/-- Whether the lower bits of the operands settle those of the result. -/
def keepsLowBits : BinaryOp → Bool
  | add | sub | mul | logicalAnd | bitAnd | logicalOr | bitOr | xor => true
  | _ => false

end BinaryOp

theorem getLsbD_ofInt (w : Nat) (a : Int) (i : Nat) :
    (BitVec.ofInt w a).getLsbD i = (decide (i < w) && a.testBit i) := by
  cases a with
  | ofNat n => simp [Int.testBit, BitVec.getLsbD_ofNat]
  | negSucc n =>
    rw [BitVec.ofInt_negSucc_eq_not_ofNat, BitVec.getLsbD_not, BitVec.getLsbD_ofNat, Int.testBit]
    by_cases hi : i < w <;> simp [hi]

theorem Int32.ofInt_land (a b : Int) : Int32.ofInt (a.land b) = .ofInt a &&& .ofInt b := by
  apply Int32.toBitVec_inj.mp
  rw [Int32.toBitVec_and, Int32.toBitVec_ofInt, Int32.toBitVec_ofInt, Int32.toBitVec_ofInt]
  apply BitVec.eq_of_getLsbD_eq
  intro i hi
  simp only [BitVec.getLsbD_and, getLsbD_ofInt, Int.testBit_land, hi, decide_true, Bool.true_and]

theorem Int32.ofInt_lor (a b : Int) : Int32.ofInt (a.lor b) = .ofInt a ||| .ofInt b := by
  apply Int32.toBitVec_inj.mp
  rw [Int32.toBitVec_or, Int32.toBitVec_ofInt, Int32.toBitVec_ofInt, Int32.toBitVec_ofInt]
  apply BitVec.eq_of_getLsbD_eq
  intro i hi
  simp only [BitVec.getLsbD_or, getLsbD_ofInt, Int.testBit_lor, hi, decide_true, Bool.true_and]

theorem Int32.ofInt_lxor (a b : Int) : Int32.ofInt (a.xor b) = .ofInt a ^^^ .ofInt b := by
  apply Int32.toBitVec_inj.mp
  rw [Int32.toBitVec_xor, Int32.toBitVec_ofInt, Int32.toBitVec_ofInt, Int32.toBitVec_ofInt]
  apply BitVec.eq_of_getLsbD_eq
  intro i hi
  simp only [BitVec.getLsbD_xor, getLsbD_ofInt, Int.testBit_lxor, hi, decide_true, Bool.true_and]

namespace BinaryOp

/-- An operator wraps its exact result. -/
theorem evalInt_exact (op : BinaryOp) (a b : Int32) :
    op.evalInt a b =
      if op.Traps a b then throw .trap else pure (.i32 (.ofInt (op.exact a.toInt b.toInt))) := by
  have hBit (p : Prop) [Decidable p] :
      Value.ofBool (decide p) = .i32 (.ofInt (if p then 1 else 0)) := by
    by_cases hp : p <;> simp [Value.ofBool, hp]
  have hZero : b.toInt = 0 ↔ b = 0 := Int32.toInt_inj (y := 0)
  cases op with
  | div =>
    simp only [evalInt, hZero, div_traps_iff, Traps, exact, true_and, reduceCtorEq, false_and,
      or_false]
  | rem => simp only [evalInt, hZero, Traps, exact, true_and, reduceCtorEq, false_and, false_or]
  | _ =>
    simp only [evalInt, Traps, exact, hBit, Int32.ofInt_land, Int32.ofInt_lor, Int32.ofInt_lxor,
      Int32.ofInt_toInt, reduceCtorEq, false_and, or_false, if_false]

/-- Operators that keep lower bits may wrap their operands as well. -/
theorem exact_ofInt {op : BinaryOp} (h : op.keepsLowBits = true) (a b : Int) :
    Int32.ofInt (op.exact (Int32.ofInt a).toInt (Int32.ofInt b).toInt) =
      .ofInt (op.exact a b) := by
  cases op <;> cases h <;>
    simp only [exact, Int32.ofInt_add, Int32.ofInt_sub, Int32.ofInt_mul, Int32.ofInt_land,
      Int32.ofInt_lor, Int32.ofInt_lxor, Int32.ofInt_toInt]

/-- Whether the operator gives the same 32 bits for the number above the greatest integer and for
the least integer, with `d` on the right. -/
def SameAtLeast (op : BinaryOp) (d : Int32) : Prop :=
  match op with
  | div => d = 1
  | rem => d.toInt ∣ 0x80000000
  | lt | ge => d = .minValue
  | eq | ne => d ≠ .minValue
  | gt | le => False
  | _ => True

theorem ofInt_neg_eq_iff (q : Int) : Int32.ofInt (-q) = .ofInt q ↔ 0x80000000 ∣ q := by
  rw [← Int32.toInt_inj, Int32.toInt_ofInt, Int32.toInt_ofInt,
    Int.bmod_eq_bmod_iff_bmod_sub_eq_zero, ← Int.dvd_iff_bmod_eq_zero]
  change (4294967296 : Int) ∣ _ ↔ _
  omega

theorem tdiv_dvd_iff {e : Int} (hZero : e ≠ 0) (hOne : e ≠ -1) (hLow : -0x80000000 ≤ e)
    (hHigh : e < 0x80000000) : 0x80000000 ∣ (0x80000000 : Int).tdiv e ↔ e = 1 := by
  have hAbs : ((0x80000000 : Int).tdiv e).natAbs = 0x80000000 / e.natAbs := Int.natAbs_tdiv _ _
  constructor
  · intro h
    have hDvd : 0x80000000 ∣ 0x80000000 / e.natAbs := by
      rw [← hAbs]
      exact Int.natAbs_dvd_natAbs.mpr h
    by_contra hNe
    have hTwo : 2 ≤ e.natAbs := by omega
    have hLe : 0x80000000 / e.natAbs ≤ 0x80000000 / 2 := Nat.div_le_div_left hTwo (by decide)
    have hPos : 0 < 0x80000000 / e.natAbs := Nat.div_pos (by omega) (by omega)
    exact absurd (Nat.le_of_dvd hPos hDvd) (by omega)
  · rintro rfl
    decide

theorem tmod_dvd_iff {e : Int} (hZero : e ≠ 0) (hLow : -0x80000000 ≤ e) (hHigh : e < 0x80000000) :
    0x80000000 ∣ (0x80000000 : Int).tmod e ↔ e ∣ 0x80000000 := by
  have hAbs : ((0x80000000 : Int).tmod e).natAbs = 0x80000000 % e.natAbs := Int.natAbs_tmod _ _
  rw [Int.dvd_iff_tmod_eq_zero (a := e)]
  constructor
  · intro h
    have hDvd : 0x80000000 ∣ 0x80000000 % e.natAbs := by
      rw [← hAbs]
      exact Int.natAbs_dvd_natAbs.mpr h
    have hLt : 0x80000000 % e.natAbs < e.natAbs := Nat.mod_lt _ (by omega)
    have hNone := Nat.eq_zero_of_dvd_of_lt hDvd (by omega)
    exact Int.natAbs_eq_zero.mp (hAbs.trans hNone)
  · intro h
    rw [h]
    exact Int.dvd_zero _

theorem ofInt_bit_eq_iff (p q : Prop) [Decidable p] [Decidable q] :
    Int32.ofInt (if p then 1 else 0) = .ofInt (if q then 1 else 0) ↔ (p ↔ q) := by
  by_cases hp : p <;> by_cases hq : q <;> simp [hp, hq]

theorem sameAtLeast_iff {op : BinaryOp} {d : Int32} (h : ¬ op.Traps .minValue d) :
    Int32.ofInt (op.exact Int32.minValue.toInt d.toInt) = .ofInt (op.exact 0x80000000 d.toInt) ↔
      op.SameAtLeast d := by
  have hLow : -0x80000000 ≤ d.toInt := Int32.le_toInt d
  have hHigh : d.toInt < 0x80000000 := Int32.toInt_lt d
  have hZero : d = 0 ↔ d.toInt = 0 := Int32.toInt_inj.symm
  have hOne : d = 1 ↔ d.toInt = 1 := Int32.toInt_inj.symm
  have hMinusOne : d = -1 ↔ d.toInt = -1 := Int32.toInt_inj.symm
  have hLeast : d = .minValue ↔ d.toInt = -0x80000000 := Int32.toInt_inj.symm
  have hWrapped (hKeeps : op.keepsLowBits = true) :
      Int32.ofInt (op.exact Int32.minValue.toInt d.toInt) =
        .ofInt (op.exact 0x80000000 d.toInt) := by
    have hExact := exact_ofInt hKeeps 0x80000000 d.toInt
    rwa [Int32.ofInt_toInt] at hExact
  rw [show Int32.minValue.toInt = -0x80000000 from rfl] at hWrapped ⊢
  cases op with
  | div =>
    simp only [Traps, true_and, hZero, hMinusOne, reduceCtorEq, false_and, or_false, not_or] at h
    rw [exact, exact, Int.neg_tdiv, ofInt_neg_eq_iff, SameAtLeast, hOne]
    exact tdiv_dvd_iff h.1 h.2 hLow hHigh
  | rem =>
    simp only [Traps, true_and, hZero, reduceCtorEq, false_and, false_or] at h
    rw [exact, exact, Int.neg_tmod, ofInt_neg_eq_iff, SameAtLeast]
    exact tmod_dvd_iff h hLow hHigh
  | eq | ne | lt | gt | le | ge =>
    simp only [exact, ofInt_bit_eq_iff, SameAtLeast, hLeast]
    grind
  | _ => exact iff_true_intro (hWrapped rfl)

/-- Where an operation on a literal, whose 32 bits are read as an integer, is the one on the number
that is written. -/
theorem neg_exact_eq_iff {op : BinaryOp} {n : Nat} (hn : n ≤ 0x80000000) {d : Int32}
    (h : ¬ op.Traps (.ofNat n) d) :
    -Int32.ofInt (op.exact (Int32.ofNat n).toInt d.toInt) = .ofInt (-op.exact n d.toInt) ↔
      n < 0x80000000 ∨ op.SameAtLeast d := by
  rw [Int32.ofInt_neg, Int32.neg_inj]
  rcases Nat.lt_or_eq_of_le hn with hLess | rfl
  · rw [Int32.toInt_ofNat_of_lt hLess]
    exact iff_of_true rfl (.inl hLess)
  · rw [or_iff_right (Nat.lt_irrefl _)]
    exact sameAtLeast_iff h

end BinaryOp

end MiniC
