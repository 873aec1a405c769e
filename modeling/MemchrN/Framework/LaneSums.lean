import MemchrN.Framework.Counting

namespace MemchrN

variable {w n : ℕ}

/-- The exact sum of the lanes. -/
def laneSum (v : Vector (BitVec w) n) : ℕ := ∑ i : Fin n, (v.get i).toNat

/-- Lane-wise addition and the sum of all lanes, both wrapping. -/
def laneAdd (u v : Vector (BitVec w) n) : Vector (BitVec w) n := u.zipWith (· + ·) v

def reduceSum (v : Vector (BitVec w) n) : BitVec w := v.toList.foldl (· + ·) 0

theorem laneSum_le (v : Vector (BitVec w) n) : laneSum v ≤ n * (2 ^ w - 1) := by
  have h := Finset.sum_le_card_nsmul Finset.univ (fun i : Fin n => (v.get i).toNat) (2 ^ w - 1)
    fun i _ => Nat.le_sub_one_of_lt (v.get i).isLt
  rwa [Finset.card_univ, Fintype.card_fin, smul_eq_mul] at h

theorem laneSum_eq_list (v : Vector (BitVec w) n) :
    laneSum v = (v.toList.map BitVec.toNat).sum := by
  have hlist : v.toList.map BitVec.toNat = List.ofFn fun i : Fin n => (v.get i).toNat := by
    refine List.ext_getElem (by simp) fun i hi hi' => ?_
    simp [Vector.get_eq_getElem]
  rw [hlist, List.sum_ofFn, laneSum]

/-- A sum that wraps only at the end is the sum modulo the lane size. -/
theorem toNat_reduceSum (v : Vector (BitVec w) n) : (reduceSum v).toNat = laneSum v % 2 ^ w := by
  have hfold (l : List (BitVec w)) (acc : BitVec w) : (l.foldl (· + ·) acc).toNat =
      (acc.toNat + (l.map BitVec.toNat).sum) % 2 ^ w := by
    induction l generalizing acc with
    | nil => rw [List.foldl_nil, List.map_nil, List.sum_nil, Nat.add_zero, Nat.mod_eq_of_lt acc.isLt]
    | cons x l ih =>
      rw [List.foldl_cons, ih, BitVec.toNat_add, Nat.mod_add_mod, List.map_cons, List.sum_cons,
        Nat.add_assoc]
  rw [reduceSum, hfold, ← laneSum_eq_list]
  simp

theorem toNat_get_laneAdd {u v : Vector (BitVec w) n} {i : Fin n}
    (hfit : (u.get i).toNat + (v.get i).toNat < 2 ^ w) :
    ((laneAdd u v).get i).toNat = (u.get i).toNat + (v.get i).toNat := by
  have hlane : ((laneAdd u v).get i).toNat = ((u.get i).toNat + (v.get i).toNat) % 2 ^ w := by
    simp [laneAdd, Vector.get_eq_getElem]
  rw [hlane, Nat.mod_eq_of_lt hfit]

theorem laneSum_laneAdd (u v : Vector (BitVec w) n) :
    laneSum (laneAdd u v) % 2 ^ w = (laneSum u + laneSum v) % 2 ^ w := by
  have hlane (i : Fin n) :
      ((laneAdd u v).get i).toNat = ((u.get i).toNat + (v.get i).toNat) % 2 ^ w := by
    simp [laneAdd, Vector.get_eq_getElem]
  simp only [laneSum, hlane]
  rw [← Finset.sum_nat_mod, Finset.sum_add_distrib]

/-- Four vectors folded into one and summed; nothing wraps when the exact sum fits a lane. -/
theorem toNat_reduceSum_four (a b c d : Vector (BitVec w) n)
    (hfit : laneSum a + laneSum b + (laneSum c + laneSum d) < 2 ^ w) :
    (reduceSum (laneAdd (laneAdd a b) (laneAdd c d))).toNat =
      laneSum a + laneSum b + (laneSum c + laneSum d) := by
  rw [toNat_reduceSum, laneSum_laneAdd, Nat.add_mod, laneSum_laneAdd, laneSum_laneAdd,
    ← Nat.add_mod, Nat.mod_eq_of_lt hfit]

theorem toNat_reduceSum_two (a b : Vector (BitVec w) n) (hfit : laneSum a + laneSum b < 2 ^ w) :
    (reduceSum (laneAdd a b)).toNat = laneSum a + laneSum b := by
  rw [toNat_reduceSum, laneSum_laneAdd, Nat.mod_eq_of_lt hfit]

end MemchrN
