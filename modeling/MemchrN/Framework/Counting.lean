import MemchrN.Framework.Matches
import MemchrN.Framework.SetBits

namespace MemchrN

variable {α : Type} {n : ℕ} (p : α → Bool)

/-- The matches in a list of arrays. -/
def countIn (cs : List (Vector α n)) : ℕ := (cs.map fun v => v.toList.countP p).sum

/-- The arrays that match in one lane. -/
def laneCount (cs : List (Vector α n)) (i : Fin n) : ℕ := cs.countP fun v => p (v.get i)

@[simp] theorem countIn_nil : countIn p ([] : List (Vector α n)) = 0 := rfl

theorem countIn_append (cs ds : List (Vector α n)) :
    countIn p (cs ++ ds) = countIn p cs + countIn p ds := by
  simp [countIn]

theorem countP_eq_sum (v : Vector α n) :
    v.toList.countP p = ∑ i : Fin n, if p (v.get i) then 1 else 0 := by
  have hsum (l : List α) : l.countP p = (l.map fun a => if p a then 1 else 0).sum := by
    induction l with
    | nil => rfl
    | cons a l ih => rw [List.countP_cons, ih, List.map_cons, List.sum_cons, Nat.add_comm]
  have hlist : v.toList.map (fun a => if p a then 1 else 0) =
      List.ofFn fun i : Fin n => if p (v.get i) then 1 else 0 := by
    refine List.ext_getElem (by simp) fun i hi hi' => ?_
    simp [Vector.get_eq_getElem]
  rw [hsum, hlist, List.sum_ofFn]

/-- Counting by lanes and counting by arrays agree. -/
theorem sum_laneCount (cs : List (Vector α n)) : ∑ i, laneCount p cs i = countIn p cs := by
  induction cs with
  | nil => simp [laneCount]
  | cons v cs ih =>
    simp only [laneCount, countIn, List.countP_cons, List.map_cons, List.sum_cons,
      Finset.sum_add_distrib] at ih ⊢
    rw [ih, countP_eq_sum, Nat.add_comm]

theorem laneCount_le (cs : List (Vector α n)) (i : Fin n) : laneCount p cs i ≤ cs.length :=
  List.countP_le_length

theorem laneCount_take_succ {cs : List (Vector α n)} {k : ℕ} (hk : k < cs.length) (i : Fin n) :
    laneCount p (cs.take (k + 1)) i = laneCount p (cs.take k) i + if p (cs[k].get i) then 1 else 0 := by
  rw [laneCount, List.take_succ_eq_append_getElem hk, List.countP_append, List.countP_singleton,
    laneCount]

/-- The matches of a slice: its full arrays, then the rest. -/
theorem countP_asChunks (n : ℕ) (xs : List α) :
    xs.countP p = countIn p (asChunks n xs).1 + (asChunks n xs).2.countP p := by
  conv_lhs => rw [← flatten_asChunks n xs]
  rw [List.countP_append, List.countP_flatten, List.map_map]
  rfl

theorem ncard_matchSet (xs : List α) : (matchSet p xs).ncard = xs.countP p := by
  have hset : matchSet p xs = ↑(xs.findIdxs p).toFinset := by
    ext o
    simp [← mem_findIdxs]
  rw [hset, Set.ncard_coe_finset, List.toFinset_card_of_nodup List.nodup_findIdxs,
    List.length_findIdxs]

theorem countOnes_eq_countP {w : ℕ} {x : BitVec w} {xs : List α} (h : bitSet x = matchSet p xs) :
    countOnes x = xs.countP p := by
  rw [← ncard_bitSet, h, ncard_matchSet]

section Chunks

variable {β : Type} {m : ℕ} {xs : List β}

theorem chunks_length_mul (hm : 0 < m) : xs.length ≤ (chunks m xs).length * m := by
  have h := Nat.lt_div_mul_add (a := xs.length + m - 1) hm
  rw [chunks, List.length_ofFn]
  omega

theorem take_chunks {i : ℕ} (hi : i < (chunks m xs).length) :
    xs.take ((i + 1) * m) = xs.take (i * m) ++ (chunks m xs)[i] := by
  rw [Nat.succ_mul, List.take_add]
  simp [chunks]

theorem length_of_mem_chunks {i : ℕ} (hi : i < (chunks m xs).length) :
    (chunks m xs)[i].length ≤ m := by
  simp [chunks]

end Chunks

end MemchrN
