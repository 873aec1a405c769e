import Mathlib.Tactic.Linarith

namespace MemchrN

/-- A scan up to `stop` goes block by block, each as wide as `width` makes it of what is left. -/
def blockEnd (width : ℕ → ℕ) (stop a : ℕ) : ℕ := a + width (stop - a)

/-- Position `a` starts a block of the scan that began at `start`. -/
inductive StartsBlock (width : ℕ → ℕ) (stop start : ℕ) : ℕ → Prop
  | first : StartsBlock width stop start start
  | next {a : ℕ} (h : StartsBlock width stop start a) :
    StartsBlock width stop start (blockEnd width stop a)

/-- What is left is cut into `blocks` of it: every block takes something and lowers the number. -/
structure Cuts (width blocks : ℕ → ℕ) : Prop where
  width_zero : width 0 = 0
  width_le : ∀ left, width left ≤ left
  blocks_eq : ∀ left, 0 < left → blocks (left - width left) + 1 = blocks left

variable {width blocks : ℕ → ℕ} {stop start a b : ℕ}

theorem StartsBlock.le (h : StartsBlock width stop start a) : start ≤ a := by
  induction h with
  | first => exact le_rfl
  | next _ ih => exact ih.trans (Nat.le_add_right _ _)

/-- A scan that began at a block's start goes on along the same blocks. -/
theorem StartsBlock.trans (h : StartsBlock width stop start a) (h' : StartsBlock width stop a b) :
    StartsBlock width stop start b := by
  induction h' with
  | first => exact h
  | next _ ih => exact ih.next

/-- Behind the first block come the others. -/
theorem StartsBlock.head (h : StartsBlock width stop start a) :
    a = start ∨ StartsBlock width stop (blockEnd width stop start) a := by
  induction h with
  | first => exact .inl rfl
  | next _ ih =>
    rcases ih with rfl | ih
    · exact .inr .first
    · exact .inr ih.next

/-- Of two blocks one is behind the other. -/
theorem StartsBlock.total (ha : StartsBlock width stop start a) (hb : StartsBlock width stop start b) :
    StartsBlock width stop a b ∨ StartsBlock width stop b a := by
  induction ha with
  | first => exact .inl hb
  | next _ ih =>
    rcases ih with hab | hba
    · rcases hab.head with rfl | hab
      · exact .inr (.next .first)
      · exact .inl hab
    · exact .inr hba.next

/-- A position lies in one block only. -/
theorem StartsBlock.unique (ha : StartsBlock width stop start a) (hb : StartsBlock width stop start b)
    {o : ℕ} (hoa : a ≤ o) (hao : o < blockEnd width stop a) (hob : b ≤ o)
    (hbo : o < blockEnd width stop b) : a = b := by
  rcases ha.total hb with hab | hba
  · rcases hab.head with rfl | hab
    · rfl
    · exact absurd hab.le (by omega)
  · rcases hba.head with rfl | hba
    · rfl
    · exact absurd hba.le (by omega)

theorem Cuts.blockEnd_le (h : Cuts width blocks) (ha : a ≤ stop) :
    blockEnd width stop a ≤ stop := by
  have := h.width_le (stop - a)
  rw [blockEnd]
  omega

theorem Cuts.blockEnd_stop (h : Cuts width blocks) : blockEnd width stop stop = stop := by
  rw [blockEnd, Nat.sub_self, h.width_zero, Nat.add_zero]

theorem Cuts.start_le (h : Cuts width blocks) (ha : StartsBlock width stop start a)
    (hstart : start ≤ stop) : a ≤ stop := by
  induction ha with
  | first => exact hstart
  | next _ ih => exact h.blockEnd_le ih

/-- The block behind `a` is one fewer. -/
theorem Cuts.blocks_blockEnd (h : Cuts width blocks) (ha : a < stop) :
    blocks (stop - blockEnd width stop a) + 1 = blocks (stop - a) := by
  rw [← h.blocks_eq (stop - a) (Nat.sub_pos_of_lt ha), blockEnd, Nat.sub_add_eq]

theorem Cuts.blocks_blockEnd_le (h : Cuts width blocks) (ha : a ≤ stop) :
    blocks (stop - blockEnd width stop a) ≤ blocks (stop - a) := by
  rcases ha.lt_or_eq with hlt | rfl
  · have := h.blocks_blockEnd hlt
    omega
  · rw [h.blockEnd_stop]

/-- Any number of blocks passed over, and one more, lower the number of those left. -/
theorem Cuts.blocks_lt (h : Cuts width blocks) (hstart : start < stop)
    (ha : StartsBlock width stop start a) :
    blocks (stop - blockEnd width stop a) < blocks (stop - start) := by
  induction ha with
  | first =>
    have := h.blocks_blockEnd hstart
    omega
  | next ha ih =>
    have hle := h.blockEnd_le (h.start_le ha hstart.le)
    exact (h.blocks_blockEnd_le hle).trans_lt ih

/-- The end is the start of a last, empty block. -/
theorem Cuts.startsBlock_stop (h : Cuts width blocks) (hstart : start ≤ stop) :
    StartsBlock width stop start stop := by
  have hreach (n a : ℕ) (hn : blocks (stop - a) ≤ n) (ha : StartsBlock width stop start a)
      (hle : a ≤ stop) : StartsBlock width stop start stop := by
    induction n generalizing a with
    | zero =>
      rcases hle.lt_or_eq with hlt | rfl
      · have := h.blocks_blockEnd hlt
        omega
      · exact ha
    | succ n ih =>
      rcases hle.lt_or_eq with hlt | rfl
      · have := h.blocks_blockEnd hlt
        exact ih _ (by omega) ha.next (h.blockEnd_le hle)
      · exact ha
  exact hreach _ start le_rfl .first hstart

end MemchrN
