import MemchrN.Framework.Matches
import MemchrN.Framework.ByteLanes

namespace MemchrN

/-- `!(u64::MAX << staged_len)`. -/
def keepMask (stagedLen : ℕ) : Exec U64 := do
  let high ← Exec.shl (BitVec.allOnes 64) stagedLen
  return ~~~high

/-- Slides the back half of a staged haystack up to the positions it was read from. -/
def slideEnds (bits : U64) (stagedLen len : ℕ) : Exec U64 := do
  let keep ← keepMask stagedLen
  let back ← Exec.shr bits stagedLen
  let shift ← Exec.sub len stagedLen
  let back ← Exec.shl (back &&& keep) shift
  return (bits &&& keep) ||| back

/-- Bit `i` is set exactly when `xs` has a byte at `i` that `p` accepts. -/
def MarksMatches (p : U8 → Bool) (xs : List U8) (bits : U64) : Prop :=
  ∀ i, bits.getLsbD i = true ↔ ∃ byte, xs[i]? = some byte ∧ p byte = true

/-- The masks of the rest of a haystack, and of a slice, that no block of `block` bytes fits in. -/
structure TailContract (p : U8 → Bool) (block : ℕ) (tailBits : List U8 → List U8 → Exec U64)
    (shortTailBits : List U8 → Exec U64) : Prop where
  tail : ∀ haystack rest, rest <:+ haystack → rest ≠ [] → rest.length < block →
    ∃ bits, tailBits haystack rest = .ok bits ∧ MarksMatches p rest bits
  short : ∀ xs, xs ≠ [] → xs.length < block →
    ∃ bits, shortTailBits xs = .ok bits ∧ MarksMatches p xs bits

variable {bits : U64} {S : Set ℕ} {k len n t : ℕ}

theorem returns_keepMask (hn : n < 64) (Q : U64 → Prop)
    (h : ∀ mask : U64, (∀ k, mask.getLsbD k = decide (k < n)) → Q mask) :
    Returns (keepMask n) Q := by
  simp only [keepMask, returns_bind, Exec.returns_shl, returns_pure]
  refine ⟨hn, h _ fun k => ?_⟩
  rw [BitVec.getLsbD_not, BitVec.getLsbD_shiftLeft, BitVec.getLsbD_allOnes]
  rcases Nat.lt_or_ge k n with hk | hk
  · simp [hk, show k < 64 by omega]
  · rcases Nat.lt_or_ge k 64 with h64 | h64
    · simp [Nat.not_lt.mpr hk, h64, show k - n < 64 by omega]
    · simp [Nat.not_lt.mpr hk, Nat.not_lt.mpr h64]

/-- The low bits that a keep mask leaves, read from position `off` on. -/
theorem bitSet_keep {mask : U64} {off : ℕ} (hmask : ∀ k, mask.getLsbD k = decide (k < n))
    (h : ∀ k < n, bits.getLsbD k = true ↔ off + k ∈ S) :
    bitSet (bits &&& mask) = window S off n := by
  ext k
  rw [mem_bitSet, BitVec.getLsbD_and, hmask, Bool.and_eq_true, decide_eq_true_eq, and_comm]
  exact and_congr_right (h k)

/-- When the two staged halves cover the positions below `len`, sliding puts every one of them
back in place; an overlap is read twice and merged. -/
theorem slideEnds_spec (hS : ClearFrom S len) (hn : n ≤ len) (hcover : len ≤ 2 * n) (hlen : len < 64)
    (hfront : ∀ k < n, bits.getLsbD k = true ↔ k ∈ S)
    (hback : ∀ k < n, bits.getLsbD (n + k) = true ↔ len - n + k ∈ S) :
    Returns (slideEnds bits n len) fun r => bitSet r = S := by
  simp only [slideEnds, returns_bind, returns_pure]
  apply returns_keepMask (by omega) _
  intro mask hmask
  simp only [Exec.returns_shr, Exec.returns_sub, Exec.returns_shl]
  refine ⟨by omega, hn, by omega, ?_⟩
  ext k
  simp only [mem_bitSet, BitVec.getLsbD_or, BitVec.getLsbD_and, BitVec.getLsbD_shiftLeft,
    BitVec.getLsbD_ushiftRight, hmask, Bool.or_eq_true, Bool.and_eq_true, decide_eq_true_eq,
    Bool.not_eq_true', decide_eq_false_iff_not]
  constructor
  · intro hs
    rcases hs with ⟨hb, hk⟩ | ⟨⟨h64, hge⟩, hb, hk⟩
    · exact (hfront k hk).mp hb
    · have hslot : len - n + (k - (len - n)) = k := by omega
      have h := (hback _ hk).mp hb
      rwa [hslot] at h
  · intro hk
    have hlt := hS k hk
    rcases Nat.lt_or_ge k n with hkn | hkn
    · exact .inl ⟨(hfront k hkn).mpr hk, hkn⟩
    · have hslot : len - n + (k - (len - n)) = k := by omega
      refine .inr ⟨⟨by omega, by omega⟩, (hback _ (by omega)).mpr ?_, by omega⟩
      rwa [hslot]

theorem marksMatches_iff {p : U8 → Bool} {xs : List U8} :
    MarksMatches p xs bits ↔ bitSet bits = matchSet p xs := Set.ext_iff.symm

/-- The contract in terms of the sets of positions. -/
theorem TailContract.of_specs {p : U8 → Bool} {block : ℕ}
    {tailBits : List U8 → List U8 → Exec U64} {shortTailBits : List U8 → Exec U64}
    (htail : ∀ {xs rest : List U8}, rest <:+ xs → 0 < rest.length → rest.length < block →
      Returns (tailBits xs rest) fun bits => bitSet bits = matchSet p rest)
    (hshort : ∀ {xs : List U8}, 0 < xs.length → xs.length < block →
      Returns (shortTailBits xs) fun bits => bitSet bits = matchSet p xs) :
    TailContract p block tailBits shortTailBits where
  tail xs rest hsuffix hne hlt := by
    obtain ⟨bits, hrun, hbits⟩ := htail hsuffix (List.length_pos_of_ne_nil hne) hlt
    exact ⟨bits, hrun, marksMatches_iff.mpr hbits⟩
  short xs hne hlt := by
    obtain ⟨bits, hrun, hbits⟩ := hshort (List.length_pos_of_ne_nil hne) hlt
    exact ⟨bits, hrun, marksMatches_iff.mpr hbits⟩

/-- Shifting the bits of a window down drops its front. -/
theorem bitSet_shiftRight_window {w : ℕ} {x : BitVec w} {e : ℕ} (h : bitSet x = window S (e - n) n)
    (ht : t ≤ n) (hn : n ≤ e) : bitSet (x >>> (n - t)) = window S (e - t) t := by
  rw [bitSet_ushiftRight, h]
  ext k
  have hshift : e - n + (n - t + k) = e - t + k := by omega
  simp only [window, Set.mem_ofPred_eq]
  rw [hshift]
  exact and_congr_left fun _ => by omega

/-- The bits of two neighbouring windows, side by side. -/
theorem bitSet_pair {w m off : ℕ} {x y : BitVec w} (hx : bitSet x = window S off m)
    (hy : bitSet y = window S (off + m) n) (hfit : m + n ≤ w) :
    bitSet (x ||| y <<< m) = window S off (m + n) := by
  have hlt : ∀ k ∈ bitSet y, k + m < w := fun k hk => by
    have := window_subset k (hy ▸ hk)
    omega
  rw [bitSet_or, bitSet_shiftLeft hlt, hx, hy, window_add]

theorem bitSet_widen {x : U64} (h : bitSet x = S) : bitSet (x.setWidth 128) = S := by
  rw [bitSet_setWidth fun k hk => (lt_of_mem_bitSet hk).trans (by decide), h]

end MemchrN
