import MemchrN.Framework.Exec
import MemchrN.Framework.Window

namespace MemchrN

variable {α : Type} {n : ℕ}

/-- The `n` elements of a slice from position `off` on, as an array. -/
def chunkOf (xs : List α) (off n : ℕ) (h : off + n ≤ xs.length) : Vector α n :=
  Vector.ofFn fun i : Fin n => xs.get ⟨off + i, by omega⟩

theorem chunk_bound {len i : ℕ} (h : i < len / n) : i * n + n ≤ len := by
  have h1 : (i + 1) * n ≤ len / n * n := Nat.mul_le_mul_right n h
  have h2 := Nat.div_mul_le_self len n
  rw [Nat.add_mul, Nat.one_mul] at h1
  omega

/-- `as_chunks`: the full arrays from the front, and what is left. -/
def asChunks (n : ℕ) (xs : List α) : List (Vector α n) × List α :=
  (List.ofFn fun i : Fin (xs.length / n) => chunkOf xs (i * n) n (chunk_bound i.isLt),
    xs.drop (xs.length / n * n))

/-- `as_rchunks`: what is left at the front, and the full arrays up to the end. -/
def asRchunks (n : ℕ) (xs : List α) : List α × List (Vector α n) :=
  (xs.take (xs.length % n), (asChunks n (xs.drop (xs.length % n))).1)

/-- `chunks_exact` and `rchunks_exact`: slices of exactly `n` elements, in the order visited. -/
def chunksExact (n : ℕ) (xs : List α) : List (List α) := (asChunks n xs).1.map Vector.toList

def rchunksExact (n : ℕ) (xs : List α) : List (List α) :=
  ((asRchunks n xs).2.map Vector.toList).reverse

/-- `chunks`: slices of `n` elements, the last one shorter when `n` does not divide the length. -/
def chunks (n : ℕ) (xs : List α) : List (List α) :=
  List.ofFn fun i : Fin ((xs.length + n - 1) / n) => (xs.drop (i * n)).take n

/-- `split_last`. -/
def splitLast (xs : List α) : Option (α × List α) := xs.getLast?.map (·, xs.dropLast)

def firstChunk (n : ℕ) (xs : List α) : Option (Vector α n) :=
  if h : n ≤ xs.length then some (chunkOf xs 0 n (by omega)) else none

def lastChunk (n : ℕ) (xs : List α) : Option (Vector α n) :=
  if h : n ≤ xs.length then some (chunkOf xs (xs.length - n) n (by omega)) else none

namespace Exec

/-- `&xs[i..]` and `&xs[..i]`. -/
def sliceFrom (xs : List α) (i : ℕ) : Exec (List α) :=
  if i ≤ xs.length then pure (xs.drop i) else throw .outOfBounds

def sliceTo (xs : List α) (i : ℕ) : Exec (List α) :=
  if i ≤ xs.length then pure (xs.take i) else throw .outOfBounds

/-- `xs.get_unchecked(i..)`. -/
def getUncheckedFrom (xs : List α) (i : ℕ) : Exec (List α) :=
  if i ≤ xs.length then pure (xs.drop i) else throw .undefinedBehavior

/-- A slice read as an array of its own length. -/
def fromSlice (n : ℕ) (xs : List α) : Exec (Vector α n) :=
  if h : xs.length = n then pure (chunkOf xs 0 n (by omega)) else throw .outOfBounds

/-- `buf[a..b].copy_from_slice(src)`. -/
def copyFromSlice (buf : Vector α n) (a b : ℕ) (src : List α) : Exec (Vector α n) :=
  if a ≤ b ∧ b ≤ n ∧ src.length = b - a then
    pure (Vector.ofFn fun i => if a ≤ i.val then src[i.val - a]?.getD (buf.get i) else buf.get i)
  else throw .outOfBounds

@[simp] theorem returns_copyFromSlice (buf : Vector α n) (a b : ℕ) (src : List α)
    (Q : Vector α n → Prop) : Returns (copyFromSlice buf a b src) Q ↔
      (a ≤ b ∧ b ≤ n ∧ src.length = b - a) ∧
        Q (Vector.ofFn fun i => if a ≤ i.val then src[i.val - a]?.getD (buf.get i) else buf.get i) := by
  simp only [copyFromSlice, returns_ite, returns_pure, returns_throw, imp_false, not_not]
  tauto

@[simp] theorem returns_sliceFrom (xs : List α) (i : ℕ) (Q : List α → Prop) :
    Returns (sliceFrom xs i) Q ↔ i ≤ xs.length ∧ Q (xs.drop i) := by
  simp only [sliceFrom, returns_ite, returns_pure, returns_throw, imp_false, not_not]
  tauto

@[simp] theorem returns_sliceTo (xs : List α) (i : ℕ) (Q : List α → Prop) :
    Returns (sliceTo xs i) Q ↔ i ≤ xs.length ∧ Q (xs.take i) := by
  simp only [sliceTo, returns_ite, returns_pure, returns_throw, imp_false, not_not]
  tauto

@[simp] theorem returns_getUncheckedFrom (xs : List α) (i : ℕ) (Q : List α → Prop) :
    Returns (getUncheckedFrom xs i) Q ↔ i ≤ xs.length ∧ Q (xs.drop i) := by
  simp only [getUncheckedFrom, returns_ite, returns_pure, returns_throw, imp_false, not_not]
  tauto

end Exec

/-- The array `v` is what the slice holds at positions `off .. off + n`. -/
structure ChunkAt (xs : List α) (off : ℕ) (v : Vector α n) : Prop where
  fits : off + n ≤ xs.length
  lane : ∀ i (h : i < n), xs[off + i]? = some v[i]

/-- Consecutive arrays from position `off` on. -/
def Tiles (xs : List α) (off : ℕ) (cs : List (Vector α n)) : Prop :=
  ∀ i (h : i < cs.length), ChunkAt xs (off + i * n) cs[i]

theorem chunkAt_chunkOf (xs : List α) (off : ℕ) (h : off + n ≤ xs.length) :
    ChunkAt xs off (chunkOf xs off n h) := by
  refine ⟨h, fun i hi => ?_⟩
  simp [chunkOf, List.getElem?_eq_getElem (show off + i < xs.length by omega)]

theorem ChunkAt.of_drop {xs : List α} {a off : ℕ} {v : Vector α n} (ha : a ≤ xs.length)
    (h : ChunkAt (xs.drop a) off v) : ChunkAt xs (a + off) v := by
  refine ⟨?_, fun i hi => ?_⟩
  · have := h.fits
    rw [List.length_drop] at this
    omega
  · rw [← h.lane i hi, List.getElem?_drop, Nat.add_assoc]

theorem ChunkAt.of_take {xs : List α} {m off : ℕ} {v : Vector α n}
    (h : ChunkAt (xs.take m) off v) : ChunkAt xs off v := by
  have hfit := h.fits
  rw [List.length_take] at hfit
  refine ⟨by omega, fun i hi => ?_⟩
  rw [← h.lane i hi, List.getElem?_take_of_lt (by omega)]

theorem Tiles.of_drop {xs : List α} {a off : ℕ} {cs : List (Vector α n)} (ha : a ≤ xs.length)
    (h : Tiles (xs.drop a) off cs) : Tiles xs (a + off) cs := fun i hi => by
  rw [Nat.add_assoc]
  exact (h i hi).of_drop ha

theorem Tiles.of_take {xs : List α} {m off : ℕ} {cs : List (Vector α n)}
    (h : Tiles (xs.take m) off cs) : Tiles xs off cs := fun i hi => (h i hi).of_take

@[simp] theorem asChunks_length (xs : List α) : (asChunks n xs).1.length = xs.length / n := by
  simp [asChunks]

@[simp] theorem asChunks_rest (xs : List α) :
    (asChunks n xs).2 = xs.drop (xs.length / n * n) := rfl

theorem asChunks_rest_length (xs : List α) : (asChunks n xs).2.length = xs.length % n := by
  have h := Nat.div_add_mod xs.length n
  rw [asChunks_rest, List.length_drop, Nat.mul_comm]
  omega

theorem tiles_asChunks (xs : List α) : Tiles xs 0 (asChunks n xs).1 := fun i hi => by
  have h := chunk_bound (n := n) (i := i) (by simpa using hi)
  simpa [asChunks] using chunkAt_chunkOf xs (i * n) h

theorem tiles_asRchunks (xs : List α) : Tiles xs (xs.length % n) (asRchunks n xs).2 :=
  Tiles.of_drop (Nat.mod_le _ _) (tiles_asChunks _)

theorem asRchunks_length (xs : List α) : (asRchunks n xs).2.length = xs.length / n := by
  rcases Nat.eq_zero_or_pos n with rfl | hn
  · simp [asRchunks]
  · have h := Nat.div_add_mod xs.length n
    rw [asRchunks, asChunks_length, List.length_drop,
      show xs.length - xs.length % n = n * (xs.length / n) by omega, Nat.mul_div_cancel_left _ hn]

theorem asRchunks_front_length (xs : List α) : (asRchunks n xs).1.length = xs.length % n := by
  simpa [asRchunks] using Nat.mod_le _ _

theorem asChunks_rest_lt (xs : List α) (hn : 0 < n) : (asChunks n xs).2.length < n := by
  rw [asChunks_rest_length]
  exact Nat.mod_lt _ hn

/-- The items of `[first, second]`. -/
def pairFirst (pair : Vector α 2) : α := pair[0]

def pairSecond (pair : Vector α 2) : α := pair[1]

/-- A pair of neighbouring arrays, regrouped from a tiling by twos. -/
theorem Tiles.pair {xs : List α} {off : ℕ} {cs : List (Vector α n)} (h : Tiles xs off cs)
    {a j : ℕ} {pair : Vector (Vector α n) 2} (hp : ChunkAt cs (a + j * 2) pair) :
    ChunkAt xs (off + (a + j * 2) * n) (pairFirst pair) ∧
      ChunkAt xs (off + (a + j * 2) * n + n) (pairSecond pair) := by
  have get (i : ℕ) (hi : i < 2) : ChunkAt xs (off + (a + j * 2 + i) * n) pair[i] := by
    obtain ⟨hlt, he⟩ := List.getElem?_eq_some_iff.mp (hp.lane i hi)
    rw [← he]
    exact h _ hlt
  have h0 : ChunkAt xs (off + (a + j * 2) * n) (pairFirst pair) := get 0 Nat.two_pos
  have h1 : ChunkAt xs (off + (a + j * 2 + 1) * n) (pairSecond pair) := get 1 Nat.one_lt_two
  refine ⟨h0, ?_⟩
  rwa [Nat.add_mul _ 1, Nat.one_mul, ← Nat.add_assoc] at h1

theorem Tiles.drop {xs : List α} {off : ℕ} {cs : List (Vector α n)} (h : Tiles xs off cs) (k : ℕ) :
    Tiles xs (off + k * n) (cs.drop k) := fun i hi => by
  rw [List.length_drop] at hi
  have hc := h (k + i) (by omega)
  rwa [Nat.add_mul, ← Nat.add_assoc, ← List.getElem_drop (h := by simpa using hi)] at hc

/-- The odd array in front of the pairs of `as_rchunks`, as a loop going down reads it. -/
theorem tiles_front {xs : List α} {off : ℕ} {cs : List (Vector α n)} (h : Tiles xs off cs) :
    Tiles xs off (asRchunks 2 cs).1 ∧ (asRchunks 2 cs).1.reverse = (asRchunks 2 cs).1 ∧
      (asRchunks 2 cs).1.length = cs.length % 2 := by
  have hlen := asRchunks_front_length (n := 2) cs
  refine ⟨fun i hi => ?_, ?_, hlen⟩
  · rw [hlen] at hi
    have := Nat.mod_le cs.length 2
    simpa [asRchunks] using h i (by omega)
  · rcases hcs : (asRchunks 2 cs).1 with _ | ⟨v, _ | ⟨u, rest⟩⟩
    · rfl
    · rfl
    · rw [hcs, List.length_cons, List.length_cons] at hlen
      omega

/-- Chunking what lies from `c` on: consecutive arrays, then a suffix shorter than one. -/
theorem asChunks_drop {xs : List α} {c : ℕ} (hc : c ≤ xs.length) (hn : 0 < n) :
    Tiles xs c (asChunks n (xs.drop c)).1 ∧ (asChunks n (xs.drop c)).2 <:+ xs ∧
      (asChunks n (xs.drop c)).2.length < n ∧
      c + (asChunks n (xs.drop c)).1.length * n + (asChunks n (xs.drop c)).2.length = xs.length := by
  have h := Nat.div_add_mod' (xs.length - c) n
  refine ⟨by simpa using Tiles.of_drop hc (tiles_asChunks (xs.drop c)), ?_, ?_, ?_⟩
  · rw [asChunks_rest, List.drop_drop]
    exact List.drop_suffix _ _
  · exact asChunks_rest_lt _ hn
  · rw [asChunks_rest_length, asChunks_length, List.length_drop]
    omega

theorem asChunks_drop_rest (xs : List α) (c : ℕ) : (asChunks n (xs.drop c)).2 =
    xs.drop (c + (asChunks n (xs.drop c)).1.length * n) := by
  rw [asChunks_rest, List.drop_drop, asChunks_length]

theorem firstChunk_of_le {xs : List α} (h : n ≤ xs.length) :
    ∃ v, firstChunk n xs = some v ∧ ChunkAt xs 0 v :=
  ⟨_, dif_pos h, chunkAt_chunkOf xs 0 _⟩

theorem firstChunk_of_lt {xs : List α} (h : xs.length < n) : firstChunk n xs = none :=
  dif_neg (by omega)

theorem lastChunk_of_le {xs : List α} (h : n ≤ xs.length) :
    ∃ v, lastChunk n xs = some v ∧ ChunkAt xs (xs.length - n) v :=
  ⟨_, dif_pos h, chunkAt_chunkOf xs _ _⟩

theorem lastChunk_of_lt {xs : List α} (h : xs.length < n) : lastChunk n xs = none :=
  dif_neg (by omega)

theorem fromSlice_toList (v : Vector α n) : Exec.fromSlice n v.toList = pure v := by
  have h : v.toList.length = n := Vector.length_toList
  rw [Exec.fromSlice, dif_pos h]
  congr 1
  ext i hi
  simp [chunkOf]

theorem returns_fromSlice {xs : List α} (h : xs.length = n) (Q : Vector α n → Prop)
    (hQ : ∀ v, ChunkAt xs 0 v → Q v) : Returns (Exec.fromSlice n xs) Q := by
  rw [Exec.fromSlice, dif_pos h, returns_pure]
  exact hQ _ (chunkAt_chunkOf xs 0 _)

theorem Tiles.dropLast {xs : List α} {off : ℕ} {cs : List (Vector α n)} (h : Tiles xs off cs) :
    Tiles xs off cs.dropLast := fun i hi => by
  rw [List.getElem_dropLast]
  exact h i _

theorem splitLast_of_pos {xs : List α} {off : ℕ} {cs : List (Vector α n)} (h : Tiles xs off cs)
    (hpos : 0 < cs.length) : ∃ v, splitLast cs = some (v, cs.dropLast) ∧
      ChunkAt xs (off + (cs.length - 1) * n) v := by
  have hne : cs ≠ [] := List.length_pos_iff.mp hpos
  refine ⟨cs.getLast hne, by rw [splitLast, List.getLast?_eq_some_getLast hne, Option.map_some], ?_⟩
  rw [List.getLast_eq_getElem]
  exact h _ _

/-! Loop rules over a tiling: the invariant speaks about the position reached. -/

section Loops

variable {ρ σ : Type} {xs : List α} {off : ℕ} {cs : List (Vector α n)} {s : σ}

theorem returns_forEach_tiles {body : Vector α n → σ → Exec (Flow ρ σ)} (h : Tiles xs off cs)
    (Inv : ℕ → σ → Prop) (P : ρ → Prop) (h0 : Inv off s)
    (step : ∀ a v t, off ≤ a → ChunkAt xs a v → Inv a t →
      Returns (body v t) (Flow.Sat P (Inv (a + n)))) :
    Returns (forEach body cs s) (Flow.Sat P (Inv (off + cs.length * n))) := by
  apply returns_forEach (fun i => Inv (off + i * n)) P (by simpa using h0)
  intro i hi t ht
  have h := step _ _ t (Nat.le_add_right _ _) (h i hi) ht
  rwa [Nat.add_assoc, ← Nat.succ_mul] at h

theorem returns_forEach_pairs {body : Vector (Vector α n) 2 → σ → Exec (Flow ρ σ)}
    (h : Tiles xs off cs) (Inv : ℕ → σ → Prop) (P : ρ → Prop) (h0 : Inv off s)
    (step : ∀ a (pair : Vector (Vector α n) 2) t, off ≤ a → ChunkAt xs a (pairFirst pair) →
      ChunkAt xs (a + n) (pairSecond pair) → Inv a t → Returns (body pair t) (Flow.Sat P (Inv (a + 2 * n)))) :
    Returns (forEach body (asChunks 2 cs).1 s)
      (Flow.Sat P (Inv (off + cs.length / 2 * (2 * n)))) := by
  rw [← asChunks_length]
  apply returns_forEach (fun i => Inv (off + i * (2 * n))) P (by simpa using h0)
  intro i hi t ht
  have hpair := h.pair (a := 0) (by simpa using tiles_asChunks cs i hi)
  rw [Nat.zero_add, Nat.mul_assoc] at hpair
  have h := step _ _ t (Nat.le_add_right _ _) hpair.1 hpair.2 ht
  rwa [Nat.add_assoc, ← Nat.succ_mul] at h

theorem tiles_rest (h : Tiles xs off cs) :
    Tiles xs (off + cs.length / 2 * (2 * n)) (asChunks 2 cs).2 := by
  have h := h.drop (cs.length / 2 * 2)
  rwa [Nat.mul_assoc] at h

/-- The pairs and the odd array end where the tiling does. -/
theorem pairs_rest_end (cs : List (Vector α n)) (off : ℕ) :
    off + cs.length / 2 * (2 * n) + (asChunks 2 cs).2.length * n = off + cs.length * n := by
  rw [asChunks_rest_length, ← Nat.mul_assoc, Nat.add_assoc, ← Nat.add_mul, Nat.div_add_mod']

/-- Downwards, from the end of the tiling to its start. -/
theorem returns_forEach_tiles_rev {body : Vector α n → σ → Exec (Flow ρ σ)} (h : Tiles xs off cs)
    (Inv : ℕ → σ → Prop) (P : ρ → Prop) (h0 : Inv (off + cs.length * n) s)
    (step : ∀ a v t, off ≤ a → ChunkAt xs a v → Inv (a + n) t →
      Returns (body v t) (Flow.Sat P (Inv a))) :
    Returns (forEach body cs.reverse s) (Flow.Sat P (Inv off)) := by
  have hloop : Returns (forEach body cs.reverse s)
      (Flow.Sat P (Inv (off + (cs.length - cs.reverse.length) * n))) := by
    refine returns_forEach (fun i => Inv (off + (cs.length - i) * n)) P (by simpa using h0)
      fun i hi t ht => ?_
    rw [List.length_reverse] at hi
    rw [List.getElem_reverse]
    have hindex : cs.length - (i + 1) = cs.length - 1 - i := by omega
    have hnext : (cs.length - (i + 1)).succ = cs.length - i := by omega
    apply step _ _ t (Nat.le_add_right _ _)
    · rw [hindex]
      exact h _ _
    · rwa [Nat.add_assoc, ← Nat.succ_mul, hnext]
  simpa using hloop

theorem returns_forEach_pairs_rev {body : Vector (Vector α n) 2 → σ → Exec (Flow ρ σ)}
    (h : Tiles xs off cs) (Inv : ℕ → σ → Prop) (P : ρ → Prop) (h0 : Inv (off + cs.length * n) s)
    (step : ∀ a (pair : Vector (Vector α n) 2) t, off ≤ a → ChunkAt xs a (pairFirst pair) →
      ChunkAt xs (a + n) (pairSecond pair) → Inv (a + 2 * n) t → Returns (body pair t) (Flow.Sat P (Inv a))) :
    Returns (forEach body (asRchunks 2 cs).2.reverse s)
      (Flow.Sat P (Inv (off + cs.length % 2 * n))) := by
  have hmod := Nat.mod_add_div cs.length 2
  have hlen : (asRchunks 2 cs).2.length = cs.length / 2 := asRchunks_length cs
  have hloop : Returns (forEach body (asRchunks 2 cs).2.reverse s) (Flow.Sat P
      (Inv (off + (cs.length % 2 + (cs.length / 2 - (asRchunks 2 cs).2.reverse.length) * 2) * n))) := by
    refine returns_forEach (fun i => Inv (off + (cs.length % 2 + (cs.length / 2 - i) * 2) * n)) P ?_
      fun i hi t ht => ?_
    · have hall : cs.length % 2 + (cs.length / 2 - 0) * 2 = cs.length := by omega
      rwa [hall]
    · rw [List.length_reverse] at hi
      rw [List.getElem_reverse]
      have hindex : cs.length / 2 - (i + 1) = (asRchunks 2 cs).2.length - 1 - i := by omega
      have hnext : ((asRchunks 2 cs).2.length - 1 - i).succ = cs.length / 2 - i := by omega
      have hpair := h.pair (tiles_asRchunks (n := 2) cs (cs.length / 2 - (i + 1)) (by omega))
      simp only [hindex] at hpair ⊢
      apply step _ _ t (Nat.le_add_right _ _) hpair.1 hpair.2
      rwa [Nat.add_assoc, ← Nat.add_mul, Nat.add_assoc, ← Nat.succ_mul, hnext]
  rw [List.length_reverse, hlen, Nat.sub_self, Nat.zero_mul, Nat.add_zero] at hloop
  exact hloop

/-! The same rules for scans, whose state is the position itself. -/

section Scans

variable (Inv : ℕ → Prop) (P : ρ → Prop)

theorem returns_scan_tiles {body : Vector α n → ℕ → Exec (Flow ρ ℕ)} (h : Tiles xs off cs)
    (h0 : Inv off) (step : ∀ a v, off ≤ a → ChunkAt xs a v → Inv a →
      Returns (body v a) (Flow.Sat P fun a' => a' = a + n ∧ Inv (a + n))) :
    Returns (forEach body cs off) (Flow.Sat P fun a' =>
      a' = off + cs.length * n ∧ Inv (off + cs.length * n)) := by
  apply returns_forEach_tiles h (fun a a' => a' = a ∧ Inv a) P ⟨rfl, h0⟩
  intro a v a' hge hv ha
  obtain ⟨rfl, hinv⟩ := ha
  exact step _ v hge hv hinv

theorem returns_scan_pairs {body : Vector (Vector α n) 2 → ℕ → Exec (Flow ρ ℕ)}
    (h : Tiles xs off cs) (h0 : Inv off) (step : ∀ a (pair : Vector (Vector α n) 2), off ≤ a →
      ChunkAt xs a (pairFirst pair) → ChunkAt xs (a + n) (pairSecond pair) → Inv a →
      Returns (body pair a) (Flow.Sat P fun a' => a' = a + 2 * n ∧ Inv (a + 2 * n))) :
    Returns (forEach body (asChunks 2 cs).1 off) (Flow.Sat P fun a' =>
      a' = off + cs.length / 2 * (2 * n) ∧ Inv (off + cs.length / 2 * (2 * n))) := by
  apply returns_forEach_pairs h (fun a a' => a' = a ∧ Inv a) P ⟨rfl, h0⟩
  intro a pair a' hge hfirst hsecond ha
  obtain ⟨rfl, hinv⟩ := ha
  exact step _ pair hge hfirst hsecond hinv

theorem returns_scan_tiles_rev {body : Vector α n → ℕ → Exec (Flow ρ ℕ)} (h : Tiles xs off cs)
    (h0 : Inv (off + cs.length * n)) (step : ∀ a v, off ≤ a → ChunkAt xs a v → Inv (a + n) →
      Returns (body v (a + n)) (Flow.Sat P fun a' => a' = a ∧ Inv a)) :
    Returns (forEach body cs.reverse (off + cs.length * n))
      (Flow.Sat P fun a' => a' = off ∧ Inv off) := by
  apply returns_forEach_tiles_rev h (fun a a' => a' = a ∧ Inv a) P ⟨rfl, h0⟩
  intro a v a' hge hv ha
  obtain ⟨rfl, hinv⟩ := ha
  exact step _ v hge hv hinv

theorem returns_scan_pairs_rev {body : Vector (Vector α n) 2 → ℕ → Exec (Flow ρ ℕ)}
    (h : Tiles xs off cs) (h0 : Inv (off + cs.length * n))
    (step : ∀ a (pair : Vector (Vector α n) 2), off ≤ a → ChunkAt xs a (pairFirst pair) →
      ChunkAt xs (a + n) (pairSecond pair) → Inv (a + 2 * n) →
      Returns (body pair (a + 2 * n)) (Flow.Sat P fun a' => a' = a ∧ Inv a)) :
    Returns (forEach body (asRchunks 2 cs).2.reverse (off + cs.length * n))
      (Flow.Sat P fun a' => a' = off + cs.length % 2 * n ∧ Inv (off + cs.length % 2 * n)) := by
  apply returns_forEach_pairs_rev h (fun a a' => a' = a ∧ Inv a) P ⟨rfl, h0⟩
  intro a pair a' hge hfirst hsecond ha
  obtain ⟨rfl, hinv⟩ := ha
  exact step _ pair hge hfirst hsecond hinv

end Scans

end Loops

end MemchrN
