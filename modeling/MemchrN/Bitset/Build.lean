import MemchrN.Bitset.Words

namespace MemchrN

/-- Every way of building a set out of others; the assigning operators store the same value. -/
inductive Build
  | new
  | full
  | fromBytes (bytes : List U8)
  | fromIter (items : List U8)
  | add (e : Build) (byte : U8)
  | addAll (e : Build) (bytes : List U8)
  | extend (e : Build) (items : List U8)
  | remove (e : Build) (byte : U8)
  | addRange (e : Build) (start last : U8)
  | removeRange (e : Build) (start last : U8)
  | invert (e : Build)
  | union (e f : Build)
  | intersection (e f : Build)
  | difference (e f : Build)
  | symmetricDifference (e f : Build)
  | not (e : Build)
  | bitOr (e f : Build)
  | bitAnd (e f : Build)
  | bitXor (e f : Build)
  | sub (e f : Build)

namespace Build

def run : Build → ByteSet
  | new => .new
  | full => .full
  | fromBytes bytes => .fromBytes bytes
  | fromIter items => .fromIter items
  | add e byte => e.run.add byte
  | addAll e bytes => e.run.addAll bytes
  | extend e items => e.run.extend items
  | remove e byte => e.run.remove byte
  | addRange e start last => e.run.addRange start last
  | removeRange e start last => e.run.removeRange start last
  | invert e => e.run.invert
  | union e f => e.run.union f.run
  | intersection e f => e.run.intersection f.run
  | difference e f => e.run.difference f.run
  | symmetricDifference e f => e.run.symmetricDifference f.run
  | not e => ~~~e.run
  | bitOr e f => e.run ||| f.run
  | bitAnd e f => e.run &&& f.run
  | bitXor e f => e.run ^^^ f.run
  | sub e f => e.run - f.run

/-- The set each step denotes, in the terms of sets alone. -/
def denote : Build → Set U8
  | new => ∅
  | full => Set.univ
  | fromBytes l | fromIter l => {b | b ∈ l}
  | add e byte => insert byte e.denote
  | addAll e l | extend e l => e.denote ∪ {b | b ∈ l}
  | remove e byte => e.denote \ {byte}
  | addRange e start last => e.denote ∪ {b | start ≤ b ∧ b ≤ last}
  | removeRange e start last => e.denote \ {b | start ≤ b ∧ b ≤ last}
  | invert e | not e => e.denoteᶜ
  | union e f | bitOr e f => e.denote ∪ f.denote
  | intersection e f | bitAnd e f => e.denote ∩ f.denote
  | difference e f | sub e f => e.denote \ f.denote
  | symmetricDifference e f | bitXor e f => symmDiff e.denote f.denote

theorem contains_run (e : Build) (b : U8) : e.run.contains b = true ↔ b ∈ e.denote := by
  induction e with
  | new | full | fromBytes | fromIter => simp [run, denote]
  | add e byte ih => simp [run, denote, ih]
  | addAll e bytes ih => simp [run, denote, ih, or_comm]
  | extend e items ih => simp [run, denote, ByteSet.contains_extend, ih, or_comm]
  | remove e byte ih => simp [run, denote, ih, and_comm]
  | addRange e start last ih => simp [run, denote, ByteSet.addRange, ih, or_comm]
  | removeRange e start last ih =>
    have hle : start ≤ b ↔ ¬b < start := BitVec.not_lt.symm
    simp only [run, denote, ByteSet.removeRange, ByteSet.addRange, ByteSet.contains_difference,
      ByteSet.contains_addByteRange, ByteSet.contains_new, Set.mem_sdiff, ← ih]
    simp
    tauto
  | invert e ih | not e ih => simp [run, denote, ← ih]
  | union e f ihe ihf | bitOr e f ihe ihf => simp [run, denote, ihe, ihf]
  | intersection e f ihe ihf | bitAnd e f ihe ihf => simp [run, denote, ihe, ihf]
  | difference e f ihe ihf | sub e f ihe ihf => simp [run, denote, ihe, ← ihf]
  | symmetricDifference e f ihe ihf | bitXor e f ihe ihf =>
    simp only [run, denote, Set.mem_symmDiff, ← ihe, ← ihf, ByteSet.contains_symmetricDifference,
      ByteSet.contains_xor]
    cases e.run.contains b <;> cases f.run.contains b <;> simp

theorem members_run (e : Build) : e.run.members = e.denote :=
  Set.ext fun b => contains_run e b

/-- Any sequence of building steps denotes the set its steps denote: membership, cardinality,
emptiness and equality all agree. -/
theorem run_refines_denote (e : Build) :
    (∀ b, e.run.contains b = true ↔ b ∈ e.denote) ∧
    e.run.len = e.denote.ncard ∧
    (e.run.isEmpty = true ↔ e.denote = ∅) ∧
    (∀ f : Build, e.run = f.run ↔ e.denote = f.denote) := by
  refine ⟨contains_run e, ?_, ?_, fun f => ⟨fun h => ?_, fun h => ?_⟩⟩
  · rw [← members_run, ByteSet.ncard_members, ByteSet.len_eq_length]
  · rw [ByteSet.isEmpty_iff, Set.eq_empty_iff_forall_notMem]
    exact forall_congr' fun b => by rw [← contains_run, Bool.not_eq_true]
  · rw [← members_run, ← members_run, h]
  · apply ByteSet.ext_of_contains _ _
    intro b
    rw [Bool.eq_iff_iff, contains_run, contains_run, h]

end Build

end MemchrN
