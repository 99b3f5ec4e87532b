import FlagCX.Lib.Window
import Mathlib.Data.Nat.Bitwise

/-!
# The chunk configuration (`flagcxCommInitRankFunc`, `computeP2pChunkSize`)

* `Sizes` : a buffer and a chunk size that the initialisation accepts.
* `NetUsable`, `P2pUsable` : the chunk numbers of a window have slots of their own, inside the staging buffer.
-/

namespace FlagCX.Net

/-- A configured buffer size and chunk size, both positive `int64_t`. `FLAGCX_NET_MAX_STEPS` and `FLAGCX_P2P_MAX_STEPS`
are both 16. -/
structure Sizes where
  bufferSize : Nat
  chunkSize : Nat
  buffer_pos : 0 < bufferSize
  chunk_pos : 0 < chunkSize
  buffer_lt : bufferSize < 2 ^ 63
  chunk_lt : chunkSize < 2 ^ 63
  steps : (bufferSize + chunkSize - 1) / chunkSize ≤ 16

variable (z : Sizes)

/-- `flagcxNetChunks` and `flagcxP2pChunks`. A signed sum that does not fit has no value. -/
def Sizes.chunks? : Option Nat :=
  if z.bufferSize + z.chunkSize < 2 ^ 63 then some ((z.bufferSize + z.chunkSize - 1) / z.chunkSize) else none

/-- The slot of a chunk number, `number & sendStepMask`. -/
def chunkSlot (chunks number : Nat) : Nat := number &&& (chunks - 1)

/-- `adjustFactor` of `computeP2pChunkSize`. -/
def adjustFactor (nbytes : Nat) : Nat :=
  let msize := nbytes / (1024 * 1024)
  if 32 ≤ msize then 1 else if 16 ≤ msize then 2 else if 8 ≤ msize then 4 else if 4 ≤ msize then 8
  else if 2 ≤ msize then 16 else if 1 ≤ msize then 32 else 64

def computeP2pChunkSize (chunks nbytes : Nat) : Nat :=
  (if nbytes < z.bufferSize then z.bufferSize / adjustFactor nbytes else z.bufferSize) / chunks

/-- `chunks` consecutive chunk numbers have distinct slots. -/
def Distinct (chunks : Nat) : Prop :=
  ∀ base, ∀ i < chunks, ∀ j < chunks, chunkSlot chunks (base + i) = chunkSlot chunks (base + j) → i = j

/-- The slots of `flagcxProxySend` and `flagcxProxyRecv`. -/
def Sizes.NetUsable : Prop :=
  ∃ chunks, z.chunks? = some chunks ∧ Distinct chunks ∧ ∀ number, z.chunkSize * (chunkSlot chunks number + 1) ≤ z.bufferSize

/-- The slots of `flagcxP2pProxySend` and `flagcxP2pProxyRecv`, whose chunk size depends on the message. -/
def Sizes.P2pUsable : Prop :=
  ∃ chunks, z.chunks? = some chunks ∧ Distinct chunks ∧ ∀ nbytes, 0 < computeP2pChunkSize z chunks nbytes ∧
    ∀ number, computeP2pChunkSize z chunks nbytes * (chunkSlot chunks number + 1) ≤ z.bufferSize

variable {z} {chunks : Nat}

theorem chunkSlot_lt (h : 0 < chunks) (number : Nat) : chunkSlot chunks number < chunks :=
  lt_of_le_of_lt Nat.and_le_right (Nat.sub_lt h Nat.one_pos)

/-- Distinct slots are the numbers themselves, so all bits below the highest one of `chunks - 1` are set. -/
theorem distinct_iff (hpos : 0 < chunks) : Distinct chunks ↔ ∃ b, chunks = 2 ^ b := by
  constructor
  · intro h
    have hself : ∀ i, i < chunks → chunkSlot chunks i = i := by
      intro i
      induction i using Nat.strong_induction_on with
      | h i ih =>
        intro hi
        have hle : chunkSlot chunks i ≤ i := Nat.and_le_left
        rcases Nat.eq_or_lt_of_le hle with he | hlt
        · exact he
        · have hk := ih _ hlt (by omega)
          exact h 0 _ (by omega) _ hi (by simpa using hk)
    rcases Nat.eq_or_lt_of_le hpos with h1 | h1
    · exact ⟨0, h1.symm⟩
    obtain ⟨b, hlow, hhigh⟩ : ∃ b, 2 ^ b ≤ chunks - 1 ∧ chunks - 1 < 2 ^ (b + 1) :=
      ⟨Nat.log2 (chunks - 1), Nat.log2_self_le (by omega), Nat.lt_log2_self⟩
    have hb := hself (2 ^ b - 1) (by omega)
    rw [chunkSlot, Nat.and_comm, Nat.and_two_pow_sub_one_eq_mod] at hb
    have hmod : (chunks - 1) % 2 ^ b = chunks - 1 - 2 ^ b := by
      rw [Nat.mod_eq_sub_mod hlow, Nat.mod_eq_of_lt (by rw [Nat.pow_succ] at hhigh; omega)]
    refine ⟨b + 1, ?_⟩
    have := Nat.two_pow_pos b
    rw [Nat.pow_succ] at hhigh ⊢
    omega
  · rintro ⟨b, rfl⟩ base i hi j hj he
    unfold chunkSlot at he
    rw [Nat.and_two_pow_sub_one_eq_mod, Nat.and_two_pow_sub_one_eq_mod] at he
    have := Lib.mod_inj_window (n := base) (by omega) (by omega) (by omega) (by omega) he
    omega

theorem adjustFactor_le (nbytes : Nat) : 0 < adjustFactor nbytes ∧ adjustFactor nbytes ≤ 64 := by
  unfold adjustFactor
  dsimp only
  split_ifs <;> decide

theorem chunks_pos : 0 < (z.bufferSize + z.chunkSize - 1) / z.chunkSize := by
  have := z.buffer_pos
  exact Nat.div_pos (by omega) z.chunk_pos

theorem p2p_inside (hpos : 0 < chunks) (nbytes number : Nat) :
    computeP2pChunkSize z chunks nbytes * (chunkSlot chunks number + 1) ≤ z.bufferSize := by
  refine (Nat.mul_le_mul_left _ (chunkSlot_lt hpos number)).trans ((Nat.div_mul_le_self _ _).trans ?_)
  split_ifs
  · exact Nat.div_le_self ..
  · exact le_rfl

theorem p2p_pos_iff (hpos : 0 < chunks) :
    (∀ nbytes, 0 < computeP2pChunkSize z chunks nbytes) ↔ 64 * chunks ≤ z.bufferSize := by
  constructor
  · intro h
    have h0 : 0 < z.bufferSize / 64 / chunks := by simpa [computeP2pChunkSize, adjustFactor, z.buffer_pos] using h 0
    rw [Nat.div_div_eq_div_mul] at h0
    exact (Nat.div_pos_iff.1 h0).2
  · intro h nbytes
    unfold computeP2pChunkSize
    split_ifs
    · obtain ⟨hfac, hfac'⟩ := adjustFactor_le nbytes
      rw [Nat.div_div_eq_div_mul]
      exact Nat.div_pos ((Nat.mul_le_mul_right _ hfac').trans h) (Nat.mul_pos hfac hpos)
    · exact Nat.div_pos (by omega) hpos

theorem net_inside_iff (hc : chunks = (z.bufferSize + z.chunkSize - 1) / z.chunkSize) :
    (∀ number, z.chunkSize * (chunkSlot chunks number + 1) ≤ z.bufferSize) ↔ z.chunkSize ∣ z.bufferSize := by
  have hpos : 0 < chunks := hc ▸ chunks_pos
  have hlast : chunkSlot chunks (chunks - 1) + 1 = chunks := by
    rw [chunkSlot, Nat.and_self]
    omega
  have hdiv := Nat.div_add_mod (z.bufferSize + z.chunkSize - 1) z.chunkSize
  have hmod := Nat.mod_lt (z.bufferSize + z.chunkSize - 1) z.chunk_pos
  rw [← hc] at hdiv
  have hbuffer := z.buffer_pos
  constructor
  · intro h
    have hle := h (chunks - 1)
    rw [hlast] at hle
    exact ⟨chunks, by omega⟩
  · rintro ⟨k, hk⟩ number
    have hkc : chunks = k := by
      rw [hc, hk]
      have hchunk := z.chunk_pos
      rw [Nat.add_sub_assoc (by omega), Nat.mul_add_div hchunk, Nat.div_eq_of_lt (by omega), Nat.add_zero]
    rw [hk, ← hkc]
    exact Nat.mul_le_mul_left _ (chunkSlot_lt hpos number)

/-- **When an accepted configuration is usable.** -/
theorem config_usable_iff (z : Sizes) :
    (z.NetUsable ↔ z.bufferSize + z.chunkSize < 2 ^ 63 ∧ z.chunkSize ∣ z.bufferSize ∧
      ∃ b, (z.bufferSize + z.chunkSize - 1) / z.chunkSize = 2 ^ b) ∧
    (z.P2pUsable ↔ z.bufferSize + z.chunkSize < 2 ^ 63 ∧
      64 * ((z.bufferSize + z.chunkSize - 1) / z.chunkSize) ≤ z.bufferSize ∧
      ∃ b, (z.bufferSize + z.chunkSize - 1) / z.chunkSize = 2 ^ b) := by
  have hpos := chunks_pos (z := z)
  unfold Sizes.NetUsable Sizes.P2pUsable Sizes.chunks?
  by_cases hfit : z.bufferSize + z.chunkSize < 2 ^ 63
  swap
  · simp only [hfit, if_false, reduceCtorEq, false_and, exists_false, and_self]
  simp only [hfit, if_true, Option.some.injEq, exists_eq_left', true_and]
  constructor
  · rw [distinct_iff hpos, net_inside_iff rfl, and_comm]
  · rw [distinct_iff hpos, forall_and, p2p_pos_iff hpos, and_comm]
    simp only [p2p_inside hpos, forall_const, and_true]

/-- Three chunks: numbers 0 and 1 share slot 0. -/
theorem config_three_chunks : ∃ z : Sizes, z.bufferSize = 12 * 2 ^ 20 ∧ z.chunkSize = 4 * 2 ^ 20 ∧ ¬ z.NetUsable ∧
    ¬ z.P2pUsable := by
  refine ⟨⟨12 * 2 ^ 20, 4 * 2 ^ 20, by decide, by decide, by decide, by decide, by decide⟩, rfl, rfl, ?_, ?_⟩ <;>
    rintro ⟨chunks, hc, hdistinct, -⟩ <;> obtain rfl : 3 = chunks := by simpa [Sizes.chunks?] using hc
  · exact absurd (hdistinct 0 0 (by decide) 1 (by decide) rfl) (by decide)
  · exact absurd (hdistinct 0 0 (by decide) 1 (by decide) rfl) (by decide)

end FlagCX.Net
