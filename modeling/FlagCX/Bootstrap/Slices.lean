import FlagCX.Bootstrap.Ring

/-!
# Slices that go round the ring

Every rank begins with its own slice, and in each round it passes on the one that it received last.

* `Slices.run`   : the rounds, whatever the ranks do afterwards.
* `Slices.holds` : after `k` rounds a rank has the slices of the `k` ranks before it and its own.
* `Slices.all`   : after all rounds it has every slice.
-/

namespace FlagCX.Bootstrap
open Lib

variable {ν α : Type}

/-- The rank `k` places before another one. Its slice is the one that is passed on in round `k`. -/
def slice (n r k : Nat) : Nat := (r + n - k) % n

section Slice
variable {n r j k : Nat}

section

variable (hr : r < n)
include hr

theorem slice_lt : slice n r k < n := Nat.mod_lt _ (by omega)

theorem slice_eq (hj : j < n) : slice n r j = if j ≤ r then r - j else r + n - j := by
  rw [slice]
  split_ifs with h
  · rw [show r + n - j = r - j + n by omega, Nat.add_mod_right, Nat.mod_eq_of_lt (by omega)]
  · exact Nat.mod_eq_of_lt (by omega)

theorem slice_zero : slice n r 0 = r := by rw [slice_eq hr (by omega), if_pos (Nat.zero_le r), Nat.sub_zero]

theorem slice_ne (hk : k < n) (hjk : j < k) : slice n r j ≠ slice n r k := by
  rw [slice_eq hr (by omega), slice_eq hr hk]
  split_ifs <;> omega

theorem slice_prev (hk : k + 1 < n) : slice n (ringPrev n r) k = slice n r (k + 1) := by
  rw [slice_eq (ringPrev_lt hr) (by omega), slice_eq hr hk, ringPrev_eq hr]
  split_ifs <;> omega

theorem slice_slice (hj : j < n) : slice n r (slice n r j) = j := by
  rw [slice_eq hr (slice_lt hr), slice_eq hr hj]
  split_ifs <;> omega

end

end Slice

/-- Slice `i` has `size i` bytes, and is at `place r i` in the memory of rank `r`. -/
structure Slices where
  n : Nat
  place : Nat → Nat → Nat
  size : Nat → Nat

namespace Slices
variable (s : Slices) (init : Nat → Buffer)

def round (r : Nat) (mem : Buffer) (k : Nat) : Coll Packet ν Buffer :=
  bootstrapNetSendRecv (ringNext s.n r) mem (s.place r (slice s.n r k)) (s.size (slice s.n r k)) (ringPrev s.n r) mem
    (s.place r (slice s.n r (k + 1))) (s.size (slice s.n r (k + 1)))

/-- The memory of a rank after `k` rounds. -/
def after : Nat → Nat → Buffer
  | 0, r => init r
  | k + 1, r =>
    let p := ringPrev s.n r
    let i := slice s.n r (k + 1)
    (after k r).write (s.place r i) ((after k p).read (s.place p i) (s.size i))

def Apart : Prop := ∀ r i j, r < s.n → i < s.n → j < s.n → i ≠ j →
  Buffer.Apart (s.place r i) (s.size i) (s.place r j) (s.size j)

variable {s init}

/-- **All rounds**, after which the ranks do something else. -/
theorem run (s : Slices) (init : Nat → Buffer) (procs : Nat → Coll Packet ν α) (notes : Nat → List ν)
    (next : Nat → Buffer → Coll Packet ν α)
    (hprocs : ∀ r < s.n, procs r = (List.range (s.n - 1)).foldlM (s.round r) (init r) >>= next r) :
    ∃ as, exec Network.step (Network.quiet procs notes) as =
      some (Network.quiet (fun r => if r < s.n then next r (s.after init (s.n - 1) r) else procs r) notes) := by
  refine Network.loop (· < s.n) s.round (s.after init) (fun k hk next => ?_) next hprocs
  obtain ⟨as, hexec⟩ := sendRecv_all (n := s.n)
    (fun r => if r < s.n then s.round r (s.after init k r) k >>= next r else procs r) notes next
    (s.after init k) (s.after init k) (fun r => s.place r (slice s.n r k)) (fun r => s.place r (slice s.n r (k + 1)))
    (fun r => s.size (slice s.n r k)) fun r hr => by
      rw [if_pos hr, round, slice_prev hr (by omega)]
  refine ⟨as, hexec.trans (congrArg (fun procs => some (Network.quiet procs notes)) (funext fun r => ?_))⟩
  split_ifs with hr
  · rw [after, slice_prev hr (by omega)]
  · rfl

theorem holds (init : Nat → Buffer) (hapart : s.Apart) {k r j : Nat} (hk : k ≤ s.n - 1) (hr : r < s.n) (hj : j ≤ k) :
    (s.after init k r).read (s.place r (slice s.n r j)) (s.size (slice s.n r j)) =
      (init (slice s.n r j)).read (s.place (slice s.n r j) (slice s.n r j)) (s.size (slice s.n r j)) := by
  induction k generalizing r j with
  | zero =>
    obtain rfl : j = 0 := Nat.le_zero.1 hj
    rw [slice_zero hr]
    rfl
  | succ k ih =>
    rw [after]
    rcases Nat.lt_or_eq_of_le hj with hlt | rfl
    · rw [Buffer.read_write_apart]
      · exact ih (by omega) hr (by omega)
      · rw [Buffer.length_read]
        exact hapart _ _ _ hr (slice_lt hr) (slice_lt hr) (slice_ne hr (by omega) hlt)
    · have hprev := ih (by omega) (ringPrev_lt hr) (Nat.le_refl k)
      rw [slice_prev hr (by omega)] at hprev
      rw [Buffer.read_write_read, hprev]

/-- **In the end it has all of them.** -/
theorem all (hapart : s.Apart) {r i : Nat} (hr : r < s.n) (hi : i < s.n) :
    (s.after init (s.n - 1) r).read (s.place r i) (s.size i) = (init i).read (s.place i i) (s.size i) := by
  have hback : slice s.n r i ≤ s.n - 1 := Nat.le_sub_one_of_lt (slice_lt hr)
  have hread := holds init hapart (le_rfl) hr hback
  rwa [slice_slice hr hi] at hread

end Slices

end FlagCX.Bootstrap
