import FlagCX.Bootstrap.Sockets
import FlagCX.Lib.Lockstep

/-!
# Rounds of the ring

* `ringNext_prev`, `ringPrev_next` : the neighbours of a rank.
-/

namespace FlagCX.Bootstrap
open Lib List

section Neighbours
variable {n r : Nat}

section

variable (hr : r < n)
include hr

theorem ringNext_lt : ringNext n r < n := Nat.mod_lt _ (by omega)

theorem ringPrev_lt : ringPrev n r < n := Nat.mod_lt _ (by omega)

theorem ringNext_eq : ringNext n r = if r + 1 = n then 0 else r + 1 := by
  rw [ringNext]
  split_ifs with h
  · rw [h, Nat.mod_self]
  · exact Nat.mod_eq_of_lt (by omega)

theorem ringPrev_eq : ringPrev n r = if r = 0 then n - 1 else r - 1 := by
  rw [ringPrev]
  split_ifs with h
  · rw [h, Nat.zero_add, Nat.mod_eq_of_lt (by omega)]
  · rw [show r + n - 1 = r - 1 + n by omega, Nat.add_mod_right, Nat.mod_eq_of_lt (by omega)]

theorem ringPrev_next : ringPrev n (ringNext n r) = r := by
  rw [ringPrev_eq (ringNext_lt hr), ringNext_eq hr]
  by_cases h : r + 1 = n
  · rw [if_pos h, if_pos rfl]
    omega
  · rw [if_neg h, if_neg (Nat.succ_ne_zero r), Nat.add_sub_cancel]

theorem ringNext_prev : ringNext n (ringPrev n r) = r := by
  rw [ringNext_eq (ringPrev_lt hr), ringPrev_eq hr]
  by_cases h : r = 0
  · rw [if_pos h, if_pos (by omega), h]
  · rw [if_neg h, if_neg (by omega), Nat.sub_add_cancel (by omega)]

end

end Neighbours

section Rounds
variable {ν α : Type} {n : Nat}

theorem ring_exchange (procs mid q : Nat → Coll Packet ν α) (notes : Nat → List ν) (out : Nat → List Packet)
    (hsend : ∀ r < n, Path (procs r) ((out r).map (.sent (ringNext n r) .ring)) (mid r))
    (hrecv : ∀ r < n, Path (mid r) ((out (ringPrev n r)).map (.got (ringPrev n r) .ring)) (q r))
    (hq : ∀ r, n ≤ r → q r = procs r) :
    ∃ as, exec Network.step (Network.quiet procs notes) as = some (Network.quiet q notes) :=
  Network.exchange nodup_range (fun _ hr => ⟨mem_range.2 (ringNext_lt (mem_range.1 hr)), ringPrev_next (mem_range.1 hr)⟩)
    (fun _ hr => ⟨mem_range.2 (ringPrev_lt (mem_range.1 hr)), ringNext_prev (mem_range.1 hr)⟩)
    notes out (fun r hr => hsend r (mem_range.1 hr)) (fun r hr => hrecv r (mem_range.1 hr))
    fun r hr => hq r (not_lt.1 fun h => hr (mem_range.2 h))

theorem payload_all (procs : Nat → Coll Packet ν α) (notes : Nat → List ν) (next : Nat → Buffer → Coll Packet ν α)
    (src dst : Nat → Buffer) (sendAt recvAt size : Nat → Nat)
    (hprocs : ∀ r < n, procs r = (do
      sendBytes (ringNext n r) (src r) (sendAt r) (size r)
      recvBytes (ringPrev n r) (dst r) (recvAt r) (size (ringPrev n r))) >>= next r) :
    ∃ as, exec Network.step (Network.quiet procs notes) as = some (Network.quiet (fun r => if r < n then
      next r ((dst r).write (recvAt r) ((src (ringPrev n r)).read (sendAt (ringPrev n r)) (size (ringPrev n r)))) else procs r)
        notes) := by
  let prev := ringPrev n
  let bytes : Nat → List UInt8 := fun r => (src r).read (sendAt r) (size r)
  let final : Nat → Coll Packet ν α := fun r => if r < n then next r ((dst r).write (recvAt r) (bytes (prev r))) else procs r
  exact ring_exchange (n := n) procs (fun r => recvBytes (prev r) (dst r) (recvAt r) (size (prev r)) >>= next r) final notes
    (fun r => if 0 < size r then [.data (bytes r)] else [])
    (fun r hr => by
      rw [hprocs r hr]
      simp only [sendBytes, Int.natCast_pos, Int.toNat_natCast]
      split_ifs
      · exact .send (.refl _)
      · exact .refl _)
    (fun r hr => by
      have hwhole : (bytes (prev r)).take (size (prev r)) = bytes (prev r) := Buffer.take_read (le_rfl)
      simp only [final, if_pos hr, recvBytes, Int.natCast_pos, Int.toNat_natCast]
      split_ifs with hsize
      · refine .recv ?_
        dsimp only
        rw [hwhole]
        exact .refl _
      · have hnone : bytes (prev r) = [] := by
          simp only [bytes, Nat.eq_zero_of_not_pos hsize]
          rfl
        rw [hnone, Buffer.write_nil]
        exact .refl _)
    fun r hr => if_neg (by omega)

/-- **All ranks send to the next one and receive from the one before**, and each sends what is expected of it. -/
theorem sendRecv_all (procs : Nat → Coll Packet ν α) (notes : Nat → List ν) (next : Nat → Buffer → Coll Packet ν α)
    (src dst : Nat → Buffer) (sendAt recvAt size : Nat → Nat)
    (hprocs : ∀ r < n, procs r = bootstrapNetSendRecv (ringNext n r) (src r) (sendAt r) (size r) (ringPrev n r) (dst r) (recvAt r)
      (size (ringPrev n r)) >>= next r) :
    ∃ as, exec Network.step (Network.quiet procs notes) as = some (Network.quiet (fun r => if r < n then
      next r ((dst r).write (recvAt r) ((src (ringPrev n r)).read (sendAt (ringPrev n r)) (size (ringPrev n r)))) else procs r)
        notes) := by
  let prev := ringPrev n
  let payload : Nat → Coll Packet ν α := fun r => if r < n then (do
    sendBytes (ringNext n r) (src r) (sendAt r) (size r)
    recvBytes (prev r) (dst r) (recvAt r) (size (prev r))) >>= next r else procs r
  -- the headers
  obtain ⟨as, hheaders⟩ := ring_exchange (n := n) procs _ payload notes (fun r => [.size (size r)]) (fun r hr => by
      rw [hprocs r hr]
      exact .send (.refl _))
    (fun r hr => by
      have hbounds : ¬ ((size (prev r) : Int) < 0 ∨ (size (prev r) : Int) > size (prev r)) := by omega
      simp only [payload, if_pos hr]
      refine .recv ?_
      dsimp only
      rw [if_neg hbounds, Int.min_self]
      exact .refl _)
    fun r hr => if_neg (by omega)
  obtain ⟨bs, hbytes⟩ := payload_all payload notes next src dst sendAt recvAt size fun r hr => if_pos hr
  refine ⟨as ++ bs, ?_⟩
  rw [exec_append, hheaders]
  refine hbytes.trans (congrArg (fun procs => some (Network.quiet procs notes)) (funext fun r => ?_))
  split_ifs with hr
  · rfl
  · exact if_neg hr

variable {h : List (Event Nat Port Packet ν)}

theorem sendRecv_done {next prev sendAt recvAt : Nat} {src dst m : Buffer} {sendSize recvSize : Int}
    (hp : Path (bootstrapNetSendRecv next src sendAt sendSize prev dst recvAt recvSize) h (.done m)) {k : Nat}
    (hk : recvAt + recvSize.toNat ≤ k) : m k = dst k := by
  cases hp with
  | send hp =>
    cases hp with
    | @recv _ _ _ p _ _ hp =>
      cases p with
      | data bytes => cases hp
      | message n bytes => cases hp
      | size n =>
        dsimp only at hp
        split_ifs at hp with hbounds
        · cases hp
        · obtain ⟨_, h₁, h₂, -, -, hp⟩ := hp.bind_done
          rw [recvBytes] at hp
          split_ifs at hp with hsize
          · cases hp with
            | @recv _ _ _ p _ _ hp =>
              cases p with
              | size n => cases hp
              | message n bytes => cases hp
              | data bytes =>
                obtain ⟨-, hdone⟩ := hp.done_inv
                cases hdone
                refine Buffer.write_not_mem fun j hj => ?_
                rw [length_take] at hj
                omega
          · obtain ⟨-, hdone⟩ := hp.done_inv
            cases hdone
            rfl

theorem recv_done {peer offset : Nat} {tag size : Int} {buff m : Buffer}
    (hp : Path (bootstrapRecv peer tag buff offset size) h (.done m)) {k : Nat} (hk : offset + size.toNat ≤ k) :
    m k = buff k := by
  cases hp with
  | @recv _ _ _ p _ _ hp =>
    cases p with
    | size n => cases hp
    | data bytes => cases hp
    | message n bytes =>
      rw [bootstrapNetRecv] at hp
      split_ifs at hp with hlarge
      · cases hp
      · obtain ⟨-, hdone⟩ := hp.done_inv
        cases hdone
        refine Buffer.write_not_mem fun j hj => ?_
        rw [length_take] at hj
        omega

end Rounds

end FlagCX.Bootstrap
