import Mathlib.Algebra.Group.Nat.Defs
import MetaDR.Lib.Codec
/-!
# Xdr — the formats of RFC 4506

Unsigned numbers with the highest byte first, truth values as the numbers 0 and 1, and strings with their length in
front and zeros behind them up to a multiple of four bytes.
-/
namespace Xdr

/-- The last `k` bytes of a number, the highest first. -/
def bytes : Nat → Nat → List UInt8
  | 0, _ => []
  | k + 1, x => UInt8.ofNat (x / 256 ^ k) :: bytes k x

def ofBytes (bs : List UInt8) : Nat := bs.foldl (fun acc b => acc * 256 + b.toNat) 0

@[simp] theorem length_bytes (k x : Nat) : (bytes k x).length = k := by
  induction k with
  | zero => rfl
  | succ k ih => rw [bytes, List.length_cons, ih]

theorem foldl_bytes (x : Nat) : ∀ k acc,
    (bytes k x).foldl (fun acc b => acc * 256 + b.toNat) acc = acc * 256 ^ k + x % 256 ^ k
  | 0, acc => by simp [bytes, Nat.mod_one]
  | k + 1, acc => by
    have hb : (UInt8.ofNat (x / 256 ^ k)).toNat = x / 256 ^ k % 256 := UInt8.toNat_ofNat'
    rw [bytes, List.foldl_cons, foldl_bytes x k, hb, Nat.pow_succ, Nat.mod_mul, Nat.add_mul, Nat.mul_comm (256 ^ k),
      Nat.mul_assoc, Nat.mul_comm (x / 256 ^ k % 256), Nat.add_assoc, Nat.add_comm (256 ^ k * _)]

/-- A number of `k` bytes. -/
def uint (k : Nat) : Codec UInt8 Nat where
  fits := fun x => x < 256 ^ k
  save := bytes k
  load := fun s => if k ≤ s.length then some (ofBytes (s.take k), s.drop k) else none
  load_save := fun x rest h => by
    have hk := length_bytes k x
    rw [if_pos (by rw [List.length_append]; omega), List.take_left' hk, List.drop_left' hk, ofBytes, foldl_bytes,
      Nat.zero_mul, Nat.zero_add, Nat.mod_eq_of_lt h]
  load_append := fun s x rest more h => by
    split at h
    · rename_i hk
      cases h
      rw [if_pos (by rw [List.length_append]; omega), List.take_append_of_le_length hk,
        List.drop_append_of_le_length hk]
    · cases h

def bool : Codec UInt8 Bool :=
  (uint 4).via Bool.toNat (fun x => if x = 0 then some false else if x = 1 then some true else none)
    (fun b => by cases b <;> rfl)

/-- The zeros behind `n` bytes. -/
def pad (n : Nat) : List UInt8 := List.replicate ((4 - n % 4) % 4) 0

/-- `n` bytes, with their zeros. -/
def padded (n : Nat) : Codec UInt8 (List UInt8) where
  fits := fun x => x.length = n
  save := fun x => x ++ pad n
  load := fun s =>
    if (s.drop n).take (pad n).length = pad n ∧ n ≤ s.length then some (s.take n, s.drop (n + (pad n).length)) else none
  load_save := fun x rest h => by
    rw [List.append_assoc, List.drop_left' h, List.take_left' rfl, if_pos ⟨rfl, by rw [List.length_append]; omega⟩,
      List.take_left' h, ← List.drop_drop, List.drop_left' h, List.drop_left' rfl]
  load_append := fun s x rest more h => by
    split at h
    · rename_i hn
      cases h
      have hlen : n + (pad n).length ≤ s.length := by
        have := congrArg List.length hn.1
        rw [List.length_take, List.length_drop] at this
        omega
      rw [List.drop_append_of_le_length hn.2, List.take_append_of_le_length (by rw [List.length_drop]; omega),
        if_pos ⟨hn.1, by rw [List.length_append]; omega⟩, List.take_append_of_le_length hn.2,
        List.drop_append_of_le_length hlen]
    · cases h

/-- A string of at most `max` bytes. -/
def string (max : Nat) : Codec UInt8 (List UInt8) :=
  (uint 4).tagged List.length (fun n => if n ≤ max then padded n else .void)

theorem fits_string {max : Nat} (hm : max < 256 ^ 4) {s : List UInt8} (h : s.length ≤ max) : (string max).fits s := by
  refine ⟨Nat.lt_of_le_of_lt h hm, ?_⟩
  dsimp only
  rw [if_pos h]
  rfl

theorem length_le_of_load {max : Nat} {s x rest : List UInt8} (h : (string max).load s = some (x, rest)) :
    x.length ≤ max := by
  obtain ⟨⟨n, s'⟩, -, h⟩ := Option.bind_eq_some_iff.1 h
  dsimp only at h
  split at h
  · rename_i hn
    simp only [padded] at h
    split at h
    · cases h
      exact Nat.le_trans (List.length_take_le _ _) hn
    · cases h
  · cases h

/-- What stands in front of the argument of a call (RFC 5531), without credentials: the transaction, that it is a call,
the version of the protocol, then program, version and procedure. -/
def callHead : Codec UInt8 (Nat × Nat × Nat) :=
  Codec.via
    ((uint 4).pair ((uint 4).pair ((uint 4).pair (((uint 4).pair ((uint 4).pair (uint 4))).pair
      ((uint 4).pair ((uint 4).pair ((uint 4).pair (uint 4))))))))
    (fun c => (0, 0, 2, c, 0, 0, 0, 0))
    (fun (_, mtype, rpcvers, c, _) => if mtype = 0 ∧ rpcvers = 2 then some c else none)
    (fun _ => rfl)

theorem bool_fits (b : Bool) : bool.fits b :=
  Nat.lt_of_le_of_lt (Bool.toNat_le b) (by decide : 1 < 256 ^ 4)

theorem callHead_fits {prog vers proc : Nat} (hp : prog < 256 ^ 4) (hv : vers < 256 ^ 4) (hc : proc < 256 ^ 4) :
    callHead.fits (prog, vers, proc) :=
  have small : ∀ x, x ≤ 2 → (uint 4).fits x := fun x hx => Nat.lt_of_le_of_lt hx (by decide : 2 < 256 ^ 4)
  have h0 := small 0 (by decide)
  ⟨h0, h0, small 2 (by decide), ⟨hp, hv, hc⟩, h0, h0, h0, h0⟩

end Xdr
