/-
  The cryptographic primitives (`crypto/src/lib.rs`).

  SHA-512 and ed25519 come from a third-party package, so they are class operations.
  Nothing is assumed of them here: a result that needs the hash to separate two
  messages says so in its hypotheses.
-/
import Mathlib

namespace DagBft

abbrev Bytes := List UInt8

/-- `to_le_bytes` of an integer of `k` bytes. -/
def leBytes : ℕ → ℕ → Bytes
  | 0, _ => []
  | k + 1, n => UInt8.ofNat n :: leBytes k (n / 256)

theorem length_leBytes (k n : ℕ) : (leBytes k n).length = k := by
  induction k generalizing n with
  | zero => rfl
  | succ k ih => simp [leBytes, ih]

/-- `from_le_bytes`. -/
def leValue (b : Bytes) : ℕ := Nat.ofDigits 256 (b.map UInt8.toNat)

theorem leValue_lt (b : Bytes) : leValue b < 256 ^ b.length := by
  have h := Nat.ofDigits_lt_base_pow_length (b := 256) (l := b.map UInt8.toNat) (by decide) (by
    intro x hx
    obtain ⟨u, -, rfl⟩ := List.mem_map.mp hx
    exact u.toNat_lt)
  rwa [List.length_map] at h

theorem leValue_injective {b b' : Bytes} (hlen : b.length = b'.length)
    (h : leValue b = leValue b') : b = b' := by
  have hdigits : ∀ b : Bytes, ∀ x ∈ b.map UInt8.toNat, x < 256 := by
    intro b x hx
    obtain ⟨u, -, rfl⟩ := List.mem_map.mp hx
    exact u.toNat_lt
  have hmap := Nat.ofDigits_inj_of_len_eq (by decide) (by simpa using hlen) (hdigits b)
    (hdigits b') h
  exact List.map_injective_iff.mpr (fun x y hxy => UInt8.toNat_inj.mp hxy) hmap

theorem leValue_leBytes {k n : ℕ} (h : n < 256 ^ k) : leValue (leBytes k n) = n := by
  induction k generalizing n with
  | zero =>
      obtain rfl : n = 0 := by simpa using h
      rfl
  | succ k ih =>
      have hdiv : n / 256 < 256 ^ k := Nat.div_lt_of_lt_mul (by rwa [pow_succ, Nat.mul_comm] at h)
      have hbyte : (UInt8.ofNat n).toNat = n % 256 := rfl
      have hrest := ih hdiv
      unfold leValue at hrest ⊢
      rw [leBytes, List.map_cons, Nat.ofDigits_cons, hrest, hbyte]
      exact Nat.mod_add_div n 256

theorem leBytes_leValue {k : ℕ} {b : Bytes} (h : b.length = k) : leBytes k (leValue b) = b := by
  refine leValue_injective (by rw [length_leBytes, h]) ?_
  exact leValue_leBytes (h ▸ leValue_lt b)

theorem leBytes_injective {k n n' : ℕ} (hn : n < 256 ^ k) (hn' : n' < 256 ^ k)
    (h : leBytes k n = leBytes k n') : n = n' := by
  rw [← leValue_leBytes hn, h, leValue_leBytes hn']

/-- `AsRef<[u8]>`, of keys and digests. -/
class AsBytes (α : Type) where
  asRef : α → Bytes

/-- SHA-512 cut to its first 32 bytes. -/
class Sha512 (Digest : Type) where
  sha512 : Bytes → Digest

/-- ed25519 signatures. `sign` is what the `SignatureService` of an authority answers. -/
class Ed25519 (PublicKey Digest Signature : Type) where
  sign : Digest → PublicKey → Signature
  verify : Signature → Digest → PublicKey → Bool
  verifyBatch : Digest → List (PublicKey × Signature) → Bool

/-! ## A small instance

Keys and digests that are numbers, to evaluate the model on. The hash is injective. -/

namespace Toy

scoped instance : AsBytes ℕ := ⟨fun n => [UInt8.ofNat n]⟩

scoped instance : Sha512 ℕ := ⟨fun b => b.foldl (fun n x => n * 256 + x.toNat) 1⟩

scoped instance : Ed25519 ℕ ℕ Unit := ⟨fun _ _ => (), fun _ _ _ => true, fun _ _ => true⟩

/-- Messages of different lengths have different hashes. -/
theorem foldl_bounds (b : Bytes) (n : ℕ) :
    n * 256 ^ b.length ≤ b.foldl (fun n x => n * 256 + x.toNat) n ∧
      b.foldl (fun n x => n * 256 + x.toNat) n < (n + 1) * 256 ^ b.length := by
  induction b generalizing n with
  | nil => simp
  | cons x b ih =>
      have hx := x.toNat_lt
      rw [List.foldl_cons, List.length_cons, pow_succ]
      obtain ⟨hlo, hhi⟩ := ih (n * 256 + x.toNat)
      have h1 : n * 256 * 256 ^ b.length ≤ (n * 256 + x.toNat) * 256 ^ b.length :=
        Nat.mul_le_mul_right _ (by omega)
      have h2 : (n * 256 + x.toNat + 1) * 256 ^ b.length ≤ (n + 1) * 256 * 256 ^ b.length :=
        Nat.mul_le_mul_right _ (by omega)
      constructor
      · calc n * (256 ^ b.length * 256) = n * 256 * 256 ^ b.length := by ring
          _ ≤ _ := h1.trans hlo
      · calc _ < (n * 256 + x.toNat + 1) * 256 ^ b.length := hhi
          _ ≤ (n + 1) * 256 * 256 ^ b.length := h2
          _ = (n + 1) * (256 ^ b.length * 256) := by ring

theorem sha512_ne_of_length_lt {b b' : Bytes} (h : b.length < b'.length) :
    (Sha512.sha512 b : ℕ) ≠ Sha512.sha512 b' := by
  have h1 := (foldl_bounds b 1).2
  have h2 := (foldl_bounds b' 1).1
  have h3 : 256 ^ (b.length + 1) ≤ 256 ^ b'.length := Nat.pow_le_pow_right (by omega) h
  rw [pow_succ] at h3
  have h4 : 0 < 256 ^ b.length := by positivity
  show b.foldl _ 1 ≠ b'.foldl _ 1
  omega

end Toy

end DagBft
