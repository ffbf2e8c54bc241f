/-
  Base64 with the standard alphabet and padding: three bytes are four symbols of six bits.

  `decode_encode`: what is encoded is decoded again. Only what `encode` can give is decoded.
-/
import Mathlib.Tactic.Common

namespace DagBft.Base64

/-- The symbol of a number below 64. -/
def symbol (v : ℕ) : Char :=
  if v < 26 then Char.ofNat (65 + v)
  else if v < 52 then Char.ofNat (71 + v)
  else if v < 62 then Char.ofNat (v - 4)
  else if v = 62 then '+'
  else '/'

/-- The number of a symbol. -/
def sextet (c : Char) : Option ℕ := (List.range 64).find? fun v => symbol v = c

theorem sextet_symbol : ∀ v < 64, sextet (symbol v) = some v := by decide +kernel

theorem symbol_ne_pad : ∀ v < 64, symbol v ≠ '=' := by decide +kernel

def encode : List UInt8 → List Char
  | [] => []
  | [a] => [symbol (a.toNat / 4), symbol (a.toNat % 4 * 16), '=', '=']
  | [a, b] => [symbol (a.toNat / 4), symbol (a.toNat % 4 * 16 + b.toNat / 16),
      symbol (b.toNat % 16 * 4), '=']
  | a :: b :: c :: bytes =>
      symbol (a.toNat / 4) :: symbol (a.toNat % 4 * 16 + b.toNat / 16) ::
        symbol (b.toNat % 16 * 4 + c.toNat / 64) :: symbol (c.toNat % 64) :: encode bytes

/-- The bytes of four symbols. -/
def group (x y z w : ℕ) : List UInt8 :=
  [UInt8.ofNat (x * 4 + y / 16), UInt8.ofNat (y % 16 * 16 + z / 4), UInt8.ofNat (z % 4 * 64 + w)]

def decode : List Char → Option (List UInt8)
  | [] => some []
  | p :: q :: r :: s :: text => do
      let x ← sextet p
      let y ← sextet q
      if text = [] ∧ r = '=' ∧ s = '=' then
        -- what is left of the last symbol has to be zero
        if y % 16 = 0 then some ((group x y 0 0).take 1) else none
      else do
        let z ← sextet r
        if text = [] ∧ s = '=' then
          if z % 4 = 0 then some ((group x y z 0).take 2) else none
        else do
          let w ← sextet s
          let bytes ← decode text
          some (group x y z w ++ bytes)
  | _ => none

theorem group_eq {x y z w : ℕ} {a b c : UInt8} (ha : x * 4 + y / 16 = a.toNat)
    (hb : y % 16 * 16 + z / 4 = b.toNat) (hc : z % 4 * 64 + w = c.toNat) :
    group x y z w = [a, b, c] := by
  simp only [group, ha, hb, hc, UInt8.ofNat_toNat]

theorem decode_encode (bytes : List UInt8) : decode (encode bytes) = some bytes := by
  induction bytes using encode.induct with
  | case1 => rfl
  | case2 a =>
      have ha := a.toNat_lt
      unfold encode decode
      rw [sextet_symbol _ (by omega), sextet_symbol _ (by omega)]
      have hz : a.toNat % 4 * 16 % 16 = 0 := by omega
      have hgroup : group (a.toNat / 4) (a.toNat % 4 * 16) 0 0 = [a, 0, 0] :=
        group_eq (by omega) (by simp [hz]) rfl
      simp [hz, hgroup]
  | case3 a b =>
      have ha := a.toNat_lt
      have hb := b.toNat_lt
      unfold encode decode
      rw [sextet_symbol _ (by omega), sextet_symbol _ (by omega), sextet_symbol _ (by omega)]
      have hne := symbol_ne_pad (b.toNat % 16 * 4) (by omega)
      have hz : b.toNat % 16 * 4 % 4 = 0 := by omega
      have hgroup : group (a.toNat / 4) (a.toNat % 4 * 16 + b.toNat / 16) (b.toNat % 16 * 4) 0 =
          [a, b, 0] :=
        group_eq (by omega) (by omega) (by simp [hz])
      simp [hne, hz, hgroup]
  | case4 a b c bytes ih =>
      have ha := a.toNat_lt
      have hb := b.toNat_lt
      have hc := c.toNat_lt
      unfold encode decode
      rw [sextet_symbol _ (by omega), sextet_symbol _ (by omega), sextet_symbol _ (by omega),
        sextet_symbol _ (by omega), ih]
      have hne := symbol_ne_pad (c.toNat % 64) (by omega)
      have hgroup : group (a.toNat / 4) (a.toNat % 4 * 16 + b.toNat / 16)
          (b.toNat % 16 * 4 + c.toNat / 64) (c.toNat % 64) = [a, b, c] :=
        group_eq (by omega) (by omega) (by omega)
      simp [hne, hgroup]

end DagBft.Base64
