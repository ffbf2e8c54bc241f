/-
  Sequences of byte strings in which a length of eight bytes, the lowest one first, comes
  before each string and one comes before the sequence.

  `decode_encode`: such a sequence can be read back, whatever follows it.
-/
import DagBft.Crypto

namespace DagBft.Prefixed

def encodeItem (item : Bytes) : Bytes := leBytes 8 item.length ++ item

def encode (items : List Bytes) : Bytes := leBytes 8 items.length ++ items.flatMap encodeItem

/-- The length at the front, and what comes after it. -/
def readLength (b : Bytes) : Option (ℕ × Bytes) :=
  if b.length < 8 then none else some (leValue (b.take 8), b.drop 8)

def readItems : ℕ → Bytes → Option (List Bytes)
  | 0, _ => some []
  | k + 1, b =>
      (readLength b).bind fun x =>
        if x.2.length < x.1 then none
        else (readItems k (x.2.drop x.1)).map (x.2.take x.1 :: ·)

def decode (b : Bytes) : Option (List Bytes) := (readLength b).bind fun x => readItems x.1 x.2

theorem readLength_leBytes {n : ℕ} (hn : n < 2 ^ 64) (rest : Bytes) :
    readLength (leBytes 8 n ++ rest) = some (n, rest) := by
  have hlen := length_leBytes 8 n
  unfold readLength
  rw [if_neg (by rw [List.length_append, hlen]; omega), List.take_left' hlen, List.drop_left' hlen,
    leValue_leBytes (by omega)]

theorem readItems_encode {items : List Bytes} (hitems : ∀ item ∈ items, item.length < 2 ^ 64)
    (rest : Bytes) : readItems items.length (items.flatMap encodeItem ++ rest) = some items := by
  induction items with
  | nil => rfl
  | cons item items ih =>
      have hitem := hitems item List.mem_cons_self
      have hrest := ih fun x hx => hitems x (List.mem_cons_of_mem _ hx)
      rw [List.flatMap_cons, encodeItem, List.append_assoc, List.append_assoc, List.length_cons,
        readItems, readLength_leBytes hitem, Option.bind_some]
      dsimp only
      rw [if_neg (by rw [List.length_append]; omega), List.take_left, List.drop_left, hrest,
        Option.map_some]

theorem decode_encode {items : List Bytes} (hlen : items.length < 2 ^ 64)
    (hitems : ∀ item ∈ items, item.length < 2 ^ 64) (rest : Bytes) :
    decode (encode items ++ rest) = some items := by
  unfold decode encode
  rw [List.append_assoc, readLength_leBytes hlen, Option.bind_some]
  exact readItems_encode hitems rest

end DagBft.Prefixed
