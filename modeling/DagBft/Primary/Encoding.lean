/-
  The byte string that `Header::digest` hashes (`primary/src/messages.rs`), on the 32-byte
  keys and digests of `crypto/src/lib.rs`.

  The fields are written one after the other without their number of entries. A byte string
  is therefore read back once the sizes of the payload, the counts and the parents are
  given (`preimage_header`, `agree_of_preimage`), and may be read back with other sizes.

  `digest_determines_iff` says which headers share their digest with no other header.
-/
import DagBft.Lib.Pieces
import DagBft.Primary.Messages

namespace DagBft

/-- `[u8; 32]`, of `PublicKey` and `Digest`. -/
structure Bytes32 where
  bytes : Bytes
  length_eq : bytes.length = 32

namespace Bytes32

@[ext]
theorem ext {x y : Bytes32} (h : x.bytes = y.bytes) : x = y := by
  cases x
  cases y
  congr

instance : DecidableEq Bytes32 := fun x y =>
  decidable_of_iff (x.bytes = y.bytes) ⟨ext, fun h => h ▸ rfl⟩

/-- The number that the bytes are, the first one being the most significant. -/
def value (x : Bytes32) : ℕ := leValue x.bytes.reverse

theorem value_injective : Function.Injective value := by
  intro x y h
  refine ext (List.reverse_injective (leValue_injective ?_ h))
  rw [List.length_reverse, List.length_reverse, x.length_eq, y.length_eq]

/-- The lexicographic order. -/
instance : LinearOrder Bytes32 := LinearOrder.lift' value value_injective

instance : AsBytes Bytes32 := ⟨bytes⟩

instance : Inhabited Bytes32 := ⟨⟨List.replicate 32 0, rfl⟩⟩

/-- `try_into` on the first 32 bytes. -/
def ofBytes (b : Bytes) : Bytes32 :=
  ⟨(b ++ List.replicate 32 0).take 32, by simp⟩

theorem bytes_ofBytes {b : Bytes} (h : b.length = 32) : (ofBytes b).bytes = b := by
  show (b ++ List.replicate 32 0).take 32 = b
  rw [← h, List.take_left]

end Bytes32

namespace Header

variable {Signature : Type}

/-- The integers are those of their types. -/
structure InRange (h : Header Bytes32 Bytes32 Signature) : Prop where
  round : h.round < 256 ^ 8
  workers : ∀ x ∈ h.payload.entries, x.2 < 256 ^ 4
  accounts : ∀ x ∈ h.accountCounts.entries, x.1 < 256 ^ 4
  counts : ∀ x ∈ h.accountCounts.entries, x.2 < 256 ^ 2
  delay : h.avgQueueDelayMs < 256 ^ 8
  created : h.createdAt < 256 ^ 8

/-- The headers agree on the fields that the digest stands for. -/
def Agree (h h' : Header Bytes32 Bytes32 Signature) : Prop :=
  h.author = h'.author ∧ h.round = h'.round ∧ h.payload = h'.payload ∧
    h.accountCounts = h'.accountCounts ∧ h.avgQueueDelayMs = h'.avgQueueDelayMs ∧
    h.parents = h'.parents ∧ h.createdAt = h'.createdAt

/-! ## One entry -/

def encodeBatch (x : Bytes32 × ℕ) : Bytes := AsBytes.asRef x.1 ++ leBytes 4 x.2

def decodeBatch (b : Bytes) : Bytes32 × ℕ := (Bytes32.ofBytes (b.take 32), leValue (b.drop 32))

def encodeCount (x : ℕ × ℕ) : Bytes := leBytes 4 x.1 ++ leBytes 2 x.2

def decodeCount (b : Bytes) : ℕ × ℕ := (leValue (b.take 4), leValue (b.drop 4))

theorem length_encodeBatch (x : Bytes32 × ℕ) : (encodeBatch x).length = 36 := by
  unfold encodeBatch
  rw [List.length_append, length_leBytes]
  exact congrArg (· + 4) x.1.length_eq

theorem length_encodeCount (x : ℕ × ℕ) : (encodeCount x).length = 6 := by
  unfold encodeCount
  rw [List.length_append, length_leBytes, length_leBytes]

theorem encode_decodeBatch {b : Bytes} (h : b.length = 36) : encodeBatch (decodeBatch b) = b := by
  have htake : (b.take 32).length = 32 := by rw [List.length_take]; omega
  have hdrop : (b.drop 32).length = 4 := by rw [List.length_drop]; omega
  unfold encodeBatch decodeBatch
  rw [leBytes_leValue hdrop]
  show (Bytes32.ofBytes (b.take 32)).bytes ++ b.drop 32 = b
  rw [Bytes32.bytes_ofBytes htake, List.take_append_drop]

theorem encode_decodeCount {b : Bytes} (h : b.length = 6) : encodeCount (decodeCount b) = b := by
  have htake : (b.take 4).length = 4 := by rw [List.length_take]; omega
  have hdrop : (b.drop 4).length = 2 := by rw [List.length_drop]; omega
  unfold encodeCount decodeCount
  rw [leBytes_leValue hdrop, leBytes_leValue htake, List.take_append_drop]

theorem decode_encodeBatch {x : Bytes32 × ℕ} (h : x.2 < 256 ^ 4) :
    decodeBatch (encodeBatch x) = x := by
  unfold decodeBatch encodeBatch
  have hlen : (AsBytes.asRef x.1).length = 32 := x.1.length_eq
  rw [← hlen, List.take_left, List.drop_left, leValue_leBytes h]
  exact Prod.ext (Bytes32.ext (Bytes32.bytes_ofBytes hlen)) rfl

theorem decode_encodeCount {x : ℕ × ℕ} (h1 : x.1 < 256 ^ 4) (h2 : x.2 < 256 ^ 2) :
    decodeCount (encodeCount x) = x := by
  unfold decodeCount encodeCount
  rw [List.take_left' (length_leBytes 4 x.1), List.drop_left' (length_leBytes 4 x.1),
    leValue_leBytes h1, leValue_leBytes h2]

/-! ## Reading a byte string -/

/-- How many entries the payload, the counts and the parents have. -/
structure Sizes where
  payload : ℕ
  counts : ℕ
  parents : ℕ
deriving DecidableEq

def sizes (h : Header Bytes32 Bytes32 Signature) : Sizes :=
  ⟨h.payload.entries.length, h.accountCounts.entries.length, h.parents.toList.length⟩

namespace Sizes

/-- The lengths of the fields: author, round, payload, counts, delay, parents, creation. -/
def widths (z : Sizes) : List ℕ := [32, 8, 36 * z.payload, 6 * z.counts, 8, 32 * z.parents, 8]

variable (z : Sizes) (b : Bytes)

/-- The bytes of the `i`-th field. -/
def field (i : ℕ) : Bytes := (pieces z.widths b).getD i []

def payloadEntries : List (Bytes32 × ℕ) := (records 36 z.payload (z.field b 2)).map decodeBatch

def countEntries : List (ℕ × ℕ) := (records 6 z.counts (z.field b 3)).map decodeCount

def parentEntries : List Bytes32 := (records 32 z.parents (z.field b 5)).map Bytes32.ofBytes

/-- The bytes can be read with these sizes: the length is right, and the keys of the maps
    and the elements of the set come in increasing order. -/
structure Readable : Prop where
  length : b.length = z.widths.sum
  payload : ((z.payloadEntries b).map Prod.fst).Pairwise (· < ·)
  counts : ((z.countEntries b).map Prod.fst).Pairwise (· < ·)
  parents : (z.parentEntries b).Pairwise (· < ·)

variable {z b}

/-- The header that is read. -/
def Readable.header (hr : Readable z b) (id : Bytes32) (signature : Signature) :
    Header Bytes32 Bytes32 Signature where
  author := Bytes32.ofBytes (z.field b 0)
  round := leValue (z.field b 1)
  payload := ⟨z.payloadEntries b, hr.payload⟩
  accountCounts := ⟨z.countEntries b, hr.counts⟩
  avgQueueDelayMs := leValue (z.field b 4)
  parents := ⟨z.parentEntries b, hr.parents⟩
  createdAt := leValue (z.field b 6)
  id := id
  signature := signature

/-- The fields make up the byte string, and have their lengths. -/
theorem fields (h : b.length = z.widths.sum) :
    z.field b 0 ++ z.field b 1 ++ z.field b 2 ++ z.field b 3 ++ z.field b 4 ++ z.field b 5 ++
        z.field b 6 = b ∧
      (z.field b 0).length = 32 ∧ (z.field b 1).length = 8 ∧
      (z.field b 2).length = 36 * z.payload ∧ (z.field b 3).length = 6 * z.counts ∧
      (z.field b 4).length = 8 ∧ (z.field b 5).length = 32 * z.parents ∧
      (z.field b 6).length = 8 := by
  have hflatten := flatten_pieces h
  have hlengths := map_length_pieces h
  have hpieces : pieces z.widths b = [z.field b 0, z.field b 1, z.field b 2, z.field b 3,
      z.field b 4, z.field b 5, z.field b 6] := rfl
  rw [hpieces] at hflatten hlengths
  simp only [widths, List.map_cons, List.map_nil, List.cons.injEq, and_true] at hlengths
  refine ⟨?_, hlengths⟩
  simpa only [List.flatten_cons, List.flatten_nil, List.append_nil, List.append_assoc] using hflatten

end Sizes

variable {z : Sizes} {b : Bytes}

theorem inRange_header (hr : z.Readable b) (id : Bytes32) (signature : Signature) :
    (hr.header id signature).InRange := by
  obtain ⟨-, h0, h1, h2, h3, h4, h5, h6⟩ := Sizes.fields hr.length
  refine ⟨h1 ▸ leValue_lt _, ?_, ?_, ?_, h4 ▸ leValue_lt _, h6 ▸ leValue_lt _⟩
  · intro x hx
    obtain ⟨r, hmem, rfl⟩ := List.mem_map.mp hx
    have hlen : (r.drop 32).length = 4 := by
      rw [List.length_drop, length_of_mem_records h2 hmem]
    exact hlen ▸ leValue_lt _
  · intro x hx
    obtain ⟨r, hmem, rfl⟩ := List.mem_map.mp hx
    have hlen : (r.take 4).length = 4 := by
      rw [List.length_take, length_of_mem_records h3 hmem]
      rfl
    exact hlen ▸ leValue_lt _
  · intro x hx
    obtain ⟨r, hmem, rfl⟩ := List.mem_map.mp hx
    have hlen : (r.drop 4).length = 2 := by
      rw [List.length_drop, length_of_mem_records h3 hmem]
    exact hlen ▸ leValue_lt _

theorem sizes_header (hr : z.Readable b) (id : Bytes32) (signature : Signature) :
    (hr.header id signature).sizes = z := by
  obtain ⟨-, h0, h1, h2, h3, h4, h5, h6⟩ := Sizes.fields hr.length
  show Sizes.mk (z.payloadEntries b).length (z.countEntries b).length
    (z.parentEntries b).length = z
  unfold Sizes.payloadEntries Sizes.countEntries Sizes.parentEntries
  rw [List.length_map, List.length_map, List.length_map, length_records h2, length_records h3,
    length_records h5]

/-- What is read is encoded as it was. -/
theorem preimage_header (hr : z.Readable b) (id : Bytes32) (signature : Signature) :
    (hr.header id signature).preimage = b := by
  obtain ⟨hb, h0, h1, h2, h3, h4, h5, h6⟩ := Sizes.fields hr.length
  have hpayload : (z.payloadEntries b).flatMap encodeBatch = z.field b 2 :=
    flatMap_records h2 fun r hr => encode_decodeBatch hr
  have hcounts : (z.countEntries b).flatMap encodeCount = z.field b 3 :=
    flatMap_records h3 fun r hr => encode_decodeCount hr
  have hparents : (z.parentEntries b).flatMap AsBytes.asRef = z.field b 5 :=
    flatMap_records h5 fun r hr => Bytes32.bytes_ofBytes hr
  show (Bytes32.ofBytes (z.field b 0)).bytes ++ leBytes 8 (leValue (z.field b 1)) ++
    (z.payloadEntries b).flatMap encodeBatch ++ (z.countEntries b).flatMap encodeCount ++
    leBytes 8 (leValue (z.field b 4)) ++ (z.parentEntries b).flatMap AsBytes.asRef ++
    leBytes 8 (leValue (z.field b 6)) = b
  rw [Bytes32.bytes_ofBytes h0, leBytes_leValue h1, hpayload, hcounts, leBytes_leValue h4,
    hparents, leBytes_leValue h6, hb]

/-! ## The bytes of a header -/

/-- The fields as they are written. -/
def encodedFields (h : Header Bytes32 Bytes32 Signature) : List Bytes :=
  [AsBytes.asRef h.author, leBytes 8 h.round, h.payload.entries.flatMap encodeBatch,
    h.accountCounts.entries.flatMap encodeCount, leBytes 8 h.avgQueueDelayMs,
    h.parents.toList.flatMap AsBytes.asRef, leBytes 8 h.createdAt]

variable {h h' : Header Bytes32 Bytes32 Signature}

theorem flatten_encodedFields (h : Header Bytes32 Bytes32 Signature) :
    h.encodedFields.flatten = h.preimage := by
  show _ = AsBytes.asRef h.author ++ leBytes 8 h.round ++ h.payload.entries.flatMap encodeBatch ++
    h.accountCounts.entries.flatMap encodeCount ++ leBytes 8 h.avgQueueDelayMs ++
    h.parents.toList.flatMap AsBytes.asRef ++ leBytes 8 h.createdAt
  simp only [encodedFields, List.flatten_cons, List.flatten_nil, List.append_nil,
    List.append_assoc]

theorem widths_sizes (h : Header Bytes32 Bytes32 Signature) :
    h.sizes.widths = h.encodedFields.map List.length := by
  have hauthor : (AsBytes.asRef h.author).length = 32 := h.author.length_eq
  have hpayload : (h.payload.entries.flatMap encodeBatch).length = 36 * h.payload.entries.length :=
    length_flatMap_of_width fun x _ => length_encodeBatch x
  have hcounts : (h.accountCounts.entries.flatMap encodeCount).length =
      6 * h.accountCounts.entries.length :=
    length_flatMap_of_width fun x _ => length_encodeCount x
  have hparents : (h.parents.toList.flatMap AsBytes.asRef).length = 32 * h.parents.toList.length :=
    length_flatMap_of_width fun x _ => x.length_eq
  simp only [encodedFields, List.map_cons, List.map_nil, length_leBytes, hauthor, hpayload,
    hcounts, hparents]
  rfl

/-- With its own sizes a header is cut into its fields. -/
theorem pieces_preimage (h : Header Bytes32 Bytes32 Signature) :
    pieces h.sizes.widths h.preimage = h.encodedFields := by
  rw [widths_sizes, ← flatten_encodedFields, pieces_flatten]

theorem payloadEntries_preimage (hr : h.InRange) :
    h.sizes.payloadEntries h.preimage = h.payload.entries := by
  unfold Sizes.payloadEntries Sizes.field
  rw [pieces_preimage]
  show (records 36 h.payload.entries.length (h.payload.entries.flatMap encodeBatch)).map
    decodeBatch = _
  rw [records_flatMap fun x _ => length_encodeBatch x, List.map_map]
  exact (List.map_congr_left fun x hx => decode_encodeBatch (hr.workers x hx)).trans
    (List.map_id _)

theorem countEntries_preimage (hr : h.InRange) :
    h.sizes.countEntries h.preimage = h.accountCounts.entries := by
  unfold Sizes.countEntries Sizes.field
  rw [pieces_preimage]
  show (records 6 h.accountCounts.entries.length
    (h.accountCounts.entries.flatMap encodeCount)).map decodeCount = _
  rw [records_flatMap fun x _ => length_encodeCount x, List.map_map]
  exact (List.map_congr_left fun x hx => decode_encodeCount (hr.accounts x hx)
    (hr.counts x hx)).trans (List.map_id _)

theorem parentEntries_preimage (h : Header Bytes32 Bytes32 Signature) :
    h.sizes.parentEntries h.preimage = h.parents.toList := by
  have hlen : ∀ x : Bytes32, (AsBytes.asRef x).length = 32 := fun x => x.length_eq
  unfold Sizes.parentEntries Sizes.field
  rw [pieces_preimage]
  show (records 32 h.parents.toList.length (h.parents.toList.flatMap AsBytes.asRef)).map
    Bytes32.ofBytes = _
  rw [records_flatMap fun x _ => hlen x, List.map_map]
  exact (List.map_congr_left fun x _ => Bytes32.ext (Bytes32.bytes_ofBytes (hlen x))).trans
    (List.map_id _)

/-- The bytes of a header can be read with its sizes. -/
theorem readable_preimage (hr : h.InRange) : h.sizes.Readable h.preimage where
  length := by rw [widths_sizes, ← flatten_encodedFields, List.length_flatten]
  payload := by
    rw [payloadEntries_preimage hr]
    exact h.payload.sorted
  counts := by
    rw [countEntries_preimage hr]
    exact h.accountCounts.sorted
  parents := by
    rw [parentEntries_preimage]
    exact h.parents.sorted

/-- The bytes and the sizes determine the fields. -/
theorem agree_of_preimage (hr : h.InRange) (hr' : h'.InRange) (hsizes : h.sizes = h'.sizes)
    (hbytes : h.preimage = h'.preimage) : h.Agree h' := by
  have hfields : h.encodedFields = h'.encodedFields := by
    rw [← pieces_preimage, ← pieces_preimage, hsizes, hbytes]
  simp only [encodedFields, List.cons.injEq, and_true] at hfields
  obtain ⟨hauthor, hround, -, -, hdelay, -, hcreated⟩ := hfields
  refine ⟨Bytes32.ext hauthor, leBytes_injective hr.round hr'.round hround, OrdMap.ext ?_,
    OrdMap.ext ?_, leBytes_injective hr.delay hr'.delay hdelay, OrdSet.ext ?_,
    leBytes_injective hr.created hr'.created hcreated⟩
  · rw [← payloadEntries_preimage hr, hsizes, hbytes, payloadEntries_preimage hr']
  · rw [← countEntries_preimage hr, hsizes, hbytes, countEntries_preimage hr']
  · rw [← parentEntries_preimage h, hsizes, hbytes, parentEntries_preimage h']

theorem Agree.sizes (ha : h.Agree h') : h.sizes = h'.sizes := by
  obtain ⟨-, -, hpayload, hcounts, -, hparents, -⟩ := ha
  unfold Header.sizes
  rw [hpayload, hcounts, hparents]

/-- No header with other fields has the digest of this one, exactly if its bytes can be read
    with no other sizes. The hash is taken to give the digest to no other byte string. -/
theorem digest_determines_iff [Sha512 Bytes32] (h : Header Bytes32 Bytes32 Signature)
    (hr : h.InRange)
    (hfree : ∀ h' : Header Bytes32 Bytes32 Signature, h'.InRange → h'.digest = h.digest →
      h'.preimage = h.preimage) :
    (∀ h' : Header Bytes32 Bytes32 Signature, h'.InRange → h'.digest = h.digest →
      h'.Agree h) ↔
      ∀ z : Sizes, z.Readable h.preimage → z = h.sizes := by
  constructor
  · intro hall z hz
    have hbytes := preimage_header hz h.id h.signature
    have hdigest : (hz.header h.id h.signature).digest = h.digest := by
      unfold Header.digest
      rw [hbytes]
    have ha := hall _ (inRange_header hz h.id h.signature) hdigest
    rw [← sizes_header hz h.id h.signature, ha.sizes]
  · intro hall h' hr' hdigest
    have hbytes := hfree h' hr' hdigest
    have hz : h'.sizes.Readable h.preimage := hbytes ▸ readable_preimage hr'
    exact agree_of_preimage hr' hr (hall _ hz) hbytes

section Sample

namespace EncodingSample

/-- The digest of a batch, whose bytes are those of five counts and a half. -/
def batch : Bytes32 :=
  ⟨[1, 0, 0, 0, 1, 0, 2, 0, 0, 0, 1, 0, 3, 0, 0, 0, 1, 0, 4, 0, 0, 0, 1, 0, 5, 0, 0, 0, 1, 0,
    6, 0], rfl⟩

/-- The header of an author that lists a batch of worker 0. -/
def listing : Header Bytes32 Bytes32 Unit :=
  { (default : Header Bytes32 Bytes32 Unit) with
    round := 1, payload := (∅ : OrdMap Bytes32 ℕ).insert batch 0 }

/-- The header with six counts in place of the batch. -/
def counting : Header Bytes32 Bytes32 Unit :=
  { (default : Header Bytes32 Bytes32 Unit) with
    round := 1
    accountCounts := ⟨[(1, 1), (2, 1), (3, 1), (4, 1), (5, 1), (6, 0)], by decide⟩ }

theorem preimage_counting : counting.preimage = listing.preimage := by decide

/-- A hash that gives the digest of this header to no other byte string. -/
def separate (b : Bytes) : Bytes32 := if b = listing.preimage then default else Bytes32.ofBytes [1]

abbrev separating : Sha512 Bytes32 := ⟨separate⟩

theorem inRange_listing : listing.InRange := by
  constructor <;> decide

theorem inRange_counting : counting.InRange := by
  constructor <;> decide

theorem separating_listing (h : Header Bytes32 Bytes32 Unit)
    (hd : @Header.digest _ _ _ _ _ _ separating h = @Header.digest _ _ _ _ _ _ separating listing) :
    h.preimage = listing.preimage := by
  by_contra hne
  have h1 : separate h.preimage = Bytes32.ofBytes [1] := if_neg hne
  have h2 : separate listing.preimage = default := if_pos rfl
  have hd : separate h.preimage = separate listing.preimage := hd
  rw [h1, h2] at hd
  exact absurd hd (by decide)

end EncodingSample

open EncodingSample

theorem digest_determines_iff_sample :
    (∀ h' : Header Bytes32 Bytes32 Unit, h'.InRange →
      @Header.digest _ _ _ _ _ _ separating h' = @Header.digest _ _ _ _ _ _ separating listing →
        h'.Agree listing) ↔
      ∀ z : Sizes, z.Readable listing.preimage → z = listing.sizes :=
  @digest_determines_iff _ separating listing inRange_listing fun h' _ => separating_listing h'

/-- Two headers that differ in their payload and counts have one digest, whatever the hash. -/
theorem digest_ambiguous :
    ¬ ∀ (_hash : Sha512 Bytes32) (h : Header Bytes32 Bytes32 Unit), h.InRange →
        (∀ h' : Header Bytes32 Bytes32 Unit, h'.InRange → h'.digest = h.digest →
          h'.preimage = h.preimage) →
        ∀ h' : Header Bytes32 Bytes32 Unit, h'.InRange → h'.digest = h.digest → h'.Agree h := by
  intro h
  have hdigest : @Header.digest _ _ _ _ _ _ separating counting =
      @Header.digest _ _ _ _ _ _ separating listing := by
    unfold Header.digest
    rw [preimage_counting]
  have ha := h separating listing inRange_listing (fun h' _ => separating_listing h') counting
    inRange_counting hdigest
  exact absurd (congrArg (fun m => m.entries.length) ha.2.2.1) (by decide)

end Sample

end Header

end DagBft
