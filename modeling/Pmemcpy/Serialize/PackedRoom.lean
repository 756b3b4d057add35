import Pmemcpy.Serialize.Message

/-!
# When the packed message fits its buffer

`est_encoded_size` adds 256 bytes to the size of an array, for the framing of
the message and for what packing can add. Packing adds up to half a byte for
each word, so there is an array that does not fit from about four kilobytes on.
-/

namespace Pmemcpy

open Lib Piece

/-! ### The framing -/

section Framing

/-- The number of zero bytes among the four bytes of a number. -/
def zeroBytes (v : ℕ) : ℕ := (leBytes 4 v).count 0

/-- The zero bytes of a number can be counted one byte at a time. -/
theorem zeroBytes_eq (v : ℕ) : zeroBytes v = (if v % 256 = 0 then 1 else 0) +
    (if v / 256 % 256 = 0 then 1 else 0) + (if v / 65536 % 256 = 0 then 1 else 0) +
    if v / 16777216 % 256 = 0 then 1 else 0 := by
  have hbyte (n : ℕ) : (UInt8.ofNat n == 0) = decide (n % 256 = 0) := by
    have hzero : UInt8.ofNat n = 0 ↔ n % 256 = 0 := by
      rw [← UInt8.toNat_inj]
      simp
    by_cases h : n % 256 = 0
    · simp [hzero.mpr h, h]
    · simp [h, mt hzero.mp h]
  simp only [zeroBytes, leBytes, List.count_cons, List.count_nil, hbyte, decide_eq_true_eq,
    Nat.div_div_eq_div_mul, Nat.reduceMul]
  omega

/-- A number below 2^16 has at least two zero bytes. -/
theorem two_le_zeroBytes {v : ℕ} (h : v < 65536) : 2 ≤ zeroBytes v := by
  rw [zeroBytes_eq, if_pos (by omega : v / 65536 % 256 = 0),
    if_pos (by omega : v / 16777216 % 256 = 0)]
  omega

/-- A number with two significant bytes has exactly two zero bytes. -/
theorem zeroBytes_eq_two {v : ℕ} (hlow : v % 256 ≠ 0) (h : 256 ≤ v) (h' : v < 65536) :
    zeroBytes v = 2 := by
  rw [zeroBytes_eq, if_neg hlow, if_neg (by omega), if_pos (by omega), if_pos (by omega)]

/-- A number that is not zero has at most three zero bytes. -/
theorem zeroBytes_le_three {v : ℕ} (h : 0 < v) (h' : v < 2 ^ 32) : zeroBytes v ≤ 3 := by
  rw [zeroBytes_eq]
  split <;> split <;> split <;> split <;> omega

/-- The zero bytes of a word of two numbers are those of the numbers. -/
theorem zeros_word32 (a b : ℕ) : (word32 a b).zeros = zeroBytes a + zeroBytes b := by
  rw [word32, Word.zeros_ofBytes (by simp), List.count_append]
  simp [zeroBytes]

/-- The number in a list pointer is not a multiple of 256. -/
theorem listCode_mod (T : ElemType) (count : ℕ) : (8 * count + T.sizeCode) % 256 ≠ 0 := by
  have h := T.sizeCode_bounds
  omega

/-- A list pointer is a tagged word. -/
theorem zeros_listPointer {T : ElemType} {count : ℕ} (h : count < 2 ^ 29) :
    (listPointer T count).zeros = 3 + zeroBytes (8 * count + T.sizeCode) ∧
      (listPointer T count).zeros ≤ 6 := by
  have hcode := T.sizeCode_bounds
  have hone : zeroBytes 1 = 3 := by decide
  have hthree := zeroBytes_le_three (v := 8 * count + T.sizeCode) (by omega) (by omega)
  rw [listPointer, zeros_word32, hone]
  omega

/-- A word of some zero bytes and some others begins a piece of its own. -/
theorem push_tagged {w : Word} (h2 : 2 ≤ w.zeros) (h8 : w.zeros < 8) (ps : List Piece) :
    push ps w = tagged w :: ps := by
  rcases push_cases ps w with ⟨_, _, _, hw, _⟩ | ⟨_, _, _, _, hw, _⟩ | ⟨_, hpush⟩
  · omega
  · omega
  · rw [hpush, begin, if_neg (by omega), if_neg (by omega)]

/-- Words before a tagged word are packed on their own. -/
theorem pack_append_of_zeros (us ws : List Word) {w : Word} (h2 : 2 ≤ w.zeros) (h8 : w.zeros < 8) :
    pack (us ++ w :: ws) = pack (us ++ [w]) ++ pack ws :=
  pack_append_tagged us ws (by rw [cut_append_singleton, push_tagged h2 h8])

/-- A tagged word at the end of a stream adds its tag and its bytes that are not zero. -/
theorem length_pack_snoc (us : List Word) {w : Word} (h2 : 2 ≤ w.zeros) (h8 : w.zeros < 8) :
    (pack (us ++ [w])).length = (pack us).length + (9 - w.zeros) := by
  have h := length_pack (us ++ [w])
  have hus := length_pack us
  rw [cut_append_singleton, totalExcess_push _ (by omega) (by omega), List.length_append] at h
  simp only [List.length_singleton] at h
  push_cast at h
  omega

end Framing

/-! ### The length of a packed message -/

section Length

variable {T : ElemType} {count : ℕ} {elems : Bytes}

/-- The number of bytes in a packed message that are not in its list. -/
def headerLength (T : ElemType) (count words : ℕ) : ℕ :=
  if 4 + words ≤ 1024 then 18 - zeroBytes (4 + words) - zeroBytes (8 * count + T.sizeCode)
  else 24 - zeroBytes (1 + words) - zeroBytes (8 * count + T.sizeCode)

/-- The root pointer and the two data words take seven bytes. -/
theorem length_pack_head (T : ElemType) :
    (pack [rootPointer, discriminant (T.ordinal + 10), Word.zero]).length = 7 := by
  cases T <;> decide

/-- The packed table of a message of one segment is a tag and the bytes of the size that are not
zero. -/
theorem length_pack_table (n : ℕ) (h : 0 < n) (h' : n < 2 ^ 32) :
    (pack (wordsOf (leBytes 4 0 ++ leBytes 4 n))).length = 5 - zeroBytes n := by
  have hword : wordsOf (leBytes 4 0 ++ leBytes 4 n) = [] ++ [word32 0 n] := by
    have hflat := wordsOf_flatMap [word32 0 n]
    rwa [List.flatMap_singleton, word32, Word.bytes_ofBytes (by simp)] at hflat
  have hzeros := zeros_word32 0 n
  have hfour : zeroBytes 0 = 4 := by decide
  have hthree := zeroBytes_le_three h h'
  rw [hword, length_pack_snoc _ (by omega) (by omega), hzeros, hfour]
  simp [pack, cut]
  omega

/-- The packed table of a message of two segments has the bytes of its numbers that are not zero,
and their tags. -/
theorem length_pack_table_two (n : ℕ) (h : 0 < n) (h' : n < 2 ^ 32) :
    (pack (wordsOf (leBytes 4 1 ++ (leBytes 4 4 ++ leBytes 4 n)))).length = 8 - zeroBytes n := by
  have hwords : wordsOf (leBytes 4 1 ++ (leBytes 4 4 ++ leBytes 4 n)) =
      [word32 1 4] ++ [word32 n 0] := by
    have hflat := wordsOf_flatMap_append (b := leBytes 4 n) [word32 1 4] (by simp [leBytes])
      (by simp)
    rw [List.flatMap_singleton, word32, Word.bytes_ofBytes (by simp)] at hflat
    rw [← List.append_assoc]
    simpa [word32, leBytes, Word.ofBytes] using hflat
  have hzeros := zeros_word32 n 0
  have hfour : zeroBytes 0 = 4 := by decide
  have hthree := zeroBytes_le_three h h'
  have hfirst : (pack [word32 1 4]).length = 3 := by decide
  rw [hwords, length_pack_snoc _ (by omega) (by omega), hzeros, hfour, hfirst]
  omega

/-- **The length of a packed message**: its header, its list, and the growth of the list. -/
theorem length_writePackedMessage (hcount : count < 2 ^ 29)
    (helems : elems.length = T.sizeof * count) :
    ((writePackedMessage (arraySegments T count elems)).length : ℤ) =
      headerLength T count (wordsOf elems).length + elems.length + growth elems := by
  have hlist : ((pack (wordsOf elems)).length : ℤ) = elems.length + growth elems := by
    rw [growth]
    omega
  obtain ⟨hpointer, hle⟩ := zeros_listPointer (T := T) hcount
  have hwords : (wordsOf elems).length = (elems.length + 7) / 8 := length_wordsOf elems
  have hsmall : elems.length < 2 ^ 32 := by
    rcases T.sizeof_cases with h | h | h | h <;> rw [helems, h] <;> omega
  have hhead := length_pack_head T
  by_cases hone : 4 + (wordsOf elems).length ≤ 1024
  · have htable := length_pack_table (4 + (wordsOf elems).length) (by omega) (by omega)
    have hzn := zeroBytes_le_three (v := 4 + (wordsOf elems).length) (by omega) (by omega)
    have hsplit := pack_append_of_zeros
      [rootPointer, discriminant (T.ordinal + 10), Word.zero] (wordsOf elems)
      (w := listPointer T count) (by omega) (by omega)
    have hsnoc := length_pack_snoc [rootPointer, discriminant (T.ordinal + 10), Word.zero]
      (w := listPointer T count) (by omega) (by omega)
    have hseg : arraySegments T count elems =
        [[rootPointer, discriminant (T.ordinal + 10), Word.zero] ++
          listPointer T count :: wordsOf elems] := by
      rw [arraySegments, if_pos hone]
    have hsize : ([rootPointer, discriminant (T.ordinal + 10), Word.zero] ++
        listPointer T count :: wordsOf elems).length = 4 + (wordsOf elems).length := by
      simp
      omega
    have htab : segmentTable (arraySegments T count elems) =
        wordsOf (leBytes 4 0 ++ leBytes 4 (4 + (wordsOf elems).length)) := by
      rw [hseg, segmentTable, List.flatMap_singleton, hsize]
      rfl
    rw [writePackedMessage, htab, hseg, List.flatMap_singleton, hsplit, headerLength, if_pos hone]
    simp only [List.length_append]
    push_cast
    omega
  · have htable := length_pack_table_two (1 + (wordsOf elems).length) (by omega) (by omega)
    have hzn := zeroBytes_le_three (v := 1 + (wordsOf elems).length) (by omega) (by omega)
    have hsplit := pack_append_of_zeros [] (wordsOf elems) (w := listPointer T count)
      (by omega) (by omega)
    have hsnoc := length_pack_snoc [] (w := listPointer T count) (by omega) (by omega)
    have hfar := length_pack_snoc [rootPointer, discriminant (T.ordinal + 10), Word.zero]
      (w := farPointer) (by decide) (by decide)
    have hfarz : farPointer.zeros = 6 := by decide
    have hseg : arraySegments T count elems =
        [[rootPointer, discriminant (T.ordinal + 10), Word.zero] ++ [farPointer],
          listPointer T count :: wordsOf elems] := by
      rw [arraySegments, if_neg hone]
    have htab : segmentTable (arraySegments T count elems) =
        wordsOf (leBytes 4 1 ++ (leBytes 4 4 ++ leBytes 4 (1 + (wordsOf elems).length))) := by
      rw [hseg, segmentTable]
      simp [Nat.add_comm]
    have hnil : (pack []).length = 0 := rfl
    rw [List.nil_append, List.nil_append] at hsplit
    rw [List.nil_append] at hsnoc
    rw [writePackedMessage, htab, hseg, List.flatMap_cons, List.flatMap_singleton, hsplit,
      headerLength, if_neg hone]
    simp only [List.length_append]
    push_cast
    omega

/-- The list pointer's number has two significant bytes for arrays of a few kilobytes. -/
theorem listCode_two_bytes (T : ElemType) (h : 2048 ≤ T.sizeof * count)
    (h' : T.sizeof * count < 8191) :
    256 ≤ 8 * count + T.sizeCode ∧ 8 * count + T.sizeCode < 65536 := by
  have hcode := T.sizeCode_bounds
  rcases T.sizeof_cases with hs | hs | hs | hs <;> rw [hs] at h h' <;> omega

/-- The header of an array of up to four kilobytes has at most fourteen bytes. -/
theorem headerLength_le {n : ℕ} (T : ElemType) (hn : n ≤ 482) (hsize : T.sizeof * count < 8191) :
    headerLength T count n ≤ 14 := by
  have hcode := T.sizeCode_bounds
  have hlt : 8 * count + T.sizeCode < 65536 := by
    rcases T.sizeof_cases with hs | hs | hs | hs <;> rw [hs] at hsize <;> omega
  have htable := two_le_zeroBytes (v := 4 + n) (by omega)
  have hpointer := two_le_zeroBytes hlt
  rw [headerLength, if_pos (by omega)]
  omega

/-- The header has at least twelve bytes. -/
theorem le_headerLength {n : ℕ} (T : ElemType) (hn : 1 + n < 2 ^ 31) (hcount : count < 2 ^ 29) :
    12 ≤ headerLength T count n := by
  have hcode := T.sizeCode_bounds
  have hfour := zeroBytes_le_three (v := 4 + n) (by omega) (by omega)
  have hone := zeroBytes_le_three (v := 1 + n) (by omega) (by omega)
  have hpointer := zeroBytes_le_three (v := 8 * count + T.sizeCode) (by omega) (by omega)
  unfold headerLength
  split <;> omega

/-- The header has exactly fourteen bytes where the bound is reached. -/
theorem headerLength_eq {n : ℕ} (T : ElemType) (hlow : 482 ≤ n) (hhigh : n ≤ 507)
    (h : 2048 ≤ T.sizeof * count) (h' : T.sizeof * count < 8191) :
    headerLength T count n = 14 := by
  have hbytes := listCode_two_bytes T h h'
  have hpointer := zeroBytes_eq_two (listCode_mod T count) hbytes.1 hbytes.2
  have htable := zeroBytes_eq_two (v := 4 + n) (by omega) (by omega) (by omega)
  rw [headerLength, if_pos (by omega), hpointer, htable]

end Length

/-! ### The buffer -/

section Room

variable {T : ElemType} {count : ℕ} {elems : Bytes}

/-- The packing of an array takes no more than the 256 bytes that `est_encoded_size` adds:
two bytes for each raw run and the framing, less what the zero bytes save. -/
def FitsSlack (T : ElemType) (count : ℕ) (elems : Bytes) : Prop :=
  headerLength T count (wordsOf elems).length + totalExcess (cut (wordsOf elems)) +
    (8 * (wordsOf elems).length - elems.length) ≤ 256

/-- An array has less than 2^29 elements or does not get to the stream. -/
theorem serializeInto_eq_full_iff (helems : elems.length = T.sizeof * count) :
    CapnProtoSerializer.serializeInto T (CapnProtoSerializer.estEncodedSize (T.sizeof * count))
        (.array count elems) = .error .arrayFull ↔
      count < 2 ^ 29 ∧ ¬FitsSlack T count elems := by
  by_cases hcount : 2 ^ 29 ≤ count
  · have hout : CapnProtoSerializer.serializeInto T
        (CapnProtoSerializer.estEncodedSize (T.sizeof * count)) (.array count elems) =
        .error .listTooLong := by
      rw [CapnProtoSerializer.serializeInto, buildMessage, if_pos hcount]
      rfl
    rw [hout]
    constructor
    · intro h
      cases h
    · rintro ⟨hlt, _⟩
      omega
  · have hlength := length_writePackedMessage (not_le.mp hcount) helems
    have hgrowth := growth_eq elems
    have hest : CapnProtoSerializer.estEncodedSize (T.sizeof * count) = elems.length + 256 := by
      rw [CapnProtoSerializer.estEncodedSize, helems]
      rcases T.sizeof_cases with h | h | h | h <;> rw [h] <;> omega
    have hout : CapnProtoSerializer.serializeInto T
        (CapnProtoSerializer.estEncodedSize (T.sizeof * count)) (.array count elems) =
        arrayOutput (elems.length + 256) (writePackedMessage (arraySegments T count elems)) := by
      rw [CapnProtoSerializer.serializeInto, buildMessage, if_neg hcount, hest]
      rfl
    rw [hout, arrayOutput, FitsSlack]
    constructor
    · intro h
      split at h
      · cases h
      · exact ⟨not_le.mp hcount, by omega⟩
    · rintro ⟨_, h⟩
      rw [if_neg (by omega)]

/-- An array fits its buffer exactly if header and growth are at most 256 bytes. -/
theorem fitsSlack_iff : FitsSlack T count elems ↔
    headerLength T count (wordsOf elems).length + growth elems ≤ 256 := by
  rw [FitsSlack, growth_eq]
  omega

/-- Up to 3848 bytes, and of 3856 bytes, every array fits. -/
theorem fitsSlack_of_small (helems : elems.length = T.sizeof * count)
    (hsize : T.sizeof * count ≤ 3848 ∨ T.sizeof * count = 3856) : FitsSlack T count elems := by
  have hwords := length_wordsOf elems
  have hheader := headerLength_le (n := (wordsOf elems).length) T (by omega)
    (by omega : T.sizeof * count < 8191)
  rw [fitsSlack_iff]
  by_cases hdvd : elems.length % 8 = 0
  · have hgrowth := growth_le_of_dvd hdvd
    omega
  · have hgrowth := growth_le elems
    omega

/-- Of every other size some array does not fit. -/
theorem not_fitsSlack_worstBytes (hcount : count < 2 ^ 29) (hlow : 3848 < T.sizeof * count)
    (hne : T.sizeof * count ≠ 3856) : ¬FitsSlack T count (worstBytes (T.sizeof * count)) := by
  have hlen := length_worstBytes (T.sizeof * count)
  have hwords := length_wordsOf (worstBytes (T.sizeof * count))
  have hgrowth := growth_worstBytes (n := T.sizeof * count) (by omega)
  have hsmall : T.sizeof * count < 2 ^ 32 := by
    rcases T.sizeof_cases with h | h | h | h <;> rw [h] <;> omega
  rw [hlen] at hwords
  rw [fitsSlack_iff, hwords, hgrowth]
  by_cases hhigh : T.sizeof * count ≤ 4056
  · have hheader : headerLength T count ((T.sizeof * count + 7) / 8) = 14 :=
      headerLength_eq T (by omega) (by omega) (by omega) (by omega)
    rw [hheader]
    split <;> omega
  · have hheader := le_headerLength (n := (T.sizeof * count + 7) / 8) T (by omega) hcount
    split <;> omega

end Room

/-- **The room of the default write path.** An array fits the buffer if and only
if what its zero bytes save pays for the framing and the runs, or it is too long
for a list. Every array of a type and a count fits if and only if it has at most
3848 bytes, or 3856, or is too long for a list. -/
theorem serializeInto_hasRoom_iff (T : ElemType) (count : ℕ) :
    (∀ elems : Bytes, elems.length = T.sizeof * count →
      (CapnProtoSerializer.serializeInto T (CapnProtoSerializer.estEncodedSize (T.sizeof * count))
          (.array count elems) ≠ .error .arrayFull ↔
        2 ^ 29 ≤ count ∨ FitsSlack T count elems)) ∧
    ((∀ elems : Bytes, elems.length = T.sizeof * count →
      CapnProtoSerializer.serializeInto T (CapnProtoSerializer.estEncodedSize (T.sizeof * count))
          (.array count elems) ≠ .error .arrayFull) ↔
        2 ^ 29 ≤ count ∨ T.sizeof * count ≤ 3848 ∨ T.sizeof * count = 3856) := by
  have hfits (elems : Bytes) (helems : elems.length = T.sizeof * count) :
      CapnProtoSerializer.serializeInto T (CapnProtoSerializer.estEncodedSize (T.sizeof * count))
          (.array count elems) ≠ .error .arrayFull ↔
        2 ^ 29 ≤ count ∨ FitsSlack T count elems := by
    rw [ne_eq, serializeInto_eq_full_iff helems, not_and_or, not_lt, not_not]
  refine ⟨hfits, ?_, ?_⟩
  · intro hall
    by_contra hno
    rw [not_or, not_or, not_le, not_le] at hno
    obtain ⟨hcount, hlow, hne⟩ := hno
    have hworst := (hfits _ (length_worstBytes _)).mp (hall _ (length_worstBytes _))
    rcases hworst with hlong | hworst
    · omega
    · exact not_fitsSlack_worstBytes hcount hlow hne hworst
  · rintro (hlong | hsize) elems helems
    · exact (hfits elems helems).mpr (Or.inl hlong)
    · exact (hfits elems helems).mpr (Or.inr (fitsSlack_of_small helems hsize))

/-- The array of 483 `uint64_t` that grows most does not fit its buffer of 4120 bytes. -/
theorem serializeInto_full :
    (worstBytes 3864).length = ElemType.uint64.sizeof * 483 ∧
      CapnProtoSerializer.serializeInto .uint64
        (CapnProtoSerializer.estEncodedSize (ElemType.uint64.sizeof * 483))
        (.array 483 (worstBytes 3864)) = .error .arrayFull := by
  have hlen : (worstBytes 3864).length = ElemType.uint64.sizeof * 483 := length_worstBytes 3864
  have hworst : ¬FitsSlack .uint64 483 (worstBytes (ElemType.uint64.sizeof * 483)) :=
    not_fitsSlack_worstBytes (by omega) (by simp [ElemType.sizeof]) (by simp [ElemType.sizeof])
  exact ⟨hlen, (serializeInto_eq_full_iff hlen).mpr ⟨by omega, hworst⟩⟩

end Pmemcpy
