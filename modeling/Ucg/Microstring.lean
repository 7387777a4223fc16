import Mathlib.Data.Nat.Bitwise
import Ucg.CompiledLookup
import Ucg.Lib.Positional

/-! `basic_microstring` as a text: its order, its length and the text that it is converted back to,
on hosts of both byte orders. -/

namespace Ucg

open ByteOrder Positional

/-- The number of bytes of a `uint64_t` that are not zero. -/
def countnonzeros (x : Nat) : Nat :=
  [0xFF, 0xFF00, 0xFF0000, 0xFF000000, 0xFF00000000, 0xFF0000000000, 0xFF000000000000,
    0xFF00000000000000].countP fun mask => 0 < x &&& mask

/-- The bytes of a `uint64_t` in memory. -/
def storageBytes (littleEndian : Bool) (x : Nat) : Bytes :=
  if littleEndian then bytesOf 8 x else (bytesOf 8 x).reverse

/-- `operator std::string`. -/
def microstringToString (littleEndian : Bool) (storage : Nat) : Bytes :=
  (storageBytes littleEndian (hostToBe littleEndian storage)).take (countnonzeros storage)

theorem bytesOf_eq_map (count x : Nat) :
    bytesOf count x = (List.range count).map fun i => UInt8.ofNat (x / 256 ^ i) := by
  induction count generalizing x with
  | zero => rfl
  | succ count ih =>
    rw [bytesOf, ih, List.range_succ_eq_map, List.map_cons, List.map_map, Nat.pow_zero, Nat.div_one]
    refine congrArg _ (List.map_congr_left fun i _ => ?_)
    rw [Function.comp_apply, Nat.div_div_eq_div_mul, Nat.pow_succ']

theorem and_byteMask_pos_iff (x i : Nat) :
    0 < x &&& 0xFF <<< (8 * i) ↔ UInt8.ofNat (x / 256 ^ i) ≠ 0 := by
  have hmask : x &&& 0xFF <<< (8 * i) = (x / 256 ^ i % 256) <<< (8 * i) := by
    have hpow : 256 ^ i = 2 ^ (8 * i) := by rw [Nat.pow_mul]
    have hmod : x / 256 ^ i % 256 = x / 256 ^ i &&& 0xFF :=
      (Nat.and_two_pow_sub_one_eq_mod (x / 256 ^ i) 8).symm
    rw [hmod, hpow, ← Nat.shiftRight_eq_div_pow]
    apply Nat.eq_of_testBit_eq
    intro k
    rw [Nat.testBit_and, Nat.testBit_shiftLeft, Nat.testBit_shiftLeft, Nat.testBit_and,
      Nat.testBit_shiftRight]
    by_cases hk : 8 * i ≤ k
    · rw [Nat.add_sub_cancel' hk]
      simp [hk]
    · simp [hk]
  rw [hmask, Nat.shiftLeft_eq, Nat.mul_pos_iff_of_pos_right (Nat.two_pow_pos _), Nat.pos_iff_ne_zero,
    ne_eq, ne_eq, ← UInt8.toNat_inj, UInt8.toNat_ofNat']
  rfl

theorem countnonzeros_eq (x : Nat) : countnonzeros x = (bytesOf 8 x).countP (· ≠ 0) := by
  have hmasks : [0xFF, 0xFF00, 0xFF0000, 0xFF000000, 0xFF00000000, 0xFF0000000000,
      0xFF000000000000, 0xFF00000000000000] = (List.range 8).map fun i => 0xFF <<< (8 * i) := rfl
  rw [countnonzeros, hmasks, bytesOf_eq_map, List.countP_map, List.countP_map]
  refine List.countP_congr fun i _ => ?_
  simpa using and_byteMask_pos_iff x i

theorem bytesOf_packBytes (s : Bytes) : bytesOf s.length (packBytes 0 s) = s.reverse := by
  have hstorage : storageOf true s.reverse = packBytes 0 s := by
    rw [storageOf, if_pos rfl, List.foldr_reverse, packBytes]
    simp only [Nat.mul_comm 256, Nat.add_comm]
  rw [← hstorage, ← List.length_reverse, bytesOf_storageOf]

theorem storageBytes_hostToBe (littleEndian : Bool) {s : Bytes} (h : s.length = 8) :
    storageBytes littleEndian (hostToBe littleEndian (packBytes 0 s)) = s := by
  have hbytes := bytesOf_packBytes s
  rw [h] at hbytes
  cases littleEndian with
  | false => rw [storageBytes, hostToBe, if_neg (by decide), if_neg (by decide), hbytes,
      List.reverse_reverse]
  | true =>
    have hswapped := bytesOf_packBytes s.reverse
    rw [List.length_reverse, h, List.reverse_reverse] at hswapped
    rw [storageBytes, hostToBe, if_pos rfl, if_pos rfl, bswap, hbytes, hswapped]

variable {a b : Bytes}

theorem microstring_eq_packBytes (a : Bytes) : microstring a = packBytes 0 (padded 0 8 a) := rfl

theorem countnonzeros_microstring (ha : nul ∉ a) (hla : a.length ≤ 8) :
    countnonzeros (microstring a) = a.length := by
  have hbytes := bytesOf_packBytes (padded 0 8 a)
  rw [length_padded hla] at hbytes
  rw [countnonzeros_eq, microstring_eq_packBytes, hbytes, List.countP_reverse, padded,
    List.countP_append, List.countP_replicate, List.countP_eq_length.mpr]
  · simp
  · intro c hc
    exact decide_eq_true fun hzero : c = nul => ha (hzero ▸ hc)

theorem microstringToString_microstring (littleEndian : Bool) (ha : nul ∉ a)
    (hla : a.length ≤ 8) : microstringToString littleEndian (microstring a) = a := by
  rw [microstringToString, countnonzeros_microstring ha hla, microstring_eq_packBytes,
    storageBytes_hostToBe littleEndian (length_padded hla), padded, List.take_left]

theorem microstring_lt_iff (ha : nul ∉ a) (hb : nul ∉ b) (hla : a.length ≤ 8)
    (hlb : b.length ≤ 8) : microstring a < microstring b ↔ a < b := by
  have hpos {s : Bytes} (hs : nul ∉ s) : ∀ c ∈ s, 0 < c := fun c hc =>
    UInt8.pos_iff_ne_zero.mpr fun hzero : c = nul => hs (hzero ▸ hc)
  have hmono : StrictMono UInt8.toNat := fun c d h => UInt8.lt_iff_toNat_lt.mp h
  have hvalue : microstring a < microstring b ↔ 0 < 0 ∨ 0 = 0 ∧ padded 0 8 a < padded 0 8 b :=
    value_lt_iff hmono UInt8.toNat_lt ((length_padded hla).trans (length_padded hlb).symm)
  rw [← padded_lt_iff (hpos ha) (hpos hb) hla hlb]
  simpa using hvalue

/-- Whatever the byte order of the host: on texts of at most eight bytes, none of them zero, the
constructor keeps the order and what it makes is the text again, and a longer text makes it throw. -/
theorem newMicrostring_orderEmbedding (littleEndian : Bool) :
    (∀ a b, nul ∉ a → nul ∉ b → a.length ≤ microstringMaxSize → b.length ≤ microstringMaxSize →
      ∃ m n, newMicrostring littleEndian a = .ok m ∧ newMicrostring littleEndian b = .ok n ∧
        (m < n ↔ a < b) ∧ (m = n ↔ a = b) ∧ countnonzeros m = a.length ∧
          microstringToString littleEndian m = a) ∧
    ∀ s, microstringMaxSize < s.length →
      newMicrostring littleEndian s = .error ⟨str "Length too long for a microstring"⟩ := by
  refine ⟨fun a b ha hb hla hlb => ?_, fun s hs => ?_⟩
  · refine ⟨microstring a, microstring b, newMicrostring_of_le littleEndian hla,
      newMicrostring_of_le littleEndian hlb, microstring_lt_iff ha hb hla hlb, ?_,
      countnonzeros_microstring ha hla, microstringToString_microstring littleEndian ha hla⟩
    exact ⟨microstring_inj ha hb hla hlb, congrArg microstring⟩
  · rw [newMicrostring_eq, if_neg (Nat.not_le.mpr hs)]

theorem newMicrostring_orderEmbedding_h : ∃ m n, newMicrostring true (str "h") = .ok m ∧
    newMicrostring true (str "hpp") = .ok n ∧ (m < n ↔ str "h" < str "hpp") ∧
      (m = n ↔ str "h" = str "hpp") ∧ countnonzeros m = (str "h").length ∧
        microstringToString true m = str "h" :=
  (newMicrostring_orderEmbedding true).1 (str "h") (str "hpp") (by decide) (by decide) (by decide)
    (by decide)

end Ucg
