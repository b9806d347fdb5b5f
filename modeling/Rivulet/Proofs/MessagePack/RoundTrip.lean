import Mathlib.Algebra.Ring.Int.Defs
import Mathlib.Algebra.Ring.Nat
import Rivulet.MessagePack.Value
import Rivulet.Proofs.Json.Canonical

/-!
# Reading what was packed

The first byte of a packed value tells what follows: each head is read back with the length or the
number that it was written for, as long as these fit in the bytes that the format has for them. A
value is then read part by part, and the parts are unpacked one by one.
-/

namespace Rivulet.MessagePack

/-- A number is written in as many bytes as were asked for. -/
@[simp] theorem length_bigEndian (count n : Nat) : (bigEndian count n).length = count := by
  induction count generalizing n with
  | zero => rfl
  | succ count ih => simp [bigEndian, ih]

/-- The last byte counts once, the bytes in front of it 256 times. -/
theorem ofBigEndian_append (bytes : List UInt8) (b : UInt8) :
    ofBigEndian (bytes ++ [b]) = ofBigEndian bytes * 256 + b.toNat := by
  simp [ofBigEndian]

/-- A number is read from its bytes if they are enough for it. -/
theorem ofBigEndian_bigEndian {count n : Nat} (h : n < 256 ^ count) :
    ofBigEndian (bigEndian count n) = n := by
  induction count generalizing n with
  | zero =>
    obtain rfl : n = 0 := by simpa using h
    rfl
  | succ count ih =>
    have hfront : n / 256 < 256 ^ count := by
      rw [Nat.pow_succ, Nat.mul_comm] at h
      exact Nat.div_lt_of_lt_mul h
    have hlast : (n % 256).toUInt8.toNat = n % 256 := by simp
    rw [bigEndian, ofBigEndian_append, ih hfront, hlast]
    omega

/-- So many bytes are taken off the front. -/
theorem takeBytes_append (front rest : List UInt8) :
    takeBytes front.length (front ++ rest) = some (front, rest) := by
  simp [takeBytes]

/-- A number is taken off the front. -/
theorem takeNat_bigEndian {count n : Nat} (h : n < 256 ^ count) (rest : List UInt8) :
    takeNat count (bigEndian count n ++ rest) = some (n, rest) := by
  have htake := takeBytes_append (bigEndian count n) rest
  rw [length_bigEndian] at htake
  simp [takeNat, htake, ofBigEndian_bigEndian h]

/-- A run of bytes is taken off the front. -/
theorem takeRun_bigEndian {width : Nat} {bytes : List UInt8} (h : bytes.length < 256 ^ width)
    (rest : List UInt8) :
    takeRun width 0 (bigEndian width bytes.length ++ (bytes ++ rest)) = some (bytes, rest) := by
  simp [takeRun, takeNat_bigEndian h, takeBytes_append]

/-- A negative number is read from its two's complement. -/
theorem ofTwosComplement_twosComplement {count : Nat} {n : Int} (hneg : n < 0)
    (h : -((2 ^ (8 * count) : Nat) : Int) ≤ 2 * n) :
    ofTwosComplement (bigEndian count (twosComplement count n)) = n := by
  have hpow : (256 : Nat) ^ count = 2 ^ (8 * count) := by rw [Nat.pow_mul]
  have hmod : n % ((2 ^ (8 * count) : Nat) : Int) = n + ((2 ^ (8 * count) : Nat) : Int) := by
    rw [← Int.add_emod_right, Int.emod_eq_of_lt (by omega) (by omega)]
  have hlt : twosComplement count n < 256 ^ count := by
    simp only [twosComplement, hpow, Nat.pow_eq, hmod]
    omega
  rw [ofTwosComplement, ofBigEndian_bigEndian hlt, length_bigEndian]
  simp only [twosComplement, Nat.pow_eq, hmod]
  rw [if_neg (by omega)]
  omega

/-- The bytes of an array, as a list. -/
theorem toList_eq (bytes : ByteArray) : bytes.toList = bytes.data.toList := by
  have hloop (i : Nat) (r : List UInt8) :
      ByteArray.toList.loop bytes i r = r.reverse ++ bytes.data.toList.drop i := by
    fun_induction ByteArray.toList.loop bytes i r with
    | case1 i r hi ih =>
      have hi' : i < bytes.data.toList.length := by simpa using hi
      rw [ih, List.drop_eq_getElem_cons hi']
      simp [ByteArray.get!, hi]
    | case2 i r hi =>
      have hi' : bytes.data.toList.length ≤ i := by simpa using hi
      rw [List.drop_eq_nil_of_le hi', List.append_nil]
  exact hloop 0 []

/-- A text comes back from its bytes. -/
theorem utf8?_toUTF8 (s : String) : utf8? s.toUTF8.toList = some s := by
  have hbytes : (⟨s.toUTF8.toList.toArray⟩ : ByteArray) = s.toByteArray := by
    rw [toList_eq]
    rfl
  rw [utf8?, hbytes, String.fromUTF8?, dif_pos s.isValidUTF8]
  rfl

/-- The bytes of a text are as many as its characters take. -/
theorem length_toUTF8 (s : String) : s.toUTF8.toList.length = s.utf8ByteSize := by
  rw [toList_eq]
  rfl

/-- A number up to 255 is the byte of its own. -/
theorem toNat_toUInt8 {n : Nat} (h : n < 0x100) : n.toUInt8.toNat = n := by
  simp
  omega

/-- A byte below 128 is a number. -/
theorem readHead_number {b : UInt8} (h : b.toNat < 0x80) (rest : List UInt8) :
    readHead (b :: rest) = some (.plain (.unsigned b.toNat) rest) := by
  simp only [readHead]
  rw [if_pos h]

/-- A byte from 128 on announces pairs. -/
theorem readHead_pairs {b : UInt8} (h : 0x80 ≤ b.toNat) (hlt : b.toNat < 0x90)
    (rest : List UInt8) : readHead (b :: rest) = some (.map (b.toNat - 0x80) rest) := by
  simp only [readHead]
  rw [if_neg (by omega), if_pos hlt]

/-- A byte from 144 on announces items. -/
theorem readHead_items {b : UInt8} (h : 0x90 ≤ b.toNat) (hlt : b.toNat < 0xa0)
    (rest : List UInt8) : readHead (b :: rest) = some (.array (b.toNat - 0x90) rest) := by
  simp only [readHead]
  rw [if_neg (by omega), if_neg (by omega), if_pos hlt]

/-- A byte from 160 on announces a text. -/
theorem readHead_short {b : UInt8} {bytes : List UInt8} (hb : b.toNat = 0xa0 + bytes.length)
    (hlt : b.toNat < 0xc0) (rest : List UInt8) :
    readHead (b :: (bytes ++ rest)) = some (.plain (.text bytes) rest) := by
  simp only [readHead]
  rw [if_neg (by omega), if_neg (by omega), if_neg (by omega), if_pos hlt, hb,
    Nat.add_sub_cancel_left, takeBytes_append]
  rfl

/-- A byte from 224 on is a negative number. -/
theorem readHead_negative {b : UInt8} (h : 0xe0 ≤ b.toNat) (rest : List UInt8) :
    readHead (b :: rest) = some (.plain (.signed ((b.toNat : Int) - 256)) rest) := by
  simp only [readHead]
  rw [if_neg (by omega), if_neg (by omega), if_neg (by omega), if_neg (by omega), if_pos h]

/-- A number in an unsigned form is read from its head. -/
theorem readHead_writeUnsigned {n : Nat} (h : n < 2 ^ 64) (rest : List UInt8) :
    readHead (writeUnsigned n ++ rest) = some (.plain (.unsigned n) rest) := by
  unfold writeUnsigned
  split
  · have hn := toNat_toUInt8 (n := n) (by omega)
    rw [List.singleton_append, readHead_number (by omega), hn]
  · split
    · rw [List.cons_append, readHead]
      simp [Head.ofPlain, takeNat_bigEndian (show n < 256 ^ 1 by omega)]
    · split
      · rw [List.cons_append, readHead]
        simp [Head.ofPlain, takeNat_bigEndian (show n < 256 ^ 2 by omega)]
      · split
        · rw [List.cons_append, readHead]
          simp [Head.ofPlain, takeNat_bigEndian (show n < 256 ^ 4 by omega)]
        · rw [List.cons_append, readHead]
          simp [Head.ofPlain, takeNat_bigEndian (show n < 256 ^ 8 by omega)]

/-- A number in a signed form is read from as many bytes as it was written in. -/
theorem takeBytes_twosComplement (count : Nat) {n : Int} (hneg : n < 0)
    (h : -((2 ^ (8 * count) : Nat) : Int) ≤ 2 * n) (rest : List UInt8) :
    (takeBytes count (bigEndian count (twosComplement count n) ++ rest)).map
        (fun x => (Packed.signed (ofTwosComplement x.1), x.2)) = some (.signed n, rest) := by
  have htake := takeBytes_append (bigEndian count (twosComplement count n)) rest
  rw [length_bigEndian] at htake
  simp [htake, ofTwosComplement_twosComplement hneg h]

/-- A negative number is read from its head. -/
theorem readHead_writeNegative {n : Int} (hneg : n < 0) (h : -(2 ^ 63) ≤ n)
    (rest : List UInt8) :
    readHead (writeNegative n ++ rest) = some (.plain (.signed n) rest) := by
  unfold writeNegative
  split
  · have hmod : n % (256 : Int) = n + 256 := by omega
    have hbyte : bigEndian 1 (twosComplement 1 n) = [(n + 256).toNat.toUInt8] := by
      have hval : twosComplement 1 n = (n + 256).toNat := congrArg Int.toNat hmod
      have hlast : (n + 256).toNat % 256 = (n + 256).toNat := by omega
      rw [hval, bigEndian, bigEndian, hlast, List.nil_append]
    have hn := toNat_toUInt8 (n := (n + 256).toNat) (by omega)
    have hback : ((n + 256).toNat : Int) - 256 = n := by omega
    rw [hbyte, List.singleton_append, readHead_negative (by omega), hn, hback]
  · split
    · rw [List.cons_append, readHead]
      simp [Head.ofPlain, takeBytes_twosComplement 1 hneg (by omega)]
    · split
      · rw [List.cons_append, readHead]
        simp [Head.ofPlain, takeBytes_twosComplement 2 hneg (by omega)]
      · split
        · rw [List.cons_append, readHead]
          simp [Head.ofPlain, takeBytes_twosComplement 4 hneg (by omega)]
        · rw [List.cons_append, readHead]
          simp [Head.ofPlain, takeBytes_twosComplement 8 hneg (by omega)]

/-- A text is read behind its head. -/
theorem readHead_text {bytes : List UInt8} (h : bytes.length < 2 ^ 32) (rest : List UInt8) :
    readHead (textHead bytes.length ++ bytes ++ rest) = some (.plain (.text bytes) rest) := by
  rw [List.append_assoc]
  unfold textHead
  split
  · have hn := toNat_toUInt8 (n := 0xa0 + bytes.length) (by omega)
    rw [List.singleton_append, readHead_short hn (by omega)]
  · split
    · rw [List.cons_append, readHead]
      simp [Head.ofPlain, takeRun_bigEndian (show bytes.length < 256 ^ 1 by omega)]
    · split
      · rw [List.cons_append, readHead]
        simp [Head.ofPlain, takeRun_bigEndian (show bytes.length < 256 ^ 2 by omega)]
      · rw [List.cons_append, readHead]
        simp [Head.ofPlain, takeRun_bigEndian (show bytes.length < 256 ^ 4 by omega)]

/-- The length of a list is read from its head. -/
theorem readHead_arrayHead {n : Nat} (h : n < 2 ^ 32) (rest : List UInt8) :
    readHead (arrayHead n ++ rest) = some (.array n rest) := by
  unfold arrayHead
  split
  · have hn := toNat_toUInt8 (n := 0x90 + n) (by omega)
    rw [List.singleton_append, readHead_items (by omega) (by omega), hn,
      Nat.add_sub_cancel_left]
  · split
    · rw [List.cons_append, readHead]
      simp [takeNat_bigEndian (show n < 256 ^ 2 by omega)]
    · rw [List.cons_append, readHead]
      simp [takeNat_bigEndian (show n < 256 ^ 4 by omega)]

/-- The length of a list of pairs is read from its head. -/
theorem readHead_mapHead {n : Nat} (h : n < 2 ^ 32) (rest : List UInt8) :
    readHead (mapHead n ++ rest) = some (.map n rest) := by
  unfold mapHead
  split
  · have hn := toNat_toUInt8 (n := 0x80 + n) (by omega)
    rw [List.singleton_append, readHead_pairs (by omega) (by omega), hn,
      Nat.add_sub_cancel_left]
  · split
    · rw [List.cons_append, readHead]
      simp [takeNat_bigEndian (show n < 256 ^ 2 by omega)]
    · rw [List.cons_append, readHead]
      simp [takeNat_bigEndian (show n < 256 ^ 4 by omega)]

/-- No value is read from nothing. -/
theorem pos_of_readHead {s : List UInt8} {head : Head} (h : readHead s = some head) :
    0 < s.length := by
  cases s with
  | nil => simp [readHead] at h
  | cons b s => simp

/-! ## Values -/

/-- A value without parts is read with its head. -/
theorem readValue_of_plain {s rest : List UInt8} {p : Packed}
    (h : readHead s = some (.plain p rest)) (hp : ∀ bytes, p ≠ .extended bytes)
    (fuel depth : Nat) : readValue (fuel + 1) depth s = some (p, rest) := by
  unfold readValue
  rw [h]
  cases p with
  | extended bytes => exact absurd rfl (hp bytes)
  | _ => rfl

/-- A list is read item by item. -/
theorem readValue_of_array {s rest : List UInt8} {n : Nat}
    (h : readHead s = some (.array n rest)) (fuel depth : Nat) :
    readValue (fuel + 1) (depth + 1) s =
      (readItems fuel depth n rest).map fun (items, s) => (.array items, s) := by
  unfold readValue
  rw [h]

/-- A list of pairs is read pair by pair. -/
theorem readValue_of_map {s rest : List UInt8} {n : Nat}
    (h : readHead s = some (.map n rest)) (fuel depth : Nat) :
    readValue (fuel + 1) (depth + 1) s =
      (readPairs fuel depth n rest).map fun (pairs, s) => (.map pairs, s) := by
  unfold readValue
  rw [h]

mutual

/-- Texts and lists are no longer than their heads can say, everywhere in a value. -/
def Fits : Json → Prop
  | .str s => s.utf8ByteSize < 2 ^ 32
  | .arr items => items.length < 2 ^ 32 ∧ FitsItems items
  | .obj fields => fields.length < 2 ^ 32 ∧ FitsFields fields
  | _ => True

/-- Every item of a list fits. -/
def FitsItems : List Json → Prop
  | [] => True
  | v :: vs => Fits v ∧ FitsItems vs

/-- Every name and every named value fits. -/
def FitsFields : List (String × Json) → Prop
  | [] => True
  | (k, v) :: vs => k.utf8ByteSize < 2 ^ 32 ∧ Fits v ∧ FitsFields vs

end

/-- As many items are packed. -/
theorem length_ofItems (vs : List Json) : (Packed.ofItems vs).length = vs.length := by
  induction vs with
  | nil => rfl
  | cons v vs ih => simp [Packed.ofItems, ih]

/-- As many fields are packed. -/
theorem length_ofFields (vs : List (String × Json)) :
    (Packed.ofFields vs).length = vs.length := by
  induction vs with
  | nil => rfl
  | cons p vs ih =>
    obtain ⟨k, v⟩ := p
    simp [Packed.ofFields, ih]

/-- The head of a text, with its bytes. -/
theorem readHead_ofString {s : String} (h : s.utf8ByteSize < 2 ^ 32) (rest : List UInt8) :
    readHead ((Packed.ofString s).write ++ rest) = some (.plain (.ofString s) rest) := by
  rw [Packed.ofString, Packed.write]
  exact readHead_text (by rwa [length_toUTF8]) rest

/-- The head of a whole number. -/
theorem readHead_ofInt {n : Int} (h : Json.InRange n) (rest : List UInt8) :
    readHead ((Packed.ofJson (.int n)).write ++ rest) =
      some (.plain (Packed.ofJson (.int n)) rest) := by
  unfold Json.InRange at h
  rw [Packed.ofJson]
  split
  · exact readHead_writeUnsigned (by omega) rest
  · rename_i hneg
    rw [Packed.write, writeInt, if_neg hneg]
    exact readHead_writeNegative (by omega) (by omega) rest

/-- Every value starts with a head. -/
theorem length_write_pos {v : Json} (hwhole : v.isWhole) (hcanonical : v.Canonical)
    (hfits : Fits v) : 0 < (Packed.ofJson v).write.length := by
  cases v with
  | null => simp [Packed.ofJson, Packed.write]
  | bool b => simp [Packed.ofJson, Packed.write]
  | int n =>
    have hhead := readHead_ofInt hcanonical []
    rw [List.append_nil] at hhead
    exact pos_of_readHead hhead
  | float x => simp [Json.isWhole] at hwhole
  | str s =>
    have hhead := readHead_ofString hfits []
    rw [List.append_nil] at hhead
    exact pos_of_readHead hhead
  | arr items =>
    have hhead := readHead_arrayHead hfits.1 []
    rw [List.append_nil] at hhead
    have hpos := pos_of_readHead hhead
    rw [Packed.ofJson, Packed.write, length_ofItems, List.length_append]
    omega
  | obj fields =>
    have hhead := readHead_mapHead hfits.1 []
    rw [List.append_nil] at hhead
    have hpos := pos_of_readHead hhead
    rw [Packed.ofJson, Packed.write, length_ofFields, List.length_append]
    omega

mutual

/-- A value is read from the bytes that were written for it. -/
theorem readValue_ofJson {v : Json} (hwhole : v.isWhole) (hcanonical : v.Canonical)
    (hfits : Fits v) {fuel depth : Nat} (hfuel : 2 * (Packed.ofJson v).write.length ≤ fuel + 1)
    (hdepth : v.depth ≤ depth) (rest : List UInt8) :
    readValue fuel depth ((Packed.ofJson v).write ++ rest) = some (Packed.ofJson v, rest) := by
  have hpos := length_write_pos hwhole hcanonical hfits
  obtain ⟨fuel, rfl⟩ : ∃ k, fuel = k + 1 := Nat.exists_eq_succ_of_ne_zero (by omega)
  cases v with
  | null => exact readValue_of_plain rfl (fun _ h => by cases h) fuel depth
  | bool b => cases b <;> exact readValue_of_plain rfl (fun _ h => by cases h) fuel depth
  | int n =>
    refine readValue_of_plain (readHead_ofInt hcanonical rest) (fun bytes h => ?_) fuel depth
    rw [Packed.ofJson] at h
    split at h <;> cases h
  | float x => simp [Json.isWhole] at hwhole
  | str s =>
    exact readValue_of_plain (readHead_ofString hfits rest) (fun _ h => by cases h) fuel depth
  | arr items =>
    simp only [Json.depth] at hdepth
    obtain ⟨depth, rfl⟩ := Nat.exists_eq_add_of_le' (Nat.le_trans (Nat.le_add_left 1 _) hdepth)
    rw [Packed.ofJson, Packed.write, length_ofItems] at hfuel ⊢
    have hhead := readHead_arrayHead hfits.1 (Packed.writeItems (Packed.ofItems items) ++ rest)
    have hheadPos := pos_of_readHead (readHead_arrayHead hfits.1 [])
    rw [List.append_nil] at hheadPos
    rw [List.length_append] at hfuel
    rw [List.append_assoc, readValue_of_array hhead,
      readItems_ofItems (by simpa [Json.isWhole] using hwhole) hcanonical hfits.2 _ (by omega)
        (Nat.le_of_succ_le_succ hdepth)]
    rfl
  | obj fields =>
    simp only [Json.depth] at hdepth
    obtain ⟨depth, rfl⟩ := Nat.exists_eq_add_of_le' (Nat.le_trans (Nat.le_add_left 1 _) hdepth)
    rw [Packed.ofJson, Packed.write, length_ofFields] at hfuel ⊢
    have hhead := readHead_mapHead hfits.1 (Packed.writePairs (Packed.ofFields fields) ++ rest)
    have hheadPos := pos_of_readHead (readHead_mapHead hfits.1 [])
    rw [List.append_nil] at hheadPos
    rw [List.length_append] at hfuel
    rw [List.append_assoc, readValue_of_map hhead,
      readPairs_ofFields (by simpa [Json.isWhole] using hwhole) hcanonical.2 hfits.2 _ (by omega)
        (Nat.le_of_succ_le_succ hdepth)]
    rfl

/-- Packed items are read back, whatever follows. -/
theorem readItems_ofItems {items : List Json} (hwhole : Json.isWholeItems items)
    (hcanonical : Json.CanonicalItems items) (hfits : FitsItems items) (fuel : Nat) {depth : Nat}
    (hfuel : 2 * (Packed.writeItems (Packed.ofItems items)).length ≤ fuel)
    (hdepth : Json.depthItems items ≤ depth) (rest : List UInt8) :
    readItems fuel depth items.length (Packed.writeItems (Packed.ofItems items) ++ rest) =
      some (Packed.ofItems items, rest) := by
  cases items with
  | nil => simp [readItems, Packed.ofItems, Packed.writeItems]
  | cons v vs =>
    simp only [Json.isWholeItems, Bool.and_eq_true] at hwhole
    simp only [Json.depthItems] at hdepth
    have hpos := length_write_pos hwhole.1 hcanonical.1 hfits.1
    rw [Packed.ofItems, Packed.writeItems, List.length_append] at hfuel
    obtain ⟨fuel, rfl⟩ : ∃ k, fuel = k + 1 := Nat.exists_eq_succ_of_ne_zero (by omega)
    rw [Packed.ofItems, Packed.writeItems, List.append_assoc, List.length_cons, readItems,
      readValue_ofJson hwhole.1 hcanonical.1 hfits.1 (by omega) (Nat.max_le.1 hdepth).1]
    simp [readItems_ofItems hwhole.2 hcanonical.2 hfits.2 fuel (by omega)
      (Nat.max_le.1 hdepth).2]

/-- Packed fields are read back, whatever follows. -/
theorem readPairs_ofFields {fields : List (String × Json)} (hwhole : Json.isWholeFields fields)
    (hcanonical : Json.CanonicalFields fields) (hfits : FitsFields fields) (fuel : Nat)
    {depth : Nat}
    (hfuel : 2 * (Packed.writePairs (Packed.ofFields fields)).length ≤ fuel)
    (hdepth : Json.depthFields fields ≤ depth) (rest : List UInt8) :
    readPairs fuel depth fields.length (Packed.writePairs (Packed.ofFields fields) ++ rest) =
      some (Packed.ofFields fields, rest) := by
  cases fields with
  | nil => simp [readPairs, Packed.ofFields, Packed.writePairs]
  | cons p vs =>
    obtain ⟨k, v⟩ := p
    simp only [Json.isWholeFields, Bool.and_eq_true] at hwhole
    simp only [Json.depthFields] at hdepth
    have hpos := length_write_pos hwhole.1 hcanonical.1 hfits.2.1
    rw [Packed.ofFields, Packed.writePairs, List.length_append, List.length_append] at hfuel
    obtain ⟨fuel, rfl⟩ : ∃ k, fuel = k + 1 := Nat.exists_eq_succ_of_ne_zero (by omega)
    obtain ⟨fuel, rfl⟩ : ∃ k, fuel = k + 1 := Nat.exists_eq_succ_of_ne_zero (by omega)
    have hname := readValue_of_plain (readHead_ofString hfits.1
      ((Packed.ofJson v).write ++ (Packed.writePairs (Packed.ofFields vs) ++ rest)))
      (fun _ h => by cases h) fuel depth
    rw [Packed.ofFields, Packed.writePairs, List.append_assoc, List.append_assoc,
      List.length_cons, readPairs, hname]
    simp only
    rw [readValue_ofJson hwhole.1 hcanonical.1 hfits.2.1 (by omega) (Nat.max_le.1 hdepth).1]
    simp [readPairs_ofFields hwhole.2 hcanonical.2 hfits.2.2 (fuel + 1) (by omega)
      (Nat.max_le.1 hdepth).2]

end

mutual

/-- A value without fractions comes back from its packed form. -/
theorem json?_ofJson {v : Json} (hwhole : v.isWhole) (hcanonical : v.Canonical) :
    (Packed.ofJson v).json? = some v := by
  cases v with
  | null => rfl
  | bool b => rfl
  | int n =>
    rw [Packed.ofJson]
    split
    · rename_i hn
      rw [Packed.json?, Int.toNat_of_nonneg hn]
    · rfl
  | float x => simp [Json.isWhole] at hwhole
  | str s => rw [Packed.ofJson, Packed.ofString, Packed.json?, utf8?_toUTF8, Option.map_some]
  | arr items =>
    rw [Packed.ofJson, Packed.json?,
      items?_ofItems (by simpa [Json.isWhole] using hwhole) hcanonical, Option.map_some]
  | obj fields =>
    rw [Packed.ofJson, Packed.json?,
      fields?_ofFields (by simpa [Json.isWhole] using hwhole) hcanonical.2 true, Option.map_some,
      Json.ofFields_of_sorted hcanonical.1]

/-- Items come back from their packed form. -/
theorem items?_ofItems {items : List Json} (hwhole : Json.isWholeItems items)
    (hcanonical : Json.CanonicalItems items) :
    Packed.items? (Packed.ofItems items) = some items := by
  cases items with
  | nil => rfl
  | cons v vs =>
    simp only [Json.isWholeItems, Bool.and_eq_true] at hwhole
    simp only [Packed.ofItems, Packed.items?, json?_ofJson hwhole.1 hcanonical.1,
      items?_ofItems hwhole.2 hcanonical.2]

/-- Fields come back from their packed form. -/
theorem fields?_ofFields {fields : List (String × Json)} (hwhole : Json.isWholeFields fields)
    (hcanonical : Json.CanonicalFields fields) (isFirst : Bool) :
    Packed.fields? isFirst (Packed.ofFields fields) = some fields := by
  cases fields with
  | nil => rfl
  | cons p vs =>
    obtain ⟨k, v⟩ := p
    simp only [Json.isWholeFields, Bool.and_eq_true] at hwhole
    simp only [Packed.ofFields, Packed.fields?, Packed.ofString, Packed.name?, utf8?_toUTF8,
      json?_ofJson hwhole.1 hcanonical.1, fields?_ofFields hwhole.2 hcanonical.2 false]

end

/-- A whole text of bytes is read as what was packed. -/
theorem read?_write {v : Json} (hwhole : v.isWhole) (hcanonical : v.Canonical) (hfits : Fits v)
    (hdepth : v.depth ≤ maxDepth) :
    Packed.read? (Packed.ofJson v).write = some (Packed.ofJson v) := by
  have hfuel : 2 * (Packed.ofJson v).write.length ≤ 2 * (Packed.ofJson v).write.length + 2 + 1 := by
    omega
  have hread := readValue_ofJson hwhole hcanonical hfits hfuel hdepth []
  rw [List.append_nil] at hread
  rw [Packed.read?, hread, Option.map_some]

end Rivulet.MessagePack
