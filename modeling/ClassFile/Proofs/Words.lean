import ClassFile.Bytes
import Mathlib.Algebra.Group.Int.Defs
import Mathlib.Algebra.Group.Nat.Defs
/-!
# Words and their bytes

Writing a word and putting its bytes together again are inverse to each other, in both directions: no word is
lost, and no two byte strings of the right length give one word. Both directions are needed, since a file
is sometimes built from words and sometimes taken apart into them.

A word is put together with shifts, but all that is said about it is said by its number (§1), so that
the inverses (§2) are linear arithmetic. §3 is the same for signed numbers. What is said of a single byte can be
checked on all of them (§4).
-/

namespace ClassFile.Bytes

/-! ## §1  The number of a word put together -/

theorem shiftLeft_or {a b n k : Nat} (hb : b < 2 ^ k) (ha : a * 2 ^ k < 2 ^ n) :
    (a <<< k % 2 ^ n) ||| b = a * 2 ^ k + b := by
  rw [Nat.shiftLeft_eq, Nat.mod_eq_of_lt ha, ← Nat.shiftLeft_eq,
    ← Nat.shiftLeft_add_eq_or_of_lt hb]

theorem toNat_toUInt16 (high low : UInt8) :
    (toUInt16 high low).toNat = high.toNat * 256 + low.toNat := by
  have hh := high.toNat_lt
  have hl := low.toNat_lt
  have h := shiftLeft_or (a := high.toNat) (n := 16) (k := 8) hl (by omega)
  simpa [toUInt16] using h

theorem toNat_joinUInt16 (high low : UInt16) :
    (joinUInt16 high low).toNat = high.toNat * 65536 + low.toNat := by
  have hh := high.toNat_lt
  have hl := low.toNat_lt
  have h := shiftLeft_or (a := high.toNat) (n := 32) (k := 16) hl (by omega)
  simpa [joinUInt16] using h

theorem toNat_joinUInt32 (high low : UInt32) :
    (joinUInt32 high low).toNat = high.toNat * 4294967296 + low.toNat := by
  have hh := high.toNat_lt
  have hl := low.toNat_lt
  have h := shiftLeft_or (a := high.toNat) (n := 64) (k := 32) hl (by omega)
  simpa [joinUInt32] using h

/-! ## §2  Inverses -/

theorem toUInt16_ofUInt16 (w : UInt16) : toUInt16 (w >>> 8).toUInt8 w.toUInt8 = w := by
  have hw := w.toNat_lt
  apply UInt16.toNat_inj.mp
  simp [toNat_toUInt16, Nat.shiftRight_eq_div_pow]
  omega

theorem ofUInt16_inj {w v : UInt16} (h : ofUInt16 w = ofUInt16 v) : w = v := by
  obtain ⟨hhigh, hlow⟩ := List.cons_eq_cons.mp h
  rw [← toUInt16_ofUInt16 w, ← toUInt16_ofUInt16 v, hhigh, (List.cons_eq_cons.mp hlow).1]

theorem ofUInt16_toUInt16 (a b : UInt8) : ofUInt16 (toUInt16 a b) = [a, b] := by
  have ha := a.toNat_lt
  have hb := b.toNat_lt
  simp only [ofUInt16, List.cons.injEq, and_true, ← UInt8.toNat_inj]
  simp [toNat_toUInt16, Nat.shiftRight_eq_div_pow]
  omega

theorem joinUInt16_ofUInt32 (w : UInt32) :
    joinUInt16 (toUInt16 (w >>> 24).toUInt8 (w >>> 16).toUInt8)
      (toUInt16 (w >>> 8).toUInt8 w.toUInt8) = w := by
  have hw := w.toNat_lt
  apply UInt32.toNat_inj.mp
  simp [toNat_joinUInt16, toNat_toUInt16, Nat.shiftRight_eq_div_pow]
  omega

theorem ofUInt32_joinUInt16 (a b c d : UInt8) :
    ofUInt32 (joinUInt16 (toUInt16 a b) (toUInt16 c d)) = [a, b, c, d] := by
  have ha := a.toNat_lt
  have hb := b.toNat_lt
  have hc := c.toNat_lt
  have hd := d.toNat_lt
  simp only [ofUInt32, List.cons.injEq, and_true, ← UInt8.toNat_inj]
  simp [toNat_joinUInt16, toNat_toUInt16, Nat.shiftRight_eq_div_pow]
  omega

theorem joinUInt32_ofUInt64 (w : UInt64) : joinUInt32 (w >>> 32).toUInt32 w.toUInt32 = w := by
  have hw := w.toNat_lt
  apply UInt64.toNat_inj.mp
  simp [toNat_joinUInt32, Nat.shiftRight_eq_div_pow]
  omega

theorem ofUInt64_joinUInt32 (high low : UInt32) :
    ofUInt64 (joinUInt32 high low) = ofUInt32 high ++ ofUInt32 low := by
  have hh := high.toNat_lt
  have hl := low.toNat_lt
  have front : (joinUInt32 high low >>> 32).toUInt32 = high := by
    apply UInt32.toNat_inj.mp
    simp [toNat_joinUInt32, Nat.shiftRight_eq_div_pow]
    omega
  have back : (joinUInt32 high low).toUInt32 = low := by
    apply UInt32.toNat_inj.mp
    simp [toNat_joinUInt32]
  rw [ofUInt64, front, back]

/-! ## §3  Signed numbers -/

theorem toInt8_ofInt (v : Int) : (UInt8.ofInt v).toInt8 = Int8.ofInt v := by
  apply Int8.toBitVec.inj
  apply BitVec.eq_of_toNat_eq
  show (UInt8.ofNat (v % 256).toNat).toNat = (BitVec.ofInt 8 v).toNat
  have hnonneg : 0 ≤ v % 256 := Int.emod_nonneg v (by decide)
  have hlt : v % 256 < 256 := Int.emod_lt_of_pos v (by decide)
  rw [BitVec.toNat_ofInt, UInt8.toNat_ofNat_of_lt' (by simp [UInt8.size]; omega)]
  rfl

/-- A number that fits is found again. -/
theorem toInt_ofInt8 {v : Int} (h : -2 ^ 7 ≤ v) (h' : v < 2 ^ 7) :
    (UInt8.ofInt v).toInt8.toInt = v := by
  rw [toInt8_ofInt, Int8.toInt_ofInt_of_le h h']

theorem ofInt_toInt8 (w : UInt8) : UInt8.ofInt w.toInt8.toInt = w := by
  have h := toInt8_ofInt w.toInt8.toInt
  rw [Int8.ofInt_toInt] at h
  rw [← UInt8.toUInt8_toInt8 (UInt8.ofInt _), h, UInt8.toUInt8_toInt8]

theorem toInt16_ofInt (v : Int) : (UInt16.ofInt v).toInt16 = Int16.ofInt v := by
  apply Int16.toBitVec.inj
  apply BitVec.eq_of_toNat_eq
  show (UInt16.ofNat (v % 65536).toNat).toNat = (BitVec.ofInt 16 v).toNat
  have hnonneg : 0 ≤ v % 65536 := Int.emod_nonneg v (by decide)
  have hlt : v % 65536 < 65536 := Int.emod_lt_of_pos v (by decide)
  rw [BitVec.toNat_ofInt, UInt16.toNat_ofNat_of_lt' (by simp [UInt16.size]; omega)]
  rfl

/-- A number that fits is found again. -/
theorem toInt_ofInt16 {v : Int} (h : -2 ^ 15 ≤ v) (h' : v < 2 ^ 15) :
    (UInt16.ofInt v).toInt16.toInt = v := by
  rw [toInt16_ofInt, Int16.toInt_ofInt_of_le h h']

theorem ofInt_toInt16 (w : UInt16) : UInt16.ofInt w.toInt16.toInt = w := by
  have h := toInt16_ofInt w.toInt16.toInt
  rw [Int16.ofInt_toInt] at h
  rw [← UInt16.toUInt16_toInt16 (UInt16.ofInt _), h, UInt16.toUInt16_toInt16]

theorem toInt32_ofInt (v : Int) : (UInt32.ofInt v).toInt32 = Int32.ofInt v := by
  apply Int32.toBitVec.inj
  apply BitVec.eq_of_toNat_eq
  show (UInt32.ofNat (v % 4294967296).toNat).toNat = (BitVec.ofInt 32 v).toNat
  have hnonneg : 0 ≤ v % 4294967296 := Int.emod_nonneg v (by decide)
  have hlt : v % 4294967296 < 4294967296 := Int.emod_lt_of_pos v (by decide)
  rw [BitVec.toNat_ofInt, UInt32.toNat_ofNat_of_lt' (by simp [UInt32.size]; omega)]
  rfl

/-- A number that fits is found again. -/
theorem toInt_ofInt32 {v : Int} (h : -2 ^ 31 ≤ v) (h' : v < 2 ^ 31) :
    (UInt32.ofInt v).toInt32.toInt = v := by
  rw [toInt32_ofInt, Int32.toInt_ofInt_of_le h h']

theorem ofInt_toInt32 (w : UInt32) : UInt32.ofInt w.toInt32.toInt = w := by
  have h := toInt32_ofInt w.toInt32.toInt
  rw [Int32.ofInt_toInt] at h
  rw [← UInt32.toUInt32_toInt32 (UInt32.ofInt _), h, UInt32.toUInt32_toInt32]

/-! ## §4  All bytes -/

theorem forall_byte {P : UInt8 → Prop} (h : ∀ n < 256, P (UInt8.ofNat n)) (b : UInt8) : P b := by
  have hb := h b.toNat b.toNat_lt
  rwa [UInt8.ofNat_toNat] at hb

end ClassFile.Bytes
