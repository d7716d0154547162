import ClassFile.Proofs.Words
import ClassFile.Text.CodePage437
import ClassFile.Text.Utf8
import Mathlib.Tactic.IntervalCases
/-!
# Undamaged UTF-8

The decoder that never fails gives back what was encoded: between two characters it owes nothing, and the bytes of a
character lead from one such place to the next (§2). The bounds that it puts on the second byte of a sequence are met
by every character, since no character is a surrogate and none has a shorter form. On ASCII the old code page
reads the same (§3).

§1 is the single steps.
-/

namespace ClassFile.Text

namespace Utf8

/-! ## §1  Steps -/

theorem next_single (found : List Char) {b : UInt8} (h : b < 0x80) :
    Progress.next ⟨found, none⟩ b = ⟨Char.ofNat b.toNat :: found, none⟩ :=
  if_pos h

/-- A byte that begins a sequence is none that stands alone. -/
theorem not_single_of_begun? {b : UInt8} {s : Begun} (h : begun? b = some s) : ¬b < 0x80 := by
  intro hb
  have hlow : b < 0xc2 := by
    rw [UInt8.lt_iff_toNat_lt] at hb ⊢
    exact Nat.lt_trans hb (by decide)
  rw [begun?, if_pos hlow] at h
  cases h

theorem next_lead (found : List Char) {b : UInt8} {s : Begun} (h : begun? b = some s) :
    Progress.next ⟨found, none⟩ b = ⟨found, some s⟩ := by
  show Progress.enter ⟨found, none⟩ b = _
  rw [Progress.enter, if_neg (not_single_of_begun? h), h]

theorem begun?_pair {k : Nat} (h : 2 ≤ k) (h' : k < 32) :
    begun? (UInt8.ofNat (k + 192)) = some ⟨1, 0x80, 0xbf, k⟩ := by
  interval_cases k <;> rfl

theorem begun?_triple {k : Nat} (h : k < 16) : begun? (UInt8.ofNat (k + 224)) =
    some ⟨2, if k = 0 then 0xa0 else 0x80, if k = 13 then 0x9f else 0xbf, k⟩ := by
  interval_cases k <;> rfl

theorem begun?_quadruple {k : Nat} (h : k < 5) : begun? (UInt8.ofNat (k + 240)) =
    some ⟨3, if k = 0 then 0x90 else 0x80, if k = 4 then 0x8f else 0xbf, k⟩ := by
  interval_cases k <;> rfl

/-- A byte that continues a sequence brings six bits. -/
theorem next_within {s : Begun} {k : Nat} (found : List Char) (h : k < 64) (low : s.low.toNat ≤ k + 128)
    (high : k + 128 ≤ s.high.toNat) : Progress.next ⟨found, some s⟩ (UInt8.ofNat (k + 128)) =
      if s.owed == 1 then ⟨Char.ofNat (s.bits * 64 + k) :: found, none⟩
      else ⟨found, some ⟨s.owed - 1, 0x80, 0xbf, s.bits * 64 + k⟩⟩ := by
  have hbyte : (UInt8.ofNat (k + 128)).toNat = k + 128 :=
    UInt8.toNat_ofNat_of_lt' (show k + 128 < 256 by omega)
  have hbounds : (s.low ≤ UInt8.ofNat (k + 128) && UInt8.ofNat (k + 128) ≤ s.high) = true := by
    rw [Bool.and_eq_true, decide_eq_true_eq, decide_eq_true_eq, UInt8.le_iff_toNat_le, UInt8.le_iff_toNat_le, hbyte]
    exact ⟨low, high⟩
  have hbits : (UInt8.ofNat (k + 128)).toNat - 0x80 = k := by
    rw [hbyte, Nat.add_sub_cancel]
  show (if (s.low ≤ UInt8.ofNat (k + 128) && UInt8.ofNat (k + 128) ≤ s.high) then _ else _) = _
  rw [if_pos hbounds, hbits]

theorem next_middle (owed : Nat) {bits k : Nat} {low high : UInt8} (found : List Char) (h : k < 64)
    (hlow : low.toNat ≤ k + 128) (hhigh : k + 128 ≤ high.toNat) :
    Progress.next ⟨found, some ⟨owed + 2, low, high, bits⟩⟩ (UInt8.ofNat (k + 128)) =
      ⟨found, some ⟨owed + 1, 0x80, 0xbf, bits * 64 + k⟩⟩ :=
  next_within (s := ⟨owed + 2, low, high, bits⟩) found h hlow hhigh

theorem next_last {bits k : Nat} {low high : UInt8} (found : List Char) (h : k < 64)
    (hlow : low.toNat ≤ k + 128) (hhigh : k + 128 ≤ high.toNat) :
    Progress.next ⟨found, some ⟨1, low, high, bits⟩⟩ (UInt8.ofNat (k + 128)) =
      ⟨Char.ofNat (bits * 64 + k) :: found, none⟩ :=
  next_within (s := ⟨1, low, high, bits⟩) found h hlow hhigh

/-! ## §2  Characters -/

theorem foldl_pair (found : List Char) {v : Nat} (h : 0x80 ≤ v) (h' : v < 0x800) :
    [UInt8.ofNat (v / 64 % 32 + 192), UInt8.ofNat (v % 64 + 128)].foldl Progress.next ⟨found, none⟩ =
      ⟨Char.ofNat v :: found, none⟩ := by
  have hlast : 128 ≤ v % 64 + 128 ∧ v % 64 + 128 ≤ 191 := by omega
  rw [List.foldl_cons, List.foldl_cons, List.foldl_nil, next_lead found (begun?_pair (by omega) (by omega)),
    next_last found (by omega) hlast.1 hlast.2]
  rw [show v / 64 % 32 * 64 + v % 64 = v by omega]

theorem foldl_triple (found : List Char) {v : Nat} (h : 0x800 ≤ v) (h' : v < 0xd800 ∨ 0xdfff < v ∧ v < 0x10000) :
    [UInt8.ofNat (v / 4096 % 16 + 224), UInt8.ofNat (v / 64 % 64 + 128), UInt8.ofNat (v % 64 + 128)].foldl
      Progress.next ⟨found, none⟩ = ⟨Char.ofNat v :: found, none⟩ := by
  -- The bounds of the second byte leave out shorter forms under the first lead, and surrogates under another one.
  have hlow : (if v / 4096 % 16 = 0 then 0xa0 else 0x80 : UInt8).toNat ≤ v / 64 % 64 + 128 := by
    split
    · show 160 ≤ _
      omega
    · exact Nat.le_add_left 128 _
  have hhigh : v / 64 % 64 + 128 ≤ (if v / 4096 % 16 = 13 then 0x9f else 0xbf : UInt8).toNat := by
    split
    · show _ ≤ 159
      omega
    · show _ ≤ 191
      omega
  have hlast : 128 ≤ v % 64 + 128 ∧ v % 64 + 128 ≤ 191 := by omega
  rw [List.foldl_cons, List.foldl_cons, List.foldl_cons, List.foldl_nil, next_lead found (begun?_triple (by omega)),
    next_middle 0 found (by omega) hlow hhigh, next_last found (by omega) hlast.1 hlast.2]
  rw [show (v / 4096 % 16 * 64 + v / 64 % 64) * 64 + v % 64 = v by omega]

theorem foldl_quadruple (found : List Char) {v : Nat} (h : 0x10000 ≤ v) (h' : v < 0x110000) :
    [UInt8.ofNat (v / 262144 % 8 + 240), UInt8.ofNat (v / 4096 % 64 + 128), UInt8.ofNat (v / 64 % 64 + 128),
      UInt8.ofNat (v % 64 + 128)].foldl Progress.next ⟨found, none⟩ = ⟨Char.ofNat v :: found, none⟩ := by
  -- Those of a longer sequence leave out shorter forms, and what lies beyond the last character.
  have hlow : (if v / 262144 % 8 = 0 then 0x90 else 0x80 : UInt8).toNat ≤ v / 4096 % 64 + 128 := by
    split
    · show 144 ≤ _
      omega
    · exact Nat.le_add_left 128 _
  have hhigh : v / 4096 % 64 + 128 ≤ (if v / 262144 % 8 = 4 then 0x8f else 0xbf : UInt8).toNat := by
    split
    · show _ ≤ 143
      omega
    · show _ ≤ 191
      omega
  have hthird : 128 ≤ v / 64 % 64 + 128 ∧ v / 64 % 64 + 128 ≤ 191 := by omega
  have hlast : 128 ≤ v % 64 + 128 ∧ v % 64 + 128 ≤ 191 := by omega
  rw [List.foldl_cons, List.foldl_cons, List.foldl_cons, List.foldl_cons, List.foldl_nil,
    next_lead found (begun?_quadruple (by omega)), next_middle 1 found (by omega) hlow hhigh,
    next_middle 0 found (by omega) hthird.1 hthird.2, next_last found (by omega) hlast.1 hlast.2]
  rw [show ((v / 262144 % 8 * 64 + v / 4096 % 64) * 64 + v / 64 % 64) * 64 + v % 64 = v by omega]

/-- The bytes of a character lead to that character. -/
theorem foldl_utf8EncodeChar (found : List Char) (c : Char) :
    (String.utf8EncodeChar c).foldl Progress.next ⟨found, none⟩ = ⟨c :: found, none⟩ := by
  have hvalid : c.val.toNat < 55296 ∨ 57343 < c.val.toNat ∧ c.val.toNat < 1114112 := c.valid
  have hc : Char.ofNat c.val.toNat = c := Char.ofNat_toNat c
  rw [String.utf8EncodeChar]
  generalize c.val.toNat = v at hvalid hc
  subst hc
  split
  · rename_i hsingle
    have hv : (UInt8.ofNat v).toNat = v := UInt8.toNat_ofNat_of_lt' (show v < 256 by omega)
    have hlt : UInt8.ofNat v < 0x80 := by
      rw [UInt8.lt_iff_toNat_lt, hv]
      exact Nat.lt_succ_of_le hsingle
    rw [List.foldl_cons, List.foldl_nil, next_single found hlt, hv]
  · split
    · exact foldl_pair found (by omega) (by omega)
    · split
      · exact foldl_triple found (by omega) (by omega)
      · exact foldl_quadruple found (by omega) (by omega)

theorem foldl_utf8Encode (found cs : List Char) :
    (cs.flatMap String.utf8EncodeChar).foldl Progress.next ⟨found, none⟩ = ⟨cs.reverse ++ found, none⟩ := by
  induction cs generalizing found with
  | nil => rfl
  | cons c cs ih =>
      rw [List.flatMap_cons, List.foldl_append, foldl_utf8EncodeChar, ih, List.reverse_cons, List.append_assoc]
      rfl

/-- The loop that lists bytes has found those in front of it, last one first. -/
theorem toList_loop (bytes : ByteArray) (i : Nat) (found : List UInt8) :
    ByteArray.toList.loop bytes i found = found.reverse ++ bytes.data.toList.drop i := by
  fun_induction ByteArray.toList.loop bytes i found with
  | case1 i found hi ih =>
      have hlength : i < bytes.data.toList.length := hi
      have hget : bytes.get! i = bytes.data.toList[i] := by
        rw [ByteArray.get!, getElem!_pos bytes.data i hi]
        rfl
      rw [ih, List.reverse_cons, List.append_assoc, hget, List.drop_eq_getElem_cons hlength]
      rfl
  | case2 i found hi =>
      rw [List.drop_eq_nil_of_le (Nat.le_of_not_lt hi), List.append_nil]

theorem toList_toUTF8 (s : String) : s.toUTF8.toList = s.toList.flatMap String.utf8EncodeChar := by
  rw [ByteArray.toList, toList_loop, List.reverse_nil, List.nil_append, List.drop_zero]
  conv_lhs => rw [← String.ofList_toList (s := s), String.toUTF8_eq_toByteArray, String.toByteArray_ofList]
  exact List.toList_data_toByteArray

/-- A text is decoded from its bytes. -/
theorem decode_toUTF8 (s : String) : decode s.toUTF8.toList = s := by
  rw [decode, toList_toUTF8, foldl_utf8Encode, List.append_nil, Progress.characters, List.reverse_reverse,
    String.ofList_toList]

/-! ## §3  ASCII -/

theorem foldl_single (found : List Char) {bytes : Bytes} (h : ∀ b ∈ bytes, b < 0x80) :
    bytes.foldl Progress.next ⟨found, none⟩ = ⟨(bytes.map CodePage437.character).reverse ++ found, none⟩ := by
  induction bytes generalizing found with
  | nil => rfl
  | cons b bytes ih =>
      have hb := h b List.mem_cons_self
      have hcharacter : CodePage437.character b = Char.ofNat b.toNat := if_pos hb
      rw [List.foldl_cons, next_single found hb, ih _ fun b hb => h b (List.mem_cons_of_mem _ hb), List.map_cons,
        List.reverse_cons, List.append_assoc, hcharacter]
      rfl

/-- Bytes that stand alone mean the same in the old code page. -/
theorem decode_single {bytes : Bytes} (h : ∀ b ∈ bytes, b < 0x80) : CodePage437.decode bytes = decode bytes := by
  rw [decode, foldl_single [] h, List.append_nil, Progress.characters, List.reverse_reverse, CodePage437.decode]

end Utf8

end ClassFile.Text
