import ClassFile.Proofs.Words
import ClassFile.Text.ModifiedUtf8
/-!
# Encoded text

Every unit sequence is read back from its encoding, and every text from its units. The converse holds on
the encodings without a zero byte and without overlong sequences only: the reader takes others too, and
writes them back in another form.

§1 says what the bit tests of the decoder mean for a byte's number. §2 goes from units to bytes and back: a unit has
one shortest form, which is one of the sequences that the decoder takes in one step. §3 goes from characters to units
and back.
-/

namespace ClassFile.Text

namespace ModifiedUtf8

/-! ## §1  Bytes by number -/

theorem isSingle_iff (b : UInt8) : (b &&& 0x80 == 0) = decide (b.toNat < 128) := by
  revert b
  apply Bytes.forall_byte
  decide +kernel

theorem opensPair_iff (b : UInt8) :
    (b &&& 0xe0 == 0xc0) = decide (192 ≤ b.toNat ∧ b.toNat < 224) := by
  revert b
  apply Bytes.forall_byte
  decide +kernel

theorem opensTriple_iff (b : UInt8) :
    (b &&& 0xf0 == 0xe0) = decide (224 ≤ b.toNat ∧ b.toNat < 240) := by
  revert b
  apply Bytes.forall_byte
  decide +kernel

theorem isContinuation_iff (b : UInt8) :
    isContinuation b = decide (128 ≤ b.toNat ∧ b.toNat < 192) := by
  revert b
  apply Bytes.forall_byte
  decide +kernel

theorem toNat_payload (b : UInt8) : (payload b).toNat = b.toNat % 64 := by
  rw [payload, UInt8.toNat_toUInt16, UInt8.toNat_and]
  exact Nat.and_two_pow_sub_one_eq_mod b.toNat 6

theorem toNat_pairLead (b : UInt8) : (b &&& 0x1f).toUInt16.toNat = b.toNat % 32 := by
  rw [UInt8.toNat_toUInt16, UInt8.toNat_and]
  exact Nat.and_two_pow_sub_one_eq_mod b.toNat 5

theorem toNat_tripleLead (b : UInt8) : (b &&& 0x0f).toUInt16.toNat = b.toNat % 16 := by
  rw [UInt8.toNat_toUInt16, UInt8.toNat_and]
  exact Nat.and_two_pow_sub_one_eq_mod b.toNat 4

/-- The unit of a two-byte sequence. -/
def pairUnit (b c : UInt8) : UInt16 :=
  ((b &&& 0x1f).toUInt16 <<< 6) ||| payload c

/-- The unit of a three-byte sequence. -/
def tripleUnit (b c d : UInt8) : UInt16 :=
  ((b &&& 0x0f).toUInt16 <<< 12) ||| (payload c <<< 6) ||| payload d

theorem toNat_pairUnit (b c : UInt8) :
    (pairUnit b c).toNat = b.toNat % 32 * 64 + c.toNat % 64 := by
  have h : (b.toNat % 32) <<< 6 % 65536 ||| c.toNat % 64 = b.toNat % 32 * 64 + c.toNat % 64 :=
    Bytes.shiftLeft_or (n := 16) (k := 6) (by omega) (by omega)
  simp only [pairUnit, UInt16.toNat_or, UInt16.toNat_shiftLeft, toNat_payload, toNat_pairLead]
  exact h

theorem toNat_tripleUnit (b c d : UInt8) :
    (tripleUnit b c d).toNat = b.toNat % 16 * 4096 + c.toNat % 64 * 64 + d.toNat % 64 := by
  have inner : (c.toNat % 64) <<< 6 % 65536 ||| d.toNat % 64 = c.toNat % 64 * 64 + d.toNat % 64 :=
    Bytes.shiftLeft_or (n := 16) (k := 6) (by omega) (by omega)
  have outer : (b.toNat % 16) <<< 12 % 65536 ||| (c.toNat % 64 * 64 + d.toNat % 64) =
      b.toNat % 16 * 4096 + (c.toNat % 64 * 64 + d.toNat % 64) :=
    Bytes.shiftLeft_or (n := 16) (k := 12) (by omega) (by omega)
  simp only [tripleUnit, UInt16.toNat_or, UInt16.toNat_shiftLeft, toNat_payload, toNat_tripleLead]
  rw [Nat.or_assoc, Nat.add_assoc, ← outer, ← inner]
  rfl

/-! ## §2  From units to bytes and back -/

theorem toNat_pairMark (x : UInt8) : x.toNat < 32 → ((0xc0 : UInt8) ||| x).toNat = 192 + x.toNat := by
  intro h
  rw [UInt8.toNat_or]
  exact (Nat.two_pow_add_eq_or_of_lt (i := 5) h 6).symm

theorem toNat_tripleMark (x : UInt8) :
    x.toNat < 16 → ((0xe0 : UInt8) ||| x).toNat = 224 + x.toNat := by
  intro h
  rw [UInt8.toNat_or]
  exact (Nat.two_pow_add_eq_or_of_lt (i := 4) h 14).symm

theorem toNat_continuation (x : UInt8) :
    x.toNat < 64 → ((0x80 : UInt8) ||| x).toNat = 128 + x.toNat := by
  intro h
  rw [UInt8.toNat_or]
  exact (Nat.two_pow_add_eq_or_of_lt (i := 6) h 2).symm

theorem toNat_lowBits (u : UInt16) : (u &&& 0x3f).toUInt8.toNat = u.toNat % 64 := by
  have h : u.toNat &&& 63 = u.toNat % 64 := Nat.and_two_pow_sub_one_eq_mod u.toNat 6
  simp only [UInt16.toNat_toUInt8, UInt16.toNat_and, UInt16.reduceToNat, h]
  omega

theorem toNat_shiftedUnit (u : UInt16) (n : Nat) (hn : n < 16) :
    (u >>> UInt16.ofNat n).toNat = u.toNat / 2 ^ n := by
  have h : (UInt16.ofNat n).toNat = n := UInt16.toNat_ofNat_of_lt' (by
    show n < 65536
    omega)
  rw [UInt16.toNat_shiftRight, h, Nat.mod_eq_of_lt hn, Nat.shiftRight_eq_div_pow]

/-- The shortest form of a unit: which bytes it has and which number they stand for. Zero has no one-byte
form, and a longer form is only for a unit that the shorter ones cannot hold. -/
inductive UnitBytes : UInt16 → Bytes → Prop where
  | single {u : UInt16} {b : UInt8} (lead : 1 ≤ b.toNat ∧ b.toNat < 128)
      (unit : u.toNat = b.toNat) : UnitBytes u [b]
  | pair {u : UInt16} {b c : UInt8} (lead : 192 ≤ b.toNat ∧ b.toNat < 224)
      (second : 128 ≤ c.toNat ∧ c.toNat < 192)
      (unit : u.toNat = b.toNat % 32 * 64 + c.toNat % 64)
      (needed : u.toNat = 0 ∨ 128 ≤ u.toNat) : UnitBytes u [b, c]
  | triple {u : UInt16} {b c d : UInt8} (lead : 224 ≤ b.toNat ∧ b.toNat < 240)
      (second : 128 ≤ c.toNat ∧ c.toNat < 192) (third : 128 ≤ d.toNat ∧ d.toNat < 192)
      (unit : u.toNat = b.toNat % 16 * 4096 + c.toNat % 64 * 64 + d.toNat % 64)
      (needed : 2048 ≤ u.toNat) : UnitBytes u [b, c, d]

/-- The shortest forms of units, one after the other. -/
inductive Shortest : List UInt16 → Bytes → Prop where
  | nil : Shortest [] []
  | cons {u : UInt16} {us : List UInt16} {bs rest : Bytes} (unit : UnitBytes u bs)
      (more : Shortest us rest) : Shortest (u :: us) (bs ++ rest)

theorem unitBytes_encodeUnit (u : UInt16) : UnitBytes u (encodeUnit u) := by
  have hu := u.toNat_lt
  have h6 : (u >>> 6).toNat = u.toNat / 64 := toNat_shiftedUnit u 6 (by omega)
  have h12 : (u >>> 12).toNat = u.toNat / 4096 := toNat_shiftedUnit u 12 (by omega)
  have hlow := toNat_continuation (u &&& 0x3f).toUInt8 (by rw [toNat_lowBits]; omega)
  rw [toNat_lowBits] at hlow
  rw [encodeUnit]
  split
  · rename_i h
    simp only [Bool.and_eq_true, decide_eq_true_eq, UInt16.le_iff_toNat_le, UInt16.reduceToNat] at h
    have hb : u.toUInt8.toNat = u.toNat := by rw [UInt16.toNat_toUInt8]; omega
    exact .single (by omega) hb.symm
  · rename_i hs
    simp only [Bool.and_eq_true, decide_eq_true_eq, UInt16.le_iff_toNat_le, UInt16.reduceToNat]
      at hs
    split
    · rename_i h
      simp only [UInt16.le_iff_toNat_le, UInt16.reduceToNat] at h
      have hx : (u >>> 6).toUInt8.toNat = u.toNat / 64 := by rw [UInt16.toNat_toUInt8, h6]; omega
      have hlead := toNat_pairMark (u >>> 6).toUInt8 (by omega)
      exact .pair (by omega) (by omega) (by omega) (by omega)
    · rename_i h
      simp only [UInt16.le_iff_toNat_le, UInt16.reduceToNat] at h
      have hx : (u >>> 12).toUInt8.toNat = u.toNat / 4096 := by
        rw [UInt16.toNat_toUInt8, h12]; omega
      have hlead := toNat_tripleMark (u >>> 12).toUInt8 (by omega)
      have hy : (u >>> 6 &&& 0x3f).toUInt8.toNat = u.toNat / 64 % 64 := by
        rw [toNat_lowBits, h6]
      have hmid := toNat_continuation (u >>> 6 &&& 0x3f).toUInt8 (by omega)
      exact .triple (by omega) (by omega) (by omega) (by omega) (by omega)

/-- A unit has one shortest form. -/
theorem UnitBytes.unique {u : UInt16} {bs cs : Bytes} (h : UnitBytes u bs) (h' : UnitBytes u cs) :
    bs = cs := by
  cases h <;> cases h'
  case single.single =>
    simp only [List.cons.injEq, and_true, ← UInt8.toNat_inj]
    omega
  case pair.pair =>
    simp only [List.cons.injEq, and_true, ← UInt8.toNat_inj]
    omega
  case triple.triple =>
    simp only [List.cons.injEq, and_true, ← UInt8.toNat_inj]
    omega
  all_goals omega

/-- What the decoder takes for one unit: a byte alone, or a first byte that says how many more there are
and the bytes that continue it. -/
inductive IsSequence : Bytes → Prop where
  | single {b : UInt8} (lead : b.toNat ≤ 0x7f) : IsSequence [b]
  | pair {b c : UInt8} (lead : 0xc0 ≤ b.toNat ∧ b.toNat ≤ 0xdf)
      (second : 0x80 ≤ c.toNat ∧ c.toNat ≤ 0xbf) : IsSequence [b, c]
  | triple {b c d : UInt8} (lead : 0xe0 ≤ b.toNat ∧ b.toNat ≤ 0xef)
      (second : 0x80 ≤ c.toNat ∧ c.toNat ≤ 0xbf) (third : 0x80 ≤ d.toNat ∧ d.toNat ≤ 0xbf) :
      IsSequence [b, c, d]

/-- The unit of a sequence: what its first byte holds beside the length, then six bits of each further
byte. -/
def unitOf : Bytes → UInt16
  | [b] => .ofNat b.toNat
  | [b, c] => .ofNat ((b.toNat - 0xc0) * 64 + (c.toNat - 0x80))
  | [b, c, d] => .ofNat ((b.toNat - 0xe0) * 4096 + (c.toNat - 0x80) * 64 + (d.toNat - 0x80))
  | _ => 0

/-- The decoder takes a sequence in one step. -/
theorem IsSequence.decodeOnto_append {s : Bytes} (h : IsSequence s) (found : List UInt16)
    (rest : Bytes) : decodeOnto found (s ++ rest) = decodeOnto (unitOf s :: found) rest := by
  cases h with
  | @single b lead =>
      have hu : b.toUInt16 = unitOf [b] := UInt16.toNat_inj.mp (by
        simp only [unitOf, UInt16.toNat_ofNat', UInt8.toNat_toUInt16]
        omega)
      have h1 : b.toNat < 128 := by omega
      rw [List.singleton_append, decodeOnto.eq_def]
      simp [isSingle_iff, h1, hu]
  | @pair b c lead second =>
      have hu : pairUnit b c = unitOf [b, c] := UInt16.toNat_inj.mp (by
        simp only [unitOf, UInt16.toNat_ofNat', toNat_pairUnit]
        omega)
      have h1 : ¬ b.toNat < 128 := by omega
      have h2 : 192 ≤ b.toNat ∧ b.toNat < 224 := by omega
      have h3 : 128 ≤ c.toNat ∧ c.toNat < 192 := by omega
      simp [decodeOnto, isSingle_iff, opensPair_iff, isContinuation_iff, h1, h2, h3, ← hu, pairUnit]
  | @triple b c d lead second third =>
      have hu : tripleUnit b c d = unitOf [b, c, d] := UInt16.toNat_inj.mp (by
        simp only [unitOf, UInt16.toNat_ofNat', toNat_tripleUnit]
        omega)
      have h1 : ¬ b.toNat < 128 := by omega
      have h2 : ¬ (192 ≤ b.toNat ∧ b.toNat < 224) := by omega
      have h3 : 224 ≤ b.toNat ∧ b.toNat < 240 := by omega
      have h4 : 128 ≤ c.toNat ∧ c.toNat < 192 := by omega
      have h5 : 128 ≤ d.toNat ∧ d.toNat < 192 := by omega
      simp [decodeOnto, isSingle_iff, opensPair_iff, opensTriple_iff, isContinuation_iff, h1, h2,
        h3, h4, h5, ← hu, tripleUnit]

/-- The shortest form is one of the sequences the decoder takes. -/
theorem UnitBytes.isSequence {u : UInt16} {bs : Bytes} (h : UnitBytes u bs) : IsSequence bs := by
  cases h with
  | single lead unit => exact .single (by omega)
  | pair lead second unit needed => exact .pair (by omega) (by omega)
  | triple lead second third unit needed => exact .triple (by omega) (by omega) (by omega)

theorem UnitBytes.unitOf_eq {u : UInt16} {bs : Bytes} (h : UnitBytes u bs) : unitOf bs = u := by
  have hu := u.toNat_lt
  rw [← UInt16.toNat_inj]
  cases h <;>
  · simp only [unitOf, UInt16.toNat_ofNat']
    omega

/-- The decoder takes the bytes of a unit in one step. -/
theorem decodeOnto_unitBytes {u : UInt16} {bs : Bytes} (h : UnitBytes u bs) (found : List UInt16)
    (rest : Bytes) : decodeOnto found (bs ++ rest) = decodeOnto (u :: found) rest := by
  rw [h.isSequence.decodeOnto_append, h.unitOf_eq]

theorem decodeOnto_shortest {us : List UInt16} {bs : Bytes} (h : Shortest us bs)
    (found : List UInt16) : decodeOnto found bs = .ok (found.reverse ++ us) := by
  induction h generalizing found with
  | nil => simp [decodeOnto]
  | cons unit _ ih =>
      rw [decodeOnto_unitBytes unit, ih]
      simp

theorem shortest_encode (us : List UInt16) : Shortest us (encode us) := by
  induction us with
  | nil => exact .nil
  | cons u us ih =>
      have h : encode (u :: us) = encodeUnit u ++ encode us := by simp [encode]
      rw [h]
      exact .cons (unitBytes_encodeUnit u) ih

/-- Every unit sequence is read back from its encoding. -/
theorem decode_encode (us : List UInt16) : decode (encode us) = .ok us := by
  simpa [decode] using decodeOnto_shortest (shortest_encode us) []

theorem Shortest.eq_encode {us : List UInt16} {bs : Bytes} (h : Shortest us bs) :
    bs = encode us := by
  induction h with
  | nil => rfl
  | cons unit _ ih =>
      rw [ih, unit.unique (unitBytes_encodeUnit _)]
      simp [encode]

/-- The bytes are what their units are encoded as. -/
def isShortest (bs : Bytes) : Bool :=
  match decode bs with
  | .ok us => encode us == bs
  | .error _ => false

theorem isShortest_iff {bs : Bytes} : isShortest bs = true ↔ ∃ us, Shortest us bs := by
  rw [isShortest]
  constructor
  · intro h
    split at h
    · rename_i us _
      rw [beq_iff_eq] at h
      exact ⟨us, h ▸ shortest_encode us⟩
    · cases h
  · rintro ⟨us, h⟩
    have hdecode : decode bs = .ok us := by
      rw [h.eq_encode]
      exact decode_encode us
    rw [hdecode]
    exact beq_iff_eq.mpr h.eq_encode.symm

end ModifiedUtf8

/-! ## §3  From characters to units and back -/

theorem isHighSurrogate_iff (u : UInt16) :
    isHighSurrogate u = true ↔ 0xd800 ≤ u.toNat ∧ u.toNat < 0xdc00 := by
  simp [isHighSurrogate, UInt16.le_iff_toNat_le, UInt16.lt_iff_toNat_lt]

theorem isLowSurrogate_iff (u : UInt16) :
    isLowSurrogate u = true ↔ 0xdc00 ≤ u.toNat ∧ u.toNat < 0xe000 := by
  simp [isLowSurrogate, UInt16.le_iff_toNat_le, UInt16.lt_iff_toNat_lt]

/-- The units of a character by number: one outside of the surrogates, or a surrogate pair. -/
inductive CharUnits : Char → List UInt16 → Prop where
  | one {c : Char} {u : UInt16} (number : u.toNat = c.toNat)
      (plain : u.toNat < 0xd800 ∨ 0xe000 ≤ u.toNat) : CharUnits c [u]
  | two {c : Char} {u v : UInt16} (high : 0xd800 ≤ u.toNat ∧ u.toNat < 0xdc00)
      (low : 0xdc00 ≤ v.toNat ∧ v.toNat < 0xe000)
      (number : c.toNat = 0x10000 + (u.toNat - 0xd800) * 0x400 + (v.toNat - 0xdc00)) :
      CharUnits c [u, v]

theorem charUnits_spec (c : Char) : CharUnits c (charUnits c) := by
  have hc : c.toNat < 0xd800 ∨ (0xdfff < c.toNat ∧ c.toNat < 0x110000) := c.valid
  have hval : c.val.toNat = c.toNat := rfl
  rw [charUnits]
  split
  · rename_i h
    simp only [UInt32.lt_iff_toNat_lt, UInt32.reduceToNat, hval] at h
    have hu : c.val.toUInt16.toNat = c.toNat := by
      rw [UInt32.toNat_toUInt16, hval]
      omega
    exact .one hu (by omega)
  · rename_i h
    simp only [UInt32.lt_iff_toNat_lt, UInt32.reduceToNat, hval] at h
    have hbits : (c.val - 0x10000).toNat = c.toNat - 0x10000 := by
      rw [UInt32.toNat_sub_of_le, hval]
      · rfl
      · rw [UInt32.le_iff_toNat_le, hval]
        simp only [UInt32.reduceToNat]
        omega
    have hhigh : ((c.val - 0x10000) >>> 10).toUInt16.toNat = (c.toNat - 0x10000) / 1024 := by
      rw [UInt32.toNat_toUInt16, UInt32.toNat_shiftRight, hbits]
      simp only [UInt32.reduceToNat, Nat.reduceMod, Nat.shiftRight_eq_div_pow, Nat.reducePow]
      omega
    have hlow : ((c.val - 0x10000) &&& 0x3ff).toUInt16.toNat = (c.toNat - 0x10000) % 1024 := by
      have hmask : (c.toNat - 0x10000) &&& 1023 = (c.toNat - 0x10000) % 1024 :=
        Nat.and_two_pow_sub_one_eq_mod _ 10
      rw [UInt32.toNat_toUInt16, UInt32.toNat_and, hbits]
      simp only [UInt32.reduceToNat]
      rw [hmask]
      omega
    refine .two ?_ ?_ ?_ <;>
    · simp only [UInt16.toNat_add, hhigh, hlow, UInt16.reduceToNat]
      omega

theorem charsOfUnits_spec {c : Char} {us : List UInt16} (h : CharUnits c us) (found : List Char)
    (rest : List UInt16) : charsOfUnits found (us ++ rest) = charsOfUnits (c :: found) rest := by
  cases h with
  | @one u number plain =>
      have hh : isHighSurrogate u = false := by
        rw [Bool.eq_false_iff, Ne, isHighSurrogate_iff]
        omega
      have hl : isLowSurrogate u = false := by
        rw [Bool.eq_false_iff, Ne, isLowSurrogate_iff]
        omega
      cases rest <;> simp [charsOfUnits, hh, hl, number]
  | @two u v high low number =>
      have hh : isHighSurrogate u = true := (isHighSurrogate_iff u).mpr high
      have hl : isLowSurrogate v = true := (isLowSurrogate_iff v).mpr low
      have hc : pairChar u v = c := by
        rw [pairChar, ← number, Char.ofNat_toNat]
      simp [charsOfUnits, hh, hl, hc]

theorem charsOfUnits_flatMap (cs found : List Char) :
    charsOfUnits found (cs.flatMap charUnits) = some (found.reverse ++ cs) := by
  induction cs generalizing found with
  | nil => simp [charsOfUnits]
  | cons c cs ih =>
      rw [List.flatMap_cons, charsOfUnits_spec (charUnits_spec c), ih]
      simp

/-- Every text is put together again from its units. -/
theorem ofUnits?_units (s : String) : ofUnits? (units s) = some s := by
  simp [ofUnits?, units, charsOfUnits_flatMap]

/-- A character has one sequence of units. -/
theorem CharUnits.unique {c : Char} {us vs : List UInt16} (h : CharUnits c us)
    (h' : CharUnits c vs) : us = vs := by
  cases h with
  | @one u number _ =>
      have hu := u.toNat_lt
      cases h' with
      | one number' =>
          simp only [List.cons.injEq, and_true, ← UInt16.toNat_inj]
          omega
      | two _ _ number' => omega
  | two _ _ number =>
      cases h' with
      | @one u number' _ =>
          have hu := u.toNat_lt
          omega
      | two _ _ number' =>
          simp only [List.cons.injEq, and_true, ← UInt16.toNat_inj]
          omega

theorem flatMap_of_charsOfUnits {found cs : List Char} {us : List UInt16}
    (h : charsOfUnits found us = some cs) :
    ∃ ds, cs = found.reverse ++ ds ∧ ds.flatMap charUnits = us := by
  -- The characters found so far are an accumulator; `step` puts one more, with its units, in front of the rest.
  have step {c : Char} {vs us : List UInt16} {found cs : List Char} (hc : CharUnits c vs)
      (ih : ∃ ds, cs = (c :: found).reverse ++ ds ∧ ds.flatMap charUnits = us) :
      ∃ ds, cs = found.reverse ++ ds ∧ ds.flatMap charUnits = vs ++ us := by
    obtain ⟨ds, rfl, hus⟩ := ih
    exact ⟨c :: ds, by simp, by rw [List.flatMap_cons, hus, (charUnits_spec c).unique hc]⟩
  -- A unit that is no surrogate is the number of a character.
  have one {u : UInt16} (hh : ¬ isHighSurrogate u = true) (hl : ¬ isLowSurrogate u = true) :
      CharUnits (Char.ofNat u.toNat) [u] := by
    rw [isHighSurrogate_iff] at hh
    rw [isLowSurrogate_iff] at hl
    have hu := u.toNat_lt
    have hv : u.toNat.isValidChar := by
      rw [Nat.isValidChar]
      omega
    have hn : (Char.ofNat u.toNat).toNat = u.toNat := by
      rw [Char.ofNat, dif_pos hv]
      rfl
    exact .one hn.symm (by omega)
  -- Two surrogates are one beyond the first 65536.
  have two {u v : UInt16} (hh : isHighSurrogate u = true) (hl : isLowSurrogate v = true) :
      CharUnits (pairChar u v) [u, v] := by
    rw [isHighSurrogate_iff] at hh
    rw [isLowSurrogate_iff] at hl
    have hv : (0x10000 + (u.toNat - 0xd800) * 0x400 + (v.toNat - 0xdc00)).isValidChar := by
      rw [Nat.isValidChar]
      omega
    have hn : (pairChar u v).toNat =
        0x10000 + (u.toNat - 0xd800) * 0x400 + (v.toNat - 0xdc00) := by
      rw [pairChar, Char.ofNat, dif_pos hv]
      rfl
    exact .two hh hl hn
  induction found, us using charsOfUnits.induct with
  | case1 found =>
      rw [charsOfUnits, Option.some.injEq] at h
      exact ⟨[], by simp [h], rfl⟩
  | case2 found u hs =>
      simp [charsOfUnits, hs] at h
  | case3 found u hs ih =>
      rw [charsOfUnits, if_neg hs] at h
      rw [Bool.or_eq_true, not_or] at hs
      exact step (one hs.1 hs.2) (ih h)
  | case4 found u v rest hu hv ih =>
      rw [charsOfUnits, if_pos hu, if_pos hv] at h
      exact step (two hu hv) (ih h)
  | case5 found u v rest hu hv =>
      simp [charsOfUnits, hu, hv] at h
  | case6 found u v rest hu hl =>
      simp [charsOfUnits, hu, hl] at h
  | case7 found u v rest hu hl ih =>
      rw [charsOfUnits, if_neg hu, if_neg hl] at h
      exact step (one hu hl) (ih h)

/-- A unit sequence that is a text is the form of that text. -/
theorem units_of_ofUnits? {us : List UInt16} {s : String} (h : ofUnits? us = some s) :
    units s = us := by
  obtain ⟨cs, hcs, rfl⟩ := Option.map_eq_some_iff.mp h
  obtain ⟨ds, rfl, hds⟩ := flatMap_of_charsOfUnits hcs
  simpa [units] using hds

end ClassFile.Text
