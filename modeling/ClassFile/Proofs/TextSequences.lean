import ClassFile.Proofs.TextEncoding
/-!
# The byte strings that are encoded text

The decoder takes a byte string exactly when it can be cut into sequences of one to three bytes, and there is
one way to cut it. What is written back is the same unless a sequence is longer than its unit needs or is a
plain zero byte, and the encoder writes neither.

§1 says when a sequence is the one that the encoder writes for its unit, §2 follows the cut through the decoder
in both directions.
-/

namespace ClassFile.Text.ModifiedUtf8

/-! ## §1  One sequence -/

/-- The sequence has more bytes than its unit needs. Zero needs two. -/
def IsOverlong (s : Bytes) : Prop :=
  s.length = 2 ∧ 0x01 ≤ unitOf s ∧ unitOf s ≤ 0x7f ∨ s.length = 3 ∧ unitOf s < 0x800

instance (s : Bytes) : Decidable (IsOverlong s) :=
  inferInstanceAs (Decidable (_ ∨ _))

/-- A sequence is the shortest form of its unit unless it is the zero byte or too long. -/
theorem IsSequence.unitBytes_iff {s : Bytes} (h : IsSequence s) :
    UnitBytes (unitOf s) s ↔ 0 ∉ s ∧ ¬ IsOverlong s := by
  have hzero (b : UInt8) : 0 = b ↔ b.toNat = 0 := by
    rw [eq_comm, ← UInt8.toNat_inj]
    rfl
  cases h with
  | @single b lead =>
      have hu : (unitOf [b]).toNat = b.toNat := by
        simp only [unitOf, UInt16.toNat_ofNat']
        omega
      have hlong : ¬ IsOverlong [b] := by simp [IsOverlong]
      simp only [hlong, List.mem_singleton, hzero, not_false_eq_true, and_true]
      constructor
      · rintro ⟨lead', -⟩
        omega
      · intro hne
        exact .single (by omega) hu
  | @pair b c lead second =>
      have hu : (unitOf [b, c]).toNat = (b.toNat - 0xc0) * 64 + (c.toNat - 0x80) := by
        simp only [unitOf, UInt16.toNat_ofNat']
        omega
      have hlong : IsOverlong [b, c] ↔ 1 ≤ (unitOf [b, c]).toNat ∧ (unitOf [b, c]).toNat ≤ 127 := by
        simp [IsOverlong, UInt16.le_iff_toNat_le]
      have hne : 0 ∉ [b, c] := by
        simp only [List.mem_cons, List.not_mem_nil, or_false, hzero]
        omega
      rw [hlong]
      generalize unitOf [b, c] = u at hu
      constructor
      · intro hb
        cases hb
        exact ⟨hne, by omega⟩
      · rintro ⟨-, hb⟩
        exact .pair (by omega) (by omega) (by omega) (by omega)
  | @triple b c d lead second third =>
      have hlead : b.toNat - 0xe0 = b.toNat % 16 := by omega
      have hsecond : c.toNat - 0x80 = c.toNat % 64 := by omega
      have hthird : d.toNat - 0x80 = d.toNat % 64 := by omega
      have hu : (unitOf [b, c, d]).toNat =
          b.toNat % 16 * 4096 + c.toNat % 64 * 64 + d.toNat % 64 := by
        simp only [unitOf, UInt16.toNat_ofNat', hlead, hsecond, hthird]
        omega
      have hlong : IsOverlong [b, c, d] ↔ (unitOf [b, c, d]).toNat < 2048 := by
        simp [IsOverlong, UInt16.lt_iff_toNat_lt]
      have hne : 0 ∉ [b, c, d] := by
        simp only [List.mem_cons, List.not_mem_nil, or_false, hzero]
        omega
      rw [hlong]
      generalize unitOf [b, c, d] = u at hu
      constructor
      · intro hb
        cases hb
        exact ⟨hne, by omega⟩
      · rintro ⟨-, hb⟩
        exact .triple (by omega) (by omega) (by omega) hu (by omega)

/-- Where a sequence ends is told by its first byte. -/
theorem IsSequence.eq_of_append {s t rest rest' : Bytes} (hs : IsSequence s) (ht : IsSequence t)
    (h : s ++ rest = t ++ rest') : s = t := by
  cases hs <;> cases ht <;>
    simp only [List.cons_append, List.nil_append, List.cons.injEq] at h
  case single.single => rw [h.1]
  case pair.pair => rw [h.1, h.2.1]
  case triple.triple => rw [h.1, h.2.1, h.2.2.1]
  all_goals
    have hlead := congrArg UInt8.toNat h.1
    omega

/-- The bytes of a sequence in the encoder's form: no zero byte, and none above those that open three. -/
theorem UnitBytes.byte_range {u : UInt16} {bs : Bytes} (h : UnitBytes u bs) {b : UInt8}
    (hb : b ∈ bs) : b ≠ 0 ∧ b < 0xf0 := by
  simp only [Ne, ← UInt8.toNat_inj, UInt8.lt_iff_toNat_lt, UInt8.reduceToNat]
  cases h <;> simp only [List.mem_cons, List.not_mem_nil, or_false] at hb <;>
    rcases hb with rfl | rfl | rfl <;> omega

/-! ## §2  A byte string cut into sequences -/

theorem decodeOnto_flatten {parts : List Bytes} (h : ∀ s ∈ parts, IsSequence s)
    (found : List UInt16) :
    decodeOnto found parts.flatten = .ok (found.reverse ++ parts.map unitOf) := by
  induction parts generalizing found with
  | nil => simp [decodeOnto]
  | cons s parts ih =>
      obtain ⟨hs, hparts⟩ := List.forall_mem_cons.mp h
      rw [List.flatten_cons, hs.decodeOnto_append, ih hparts]
      simp

theorem exists_flatten_of_decodeOnto {found us : List UInt16} {bs : Bytes}
    (h : decodeOnto found bs = .ok us) :
    ∃ parts : List Bytes, (∀ s ∈ parts, IsSequence s) ∧ parts.flatten = bs := by
  -- What is left behind the first sequence is cut by the induction hypothesis.
  have step {s rest : Bytes} (hs : IsSequence s)
      (ih : ∃ parts : List Bytes, (∀ s ∈ parts, IsSequence s) ∧ parts.flatten = rest) :
      ∃ parts : List Bytes, (∀ s ∈ parts, IsSequence s) ∧ parts.flatten = s ++ rest := by
    obtain ⟨parts, hparts, rfl⟩ := ih
    exact ⟨s :: parts, List.forall_mem_cons.mpr ⟨hs, hparts⟩, rfl⟩
  induction found, bs using decodeOnto.induct with
  | case1 found => exact ⟨[], by simp, rfl⟩
  | case2 found b rest hb ih =>
      rw [decodeOnto.eq_def] at h
      simp only [hb, if_true] at h
      rw [isSingle_iff, decide_eq_true_eq] at hb
      exact step (.single (by omega)) (ih h)
  | case4 found b hb hp c rest hc ih =>
      simp only [decodeOnto, hb, hp, hc, if_true, if_false, Bool.false_eq_true] at h
      rw [opensPair_iff, decide_eq_true_eq] at hp
      rw [isContinuation_iff, decide_eq_true_eq] at hc
      exact step (.pair (by omega) (by omega)) (ih h)
  | case6 found b hb hp ht c d rest hcd ih =>
      simp only [decodeOnto, hb, hp, ht, hcd, if_true, if_false, Bool.false_eq_true] at h
      rw [opensTriple_iff, decide_eq_true_eq] at ht
      rw [isContinuation_iff, isContinuation_iff, Bool.and_eq_true, decide_eq_true_eq,
        decide_eq_true_eq] at hcd
      exact step (.triple (by omega) (by omega) (by omega)) (ih h)
  | case3 found b hb hp => simp [decodeOnto, hb, hp] at h
  | case5 found b hb hp c rest hc => simp [decodeOnto, hb, hp, hc] at h
  | case7 found b hb hp ht c d rest hcd =>
      simp only [decodeOnto, hb, hp, ht, hcd, if_true, if_false, Bool.false_eq_true,
        reduceCtorEq] at h
  | case8 found b rest hb hp ht hshort =>
      rw [decodeOnto.eq_def] at h
      simp [hb, hp, ht] at h
  | case9 found b rest hb hp ht =>
      rw [decodeOnto.eq_def] at h
      simp [hb, hp, ht] at h

/-- There is one way to cut a byte string into sequences. -/
theorem eq_of_flatten {parts others : List Bytes} (h : ∀ s ∈ parts, IsSequence s)
    (h' : ∀ s ∈ others, IsSequence s) (heq : parts.flatten = others.flatten) : parts = others := by
  have hempty {s rest : Bytes} (hs : IsSequence s) : [] ≠ s ++ rest := by cases hs <;> simp
  induction parts generalizing others with
  | nil =>
      cases others with
      | nil => rfl
      | cons t others => exact absurd heq (hempty (h' t List.mem_cons_self))
  | cons s parts ih =>
      obtain ⟨hs, hparts⟩ := List.forall_mem_cons.mp h
      cases others with
      | nil => exact absurd heq.symm (hempty hs)
      | cons t others =>
          obtain ⟨ht, hothers⟩ := List.forall_mem_cons.mp h'
          rw [List.flatten_cons, List.flatten_cons] at heq
          have hst : s = t := hs.eq_of_append ht heq
          subst hst
          rw [ih hparts hothers (List.append_cancel_left heq)]

/-- Writing what was read gives the same bytes exactly when each sequence is the shortest form of its
unit. -/
theorem encode_map_unitOf_iff {parts : List Bytes} (h : ∀ s ∈ parts, IsSequence s) :
    encode (parts.map unitOf) = parts.flatten ↔ ∀ s ∈ parts, UnitBytes (unitOf s) s := by
  have hencode : encode (parts.map unitOf) = (parts.map fun s => encodeUnit (unitOf s)).flatten := by
    rw [encode, List.flatMap_def, List.map_map]
    rfl
  have hwritten : ∀ s ∈ parts.map fun s => encodeUnit (unitOf s), IsSequence s := by
    intro s hs
    obtain ⟨t, -, rfl⟩ := List.mem_map.mp hs
    exact (unitBytes_encodeUnit _).isSequence
  rw [hencode]
  constructor
  · intro heq s hs
    have hsame : parts.map (fun s => encodeUnit (unitOf s)) = parts.map id := by
      rw [List.map_id, eq_of_flatten hwritten h heq]
    have hunit := unitBytes_encodeUnit (unitOf s)
    rwa [List.map_inj_left.mp hsame s hs] at hunit
  · intro hunits
    have hsame : parts.map (fun s => encodeUnit (unitOf s)) = parts.map id :=
      List.map_congr_left fun s hs => (unitBytes_encodeUnit _).unique (hunits s hs)
    rw [hsame, List.map_id]

/-- Every unit sequence is read back from its encoding, which has no zero byte and none from `0xf0` up. A byte
string is read exactly when it can be cut into sequences. Each sequence then gives one unit, and what was read
is written back as it was exactly when no byte is zero and no sequence is longer than its unit needs. -/
theorem decodes_sequences :
    (∀ us, decode (encode us) = .ok us ∧ ∀ b ∈ encode us, b ≠ 0 ∧ b < 0xf0) ∧
    (∀ bs, (∃ us, decode bs = .ok us) ↔
      ∃ parts : List Bytes, (∀ s ∈ parts, IsSequence s) ∧ parts.flatten = bs) ∧
    ∀ bs us, decode bs = .ok us →
      ∀ parts : List Bytes, (∀ s ∈ parts, IsSequence s) → parts.flatten = bs →
        parts.map unitOf = us ∧
        (encode us = bs ↔ 0 ∉ bs ∧ ∀ s ∈ parts, ¬ IsOverlong s) := by
  refine ⟨fun us => ⟨decode_encode us, ?_⟩, fun bs => ⟨?_, ?_⟩, ?_⟩
  · intro b hb
    obtain ⟨u, -, hbu⟩ := List.mem_flatMap.mp hb
    exact (unitBytes_encodeUnit u).byte_range hbu
  · rintro ⟨us, h⟩
    exact exists_flatten_of_decodeOnto h
  · rintro ⟨parts, hparts, rfl⟩
    exact ⟨parts.map unitOf, decodeOnto_flatten hparts []⟩
  · rintro bs us hdecode parts hparts rfl
    have hread : decode parts.flatten = .ok (parts.map unitOf) := decodeOnto_flatten hparts []
    obtain rfl : parts.map unitOf = us := Except.ok.inj (hread.symm.trans hdecode)
    refine ⟨rfl, ?_⟩
    have hzero : 0 ∉ parts.flatten ↔ ∀ s ∈ parts, 0 ∉ s := by simp [List.mem_flatten]
    rw [encode_map_unitOf_iff hparts, hzero]
    constructor
    · intro hunits
      exact ⟨fun s hs => ((hparts s hs).unitBytes_iff.mp (hunits s hs)).1,
        fun s hs => ((hparts s hs).unitBytes_iff.mp (hunits s hs)).2⟩
    · rintro ⟨hnonzero, hneeded⟩ s hs
      exact (hparts s hs).unitBytes_iff.mpr ⟨hnonzero s hs, hneeded s hs⟩

/-- The three lengths in one text, and the zero unit in two bytes, are written back as they were read. A letter in
two bytes is read too, and comes back in one. -/
theorem decodes_sequences_euro :
    decode [0x41, 0xc0, 0x80, 0xe2, 0x82, 0xac] = .ok [0x41, 0, 0x20ac] ∧
    encode [0x41, 0, 0x20ac] = [0x41, 0xc0, 0x80, 0xe2, 0x82, 0xac] ∧
    decode [0xc1, 0x81] = .ok [0x41] ∧ encode [0x41] ≠ [0xc1, 0x81] := by
  obtain ⟨-, -, hread⟩ := decodes_sequences
  have hparts : ∀ s ∈ [[0x41], [0xc0, 0x80], [0xe2, 0x82, 0xac]], IsSequence s := by
    simp only [List.forall_mem_cons, List.not_mem_nil, false_implies, implies_true, and_true]
    exact ⟨.single (by decide), .pair (by decide) (by decide),
      .triple (by decide) (by decide) (by decide)⟩
  have hlong : ∀ s ∈ [[0xc1, 0x81]], IsSequence s := by
    simp only [List.forall_mem_cons, List.not_mem_nil, false_implies, implies_true, and_true]
    exact .pair (by decide) (by decide)
  have htext : decode [0x41, 0xc0, 0x80, 0xe2, 0x82, 0xac] = .ok [0x41, 0, 0x20ac] := by rfl
  have hletter : decode [0xc1, 0x81] = .ok [0x41] := by rfl
  exact ⟨htext, (hread _ _ htext _ hparts rfl).2.mpr (by decide), hletter,
    fun h => absurd ((hread _ _ hletter _ hlong rfl).2.mp h) (by decide)⟩

end ClassFile.Text.ModifiedUtf8
