import ClassFile.Proofs.Record.Pieces
/-!
# Pools that are read back

A pool is written with the number of its slots and, in front of each text, the length of the encoded text, both in 16 bits.
The number of slots always fits. A length need not: a file may hold a text in a form that is shorter than the one the
writer gives it, and then only the low 16 bits of the length are written.

So a pool comes back exactly if its texts fit. One direction is `Pool.read_bytes`. For the other one, whatever is
read of the written bytes is compared with the pool, entry by entry (§2): as long as entries come back, the bytes in
front of the next one are the same, and a text under a length that is too small is read as a part of itself,
which is another text (§1).
-/

namespace ClassFile

open Bytes (ofUInt16)

/-! ## §1  Texts cut short -/

namespace Text.ModifiedUtf8

/-- The front part of a unit's bytes holds no unit, unless it is all of them. -/
theorem UnitBytes.eq_of_decodeOnto {u : UInt16} {bs front : Bytes} (h : UnitBytes u bs)
    (hfront : front <+: bs) {found us : List UInt16} (hdecode : decodeOnto found front = .ok us)
    (hne : us ≠ found.reverse) : front = bs := by
  have hnil : front ≠ [] := by
    rintro rfl
    exact hne (Except.ok.inj hdecode).symm
  cases h with
  | single lead unit =>
      rcases List.prefix_cons_iff.mp hfront with rfl | ⟨cs, rfl, hcs⟩
      · exact absurd rfl hnil
      · rw [List.prefix_nil.mp hcs]
  | @pair b c lead second unit needed =>
      have h1 : ¬ b.toNat < 128 := by omega
      rcases List.prefix_cons_iff.mp hfront with rfl | ⟨cs, rfl, hcs⟩
      · exact absurd rfl hnil
      rcases List.prefix_cons_iff.mp hcs with rfl | ⟨ds, rfl, hds⟩
      · simp [decodeOnto, isSingle_iff, opensPair_iff, h1, lead] at hdecode
      · rw [List.prefix_nil.mp hds]
  | @triple b c d lead second third unit needed =>
      have h1 : ¬ b.toNat < 128 := by omega
      have h2 : ¬ (192 ≤ b.toNat ∧ b.toNat < 224) := by omega
      rcases List.prefix_cons_iff.mp hfront with rfl | ⟨cs, rfl, hcs⟩
      · exact absurd rfl hnil
      rcases List.prefix_cons_iff.mp hcs with rfl | ⟨ds, rfl, hds⟩
      · simp [decodeOnto, isSingle_iff, opensPair_iff, opensTriple_iff, h1, h2, lead] at hdecode
      rcases List.prefix_cons_iff.mp hds with rfl | ⟨es, rfl, hes⟩
      · simp [decodeOnto, isSingle_iff, opensPair_iff, opensTriple_iff, h1, h2, lead] at hdecode
      · rw [List.prefix_nil.mp hes]

/-- Cut short, a text in shortest form is not read as the same text. -/
theorem Shortest.eq_of_front {us : List UInt16} {bs front : Bytes} (h : Shortest us bs)
    (hfront : front <+: bs) (found : List UInt16)
    (hdecode : decodeOnto found front = .ok (found.reverse ++ us)) : front = bs := by
  induction h generalizing front found with
  | nil => exact List.prefix_nil.mp hfront
  | @cons u us here rest unit _ ih =>
      -- the cut is inside of the first unit, or behind it
      rcases List.prefix_or_prefix_of_prefix hfront (List.prefix_append here rest) with hcut | hcut
      · have hhere : front = here := unit.eq_of_decodeOnto hcut hdecode (by simp)
        subst hhere
        have hdone : decodeOnto found (front ++ []) = .ok (found.reverse ++ u :: us) := by
          rwa [List.append_nil]
        rw [decodeOnto_unitBytes unit] at hdone
        have hnil := ih List.nil_prefix (u :: found) (by simpa using hdone)
        rw [← hnil, List.append_nil]
      · obtain ⟨more, rfl⟩ := hcut
        rw [decodeOnto_unitBytes unit] at hdecode
        have hmore : more <+: rest := (List.prefix_append_right_inj here).mp hfront
        rw [ih hmore (u :: found) (by simpa using hdecode)]

end Text.ModifiedUtf8

namespace Entry

theorem fits_ofUnits {us : List UInt16} :
    (ofUnits us).Fits ↔ (Text.ModifiedUtf8.encode us).length ≤ 65535 := by
  cases h : Text.ofUnits? us with
  | some s =>
      simp only [ofUnits, h, Fits, Text.ModifiedUtf8.encodeString, Text.units_of_ofUnits? h,
        Interning.maxTextBytes]
  | none => simp only [ofUnits, h, Fits, Interning.maxTextBytes]

theorem bytes_ofUnits (us : List UInt16) :
    (ofUnits us).bytes = bytesOfText (Text.ModifiedUtf8.encode us) := by
  cases h : Text.ofUnits? us with
  | some s =>
      simp only [ofUnits, h, bytes, Text.ModifiedUtf8.encodeString, Text.units_of_ofUnits? h]
  | none => simp only [ofUnits, h, bytes]

end Entry

/-! ## §2  Entries that come back fit -/

namespace EncodedEntry

/-- If the bytes that are written for an entry are those of an encoded form of it, then it fits. -/
theorem Decodes.fits {v : EncodedEntry} {e : Entry} (h : v.Decodes e) (proper : v.Proper)
    {behind behind' : Bytes} (hbytes : e.bytes ++ behind = v.bytes ++ behind') :
    e.Fits ∧ behind = behind' := by
  cases h with
  | other e =>
      have hbehind : behind = behind' := List.append_cancel_left hbytes
      exact ⟨Entry.fits_of_isText proper, hbehind⟩
  | @text encoded us hdecode =>
      let full := Text.ModifiedUtf8.encode us
      have hproper : encoded.length ≤ 65535 := proper
      rw [Entry.bytes_ofUnits, bytes, Entry.bytesOfText, Entry.bytesOfText, List.cons_append,
        List.cons_append, List.append_assoc, List.append_assoc] at hbytes
      obtain ⟨hlength, hrest⟩ :=
        List.append_inj (List.cons_eq_cons.mp hbytes).2 (by simp only [Bytes.length_ofUInt16])
      have hnumber : full.length % 65536 = encoded.length % 65536 := by
        have hword := congrArg UInt16.toNat (Bytes.ofUInt16_inj hlength)
        simpa only [UInt16.toNat_ofNat'] using hword
      -- the length that is written is at most the true one
      have hle : encoded.length ≤ full.length := by omega
      have hfront : encoded <+: full :=
        List.prefix_of_prefix_length_le (hrest ▸ List.prefix_append encoded behind')
          (List.prefix_append full behind) hle
      have hwhole : encoded = full :=
        (Text.ModifiedUtf8.shortest_encode us).eq_of_front hfront [] hdecode
      rw [hwhole] at hproper hrest
      exact ⟨Entry.fits_ofUnits.mpr hproper, List.append_cancel_left hrest⟩

theorem fits_of_decodes {vs : List EncodedEntry} {es : List Entry}
    (h : List.Forall₂ Decodes vs es) (proper : ∀ v ∈ vs, v.Proper) {behind behind' : Bytes}
    (hbytes : es.flatMap Entry.bytes ++ behind = vs.flatMap EncodedEntry.bytes ++ behind') :
    ∀ e ∈ es, e.Fits := by
  induction h with
  | nil => simp
  | @cons v e vs es hve _ ih =>
      rw [List.flatMap_cons, List.flatMap_cons, List.append_assoc, List.append_assoc] at hbytes
      obtain ⟨hfits, hmore⟩ := hve.fits (proper v List.mem_cons_self) hbytes
      intro e' he'
      rcases List.mem_cons.mp he' with rfl | he'
      · exact hfits
      · exact ih (fun v hv => proper v (List.mem_cons_of_mem _ hv)) hmore e' he'

end EncodedEntry

/-! ## §3  Pools -/

namespace Pool

/-- Wherever the pool is written, a pool with the same slots is read, and what is read are the bytes that were
written. -/
def ReadsBack (p : Pool) : Prop :=
  ∀ o behind, ∃ q, read ⟨o, p.bytes ++ behind⟩ = .ok (q, ⟨o + p.bytes.length, behind⟩) ∧
    q.slots = p.slots

/-- A pool whose slots are read from its bytes has texts that fit. -/
theorem WellFormed.textsFit_of_read {p q : Pool} (wf : p.WellFormed) {o : Nat} {behind : Bytes}
    {c : Cursor} (h : read ⟨o, p.bytes ++ behind⟩ = .ok (q, c)) (hslots : q.slots = p.slots) :
    p.TextsFit := by
  obtain ⟨es, rfl, -⟩ := wf.built
  obtain ⟨vs, es', -, rfl, hdecodes, hproper, -, hpassed⟩ := read_eq_ok h
  have hes : es' = es := by
    rw [← filterMap_slots es', hslots, filterMap_slots]
  subst hes
  have hbytes := hpassed.rest
  rw [bytes_ofEntries, List.append_assoc, List.append_assoc] at hbytes
  have hfits := EncodedEntry.fits_of_decodes hdecodes hproper (List.append_cancel_left hbytes)
  exact fun i e hi => hfits e (mem_of_found hi)

/-- **Pools are read back if and only if their texts fit.** The number of slots is never cut off. A text is, if it
takes more than 65535 bytes when it is written; then nothing with the same entries is read. -/
theorem Reachable.readsBack_iff {p : Pool} (h : p.Reachable) :
    (UInt16.ofNat p.size).toNat = p.size ∧ (p.ReadsBack ↔ p.TextsFit) := by
  have wf := h.wellFormed
  refine ⟨UInt16.toNat_ofNat_of_lt' (Nat.lt_succ_of_le wf.size_le), ?_, ?_⟩
  · intro hread
    obtain ⟨q, hq, hslots⟩ := hread 0 []
    exact wf.textsFit_of_read hq hslots
  · intro fit o behind
    exact ⟨p, read_bytes wf fit o rfl ⟨rfl, rfl⟩, rfl⟩

/-! ## §4  A text of zeros -/

open Text.ModifiedUtf8

theorem decodeOnto_zeros (n : Nat) (found : List UInt16) :
    decodeOnto found (List.replicate n 0) = .ok (found.reverse ++ List.replicate n 0) := by
  induction n generalizing found with
  | zero => simp [decodeOnto]
  | succ n ih =>
      rw [List.replicate_succ, decodeOnto.eq_def]
      simp [ih, List.replicate_succ]

/-- A pool with one text, of `n` zeros. A file may hold each of them as one byte; the writer takes two. -/
def zeros (n : Nat) : Pool := ofEntries [.ofUnits (List.replicate n 0)]

theorem reachable_zeros {n : Nat} (hn : n ≤ 65535) : (zeros n).Reachable := by
  let v : EncodedEntry := .text (List.replicate n 0)
  have hproper : v.Proper := by
    show (List.replicate n 0).length ≤ 65535
    rwa [List.length_replicate]
  obtain ⟨d, hd, hv⟩ := Cursor.passed_append_iff.mp (Cursor.start_passed (ofUInt16 2 ++ v.bytes))
  have hentry := Entry.read_eq_ok (k := 1).mpr
    ⟨v, EncodedEntry.read_eq_ok.mpr ⟨hproper, hv⟩, .text (decodeOnto_zeros n [])⟩
  have hsize : (empty.push (.ofUnits (List.replicate n 0))).size = 2 := by
    rw [size_push, Entry.width_ofUnits]
    rfl
  have hentries : readEntries 2 2 empty d = .ok (zeros n, ⟨(ofUInt16 2 ++ v.bytes).length, []⟩) := by
    rw [readEntries, if_pos (by decide)]
    simp only [show empty.size = 1 from rfl, hentry, List.reverse_nil, List.nil_append]
    rw [readEntries, if_neg (by rw [hsize]; decide)]
    rfl
  have hfull : ((zeros n).size == (2 : UInt16).toNat) = true := beq_iff_eq.mpr hsize
  have hread : read (Cursor.start (ofUInt16 2 ++ v.bytes)) =
      .ok (zeros n, ⟨(ofUInt16 2 ++ v.bytes).length, []⟩) := by
    refine Read.bind_eq_ok.mpr ⟨2, d, Read.word16_eq_ok.mpr hd, ?_⟩
    refine Read.bind_eq_ok.mpr ⟨zeros n, _, hentries, ?_⟩
    rw [if_pos hfull]
    rfl
  exact .read hread

theorem textsFit_zeros {n : Nat} (hn : n ≤ 65535) : (zeros n).TextsFit ↔ 2 * n ≤ 65535 := by
  have hlength : (encode (List.replicate n 0)).length = 2 * n := by
    have hunit : (encodeUnit 0).length = 2 := by decide
    simp [encode, List.length_flatMap, hunit, Nat.mul_comm]
  have hfits : (Entry.ofUnits (List.replicate n 0)).Fits ↔ 2 * n ≤ 65535 := by
    rw [Entry.fits_ofUnits, hlength]
  constructor
  · intro fit
    obtain ⟨i, hi⟩ := @first_of_mem [.ofUnits (List.replicate n 0)] _ List.mem_cons_self
    exact hfits.mp (fit i _ ((reachable_zeros hn).wellFormed.entry?_of_first hi))
  · intro hle i e hi
    obtain rfl := List.mem_singleton.mp (mem_of_found hi)
    exact hfits.mpr hle

/-- One zero more, and the pool does not come back. -/
theorem readsBack_iff_zeros : (zeros 32767).Reachable ∧ (zeros 32767).ReadsBack ∧
    (zeros 32768).Reachable ∧ ¬ (zeros 32768).ReadsBack := by
  have short := reachable_zeros (n := 32767) (by decide)
  have long := reachable_zeros (n := 32768) (by decide)
  refine ⟨short, ?_, long, ?_⟩
  · rw [short.readsBack_iff.2, textsFit_zeros (by decide)]
    decide
  · rw [long.readsBack_iff.2, textsFit_zeros (by decide)]
    decide

end Pool

end ClassFile
