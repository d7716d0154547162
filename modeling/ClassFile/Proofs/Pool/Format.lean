import ClassFile.Proofs.Pool.Growth
import ClassFile.Proofs.Reading
import ClassFile.Proofs.TextEncoding
/-!
# The constant pool in bytes, and back

Reading a pool undoes writing it, and gives not only the same entries but the same pool: it is built by adding the same
entries in the same order.

The converse does not hold, because a text has several encodings and all of them are read. §1 splits the reading of
an entry in two: first the entry with its text still encoded, which determines the bytes and is determined by them,
then the decoding of the text.
-/

namespace ClassFile

open Bytes (ofUInt16 ofUInt32 ofUInt64)

/-! ## §1  Entries with their texts still encoded -/

/-- An entry as the file has it. -/
inductive EncodedEntry where
  | text (encoded : Bytes)
  | other (e : Entry)
deriving DecidableEq

namespace Entry

/-- The entry is a text. -/
def isText : Entry → Bool
  | .utf8 _ | .utf16 _ => true
  | _ => false

theorem sound_of_isText {e : Entry} (h : e.isText = false) : e.Sound := by
  cases e with
  | utf8 _ | utf16 _ => cases h
  | _ => trivial

theorem fits_of_isText {e : Entry} (h : e.isText = false) : e.Fits := by
  cases e with
  | utf8 _ | utf16 _ => cases h
  | _ => trivial

end Entry

namespace EncodedEntry

/-- The bytes of an entry. -/
def bytes : EncodedEntry → Bytes
  | text encoded => Entry.bytesOfText encoded
  | other e => e.bytes

/-- The slots that an entry takes. -/
def width : EncodedEntry → Nat
  | text _ => 1
  | other e => e.width

/-- Texts are short enough, and they are not among the other entries. -/
def Proper : EncodedEntry → Prop
  | text encoded => encoded.length ≤ 65535
  | other e => e.isText = false

/-- What the entry means. -/
inductive Decodes : EncodedEntry → Entry → Prop where
  | text {encoded : Bytes} {us : List UInt16} (h : Text.ModifiedUtf8.decode encoded = .ok us) :
      Decodes (.text encoded) (.ofUnits us)
  | other (e : Entry) : Decodes (.other e) e

/-- An entry, its text left as it is. -/
def read : Read EncodedEntry := do
  let tag ← Read.byte
  if tag == 1 then
    let length ← Read.word16
    return .text (← Read.take length.toNat)
  else
    return .other (← Entry.readTagged 0 tag)

end EncodedEntry

namespace Entry

theorem readIndex_eq_ok {make : UInt16 → Entry} {c c' : Cursor} {e : Entry} :
    readIndex make c = .ok (e, c') ↔ ∃ w, make w = e ∧ c.Passed (ofUInt16 w) c' := by
  simp only [readIndex, Read.bind_eq_ok, Read.word16_eq_ok, Read.pure_eq_ok]
  constructor
  · rintro ⟨w, d, hd, he, rfl⟩
    exact ⟨w, he, hd⟩
  · rintro ⟨w, he, hd⟩
    exact ⟨w, c', hd, he, rfl⟩

theorem readPair_eq_ok {make : UInt16 → UInt16 → Entry} {c c' : Cursor} {e : Entry} :
    readPair make c = .ok (e, c') ↔
      ∃ a b, make a b = e ∧ c.Passed (ofUInt16 a ++ ofUInt16 b) c' := by
  simp only [readPair, Read.bind_eq_ok, Read.word16_eq_ok, Read.pure_eq_ok]
  constructor
  · rintro ⟨a, d, hd, b, d', hd', he, rfl⟩
    exact ⟨a, b, he, hd.trans hd'⟩
  · rintro ⟨a, b, he, h⟩
    obtain ⟨d, hd, hd'⟩ := Cursor.passed_append_iff.mp h
    exact ⟨a, d, hd, b, c', hd', he, rfl⟩

theorem readHandle_eq_ok {c c' : Cursor} {e : Entry} :
    readHandle c = .ok (e, c') ↔
      ∃ k r, methodHandle k r = e ∧ c.Passed (k :: ofUInt16 r) c' := by
  simp only [readHandle, Read.bind_eq_ok, Read.byte_eq_ok, Read.word16_eq_ok, Read.pure_eq_ok]
  constructor
  · rintro ⟨k, d, hd, r, d', hd', he, rfl⟩
    exact ⟨k, r, he, hd.trans hd'⟩
  · rintro ⟨k, r, he, h⟩
    obtain ⟨d, hd, hd'⟩ := Cursor.passed_cons_iff.mp h
    exact ⟨k, d, hd, r, c', hd', he, rfl⟩

/-- An entry that is no text is its tag and what is read behind the tag. -/
theorem readTagged_eq_ok {k : Nat} {tag : UInt8} (htag : tag ≠ 1) {c c' : Cursor} {e : Entry} :
    readTagged k tag c = .ok (e, c') ↔
      e.isText = false ∧ ∃ body, e.bytes = tag :: body ∧ c.Passed body c' := by
  constructor
  · intro h
    unfold readTagged at h
    split at h
    · exact absurd rfl htag
    -- What is left is one case for each tag, in the order of the reader.
    all_goals simp only [readIndex_eq_ok, readPair_eq_ok, readHandle_eq_ok, Read.bind_eq_ok,
      Read.word32_eq_ok, Read.word64_eq_ok, Read.pure_eq_ok, Read.fail_eq_ok] at h
    · obtain ⟨w, d, hd, rfl, rfl⟩ := h
      exact ⟨rfl, _, by simp [bytes], hd⟩
    · obtain ⟨w, d, hd, rfl, rfl⟩ := h
      exact ⟨rfl, _, rfl, hd⟩
    · obtain ⟨w, d, hd, rfl, rfl⟩ := h
      exact ⟨rfl, _, by simp [bytes], hd⟩
    · obtain ⟨w, d, hd, rfl, rfl⟩ := h
      exact ⟨rfl, _, rfl, hd⟩
    · obtain ⟨w, rfl, hc⟩ := h
      exact ⟨rfl, _, rfl, hc⟩
    · obtain ⟨w, rfl, hc⟩ := h
      exact ⟨rfl, _, rfl, hc⟩
    · obtain ⟨a, b, rfl, hc⟩ := h
      exact ⟨rfl, _, rfl, hc⟩
    · obtain ⟨a, b, rfl, hc⟩ := h
      exact ⟨rfl, _, rfl, hc⟩
    · obtain ⟨a, b, rfl, hc⟩ := h
      exact ⟨rfl, _, rfl, hc⟩
    · obtain ⟨a, b, rfl, hc⟩ := h
      exact ⟨rfl, _, rfl, hc⟩
    · obtain ⟨k, r, rfl, hc⟩ := h
      exact ⟨rfl, _, rfl, hc⟩
    · obtain ⟨w, rfl, hc⟩ := h
      exact ⟨rfl, _, rfl, hc⟩
    · obtain ⟨a, b, rfl, hc⟩ := h
      exact ⟨rfl, _, rfl, hc⟩
    · obtain ⟨a, b, rfl, hc⟩ := h
      exact ⟨rfl, _, rfl, hc⟩
    · obtain ⟨w, rfl, hc⟩ := h
      exact ⟨rfl, _, rfl, hc⟩
    · obtain ⟨w, rfl, hc⟩ := h
      exact ⟨rfl, _, rfl, hc⟩
  · rintro ⟨htext, body, hbytes, hc⟩
    cases e with
    | utf8 s => cases htext
    | utf16 us => cases htext
    | integer v =>
        obtain ⟨rfl, rfl⟩ := List.cons_eq_cons.mp hbytes
        simp only [readTagged, Read.bind_eq_ok, Read.word32_eq_ok, Read.pure_eq_ok]
        exact ⟨_, c', hc, by simp, rfl⟩
    | float v =>
        obtain ⟨rfl, rfl⟩ := List.cons_eq_cons.mp hbytes
        simp only [readTagged, Read.bind_eq_ok, Read.word32_eq_ok, Read.pure_eq_ok]
        exact ⟨_, c', hc, rfl, rfl⟩
    | long v =>
        obtain ⟨rfl, rfl⟩ := List.cons_eq_cons.mp hbytes
        simp only [readTagged, Read.bind_eq_ok, Read.word64_eq_ok, Read.pure_eq_ok]
        exact ⟨_, c', hc, by simp, rfl⟩
    | double v =>
        obtain ⟨rfl, rfl⟩ := List.cons_eq_cons.mp hbytes
        simp only [readTagged, Read.bind_eq_ok, Read.word64_eq_ok, Read.pure_eq_ok]
        exact ⟨_, c', hc, rfl, rfl⟩
    | methodHandle k r =>
        obtain ⟨rfl, rfl⟩ := List.cons_eq_cons.mp hbytes
        exact readHandle_eq_ok.mpr ⟨k, r, rfl, hc⟩
    | classRef _ | string _ | methodType _ | moduleRef _ | packageRef _ =>
        obtain ⟨rfl, rfl⟩ := List.cons_eq_cons.mp hbytes
        exact readIndex_eq_ok.mpr ⟨_, rfl, hc⟩
    | fieldRef _ _ | methodRef _ _ | interfaceMethodRef _ _ | nameAndType _ _ | dynamic _ _
    | dynamicCall _ _ =>
        obtain ⟨rfl, rfl⟩ := List.cons_eq_cons.mp hbytes
        exact readPair_eq_ok.mpr ⟨_, _, rfl, hc⟩

theorem tag_of_isText {e : Entry} (h : e.isText = false) {body : Bytes} {tag : UInt8}
    (hbytes : e.bytes = tag :: body) : tag ≠ 1 := by
  cases e with
  | utf8 _ | utf16 _ => cases h
  | _ =>
      obtain ⟨rfl, rfl⟩ := List.cons_eq_cons.mp hbytes
      decide

theorem bytes_ne_nil (e : Entry) : ∃ tag body, e.bytes = tag :: body := by
  cases e <;> exact ⟨_, _, rfl⟩

end Entry

namespace EncodedEntry

theorem read_eq_ok {v : EncodedEntry} {c c' : Cursor} :
    read c = .ok (v, c') ↔ v.Proper ∧ c.Passed v.bytes c' := by
  simp only [read, Read.bind_eq_ok, Read.byte_eq_ok]
  constructor
  · rintro ⟨tag, d, hd, h⟩
    split at h
    · rename_i htag
      rw [beq_iff_eq] at htag
      subst htag
      simp only [Read.bind_eq_ok, Read.word16_eq_ok, Read.take_eq_ok, Read.pure_eq_ok] at h
      obtain ⟨n, d₁, hd₁, encoded, d₂, ⟨hn, hd₂⟩, rfl, rfl⟩ := h
      have hlt := n.toNat_lt
      refine ⟨show encoded.length ≤ 65535 by omega, ?_⟩
      -- A length that was read is below 65536, so its word is found again.
      have hlength : UInt16.ofNat encoded.length = n := by rw [hn, UInt16.ofNat_toNat]
      rw [bytes, Entry.bytesOfText, hlength]
      exact hd.trans (hd₁.trans hd₂)
    · rename_i htag
      simp only [Read.bind_eq_ok, Read.pure_eq_ok] at h
      obtain ⟨e, d₁, he, rfl, rfl⟩ := h
      obtain ⟨htext, body, hbytes, hbody⟩ :=
        (Entry.readTagged_eq_ok fun h1 => htag (beq_iff_eq.mpr h1)).mp he
      refine ⟨htext, ?_⟩
      rw [bytes, hbytes]
      exact hd.trans hbody
  · rintro ⟨proper, hc⟩
    cases v with
    | text encoded =>
        have hn : (UInt16.ofNat encoded.length).toNat = encoded.length :=
          UInt16.toNat_ofNat_of_lt' (Nat.lt_succ_of_le proper)
        obtain ⟨d, hd, hc⟩ := Cursor.passed_cons_iff.mp hc
        obtain ⟨d₁, hd₁, hd₂⟩ := Cursor.passed_append_iff.mp hc
        refine ⟨1, d, hd, ?_⟩
        simp only [beq_self_eq_true, if_true, Read.bind_eq_ok, Read.word16_eq_ok,
          Read.take_eq_ok, Read.pure_eq_ok]
        exact ⟨_, d₁, hd₁, encoded, c', ⟨hn.symm, hd₂⟩, rfl, rfl⟩
    | other e =>
        obtain ⟨tag, body, hbytes⟩ := e.bytes_ne_nil
        have htag := Entry.tag_of_isText proper hbytes
        rw [bytes, hbytes] at hc
        obtain ⟨d, hd, hc⟩ := Cursor.passed_cons_iff.mp hc
        refine ⟨tag, d, hd, ?_⟩
        rw [if_neg fun h1 => htag (beq_iff_eq.mp h1)]
        simp only [Read.bind_eq_ok, Read.pure_eq_ok]
        exact ⟨e, c', (Entry.readTagged_eq_ok htag).mpr ⟨proper, body, hbytes, hc⟩, rfl, rfl⟩

theorem Decodes.sound {v : EncodedEntry} {e : Entry} (h : v.Decodes e) (proper : v.Proper) :
    e.Sound := by
  cases h with
  | text h => exact Entry.sound_ofUnits _
  | other e => exact Entry.sound_of_isText proper

theorem Decodes.width {v : EncodedEntry} {e : Entry} (h : v.Decodes e) : e.width = v.width := by
  cases h with
  | text h => exact Entry.width_ofUnits _
  | other e => rfl

end EncodedEntry

namespace Entry

theorem readText_eq_ok {k : Nat} {e : Entry} {c c' : Cursor} :
    readText k c = .ok (e, c') ↔ ∃ encoded us, encoded.length ≤ 65535 ∧
      Text.ModifiedUtf8.decode encoded = .ok us ∧ ofUnits us = e ∧
        c.Passed (ofUInt16 (UInt16.ofNat encoded.length) ++ encoded) c' := by
  simp only [readText, Read.bind_eq_ok, Read.word16_eq_ok, Read.take_eq_ok]
  constructor
  · rintro ⟨n, d, hd, encoded, d₁, ⟨hn, hd₁⟩, h⟩
    have hlt := n.toNat_lt
    cases hus : Text.ModifiedUtf8.decode encoded with
    | error fault =>
        simp only [hus, Read.within_eq_ok, Read.fail_eq_ok] at h
    | ok us =>
        refine ⟨encoded, us, by omega, hus, ?_⟩
        simp only [hus] at h
        rw [hn, UInt16.ofNat_toNat, ofUnits]
        cases hs : Text.ofUnits? us with
        | some s =>
            simp only [hs, Read.pure_eq_ok] at h
            exact ⟨h.1, h.2 ▸ hd.trans hd₁⟩
        | none =>
            simp only [hs, Read.pure_eq_ok] at h
            exact ⟨h.1, h.2 ▸ hd.trans hd₁⟩
  · rintro ⟨encoded, us, hlength, hus, rfl, hc⟩
    have hn : (UInt16.ofNat encoded.length).toNat = encoded.length :=
      UInt16.toNat_ofNat_of_lt' (Nat.lt_succ_of_le hlength)
    obtain ⟨d, hd, hd₁⟩ := Cursor.passed_append_iff.mp hc
    refine ⟨_, d, hd, encoded, c', ⟨hn.symm, hd₁⟩, ?_⟩
    simp only [hus, ofUnits]
    cases Text.ofUnits? us <;> rfl

/-- An entry is read as its encoded form, and then its text is decoded. -/
theorem read_eq_ok {k : Nat} {e : Entry} {c c' : Cursor} :
    read k c = .ok (e, c') ↔
      ∃ v : EncodedEntry, EncodedEntry.read c = .ok (v, c') ∧ v.Decodes e := by
  simp only [EncodedEntry.read_eq_ok, read, Read.bind_eq_ok, Read.byte_eq_ok]
  constructor
  · rintro ⟨tag, d, hd, h⟩
    by_cases htag : tag = 1
    · subst htag
      obtain ⟨encoded, us, hlength, hus, rfl, hc⟩ := readText_eq_ok.mp h
      exact ⟨.text encoded, ⟨hlength, hd.trans hc⟩, .text hus⟩
    · obtain ⟨htext, body, hbytes, hc⟩ := (readTagged_eq_ok htag).mp h
      refine ⟨.other e, ⟨htext, ?_⟩, .other e⟩
      rw [EncodedEntry.bytes, hbytes]
      exact hd.trans hc
  · rintro ⟨v, ⟨proper, hc⟩, hv⟩
    cases hv with
    | text hus =>
        obtain ⟨d, hd, hc⟩ := Cursor.passed_cons_iff.mp hc
        exact ⟨1, d, hd, readText_eq_ok.mpr ⟨_, _, proper, hus, rfl, hc⟩⟩
    | other e =>
        obtain ⟨tag, body, hbytes⟩ := e.bytes_ne_nil
        rw [EncodedEntry.bytes, hbytes] at hc
        obtain ⟨d, hd, hc⟩ := Cursor.passed_cons_iff.mp hc
        exact ⟨tag, d, hd, (readTagged_eq_ok (tag_of_isText proper hbytes)).mpr
          ⟨proper, body, hbytes, hc⟩⟩

/-- The entry with its text encoded as the writer does it. -/
def encoded : Entry → EncodedEntry
  | .utf8 s => .text (Text.ModifiedUtf8.encodeString s)
  | .utf16 us => .text (Text.ModifiedUtf8.encode us)
  | e => .other e

theorem bytes_encoded (e : Entry) : e.encoded.bytes = e.bytes := by
  cases e <;> rfl

theorem decodes_encoded {e : Entry} (sound : e.Sound) : e.encoded.Decodes e := by
  cases e with
  | utf8 s =>
      have h := EncodedEntry.Decodes.text (Text.ModifiedUtf8.decode_encode (Text.units s))
      rw [ofUnits, Text.ofUnits?_units] at h
      exact h
  | utf16 us =>
      have h := EncodedEntry.Decodes.text (Text.ModifiedUtf8.decode_encode us)
      rw [ofUnits, show Text.ofUnits? us = none from sound] at h
      exact h
  | _ => exact .other _

theorem proper_encoded {e : Entry} (fits : e.Fits) : e.encoded.Proper := by
  cases e with
  | utf8 _ | utf16 _ => exact fits
  | _ => rfl

theorem fits_of_proper {e : Entry} (proper : e.encoded.Proper) : e.Fits := by
  cases e with
  | utf8 _ | utf16 _ => exact proper
  | _ => trivial

/-- Written and read again, an entry is the same. -/
theorem read_bytes {e : Entry} (sound : e.Sound) (fits : e.Fits) (k : Nat) {c c' : Cursor}
    (hc : c.Passed e.bytes c') : read k c = .ok (e, c') := by
  rw [← bytes_encoded] at hc
  exact read_eq_ok.mpr
    ⟨e.encoded, EncodedEntry.read_eq_ok.mpr ⟨proper_encoded fits, hc⟩, decodes_encoded sound⟩

end Entry

/-! ## §2  Pools -/

namespace Pool

/-- The empty slot behind a wide entry has no bytes. -/
theorem flatMap_slots (e : Entry) :
    (e.slots.flatMap fun slot => (slot.map Entry.bytes).getD []) = e.bytes := by
  rw [Entry.slots]
  split <;> simp

theorem bytes_ofEntries (es : List Entry) :
    (ofEntries es).bytes =
      ofUInt16 (UInt16.ofNat (ofEntries es).size) ++ es.flatMap Entry.bytes := by
  rw [bytes, entryBytes, slots_ofEntries, List.flatMap_cons, List.flatMap_assoc]
  simp only [flatMap_slots]
  rfl

/-- The pool's entries, as many as there is room for. -/
theorem readEntries_of_bytes {declared : Nat} (es : List Entry) (steps : Nat) (p : Pool)
    (hsize : p.size + (es.map Entry.width).sum = declared)
    (hsteps : p.size + steps ≥ declared)
    (hes : ∀ e ∈ es, e.Sound ∧ e.Fits) {c c' : Cursor}
    (hc : c.Passed (es.flatMap Entry.bytes) c') :
    readEntries declared steps p c = .ok (es.foldl push p, c') := by
  induction es generalizing steps p c with
  | nil =>
      obtain rfl := Cursor.passed_nil_iff.mp hc
      have hfull : ¬ p.size < declared := by simp at hsize; omega
      cases steps with
      | zero => rfl
      | succ steps => rw [readEntries, if_neg hfull]; rfl
  | cons e es ih =>
      rw [List.map_cons, List.sum_cons] at hsize
      have hw := e.width_pos
      obtain ⟨sound, fits⟩ := hes e List.mem_cons_self
      obtain ⟨d, hd, hc⟩ := Cursor.passed_append_iff.mp hc
      obtain _ | steps := steps
      · omega
      · rw [readEntries, if_pos (by omega)]
        simp only [Entry.read_bytes sound fits p.size hd]
        exact ih steps (p.push e) (by rw [size_push]; omega) (by rw [size_push]; omega)
          (fun e' he' => hes e' (List.mem_cons_of_mem e he')) hc

/-- Written and read again, a pool is the same. -/
theorem read_bytes {q : Pool} (wf : q.WellFormed) (fit : q.TextsFit) (o : Nat) :
    read.Takes o q.bytes q := by
  intro c c' _ hc
  obtain ⟨es, rfl, hes⟩ := wf.built
  have hsize : (UInt16.ofNat (ofEntries es).size).toNat = (ofEntries es).size :=
    UInt16.toNat_ofNat_of_lt' (Nat.lt_succ_of_le wf.size_le)
  rw [bytes_ofEntries] at hc
  obtain ⟨d, hd, hc⟩ := Cursor.passed_append_iff.mp hc
  have hentries := readEntries_of_bytes es (ofEntries es).size empty (size_ofEntries es).symm
    (Nat.le_add_left _ _) (fun e he => ⟨hes e he, ?_⟩) hc
  · simp only [read, Read.bind_eq_ok, Read.word16_eq_ok]
    refine ⟨_, d, hd, ofEntries es, c', ?_, ?_⟩
    · rw [hsize]
      exact hentries
    · rw [hsize, if_pos (beq_self_eq_true _)]
      rfl
  · obtain ⟨i, hi⟩ := first_of_mem he
    exact fit i e (wf.entry?_of_first hi)

end Pool

/-! ## §3  Pools with their texts still encoded -/

namespace EncodedEntry

/-- The entries that fill up `declared` slots, of which `size` are filled already. An entry fills at least one,
so `declared` steps are enough. -/
def readAll (declared : Nat) : (steps : Nat) → (size : Nat) → Read (List EncodedEntry)
  | 0, _ => pure []
  | steps + 1, size =>
      if size < declared then do
        let v ← read
        let more ← readAll declared steps (size + v.width)
        return v :: more
      else pure []

/-- The pool of a file, its texts left as they are. -/
def readPool : Read (List EncodedEntry) := do
  let declared ← Read.word16
  readAll declared.toNat declared.toNat 1

/-- The text is encoded in the shortest form: no zero byte, and no unit takes more bytes than it needs. -/
def Shortest : EncodedEntry → Prop
  | text encoded => ∃ us, Text.ModifiedUtf8.Shortest us encoded
  | other _ => True

instance decidableShortest : (v : EncodedEntry) → Decidable v.Shortest
  | text encoded => decidable_of_iff _ (@Text.ModifiedUtf8.isShortest_iff encoded)
  | other _ => .isTrue trivial

theorem Decodes.eq_encoded {v : EncodedEntry} {e : Entry} (h : v.Decodes e) (proper : v.Proper)
    (shortest : v.Shortest) : v = e.encoded := by
  cases h with
  | @text encoded us h =>
      obtain ⟨vs, hvs⟩ := shortest
      have hencoded := hvs.eq_encode
      subst hencoded
      obtain rfl : vs = us := by
        rw [Text.ModifiedUtf8.decode_encode] at h
        exact Except.ok.inj h
      cases hus : Text.ofUnits? vs with
      | some s =>
          simp only [Entry.ofUnits, hus, Entry.encoded, Text.ModifiedUtf8.encodeString,
            Text.units_of_ofUnits? hus]
      | none => simp only [Entry.ofUnits, hus, Entry.encoded]
  | other e =>
      cases e with
      | utf8 _ | utf16 _ => cases proper
      | _ => rfl

end EncodedEntry

namespace Pool

open EncodedEntry (Decodes)

/-- What reading a pool does, and which encoded entries it went over. -/
theorem readEntries_eq_ok {declared steps : Nat} {p p' : Pool} {c c' : Cursor}
    (h : readEntries declared steps p c = .ok (p', c')) :
    ∃ vs es, EncodedEntry.readAll declared steps p.size c = .ok (vs, c') ∧
      p' = es.foldl push p ∧ List.Forall₂ Decodes vs es ∧ (∀ v ∈ vs, v.Proper) ∧
        c.Passed (vs.flatMap EncodedEntry.bytes) c' := by
  induction steps generalizing p c with
  | zero =>
      obtain ⟨rfl, rfl⟩ := Read.pure_eq_ok.mp h
      exact ⟨[], [], rfl, rfl, .nil, by simp, .nil _⟩
  | succ steps ih =>
      rw [readEntries] at h
      split at h
      · rename_i hroom
        dsimp only at h
        split at h
        · cases h
        · rename_i e d he
          obtain ⟨v, hv, hve⟩ := Entry.read_eq_ok.mp he
          obtain ⟨vs, es, hvs, rfl, hdecodes, hproper, hc⟩ := ih h
          have hbytes := EncodedEntry.read_eq_ok.mp hv
          refine ⟨v :: vs, e :: es, ?_, rfl, .cons hve hdecodes, ?_, hbytes.2.trans hc⟩
          · rw [EncodedEntry.readAll, if_pos hroom]
            rw [size_push, hve.width] at hvs
            simp only [Read.bind_eq_ok, Read.pure_eq_ok]
            exact ⟨v, d, hv, vs, c', hvs, rfl, rfl⟩
          · intro v' hv'
            rcases List.mem_cons.mp hv' with rfl | hv'
            · exact hbytes.1
            · exact hproper v' hv'
      · rename_i hfull
        obtain ⟨rfl, rfl⟩ := Read.pure_eq_ok.mp h
        refine ⟨[], [], ?_, rfl, .nil, by simp, .nil _⟩
        rw [EncodedEntry.readAll, if_neg hfull]
        rfl

theorem read_eq_ok {p : Pool} {c c' : Cursor} (h : read c = .ok (p, c')) :
    ∃ vs es, EncodedEntry.readPool c = .ok (vs, c') ∧ p = ofEntries es ∧
      List.Forall₂ Decodes vs es ∧ (∀ v ∈ vs, v.Proper) ∧ p.size ≤ maxSlots ∧
        c.Passed (ofUInt16 (UInt16.ofNat p.size) ++ vs.flatMap EncodedEntry.bytes) c' := by
  simp only [read, Read.bind_eq_ok, Read.word16_eq_ok] at h
  obtain ⟨declared, d, hd, p', d', hread, h⟩ := h
  split at h
  · rename_i hsize
    obtain ⟨rfl, rfl⟩ := Read.pure_eq_ok.mp h
    obtain ⟨vs, es, hvs, rfl, hdecodes, hproper, hc⟩ := readEntries_eq_ok hread
    have hlt := declared.toNat_lt
    rw [beq_iff_eq] at hsize
    refine ⟨vs, es, ?_, rfl, hdecodes, hproper, ?_, ?_⟩
    · simp only [EncodedEntry.readPool, Read.bind_eq_ok, Read.word16_eq_ok]
      exact ⟨declared, d, hd, hvs⟩
    · rw [hsize]
      exact Nat.le_of_lt_succ hlt
    · rw [hsize, UInt16.ofNat_toNat]
      exact hd.trans hc
  · rw [Read.fail_eq_ok] at h
    exact h.elim

theorem wellFormed_of_read {p : Pool} {c c' : Cursor} (h : read c = .ok (p, c')) :
    p.WellFormed := by
  obtain ⟨vs, es, -, rfl, hdecodes, hproper, hsize, -⟩ := read_eq_ok h
  refine ⟨⟨es, rfl, ?_⟩, hsize⟩
  intro e he
  obtain ⟨v, hv, hve⟩ := forall₂_mem_right hdecodes he
  exact hve.sound (hproper v hv)

/-- A pool of different entries with texts in shortest form is written as it was read. -/
theorem canonical_of_read {p : Pool} {c c' : Cursor} (h : read c = .ok (p, c')) :
    ∃ vs, EncodedEntry.readPool c = .ok (vs, c') ∧
      (vs.Nodup → (∀ v ∈ vs, v.Shortest) → p.Canonical ∧ c.Passed p.bytes c') := by
  obtain ⟨vs, es, hvs, rfl, hdecodes, hproper, hsize, hc⟩ := read_eq_ok h
  refine ⟨vs, hvs, fun hnodup hshortest => ?_⟩
  have hencoded : vs = es.map Entry.encoded := by
    have hall : List.Forall₂ (fun v e => v = Entry.encoded e) vs es :=
      forall₂_imp_mem hdecodes fun v hv e hve => hve.eq_encoded (hproper v hv) (hshortest v hv)
    exact List.forall₂_eq_eq_eq ▸ List.forall₂_map_right_iff.mpr hall
  subst hencoded
  have hes : es.Nodup :=
    List.Pairwise.of_map Entry.encoded (fun _ _ hne heq => hne (congrArg _ heq)) hnodup
  refine ⟨canonical_ofEntries ?_ hes hsize, ?_⟩
  · intro e he
    obtain ⟨v, hv, hve⟩ := forall₂_mem_right hdecodes he
    exact ⟨hve.sound (hproper v hv), Entry.fits_of_proper (hproper _ (List.mem_map_of_mem he))⟩
  · rw [bytes_ofEntries]
    rw [List.flatMap_map] at hc
    simpa only [Entry.bytes_encoded] using hc

end Pool

end ClassFile
