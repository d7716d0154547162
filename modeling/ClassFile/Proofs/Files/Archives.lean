import ClassFile.Files.Archive.Opening
import ClassFile.Files.Archive.Packing
import ClassFile.Proofs.Utf8
import Mathlib.Data.List.Nodup
/-!
# Archives that were made are opened

Opening an archive gives the files that went into it, with their names and bytes, as long as their numbers fit the
fields of the format. A reader starts at the end: it has to find the last record there and not something in it that
looks like one (§3), go from there to the directory, and from each entry of the directory to the header of its file (§2).

§1 is about the places of parts in a byte string, §4 is the archive as a whole.
-/

namespace ClassFile.Files.Archive

/-! ## §1  Places -/

/-- A part stands at an offset of a byte string. -/
def Stands (part : Bytes) (offset : Nat) (bytes : Bytes) : Prop :=
  ∃ front behind, bytes = front ++ (part ++ behind) ∧ front.length = offset

section Places

variable {bytes p a b : Bytes} {parts : List Bytes} {offset : Nat}

theorem Stands.append (h : Stands (a ++ b) offset bytes) :
    Stands a offset bytes ∧ Stands b (offset + a.length) bytes := by
  obtain ⟨front, behind, rfl, rfl⟩ := h
  refine ⟨⟨front, b ++ behind, ?_, rfl⟩, ⟨front ++ a, behind, ?_, List.length_append⟩⟩
  · rw [List.append_assoc]
  · rw [List.append_assoc, List.append_assoc]

theorem Stands.part (h : Stands parts.flatten offset bytes) (i : Nat) (hi : parts[i]? = some p) {place : Nat}
    (hplace : (parts.take i).flatten.length = place) : Stands p (offset + place) bytes := by
  obtain ⟨hlt, hpart⟩ := List.getElem?_eq_some_iff.mp hi
  rw [← List.take_append_drop i parts, List.drop_eq_getElem_cons hlt, hpart, List.flatten_append,
    List.flatten_cons] at h
  exact hplace ▸ (h.append.2.append).1

theorem piece_toArray (bytes : Bytes) (offset size : Nat) :
    piece bytes.toArray offset size = (bytes.drop offset).take size := by
  rw [piece, List.extract_toArray, List.extract_eq_take_drop, Nat.add_sub_cancel_left]

theorem Stands.piece (h : Stands p offset bytes) : piece bytes.toArray offset p.length = p := by
  obtain ⟨front, behind, rfl, rfl⟩ := h
  rw [piece_toArray, List.drop_left, List.take_left]

theorem Stands.prefix_drop (h : Stands p offset bytes) : p <+: bytes.drop offset := by
  obtain ⟨front, behind, rfl, rfl⟩ := h
  exact ⟨behind, by rw [List.drop_left]⟩

theorem Stands.length_le (h : Stands p offset bytes) : offset + p.length ≤ bytes.length := by
  obtain ⟨front, behind, rfl, rfl⟩ := h
  rw [List.length_append, List.length_append]
  omega

theorem ofLittleEndian_toLittleEndian (width n : Nat) : ofLittleEndian (toLittleEndian width n) = n % 256 ^ width := by
  induction width generalizing n with
  | zero => rw [Nat.pow_zero, Nat.mod_one]; rfl
  | succ width ih =>
      have hbyte : (UInt8.ofNat n).toNat = n % 256 := rfl
      show ofLittleEndian (toLittleEndian width (n / 256)) * 256 + (UInt8.ofNat n).toNat = _
      rw [ih, hbyte, Nat.pow_succ', Nat.mod_mul]
      omega

theorem Stands.numberAt {width n : Nat} (h : Stands (toLittleEndian width n) offset bytes) (hn : n < 256 ^ width) :
    numberAt bytes.toArray offset width = n := by
  have hpiece := h.piece
  rw [length_toLittleEndian] at hpiece
  rw [Archive.numberAt, hpiece, ofLittleEndian_toLittleEndian, Nat.mod_eq_of_lt hn]

theorem Stands.hasPart {signature rest : Bytes} {size : Nat} (h : Stands (signature ++ rest) offset bytes)
    (hsize : size ≤ (signature ++ rest).length) : hasPart bytes.toArray signature offset size = true := by
  have hlength := h.length_le
  rw [Archive.hasPart, h.append.1.piece, beq_self_eq_true, Bool.and_true, decide_eq_true_eq, List.size_toArray]
  omega

end Places

/-! ## §2  Files -/

/-- The entry of a file whose header is at `offset`, as it is read. -/
def Packed.described (f : Packed) (offset : Nat) : Entry where
  name := f.name
  locked := false
  method := storedMethod
  checksum := Checksum.ofBytes f.bytes
  size := f.bytes.length
  offset := offset

namespace Packed

/-- The flags of a file say how its name is encoded. -/
def flags (f : Packed) : Nat :=
  if f.nameBytes.all (· < 0x80) then 0 else utf8Flag

/-- The fields that a file's header and its entry share, one by one. -/
def shared (f : Packed) : List Bytes :=
  [toLittleEndian 2 20, toLittleEndian 2 f.flags, toLittleEndian 2 storedMethod, toLittleEndian 2 0,
    toLittleEndian 2 0x0021, toLittleEndian 4 (Checksum.ofBytes f.bytes).toNat, toLittleEndian 4 f.bytes.length,
    toLittleEndian 4 f.bytes.length, toLittleEndian 2 f.nameBytes.length, toLittleEndian 2 0]

variable {f : Packed} {bytes : Bytes} {here offset : Nat}

theorem sharedFields_eq (f : Packed) : f.sharedFields = f.shared.flatten := by
  simp [sharedFields, shared, flags]

theorem record_eq (f : Packed) :
    f.record = ([fileSignature] ++ f.shared ++ [f.nameBytes, f.bytes]).flatten := by
  simp [record, sharedFields_eq]

theorem entry_eq (f : Packed) (offset : Nat) : f.entry offset =
    ([entrySignature, toLittleEndian 2 20] ++ f.shared ++ [toLittleEndian 2 0, toLittleEndian 2 0, toLittleEndian 2 0,
      toLittleEndian 4 0, toLittleEndian 4 offset, f.nameBytes]).flatten := by
  simp [entry, sharedFields_eq]

theorem length_record (f : Packed) : f.record.length = fileHeaderSize + f.nameBytes.length + f.bytes.length := by
  simp [record_eq, shared, fileSignature, fileHeaderSize]
  omega

theorem length_entry (f : Packed) (offset : Nat) : (f.entry offset).length = entrySize + f.nameBytes.length := by
  simp [entry_eq, shared, entrySignature, entrySize]
  omega

/-- The name of a file is read as it was written, in either encoding. -/
theorem textOf_nameBytes (f : Packed) : textOf f.flags f.nameBytes = f.name := by
  rw [textOf, flags]
  by_cases hsingle : f.nameBytes.all (· < 0x80) = true
  · have hbytes : ∀ b ∈ f.nameBytes, b < 0x80 := by simpa using hsingle
    rw [if_pos hsingle]
    exact (Text.Utf8.decode_single hbytes).trans (Text.Utf8.decode_toUTF8 f.name)
  · rw [if_neg hsingle]
    exact Text.Utf8.decode_toUTF8 f.name

/-- The numbers of a file whose header is at `offset` fit their fields. -/
structure Fits (f : Packed) (offset : Nat) : Prop where
  name : f.nameBytes.length < 65536
  size : f.bytes.length < 4294967296
  offset : offset < 4294967296

theorem flags_cases (f : Packed) : f.flags = 0 ∨ f.flags = utf8Flag := by
  rw [flags]
  split
  · exact .inl rfl
  · exact .inr rfl

theorem flags_lt (f : Packed) : f.flags < 65536 := by
  rcases f.flags_cases with h | h <;> rw [h] <;> decide

theorem flags_unlocked (f : Packed) : (f.flags &&& lockedFlag != 0) = false := by
  rcases f.flags_cases with h | h <;> rw [h] <;> decide

theorem piece_zero (bytes : Bytes) (offset : Nat) : piece bytes.toArray offset 0 = [] := by
  rw [piece_toArray, List.take_zero]

/-- Without extra fields an entry says all itself. -/
theorem amended?_nil (d : Description) : d.amended? [] = some d :=
  rfl

/-- An entry is read as it was written. -/
theorem entryAt?_of_stands (fits : f.Fits offset) (h : Stands (f.entry offset) here bytes) :
    entryAt? bytes.toArray 0 here = some (f.described offset, here + (f.entry offset).length) := by
  have hend := h.length_le
  rw [length_entry] at hend ⊢
  rw [entry_eq] at h
  have hsignature : hasPart bytes.toArray entrySignature here entrySize = true := by
    refine Stands.hasPart (show Stands (entrySignature ++ _) here bytes from h) ?_
    have hlength := f.length_entry offset
    rw [entry_eq] at hlength
    exact Nat.le_trans (Nat.le_add_right entrySize _) hlength.ge
  have hflags : numberAt bytes.toArray (here + 8) 2 = f.flags := (h.part 3 rfl rfl).numberAt f.flags_lt
  have hmethod : numberAt bytes.toArray (here + 10) 2 = storedMethod := (h.part 4 rfl rfl).numberAt (by decide)
  have hchecksum : numberAt bytes.toArray (here + 16) 4 = (Checksum.ofBytes f.bytes).toNat :=
    (h.part 7 rfl rfl).numberAt (Checksum.ofBytes f.bytes).toNat_lt
  have hsize : numberAt bytes.toArray (here + 20) 4 = f.bytes.length := (h.part 8 rfl rfl).numberAt fits.size
  have hfull : numberAt bytes.toArray (here + 24) 4 = f.bytes.length := (h.part 9 rfl rfl).numberAt fits.size
  have hname : numberAt bytes.toArray (here + 28) 2 = f.nameBytes.length := (h.part 10 rfl rfl).numberAt fits.name
  have hfields : numberAt bytes.toArray (here + 30) 2 = 0 := (h.part 11 rfl rfl).numberAt (by decide)
  have hcomment : numberAt bytes.toArray (here + 32) 2 = 0 := (h.part 12 rfl rfl).numberAt (by decide)
  have hoffset : numberAt bytes.toArray (here + 42) 4 = offset := (h.part 16 rfl rfl).numberAt fits.offset
  have hnameBytes : piece bytes.toArray (here + entrySize) f.nameBytes.length = f.nameBytes :=
    (h.part 17 rfl rfl).piece
  have hstop : here + entrySize + f.nameBytes.length ≤ bytes.length := by omega
  simp only [entryAt?, hsignature, hflags, hmethod, hchecksum, hsize, hfull, hname, hfields, hcomment, hoffset,
    hnameBytes, piece_zero, Nat.add_zero, f.textOf_nameBytes, f.flags_unlocked, List.size_toArray, hstop,
    decide_true, Bool.and_self, if_true, amended?_nil]
  have hplace : (storedMethod == lockedMethod && !false || decide (placeBound ≤ 0 + offset)) = false := by
    have hoffset := fits.offset
    rw [Nat.zero_add, decide_eq_false (by rw [placeBound]; omega)]
    rfl
  rw [hplace, if_neg Bool.false_ne_true, UInt32.ofNat_toNat, Nat.zero_add, Nat.add_assoc]
  rfl

/-- The bytes of a file are found behind its header, whose place the entry gives. -/
theorem content?_of_stands (fits : f.Fits offset) (h : Stands f.record offset bytes) (entries : List Entry) :
    (⟨bytes.toArray, entries⟩ : Archive).content? (f.described offset) = some f.bytes := by
  have hlength := f.length_record
  rw [record_eq] at h hlength
  have hsignature : hasPart bytes.toArray fileSignature offset fileHeaderSize = true := by
    refine Stands.hasPart (show Stands (fileSignature ++ _) offset bytes from h) ?_
    exact Nat.le_trans (by omega) hlength.ge
  have hname : numberAt bytes.toArray (offset + 26) 2 = f.nameBytes.length := (h.part 9 rfl rfl).numberAt fits.name
  have hfields : numberAt bytes.toArray (offset + 28) 2 = 0 := (h.part 10 rfl rfl).numberAt (by decide)
  have hbytes : piece bytes.toArray (offset + fileHeaderSize + f.nameBytes.length) f.bytes.length = f.bytes := by
    rw [Nat.add_assoc]
    refine (h.part 12 rfl ?_).piece
    simp [shared, fileSignature, fileHeaderSize]
    omega
  have hopen : (⟨bytes.toArray, entries⟩ : Archive).canOpen (f.described offset) = true := by
    rw [canOpen]
    exact Bool.and_eq_true_iff.mpr ⟨rfl, hsignature⟩
  rw [described] at hopen ⊢
  simp only [content?, hopen, hname, hfields, Nat.add_zero, hbytes, beq_self_eq_true, Bool.and_self, if_true]

end Packed

/-- The entries of files of which the first one has its header at `offset`, as they are read. -/
def describedFrom : (offset : Nat) → List Packed → List Entry
  | _, [] => []
  | offset, f :: more => f.described offset :: describedFrom (offset + f.record.length) more

/-- The numbers of an archive fit their fields, and none is the mark of one that does not. -/
structure Fits (files : List Packed) : Prop where
  count : files.length < countMark
  names : ∀ f ∈ files, f.nameBytes.length < 65536
  size : (files.flatMap Packed.record).length < sizeMark

section Files

variable {files : List Packed} {bytes : Bytes} {offset here : Nat}

/-- Files whose headers lie below the mark have numbers that fit. -/
theorem Packed.fits_of_room {f : Packed} {more : List Packed} (names : ∀ g ∈ f :: more, g.nameBytes.length < 65536)
    (room : offset + ((f :: more).flatMap Packed.record).length < sizeMark) : f.Fits offset where
  name := names f List.mem_cons_self
  size := by
    rw [List.flatMap_cons, List.length_append, f.length_record, sizeMark] at room
    omega
  offset := by
    rw [sizeMark] at room
    omega

theorem room_tail {f : Packed} {more : List Packed}
    (room : offset + ((f :: more).flatMap Packed.record).length < sizeMark) :
    offset + f.record.length + (more.flatMap Packed.record).length < sizeMark := by
  rw [List.flatMap_cons, List.length_append] at room
  omega

/-- A directory is read as it was written. -/
theorem entriesFrom?_of_stands (names : ∀ f ∈ files, f.nameBytes.length < 65536)
    (room : offset + (files.flatMap Packed.record).length < sizeMark)
    (h : Stands (directory offset files).flatten here bytes) (found : List Entry) :
    entriesFrom? bytes.toArray 0 files.length here found = some (found.reverse ++ describedFrom offset files) := by
  induction files generalizing offset here found with
  | nil => rw [describedFrom, List.append_nil]; rfl
  | cons f more ih =>
      obtain ⟨hentry, hmore⟩ := Stands.append (show Stands (f.entry offset ++ _) here bytes from h)
      have hread := Packed.entryAt?_of_stands (Packed.fits_of_room names room) hentry
      rw [List.length_cons, entriesFrom?, hread]
      dsimp only
      rw [ih (fun g hg => names g (List.mem_cons_of_mem _ hg)) (room_tail room) hmore, List.reverse_cons,
        List.append_assoc]
      rfl

theorem names_describedFrom (offset : Nat) (files : List Packed) :
    (describedFrom offset files).map Entry.name = files.map Packed.name := by
  induction files generalizing offset with
  | nil => rfl
  | cons f more ih =>
      rw [describedFrom, List.map_cons, List.map_cons, ih]
      rfl

/-- Each file of an archive is read as it was written. -/
theorem content?_describedFrom (names : ∀ f ∈ files, f.nameBytes.length < 65536)
    (room : offset + (files.flatMap Packed.record).length < sizeMark)
    (h : Stands (files.flatMap Packed.record) offset bytes) (entries : List Entry) :
    (describedFrom offset files).map (fun e => (e.name, (⟨bytes.toArray, entries⟩ : Archive).content? e)) =
      files.map fun f => (f.name, some f.bytes) := by
  induction files generalizing offset with
  | nil => rfl
  | cons f more ih =>
      obtain ⟨hrecord, hmore⟩ := Stands.append (show Stands (f.record ++ _) offset bytes from h)
      rw [describedFrom, List.map_cons, List.map_cons,
        ih (fun g hg => names g (List.mem_cons_of_mem _ hg)) (room_tail room) hmore,
        Packed.content?_of_stands (Packed.fits_of_room names room) hrecord]
      rfl

end Files

/-! ## §3  The record at the end -/

section Search

theorem placesFrom_found (signature : Bytes) (offset : Nat) (found : List Nat) (bytes : Bytes) :
    placesFrom signature offset found bytes = placesFrom signature offset [] bytes ++ found := by
  induction bytes generalizing offset found with
  | nil => rfl
  | cons b rest ih =>
      rw [placesFrom, placesFrom]
      by_cases hhere : signature.isPrefixOf (b :: rest) = true
      · rw [if_pos hhere, if_pos hhere, ih, ih (offset + 1) [offset], List.append_assoc]
        rfl
      · rw [if_neg hhere, if_neg hhere, ih]

theorem placesFrom_cons (signature : Bytes) (offset : Nat) (b : UInt8) (rest : Bytes) :
    placesFrom signature offset [] (b :: rest) = placesFrom signature (offset + 1) [] rest ++
      if signature.isPrefixOf (b :: rest) then [offset] else [] := by
  rw [placesFrom, placesFrom_found]

theorem mem_placesFrom {signature : Bytes} {offset x : Nat} {bytes : Bytes} :
    x ∈ placesFrom signature offset [] bytes ↔
      ∃ i < bytes.length, signature <+: bytes.drop i ∧ x = offset + i := by
  induction bytes generalizing offset with
  | nil => simp [placesFrom]
  | cons b rest ih =>
      rw [placesFrom_cons, List.mem_append, ih, List.length_cons, Nat.exists_lt_succ_left, or_comm]
      refine or_congr ?_ ?_
      · rw [List.drop_zero, ← List.isPrefixOf_iff_prefix]
        split
        · rename_i hhere
          rw [List.mem_singleton]
          exact ⟨fun h => ⟨hhere, h⟩, fun h => h.2⟩
        · rename_i hhere
          exact ⟨nofun, fun h => absurd h.1 hhere⟩
      · refine exists_congr fun i => and_congr_right fun _ => and_congr_right fun _ => ?_
        rw [Nat.add_assoc, Nat.add_comm 1 i]

/-- The last place comes first. -/
theorem placesFrom_sorted (signature : Bytes) (offset : Nat) (bytes : Bytes) :
    (placesFrom signature offset [] bytes).Pairwise (· > ·) := by
  induction bytes generalizing offset with
  | nil => exact .nil
  | cons b rest ih =>
      rw [placesFrom_cons, List.pairwise_append]
      refine ⟨ih _, by split <;> simp, fun x hx y hy => ?_⟩
      obtain ⟨i, -, -, rfl⟩ := mem_placesFrom.mp hx
      split at hy
      · obtain rfl := List.mem_singleton.mp hy
        omega
      · cases hy

variable {places : List Nat} {x : Nat}

/-- What is sought is found at the last place that has it. -/
theorem findSome?_of_last {α : Type} {f : Nat → Option α} {a : α} (sorted : places.Pairwise (· > ·)) (hx : x ∈ places)
    (hfx : f x = some a) (hlater : ∀ y ∈ places, x < y → f y = none) : places.findSome? f = some a := by
  induction places with
  | nil => cases hx
  | cons first more ih =>
      obtain ⟨hfirst, hmore⟩ := List.pairwise_cons.mp sorted
      rcases List.mem_cons.mp hx with rfl | hx
      · rw [List.findSome?_cons, hfx]
      · rw [List.findSome?_cons, hlater first List.mem_cons_self (hfirst x hx)]
        exact ih hmore hx fun y hy => hlater y (List.mem_cons_of_mem _ hy)

/-- A signature that stands at the start is found there first. -/
theorem head?_placesBetween {signature bytes : Bytes} {start stop : Nat} (hstop : stop ≤ bytes.length)
    (h : Stands signature start bytes) (hsignature : signature ≠ []) (hend : start + signature.length ≤ stop) :
    (placesBetween bytes.toArray signature start stop).head? = some start := by
  obtain ⟨front, behind, rfl, rfl⟩ := h
  have hpiece : piece (front ++ (signature ++ behind)).toArray front.length (stop - front.length) =
      signature ++ behind.take (stop - front.length - signature.length) := by
    rw [piece_toArray, List.drop_left, List.take_append, List.take_of_length_le (by omega)]
  rw [placesBetween, hpiece, List.head?_reverse]
  obtain ⟨b, rest, rfl⟩ := List.exists_cons_of_ne_nil hsignature
  rw [List.cons_append, placesFrom_cons, if_pos (List.isPrefixOf_iff_prefix.mpr ⟨_, List.cons_append⟩),
    List.getLast?_concat]

end Search

/-! ## §4  Archives -/

section Entries

variable {entries : List Entry}

theorem nodup_lastOfEachName (entries : List Entry) : ((lastOfEachName entries).map Entry.name).Nodup := by
  induction entries with
  | nil => exact List.nodup_nil
  | cons first more ih =>
      change ((if (lastOfEachName more).any (·.name == first.name) then lastOfEachName more
        else first :: lastOfEachName more).map Entry.name).Nodup
      split
      · exact ih
      · rename_i hfirst
        refine List.nodup_cons.mpr ⟨fun hmem => hfirst ?_, ih⟩
        obtain ⟨e, he, hname⟩ := List.mem_map.mp hmem
        exact List.any_eq_true.mpr ⟨e, he, beq_iff_eq.mpr hname⟩

theorem lastOfEachName_eq_self (h : (entries.map Entry.name).Nodup) : lastOfEachName entries = entries := by
  induction entries with
  | nil => rfl
  | cons first more ih =>
      obtain ⟨hfirst, hmore⟩ := List.nodup_cons.mp h
      change (if (lastOfEachName more).any (·.name == first.name) then lastOfEachName more
        else first :: lastOfEachName more) = first :: more
      rw [ih hmore, if_neg]
      intro hany
      obtain ⟨e, he, hname⟩ := List.any_eq_true.mp hany
      exact hfirst (List.mem_map.mpr ⟨e, he, eq_of_beq hname⟩)

/-- No two entries of an archive that was opened have the same name. -/
theorem nodup_names {contents : Bytes} {a : Archive} (h : ofBytes? contents = some a) :
    (a.entries.map Entry.name).Nodup := by
  obtain ⟨entries, hentries, rfl⟩ := Option.map_eq_some_iff.mp h
  obtain ⟨all, -, rfl⟩ := Option.map_eq_some_iff.mp hentries
  exact nodup_lastOfEachName all

/-- A file whose bytes can be read can be opened. -/
theorem canOpen_of_content? {a : Archive} {e : Entry} {bytes : Bytes} (h : a.content? e = some bytes) :
    a.canOpen e = true := by
  rw [content?] at h
  split at h
  · rename_i hopen
    exact (Bool.and_eq_true_iff.mp (Bool.and_eq_true_iff.mp hopen).1).1
  · cases h

theorem entry?_eq_some {a : Archive} (unique : (a.entries.map Entry.name).Nodup) {name : String} {e : Entry} :
    a.entry? name = some e ↔ e ∈ a.entries ∧ e.name = name := by
  unfold entry?
  constructor
  · intro h
    exact ⟨List.mem_of_find?_eq_some h, by simpa using List.find?_some h⟩
  · rintro ⟨he, rfl⟩
    cases hfound : a.entries.find? fun other => other.name == e.name with
    | none => exact absurd (List.find?_eq_none.mp hfound e he) (by simp)
    | some other =>
        have hname : other.name = e.name := by simpa using List.find?_some hfound
        rw [List.inj_on_of_nodup_map unique (List.mem_of_find?_eq_some hfound) he hname]

end Entries

section Pack

variable {files : List Packed}

/-- Where the record at the end of an archive is. -/
def endPlace (files : List Packed) : Nat :=
  (files.flatMap Packed.record).length + (directory 0 files).flatten.length

theorem stands_pack (files : List Packed) :
    Stands (files.flatMap Packed.record) 0 (pack files) ∧
      Stands (directory 0 files).flatten (files.flatMap Packed.record).length (pack files) ∧
        Stands (endRecord files.length (directory 0 files).flatten.length (files.flatMap Packed.record).length)
          (endPlace files) (pack files) := by
  have hall : Stands (pack files) 0 (pack files) := ⟨[], [], by simp, rfl⟩
  obtain ⟨hfront, hend⟩ := Stands.append (show Stands (_ ++ _ ++ _) 0 (pack files) from hall)
  obtain ⟨hrecords, hentries⟩ := hfront.append
  rw [Nat.zero_add] at hentries hend
  rw [List.length_append] at hend
  exact ⟨hrecords, hentries, hend⟩

theorem endRecord_eq (count size offset : Nat) : endRecord count size offset =
    [endSignature, toLittleEndian 2 0, toLittleEndian 2 0, toLittleEndian 2 count, toLittleEndian 2 count,
      toLittleEndian 4 size, toLittleEndian 4 offset, toLittleEndian 2 0].flatten := by
  simp [endRecord]

theorem length_endRecord (count size offset : Nat) : (endRecord count size offset).length = endSize := by
  simp [endRecord_eq, endSignature, endSize]

theorem length_pack (files : List Packed) : (pack files).length = endPlace files + endSize := by
  rw [pack, List.length_append, List.length_append, length_endRecord]
  rfl

theorem endRecordAt?_pack (fits : Fits files) : endRecordAt? (pack files).toArray (endPlace files) =
    some ⟨0, 0, files.length, files.length, (files.flatMap Packed.record).length⟩ := by
  have hcount := fits.count
  have hsize := fits.size
  rw [countMark] at hcount
  rw [sizeMark] at hsize
  have h := (stands_pack files).2.2
  have hlength := length_endRecord files.length (directory 0 files).flatten.length (files.flatMap Packed.record).length
  rw [endRecord_eq] at h hlength
  have hsignature : hasPart (pack files).toArray endSignature (endPlace files) endSize = true :=
    Stands.hasPart (show Stands (endSignature ++ _) _ _ from h) hlength.ge
  have hpart : numberAt (pack files).toArray (endPlace files + 4) 2 = 0 := (h.part 1 rfl rfl).numberAt (by decide)
  have hdirectory : numberAt (pack files).toArray (endPlace files + 6) 2 = 0 := (h.part 2 rfl rfl).numberAt (by decide)
  have hhere : numberAt (pack files).toArray (endPlace files + 8) 2 = files.length :=
    (h.part 3 rfl rfl).numberAt (by omega)
  have hall : numberAt (pack files).toArray (endPlace files + 10) 2 = files.length :=
    (h.part 4 rfl rfl).numberAt (by omega)
  have hstart : numberAt (pack files).toArray (endPlace files + 16) 4 = (files.flatMap Packed.record).length :=
    (h.part 6 rfl rfl).numberAt (by omega)
  have hcomment : numberAt (pack files).toArray (endPlace files + 20) 2 = 0 := (h.part 7 rfl rfl).numberAt (by decide)
  simp only [endRecordAt?, hpart, hdirectory, hhere, hall, hstart, hcomment, Nat.add_zero, hsignature, if_true]

/-- Only a record that is whole counts, so none is found behind the true one. -/
theorem entriesAt?_of_lt {x : Nat} (h : endPlace files < x) : entriesAt? (pack files).toArray x = none := by
  generalize hcomment : numberAt (pack files).toArray (x + 20) 2 = comment
  have hlt : ¬x + (endSize + comment) ≤ endPlace files + endSize := by omega
  have hsignature : hasPart (pack files).toArray endSignature x (endSize + comment) = false := by
    rw [hasPart, List.size_toArray, length_pack, decide_eq_false hlt, Bool.false_and]
  have hrecord : endRecordAt? (pack files).toArray x = none := by
    simp only [endRecordAt?, hcomment, hsignature, Bool.false_eq_true, if_false]
  unfold entriesAt? directoryAt?
  rw [hrecord]

theorem directoryAt?_pack (fits : Fits files) : directoryAt? (pack files).toArray (endPlace files) =
    some ⟨0, (files.flatMap Packed.record).length, files.length⟩ := by
  have hcount : (files.length == countMark) = false := beq_false_of_ne (Nat.ne_of_lt fits.count)
  have hsize : ((files.flatMap Packed.record).length == sizeMark) = false := beq_false_of_ne (Nat.ne_of_lt fits.size)
  have hwide : EndRecord.mayBeWide ⟨0, 0, files.length, files.length, (files.flatMap Packed.record).length⟩ = false := by
    rw [EndRecord.mayBeWide, hcount, hsize]
    rfl
  unfold directoryAt?
  rw [endRecordAt?_pack fits]
  dsimp only
  rw [hwide, if_neg Bool.false_ne_true]
  dsimp only
  rw [EndRecord.directory?]
  cases files with
  | nil => rfl
  | cons f more =>
      -- The directory starts with the entry of the first file.
      obtain ⟨hentry, -⟩ := Stands.append (show Stands (f.entry 0 ++ _) _ _ from (stands_pack (f :: more)).2.1)
      have hlength : ((f :: more).flatMap Packed.record).length + (f.entry 0).length ≤ endPlace (f :: more) :=
        Nat.add_le_add_left (by rw [directory, List.flatten_cons, List.length_append]; exact Nat.le_add_right _ _) _
      have hentry' : 4 ≤ (f.entry 0).length := by
        rw [f.length_entry, entrySize]
        omega
      rw [Packed.entry_eq] at hentry
      obtain ⟨hsignature, -⟩ := Stands.append (show Stands (entrySignature ++ _) _ _ from hentry)
      have hhead := head?_placesBetween (length_pack (f :: more) ▸ Nat.le_add_right _ _) hsignature nofun
        (Nat.le_trans (Nat.add_le_add_left hentry' _) hlength)
      rw [if_neg (by simp), hhead]
      simp

/-- **What was packed is opened.** An archive whose numbers fit their fields is opened with the files that it was made of:
their names, each once and in the same order, and their bytes. -/
theorem ofBytes?_pack (fits : Fits files) (distinct : (files.map Packed.name).Nodup) :
    ∃ a, ofBytes? (pack files) = some a ∧
      a.entries.map (fun e => (e.name, a.content? e)) = files.map fun f => (f.name, some f.bytes) := by
  obtain ⟨hrecords, hdirectory, hend⟩ := stands_pack files
  have hread : entriesAt? (pack files).toArray (endPlace files) = some (describedFrom 0 files) := by
    unfold entriesAt?
    rw [directoryAt?_pack fits]
    exact entriesFrom?_of_stands fits.names (by rw [Nat.zero_add]; exact fits.size) hdirectory []
  have hplace : endPlace files ∈ placesFrom endSignature 0 [] (pack files) := by
    obtain ⟨hsignature, -⟩ := Stands.append (show Stands (endSignature ++ _) _ _ from endRecord_eq .. ▸ hend)
    refine mem_placesFrom.mpr ⟨endPlace files, ?_, hsignature.prefix_drop, (Nat.zero_add _).symm⟩
    rw [length_pack]
    exact Nat.lt_add_of_pos_right (by decide)
  have hfound := findSome?_of_last (placesFrom_sorted endSignature 0 (pack files)) hplace hread
    fun y _ hy => entriesAt?_of_lt hy
  have hkept : lastOfEachName (describedFrom 0 files) = describedFrom 0 files :=
    lastOfEachName_eq_self (by rwa [names_describedFrom])
  refine ⟨⟨(pack files).toArray, describedFrom 0 files⟩, ?_, ?_⟩
  · rw [ofBytes?, entries?, hfound, Option.map_some, Option.map_some, hkept]
  · exact content?_describedFrom fits.names (by rw [Nat.zero_add]; exact fits.size) hrecords _

end Pack

end ClassFile.Files.Archive
