import ClassFile.Proofs.Record.CanonicalFiles
/-!
# Where a class file ends

A class file says itself how long it is: counts and lengths stand in front of what they count, and a reader decides what
comes next by what it has read. So no file is the front of another one. A file that is cut short runs out of bytes where
the rest was, and bytes behind the end are left over.

`Read.Delimited` says this of one reader: whatever it consumed, it consumes again with anything else behind, and it runs
out on every shorter part. The property passes from the steps of a reader to the reader (§1), so it holds of every part
of a class file (§2) and of the file (§3). Bodies of attributes do not come into it. They are taken as a whole, and what
is made of them depends on those bytes alone, also where the alignment of a switch skips bytes that are not there.
-/

namespace ClassFile

namespace Read

variable {α β : Type}

/-! ## §1  Delimited readers -/

/-- The bytes are used up before the value is complete. -/
def RunsOut (r : Read α) (c : Cursor) : Prop :=
  ∃ m, r c = .error m ∧ m.cause = .outOfBounds

/-- At offset `o` the value `a` stands in the bytes `bs`: they are consumed whatever follows, and all of them are
needed. -/
structure Spans (r : Read α) (o : Nat) (bs : Bytes) (a : α) : Prop where
  takes : r.Takes o bs a
  runsOut : ∀ front, front <+: bs → front ≠ bs → r.RunsOut ⟨o, front⟩

/-- Every value that the reader gives stands in the bytes that were consumed. -/
class Delimited (r : Read α) : Prop where
  spans : ∀ {c c' a}, r c = .ok (a, c') → ∃ bs, c.Passed bs c' ∧ r.Spans c.offset bs a

theorem runsOut_outOfBounds {r : Read α} {c : Cursor} (h : r c = Malformed.fail .outOfBounds) : r.RunsOut c :=
  ⟨_, h, rfl⟩

theorem RunsOut.bind {x : Read α} {c : Cursor} (h : x.RunsOut c) (f : α → Read β) : (x >>= f).RunsOut c := by
  obtain ⟨m, hm, hcause⟩ := h
  refine ⟨m, ?_, hcause⟩
  show StateT.bind x f c = _
  rw [StateT.bind, hm]
  rfl

theorem RunsOut.of_next {x : Read α} {f : α → Read β} {c d : Cursor} {a : α} (hx : x c = .ok (a, d))
    (h : (f a).RunsOut d) : (x >>= f).RunsOut c := by
  obtain ⟨m, hm, hcause⟩ := h
  refine ⟨m, ?_, hcause⟩
  show StateT.bind x f c = _
  rw [StateT.bind, hx]
  exact hm

theorem RunsOut.within {r : Read α} {c : Cursor} (h : r.RunsOut c) (place : Malformed.Place) :
    (Read.within place r).RunsOut c := by
  obtain ⟨m, hm, hcause⟩ := h
  exact ⟨m.within place, by rw [Read.within, hm]; rfl, hcause⟩

theorem length_lt_of_front {front bs : Bytes} (h : front <+: bs) (hne : front ≠ bs) :
    front.length < bs.length :=
  Nat.lt_of_le_of_ne h.length_le fun hlength => hne (h.eq_of_length hlength)

/-- A value without bytes. -/
theorem spans_nil {r : Read α} {a : α} (h : ∀ c, r c = .ok (a, c)) (o : Nat) : r.Spans o [] a where
  takes {c c'} _ hc := by
    rw [Cursor.passed_nil_iff.mp hc]
    exact h c
  runsOut _ hfront hne := (hne (List.prefix_nil.mp hfront)).elim

instance delimited_pure (a : α) : Delimited (pure a : Read α) where
  spans {c c' b} h := by
    obtain ⟨rfl, rfl⟩ := pure_eq_ok.mp h
    exact ⟨[], .nil c, spans_nil (fun _ => rfl) _⟩

instance delimited_lift (x : Except Malformed α) : Delimited (liftM x : Read α) where
  spans {c c' a} h := by
    obtain ⟨rfl, rfl⟩ := lift_eq_ok.mp h
    exact ⟨[], .nil c, spans_nil (fun _ => rfl) _⟩

instance delimited_fail (cause : Malformed.Cause) : Delimited (fail cause : Read α) where
  spans h := (fail_eq_ok.mp h).elim

/-- The bytes of two steps one after the other. If they are cut, either the first step runs out or the second one. -/
theorem Spans.bind {x : Read α} {f : α → Read β} {o : Nat} {bs cs : Bytes} {a : α} {b : β}
    (hx : x.Spans o bs a) (hf : (f a).Spans (o + bs.length) cs b) : (x >>= f).Spans o (bs ++ cs) b where
  takes := Takes.bind hx.takes hf.takes
  runsOut front hfront hne := by
    by_cases hcut : front <+: bs ∧ front ≠ bs
    · exact (hx.runsOut front hcut.1 hcut.2).bind f
    -- What is left of the bytes then holds those of the first step.
    have hbs : bs <+: front := by
      rcases List.prefix_or_prefix_of_prefix hfront (List.prefix_append bs cs) with h | h
      · obtain rfl : front = bs := by
          by_contra hfrontne
          exact hcut ⟨h, hfrontne⟩
        exact List.prefix_refl front
      · exact h
    obtain ⟨rest, rfl⟩ := hbs
    have hfirst : x ⟨o, bs ++ rest⟩ = .ok (a, ⟨o + bs.length, rest⟩) := hx.takes rfl ⟨rfl, rfl⟩
    refine .of_next hfirst (hf.runsOut rest ((List.prefix_append_right_inj bs).mp hfront) ?_)
    rintro rfl
    exact hne rfl

instance delimited_bind (x : Read α) (f : α → Read β) [hx : Delimited x] [hf : ∀ a, Delimited (f a)] :
    Delimited (x >>= f) where
  spans {c c' b} h := by
    obtain ⟨a, d, hd, h⟩ := bind_eq_ok.mp h
    obtain ⟨bs, hbs, hspans⟩ := hx.spans hd
    obtain ⟨cs, hcs, hspans'⟩ := (hf a).spans h
    rw [hbs.offset] at hspans'
    exact ⟨bs ++ cs, hbs.trans hcs, hspans.bind hspans'⟩

instance delimited_within (place : Malformed.Place) (r : Read α) [hr : Delimited r] :
    Delimited (within place r) where
  spans {c c' a} h := by
    obtain ⟨bs, hbs, hspans⟩ := hr.spans (within_eq_ok.mp h)
    exact ⟨bs, hbs, fun ho hd => within_eq_ok.mpr (hspans.takes ho hd),
      fun front hfront hne => (hspans.runsOut front hfront hne).within place⟩

instance delimited_ite (p : Prop) [Decidable p] (x y : Read α) [Delimited x] [Delimited y] :
    Delimited (if p then x else y) := by
  split <;> assumption

instance delimited_byte : Delimited byte where
  spans {c c' b} h := by
    refine ⟨[b], byte_eq_ok.mp h, fun _ hd => byte_eq_ok.mpr hd, fun front hfront hne => ?_⟩
    have hlength := length_lt_of_front hfront hne
    match front with
    | [] => exact runsOut_outOfBounds rfl
    | _ :: _ => simp at hlength

instance delimited_word16 : Delimited word16 where
  spans {c c' w} h := by
    refine ⟨Bytes.ofUInt16 w, word16_eq_ok.mp h, fun _ hd => word16_eq_ok.mpr hd, fun front hfront hne => ?_⟩
    have hlength := length_lt_of_front hfront hne
    rw [Bytes.length_ofUInt16] at hlength
    match front with
    | [] | [_] => exact runsOut_outOfBounds rfl
    | _ :: _ :: _ => simp only [List.length_cons] at hlength; omega

instance delimited_word32 : Delimited word32 where
  spans {c c' w} h := by
    refine ⟨Bytes.ofUInt32 w, word32_eq_ok.mp h, fun _ hd => word32_eq_ok.mpr hd, fun front hfront hne => ?_⟩
    have hlength := length_lt_of_front hfront hne
    rw [Bytes.length_ofUInt32] at hlength
    match front with
    | [] | [_] | [_, _] | [_, _, _] => exact runsOut_outOfBounds rfl
    | _ :: _ :: _ :: _ :: _ => simp only [List.length_cons] at hlength; omega

instance delimited_word64 : Delimited word64 := by
  unfold word64
  infer_instance

instance delimited_take (n : Nat) : Delimited (take n) where
  spans {c c' bs} h := by
    obtain ⟨rfl, hc⟩ := take_eq_ok.mp h
    refine ⟨bs, hc, fun _ hd => take_eq_ok.mpr ⟨rfl, hd⟩, fun front hfront hne => runsOut_outOfBounds ?_⟩
    have hlength := length_lt_of_front hfront hne
    have hshort : (front.take bs.length).length ≠ bs.length := by
      rw [List.length_take]
      omega
    rw [take, if_neg (by simpa using hshort)]

theorem timesOnto_succ (r : Read α) (n : Nat) (found : List α) :
    timesOnto r (n + 1) found = r >>= fun a => timesOnto r n (a :: found) := by
  funext c
  show _ = StateT.bind r _ c
  rw [timesOnto, StateT.bind]
  cases r c <;> rfl

instance delimited_timesOnto (r : Read α) [Delimited r] (n : Nat) (found : List α) :
    Delimited (timesOnto r n found) := by
  induction n generalizing found with
  | zero => exact delimited_pure found.reverse
  | succ n ih =>
      rw [timesOnto_succ]
      infer_instance

instance delimited_counted (r : Read α) [Delimited r] : Delimited (counted r) := by
  unfold counted times
  infer_instance

end Read

/-! ## §2  The parts of a class file -/

open Read (Delimited)

instance Entry.delimited_readIndex (make : UInt16 → Entry) : Delimited (readIndex make) := by
  unfold readIndex
  infer_instance

instance Entry.delimited_readPair (make : UInt16 → UInt16 → Entry) : Delimited (readPair make) := by
  unfold readPair
  infer_instance

instance Entry.delimited_readText (index : Nat) : Delimited (readText index) := by
  unfold readText
  refine @Read.delimited_bind _ _ _ _ _ fun length => @Read.delimited_bind _ _ _ _ _ fun encoded => ?_
  split
  · infer_instance
  · split <;> infer_instance

instance Entry.delimited_readHandle : Delimited readHandle := by
  unfold readHandle
  infer_instance

instance Entry.delimited_read (index : Nat) : Delimited (read index) := by
  unfold read
  refine @Read.delimited_bind _ _ _ _ _ fun tag => ?_
  unfold readTagged
  split <;> infer_instance

theorem Pool.readEntries_succ (declared steps : Nat) (p : Pool) : readEntries declared (steps + 1) p =
    if p.size < declared then Entry.read p.size >>= fun e => readEntries declared steps (p.push e)
    else pure p := by
  rw [readEntries]
  split
  · funext c
    show _ = StateT.bind (Entry.read p.size) _ c
    rw [StateT.bind]
    cases Entry.read p.size c <;> rfl
  · rfl

instance Pool.delimited_readEntries (declared steps : Nat) (p : Pool) :
    Delimited (readEntries declared steps p) := by
  induction steps generalizing p with
  | zero => exact Read.delimited_pure p
  | succ steps ih =>
      rw [readEntries_succ]
      infer_instance

instance Pool.delimited_read : Delimited Pool.read := by
  unfold Pool.read
  infer_instance

variable (pool : Pool)

instance delimited_readName (place : Malformed.Place) : Delimited (readName pool place) := by
  unfold readName
  infer_instance

instance delimited_readClassName (place : Malformed.Place) : Delimited (readClassName pool place) := by
  unfold readClassName
  infer_instance

instance Record.delimited_readSuperclass : Delimited (readSuperclass pool) := by
  unfold readSuperclass
  infer_instance

/-- The length of an attribute says where it ends, whatever is made of its body. -/
instance Attribute.delimited_readTable {α : Type} (claim : Claim α) : Delimited (readTable pool claim) := by
  unfold readTable readOne
  infer_instance

instance Field.delimited_read : Delimited (Field.read pool) := by
  unfold Field.read
  infer_instance

instance Method.delimited_read : Delimited (Method.read pool) := by
  unfold Method.read
  infer_instance

/-! ## §3  Class files -/

namespace Record

instance delimited_readHeader : Delimited readHeader := by
  unfold readHeader
  infer_instance

instance delimited_read : Delimited Record.read := by
  unfold Record.read
  infer_instance

/-- All bytes of a class file are needed, and no more. -/
theorem spans_of_parse {b : Bytes} {r : Record} (h : parse b = .ok r) : Record.read.Spans 0 b r := by
  obtain ⟨c, hread, hrest⟩ := parse_eq_read.mp h
  obtain ⟨bs, hbs, hspans⟩ := delimited_read.spans hread
  have hb : b = bs := by
    rw [← List.append_nil bs, ← hrest]
    exact hbs.rest
  rw [hb]
  exact hspans

theorem parse_of_runsOut {b : Bytes} (h : Record.read.RunsOut (Cursor.start b)) :
    ∃ m, parse b = .error (.malformedInput none m) ∧ m.cause = .outOfBounds := by
  obtain ⟨m, hm, hcause⟩ := h
  refine ⟨m, ?_, hcause⟩
  rw [parse, ofBytes, hm]
  rfl

theorem parse_of_rest {b : Bytes} {r : Record} {c : Cursor} (h : Record.read (Cursor.start b) = .ok (r, c))
    (hrest : c.rest ≠ []) :
    parse b = .error (.malformedInput none ⟨[], .trailingBytes c.rest.length⟩) := by
  rw [parse, ofBytes, h]
  simp only [List.isEmpty_iff, hrest, if_false]
  rfl

/-- **Class files are prefix-free.** Cut short anywhere, a class file is rejected because its bytes run out. With
anything behind it, it is rejected because that is left over. -/
theorem parse_prefixFree {b : Bytes} {r : Record} (h : parse b = .ok r) :
    (∀ front, front <+: b → front ≠ b →
        ∃ m, parse front = .error (.malformedInput none m) ∧ m.cause = .outOfBounds) ∧
      ∀ behind, behind ≠ [] →
        parse (b ++ behind) = .error (.malformedInput none ⟨[], .trailingBytes behind.length⟩) := by
  have hspans := spans_of_parse h
  constructor
  · intro front hfront hne
    exact parse_of_runsOut (hspans.runsOut front hfront hne)
  · intro behind hbehind
    have hread : Record.read (Cursor.start (b ++ behind)) = .ok (r, ⟨b.length, behind⟩) :=
      hspans.takes rfl ⟨rfl, (Nat.zero_add b.length).symm⟩
    exact parse_of_rest hread hbehind

/-- The sample file, one byte shorter and one byte longer. -/
theorem parse_prefixFree_sampleFile : ∃ r, parse sampleFile = .ok r ∧
    (∃ m, parse sampleFile.dropLast = .error (.malformedInput none m) ∧ m.cause = .outOfBounds) ∧
      parse (sampleFile ++ [0]) = .error (.malformedInput none ⟨[], .trailingBytes 1⟩) := by
  obtain ⟨r, hr⟩ := parse_sampleFile
  obtain ⟨hfront, hbehind⟩ := parse_prefixFree hr
  exact ⟨r, hr, hfront _ sampleFile.dropLast_prefix (by decide +kernel), hbehind [0] (by decide)⟩

end Record

end ClassFile
