import ClassFile.Proofs.Code.FreshLabels
/-!
# The labels of a body that was read

A body is read exactly if everything that its jumps, switches and handlers refer to is the start of an instruction or
the end of the code. A jump may also lead to a place in front of the code, so where instructions lead is told by
integers (§1). Nothing but the place of the code decides about that: bytes mean the same instructions anywhere, up to
the distance (as long as switches stay aligned), so these integers are found by reading the bytes far enough
from the start.

Of the labels that are made, each has its own number, its place in front of an instruction or at the end, and a use
(§2, §3).
-/

namespace ClassFile

variable {q : Pool}

/-! ## §1  Where instructions lead -/

section Moved

variable {f : Nat → Nat} {δ : Int} {start : Nat} {bs : Bytes}

theorem switchPadding_moved (hδ : δ % 4 = 0) (hstart : (f start : Int) = start + δ) :
    switchPadding (f start) = switchPadding start := by
  unfold switchPadding
  omega

theorem jumpTarget_moved (hstart : (f start : Int) = start + δ) {t : Nat} (ht : (f t : Int) = t + δ) {distance : Int32}
    (h : jumpTarget start distance = .ok t) : jumpTarget (f start) distance = .ok (f t) := by
  rw [Instruction.jumpTarget_eq_ok] at h ⊢
  omega

theorem FarBytes.moved (hstart : (f start : Int) = start + δ) {t : Nat} (ht : (f t : Int) = t + δ)
    (h : FarBytes start t bs) : FarBytes (f start) (f t) bs := by
  obtain ⟨w, hw, rfl⟩ := h
  exact ⟨w, jumpTarget_moved hstart ht hw, rfl⟩

theorem forall₂_farBytes_moved (hstart : (f start : Int) = start + δ) {targets : List Nat}
    (hf : ∀ t ∈ targets, (f t : Int) = t + δ) {chunks : List Bytes}
    (h : List.Forall₂ (FarBytes start) targets chunks) :
    List.Forall₂ (FarBytes (f start)) (targets.map f) chunks := by
  rw [List.forall₂_map_left_iff]
  exact forall₂_imp_mem h fun t ht _ hbs => hbs.moved hstart (hf t ht)

theorem forall₂_armBytes_moved (hstart : (f start : Int) = start + δ) {arms : List (Int32 × Nat)}
    (hf : ∀ arm ∈ arms, (f arm.2 : Int) = arm.2 + δ) {chunks : List Bytes}
    (h : List.Forall₂ (ArmBytes start) arms chunks) :
    List.Forall₂ (ArmBytes (f start)) (arms.map fun arm => (arm.1, f arm.2)) chunks := by
  rw [List.forall₂_map_left_iff]
  refine forall₂_imp_mem h fun arm harm _ hbs => ?_
  obtain ⟨jump, hjump, rfl⟩ := hbs
  exact ⟨jump, hjump.moved hstart (hf arm harm), rfl⟩

/-- The bytes of an instruction are those of the same instruction elsewhere, with its targets moved along. -/
theorem InstructionBytes.moved (hδ : δ % 4 = 0) (hstart : (f start : Int) = start + δ) {i : Instruction Nat}
    (hf : ∀ t ∈ i.targets, (f t : Int) = t + δ) (h : InstructionBytes q start bs i) :
    InstructionBytes q (f start) bs (i.map f) := by
  have hpad : switchPadding (f start) = switchPadding start := switchPadding_moved hδ hstart
  cases h with
  | jump hop ht => exact .jump hop (jumpTarget_moved hstart (hf _ List.mem_cons_self) ht)
  | farJump hop ht => exact .farJump hop (ht.moved hstart (hf _ List.mem_cons_self))
  | tableSwitch hbs =>
      cases hbs with
      | intro hpadding hfirst hrange hn hchunks =>
          refine .tableSwitch (.intro (hpadding.trans hpad.symm) (hfirst.moved hstart (hf _ List.mem_cons_self)) hrange
            (by rwa [List.length_map]) ?_)
          exact forall₂_farBytes_moved hstart (fun t ht => hf t (List.mem_cons_of_mem _ ht)) hchunks
  | lookupSwitch hbs =>
      cases hbs with
      | intro hpadding hfirst hcount hn hchunks =>
          refine .lookupSwitch (.intro (hpadding.trans hpad.symm) (hfirst.moved hstart (hf _ List.mem_cons_self)) hcount
            (by rwa [List.length_map]) ?_)
          exact forall₂_armBytes_moved hstart
            (fun arm harm => hf arm.2 (List.mem_cons_of_mem _ (List.mem_map_of_mem harm))) hchunks
  | plain hop => exact .plain hop
  | push16 w => exact .push16 w
  | push8 b => exact .push8 b
  | arrayKind b => exact .arrayKind b
  | load hload => exact .load hload
  | loadWide hop hload => exact .loadWide hop hload
  | localShort hop hshort => exact .localShort hop hshort
  | localVar hop b => exact .localVar hop b
  | localWide hop index => exact .localWide hop index
  | increment b d => exact .increment b d
  | incrementWide index d => exact .incrementWide index d
  | field hop hm => exact .field hop hm
  | call hop hne hm => exact .call hop hne hm
  | interfaceCall hm htail => exact .interfaceCall hm htail
  | dynamicCall hcall htail => exact .dynamicCall hcall htail
  | typed hop hname => exact .typed hop hname
  | multiArray hname dimensions => exact .multiArray hname dimensions

/-- The bytes of a body are those of the same body elsewhere. -/
theorem BodyBytes.moved (f : Nat → Nat) (δ : Int) (hδ : δ % 4 = 0) {located : List Located}
    (hoffset : ∀ o ≥ start, (f o : Int) = o + δ)
    (hf : ∀ x ∈ located, ∀ t ∈ x.2.targets, (f t : Int) = t + δ)
    (h : BodyBytes (InstructionBytes q) start bs located) :
    BodyBytes (InstructionBytes q) (f start) bs (located.map fun x => (f x.1, x.2.map f)) := by
  induction h with
  | nil o => exact .nil (f o)
  | @cons o here rest i more head _ ih =>
      have htail := ih (fun o' ho' => hoffset o' (by omega)) fun x hx => hf x (List.mem_cons_of_mem _ hx)
      have hnext : f (o + here.length) = f o + here.length := by
        have ho := hoffset o (Nat.le_refl o)
        have hbehind := hoffset (o + here.length) (Nat.le_add_right o here.length)
        omega
      rw [hnext] at htail
      exact .cons (head.moved hδ (hoffset o (Nat.le_refl o)) (hf _ List.mem_cons_self)) htail

end Moved

namespace Bytecode

/-- A place from where no jump leads to one in front of the first byte of all. -/
def farOff : Nat := 4294967296

/-- The instructions of a method's bytes, wherever their jumps lead. Offsets are counted from the first byte, and a
target may lie in front of it. -/
def decode (q : Pool) (bytes : Bytes) : Except Malformed (List (Int × Instruction Int)) :=
  (readOnto q bytes.length [] ⟨farOff, bytes⟩).map
    (List.map fun x => ((x.1 : Int) - farOff, x.2.map fun t : Nat => (t : Int) - farOff))

/-- Instructions with offsets, as those with integers. -/
def spread (located : List Located) : List (Int × Instruction Int) :=
  located.map fun x => ((x.1 : Int), x.2.map fun t : Nat => (t : Int))

theorem decode_eq_ok {bytes : Bytes} {decoded : List (Int × Instruction Int)} :
    decode q bytes = .ok decoded ↔ ∃ far, BodyBytes (InstructionBytes q) farOff bytes far ∧
      decoded = far.map fun x => ((x.1 : Int) - farOff, x.2.map fun t : Nat => (t : Int) - farOff) := by
  have hread : ∀ far, readOnto q bytes.length [] ⟨farOff, bytes⟩ = .ok far ↔
      ∃ more, BodyBytes (InstructionBytes q) farOff bytes more ∧ far = [].reverse ++ more :=
    fun far => readOnto_eq_ok (Nat.le_refl _)
  rw [decode]
  constructor
  · intro h
    cases hfar : readOnto q bytes.length [] ⟨farOff, bytes⟩ with
    | error e =>
        rw [hfar] at h
        cases h
    | ok far =>
        rw [hfar] at h
        obtain ⟨_, hmore, rfl⟩ := (hread far).mp hfar
        exact ⟨_, hmore, (Except.ok.inj h).symm⟩
  · rintro ⟨far, hfar, rfl⟩
    rw [(hread far).mpr ⟨far, hfar, rfl⟩]
    rfl

/-- Integers that are offsets are read as those offsets. -/
theorem map_toNat_spread (located : List Located) :
    (spread located).map (fun x => (x.1.toNat, x.2.map Int.toNat)) = located := by
  rw [spread, List.map_map]
  refine (List.map_congr_left fun x _ => ?_).trans (List.map_id located)
  simp only [Function.comp_apply, Instruction.map_map, Int.toNat_natCast]
  exact congrArg (Prod.mk x.1) (Instruction.map_id x.2)

/-- The offsets that a body is read with are those that it is decoded with, if none of these is in front of it. -/
theorem read_eq_ok_iff_decode {bytes : Bytes} {located : List Located} :
    Bytecode.read q bytes = .ok located ↔ decode q bytes = .ok (spread located) := by
  rw [read_eq_ok, decode_eq_ok]
  constructor
  · intro hbody
    have hfar := hbody.moved (· + farOff) farOff (by decide) (fun o _ => by simp) fun x _ t _ => by simp
    rw [Nat.zero_add] at hfar
    refine ⟨_, hfar, ?_⟩
    rw [spread, List.map_map]
    refine List.map_congr_left fun x _ => ?_
    simp [Instruction.map_map]
  · rintro ⟨far, hfar, hspread⟩
    have hback : far.map (fun x => (x.1 - farOff, x.2.map (· - farOff))) = located := by
      have hlocated := congrArg (List.map fun x : Int × Instruction Int => (x.1.toNat, x.2.map Int.toNat)) hspread
      rw [map_toNat_spread, List.map_map] at hlocated
      refine (List.map_congr_left fun x _ => ?_).trans hlocated.symm
      simp only [Function.comp_apply, Instruction.map_map, Int.toNat_sub]
    have htargets : ∀ x ∈ far, ∀ t ∈ x.2.targets, farOff ≤ t := by
      intro x hx t ht
      have hmem : (t : Int) - farOff ∈ (spread located).flatMap fun x => x.2.targets := by
        rw [hspread, List.flatMap_map]
        refine List.mem_flatMap.mpr ⟨x, hx, ?_⟩
        rw [Instruction.targets_map]
        exact List.mem_map_of_mem ht
      obtain ⟨y, hy, hmem⟩ := List.mem_flatMap.mp hmem
      obtain ⟨z, -, rfl⟩ := List.mem_map.mp hy
      rw [Instruction.targets_map] at hmem
      obtain ⟨u, -, hu⟩ := List.mem_map.mp hmem
      omega
    have hbody := hfar.moved (· - farOff) (-farOff) (by decide) (fun o ho => by omega)
      fun x hx t ht => by
        have hle := htargets x hx t ht
        omega
    rwa [hback, Nat.sub_self] at hbody

/-- Integers of which none is in front of the code are offsets. -/
theorem exists_spread {decoded : List (Int × Instruction Int)} (hstarts : ∀ x ∈ decoded, 0 ≤ x.1)
    (htargets : ∀ x ∈ decoded, ∀ t ∈ x.2.targets, 0 ≤ t) : ∃ located, decoded = spread located := by
  refine ⟨decoded.map fun x => (x.1.toNat, x.2.map Int.toNat), ?_⟩
  rw [spread, List.map_map, ← List.map_id decoded, List.map_map]
  refine List.map_congr_left fun x hx => Prod.ext (Int.toNat_of_nonneg (hstarts x hx)).symm ?_
  simp only [Function.comp_apply, Instruction.map_map]
  exact (Instruction.map_id x.2).symm.trans
    (Instruction.map_congr fun t ht => (Int.toNat_of_nonneg (htargets x hx t ht)).symm)

/-- No instruction starts in front of the code. -/
theorem starts_of_decode {bytes : Bytes} {decoded : List (Int × Instruction Int)} (h : decode q bytes = .ok decoded) :
    ∀ x ∈ decoded, 0 ≤ x.1 := by
  obtain ⟨far, hfar, rfl⟩ := decode_eq_ok.mp h
  obtain ⟨-, hle⟩ := hfar.stops_sorted InstructionBytes.length_pos
  intro x hx
  obtain ⟨y, hy, rfl⟩ := List.mem_map.mp hx
  have hstart := hle y.1 (List.mem_append_left _ (List.mem_map_of_mem hy))
  simp only
  omega

end Bytecode

/-- Each instruction is read from where it starts up to where the next one does, and the last one up to the end. -/
theorem BodyBytes.tiles {start : Nat} {bs bytes : Bytes} {located : List Located}
    (h : BodyBytes (InstructionBytes q) start bs located) (hbytes : bytes.drop start = bs) :
    (stopsOf (start + bs.length) located)[0]? = some start ∧
    ∀ n x next, located[n]? = some x → (stopsOf (start + bs.length) located)[n + 1]? = some next →
      Instruction.read q ⟨x.1, bytes.drop x.1⟩ = .ok (x.2, ⟨next, bytes.drop next⟩) := by
  induction h with
  | nil o => exact ⟨rfl, fun n x next hx => nomatch hx⟩
  | @cons o here rest i more head _ ih =>
      have hrest : bytes.drop (o + here.length) = rest := by rw [← List.drop_drop, hbytes, List.drop_left]
      obtain ⟨hfirst, htail⟩ := ih hrest
      rw [List.length_append, ← Nat.add_assoc]
      refine ⟨rfl, fun n x next hx hnext => ?_⟩
      cases n with
      | zero =>
          obtain rfl := Option.some.inj hx
          obtain rfl : o + here.length = next := Option.some.inj (hfirst.symm.trans hnext)
          rw [hbytes, hrest]
          exact Instruction.read_of_bytes head rfl ⟨rfl, rfl⟩
      | succ n => exact htail n x next hx hnext

/-! ## §2  Labels among the lines -/

namespace Labels

variable {f : Nat → Label} {length : Nat} {located : List Located} {labels : List (Nat × Label)} {items : List Item}

/-- Directly behind the label stands the instruction at the offset, or nothing if that is the offset of the end. -/
def Leads (f : Nat → Label) (length : Nat) (located : List Located) (items : List Item) (l : Label) (t : Nat) : Prop :=
  ∃ before after, items = before ++ .label l :: after ∧
    ((∃ i more, located[(before.filterMap Item.instruction?).length]? = some (t, i) ∧
        after = .instruction (i.map f) :: more) ∨
      t = length ∧ after = [])

theorem ids_number {offsets : List Nat} (h : offsets.length ≤ UInt32.size) :
    ((number offsets).map (·.2)).map (fun l => l.id.toNat) = List.range offsets.length := by
  rw [number, List.map_map, List.map_map, List.range_eq_range', ← List.zipIdx_map_snd 0 offsets]
  refine List.map_congr_left fun x hx => ?_
  obtain ⟨-, hlt, -⟩ := List.mem_zipIdx hx
  exact UInt32.toNat_ofNat_of_lt' (by omega)

/-- Ascending numbers up to a bound are at most as many as there are. -/
theorem length_le_of_sorted {offsets : List Nat} (h : offsets.Pairwise (· < ·)) (hbound : ∀ t ∈ offsets, t ≤ length) :
    offsets.length ≤ length + 1 := by
  by_contra hlong
  have hlt : length + 1 < offsets.length := by omega
  have hle := le_of_sorted h (List.getElem?_eq_getElem hlt)
  have hbounded := hbound _ (List.getElem_mem hlt)
  omega

/-- What stands in the list of labels are the offsets, each with what the map from offsets to labels holds for it. -/
theorem mem_number_iff {offsets : List Nat} (h : offsets.Pairwise (· < ·)) {l : Label} :
    l ∈ (number offsets).map (·.2) ↔ ∃ t ∈ offsets, Numbering.label (Std.HashMap.ofList (number offsets)) t = l := by
  constructor
  · intro hl
    obtain ⟨⟨t, l⟩, hx, rfl⟩ := List.mem_map.mp hl
    refine ⟨t, ?_, label_of_mem h hx⟩
    rw [← map_fst_number offsets]
    exact List.mem_map_of_mem hx
  · rintro ⟨t, ht, rfl⟩
    rw [← map_fst_number offsets] at ht
    obtain ⟨⟨t, l⟩, hx, rfl⟩ := List.mem_map.mp ht
    rw [label_of_mem h hx]
    exact List.mem_map_of_mem hx

theorem Woven.labels_eq (h : Woven f length labels located items) :
    items.filterMap Item.label? = labels.map (·.2) := by
  induction h with
  | done => rfl
  | label _ _ ih => exact congrArg _ ih
  | instruction _ ih => exact ih

/-- Behind the last label of a place stands its instruction. -/
theorem Woven.front (h : Woven f length labels located items) {t : Nat} (ht : (stopsOf length located)[0]? = some t)
    (hlabels : ∀ x ∈ labels, t < x.1) :
    (∃ i more, located[0]? = some (t, i) ∧ items = .instruction (i.map f) :: more) ∨ t = length ∧ items = [] := by
  cases h with
  | done => exact .inr ⟨(Option.some.inj ht).symm, rfl⟩
  | @label o l labels located items ho tail =>
      obtain rfl : o = t := Option.some.inj (ho.symm.trans ht)
      exact absurd (hlabels _ List.mem_cons_self) (Nat.lt_irrefl o)
  | @instruction o i labels located items tail =>
      obtain rfl : o = t := Option.some.inj ht
      exact .inl ⟨i, items, rfl, rfl⟩

/-- Every label stands where its offset says. -/
theorem Woven.leads (h : Woven f length labels located items) (hsorted : labels.Pairwise fun x y => x.1 < y.1) :
    ∀ x ∈ labels, Leads f length located items x.2 x.1 := by
  induction h with
  | done => exact fun x hx => nomatch hx
  | @label o l labels located items ho tail ih =>
      obtain ⟨hfirst, hrest⟩ := List.pairwise_cons.mp hsorted
      intro x hx
      rcases List.mem_cons.mp hx with rfl | hx
      · exact ⟨[], items, rfl, tail.front ho hfirst⟩
      · obtain ⟨before, after, rfl, hafter⟩ := ih hrest x hx
        exact ⟨.label l :: before, after, rfl, hafter⟩
  | @instruction o i labels located items tail ih =>
      intro x hx
      obtain ⟨before, after, rfl, hafter⟩ := ih hsorted x hx
      exact ⟨.instruction (i.map f) :: before, after, rfl, hafter⟩

end Labels

/-! ## §3  What is read -/

namespace Code

/-- All that instructions and handlers refer to. -/
def referred (decoded : List (Int × Instruction Int)) (handlers : List OffsetHandler) : List Int :=
  (decoded.flatMap fun x => x.2.targets) ++ handlers.flatMap fun h => h.offsets.map fun t : Nat => (t : Int)

/-- The body is made of the instructions and handlers of the parts, with labels for the offsets that these refer to. -/
structure Labelled (q : Pool) (parts : Parts) (located : List Located) (c : Code) : Prop where
  /-- Instructions start one behind the other, the first at the front, and each ends where the next one starts or
  the code ends. -/
  ascending : (stopsOf parts.bytecode.length located).Pairwise (· < ·)
  front : (stopsOf parts.bytecode.length located)[0]? = some 0
  tiled : ∀ n x next, located[n]? = some x → (stopsOf parts.bytecode.length located)[n + 1]? = some next →
    Instruction.read q ⟨x.1, parts.bytecode.drop x.1⟩ = .ok (x.2, ⟨next, parts.bytecode.drop next⟩)
  /-- The labels are numbered in the order in which they stand among the lines. -/
  ids : (c.items.filterMap Item.label?).map (fun l => l.id.toNat) =
    List.range (c.items.filterMap Item.label?).length
  used_iff : ∀ l, l ∈ c.usedLabels ↔ Item.label l ∈ c.items
  /-- There is a label for each offset. -/
  leads : ∃ label : Nat → Label,
    c.items.filterMap Item.instruction? = located.map (fun x => x.2.map label) ∧
    c.handlers = parts.handlers.map (fun h =>
      ⟨label h.start.toNat, label h.stop.toNat, label h.target.toNat, h.catchType⟩) ∧
    ∀ t, ((∃ x ∈ located, t ∈ x.2.targets) ∨ ∃ h ∈ parts.handlers, t ∈ h.offsets) →
      Labels.Leads label parts.bytecode.length located c.items (label t) t

variable {body : Bytes} {parts : Parts} {located : List Located} {items : List Item}

/-- The labels that a body uses are those of the offsets that its parts refer to. -/
theorem mem_usedLabels_iff {label : Labels.Numbering} {c : Code}
    (hinstructions : c.items.filterMap Item.instruction? = located.map fun x => x.2.map label.label)
    (hhandlers : c.handlers = parts.handlers.map (Labels.handler label)) {l : Label} :
    l ∈ c.usedLabels ↔ ∃ t ∈ Labels.targetOffsets located parts.handlers, label.label t = l := by
  rw [usedLabels, hinstructions, hhandlers]
  simp only [List.mem_append, List.flatMap_map, List.mem_flatMap, Instruction.targets_map, Labels.labels_handler,
    List.mem_map, (Labels.targetOffsets_spec located parts.handlers).2]
  constructor
  · rintro (⟨x, hx, t, ht, rfl⟩ | ⟨h, hh, t, ht, rfl⟩)
    · exact ⟨t, .inl ⟨x, hx, ht⟩, rfl⟩
    · exact ⟨t, .inr ⟨h, hh, ht⟩, rfl⟩
  · rintro ⟨t, ⟨x, hx, ht⟩ | ⟨h, hh, ht⟩, rfl⟩
    · exact .inl ⟨x, hx, t, ht, rfl⟩
    · exact .inr ⟨h, hh, t, ht, rfl⟩

theorem labelled_of_ofParts (hlength : parts.bytecode.length < 2147483648)
    (hbody : BodyBytes (InstructionBytes q) 0 parts.bytecode located) {c : Code} (h : ofParts q parts = .ok c) :
    Labelled q parts located c := by
  obtain ⟨located', items, hlocated', hitems, rfl⟩ := ofParts_eq_ok.mp h
  obtain rfl : located' = located :=
    Except.ok.inj ((Bytecode.read_eq_ok.mpr hlocated').symm.trans (Bytecode.read_eq_ok.mpr hbody))
  obtain ⟨hsorted, hreferred⟩ := Labels.targetOffsets_spec located' parts.handlers
  obtain ⟨hstops, -⟩ := hbody.stops_sorted InstructionBytes.length_pos
  obtain ⟨hfront, htiled⟩ := hbody.tiles rfl
  rw [Nat.zero_add] at hstops hfront htiled
  have hwoven := Labels.woven_of_place hitems
  have hplaced := hwoven.labels_eq
  have hpairs : (Labels.number (Labels.targetOffsets located' parts.handlers)).Pairwise fun x y => x.1 < y.1 := by
    refine List.pairwise_map.mp ?_
    rwa [Labels.map_fst_number]
  -- A label is no further down the list than its offset is in the code, so there are numbers enough.
  have hmany : (Labels.targetOffsets located' parts.handlers).length ≤ UInt32.size := by
    have hcount := Labels.length_le_of_sorted hsorted fun t ht => by
      rw [← Labels.map_fst_number (Labels.targetOffsets located' parts.handlers)] at ht
      obtain ⟨x, hx, rfl⟩ := List.mem_map.mp ht
      exact le_of_mem_stops hstops (hwoven.mem_stops x hx)
    simp only [UInt32.size]
    omega
  refine ⟨hstops, hfront, htiled, ?_, fun l => ?_, _, hwoven.instructions_eq, rfl, fun t ht => ?_⟩
  · rw [hplaced, Labels.ids_number hmany]
    simp [Labels.number]
  · rw [mem_usedLabels_iff hwoven.instructions_eq rfl, ← mem_placed, hplaced, Labels.mem_number_iff hsorted]
  · have hmem := (hreferred t).mpr ht
    rw [← Labels.map_fst_number (Labels.targetOffsets located' parts.handlers)] at hmem
    obtain ⟨⟨t, l⟩, hx, rfl⟩ := List.mem_map.mp hmem
    rw [Labels.label_of_mem hsorted hx]
    exact hwoven.leads hpairs _ hx

/-- Offsets that are all in the code or at its end get labels. -/
theorem exists_ofParts_iff (hbody : BodyBytes (InstructionBytes q) 0 parts.bytecode located) :
    (∃ c, ofParts q parts = .ok c) ↔
      ∀ t ∈ Labels.targetOffsets located parts.handlers, t ∈ stopsOf parts.bytecode.length located := by
  obtain ⟨hstops, -⟩ := hbody.stops_sorted InstructionBytes.length_pos
  rw [Nat.zero_add] at hstops
  constructor
  · rintro ⟨c, hc⟩ t ht
    obtain ⟨located', items, hlocated', hitems, rfl⟩ := ofParts_eq_ok.mp hc
    obtain rfl : located' = located :=
      Except.ok.inj ((Bytecode.read_eq_ok.mpr hlocated').symm.trans (Bytecode.read_eq_ok.mpr hbody))
    rw [← Labels.map_fst_number (Labels.targetOffsets located' parts.handlers)] at ht
    obtain ⟨x, hx, rfl⟩ := List.mem_map.mp ht
    exact (Labels.woven_of_place hitems).mem_stops x hx
  · intro h
    obtain ⟨items, hitems⟩ := Labels.exists_place hstops (Labels.targetOffsets_spec located parts.handlers).1 h
    exact ⟨_, ofParts_eq_ok.mpr ⟨located, items, hbody, hitems, rfl⟩⟩

theorem ofBytes_of_parts (hparts : Read.run (readParts q) body = .ok parts) : ofBytes q body = ofParts q parts := by
  rw [ofBytes, hparts]
  rfl

theorem mem_referred_spread {handlers : List OffsetHandler} {t : Int} :
    t ∈ referred (Bytecode.spread located) handlers ↔ ∃ n ∈ Labels.targetOffsets located handlers, (n : Int) = t := by
  simp only [referred, Bytecode.spread, List.mem_append, List.flatMap_map, List.mem_flatMap, Instruction.targets_map,
    List.mem_map, (Labels.targetOffsets_spec located handlers).2]
  constructor
  · rintro (⟨x, hx, n, hn, rfl⟩ | ⟨h, hh, n, hn, rfl⟩)
    · exact ⟨n, .inl ⟨x, hx, hn⟩, rfl⟩
    · exact ⟨n, .inr ⟨h, hh, hn⟩, rfl⟩
  · rintro ⟨n, ⟨x, hx, hn⟩ | ⟨h, hh, hn⟩, rfl⟩
    · exact .inl ⟨x, hx, n, hn, rfl⟩
    · exact .inr ⟨h, hh, n, hn, rfl⟩

theorem mem_starts_spread {n length : Nat} :
    (n : Int) ∈ (Bytecode.spread located).map (·.1) ∨ (n : Int) = length ↔ n ∈ stopsOf length located := by
  rw [stopsOf, List.mem_append, List.mem_singleton, Bytecode.spread, List.map_map, List.mem_map, List.mem_map]
  simp only [Function.comp_apply, Int.ofNat_inj]

theorem exists_ofParts_iff_referred (hbody : BodyBytes (InstructionBytes q) 0 parts.bytecode located) :
    (∃ c, ofParts q parts = .ok c) ↔ ∀ t ∈ referred (Bytecode.spread located) parts.handlers,
      t ∈ (Bytecode.spread located).map (·.1) ∨ t = parts.bytecode.length := by
  rw [exists_ofParts_iff hbody]
  constructor
  · intro h t ht
    obtain ⟨n, hn, rfl⟩ := mem_referred_spread.mp ht
    exact mem_starts_spread.mpr (h n hn)
  · exact fun h n hn => mem_starts_spread.mp (h n (mem_referred_spread.mpr ⟨n, hn, rfl⟩))

/-- **A body is read exactly if all that its instructions and handlers refer to is the start of an instruction or the
end of the code**, and then its labels are exact. -/
theorem ofBytes_labelled {decoded : List (Int × Instruction Int)}
    (hparts : Read.run (readParts q) body = .ok parts) (hdecoded : Bytecode.decode q parts.bytecode = .ok decoded)
    (hlength : parts.bytecode.length < 2147483648) :
    ((∃ c, ofBytes q body = .ok c) ↔
      ∀ t ∈ referred decoded parts.handlers, t ∈ decoded.map (·.1) ∨ t = parts.bytecode.length) ∧
    ∀ c, ofBytes q body = .ok c → ∃ located, decoded = Bytecode.spread located ∧ c.Labelled q parts located := by
  rw [ofBytes_of_parts hparts]
  have hlocated : ∀ c, ofParts q parts = .ok c → ∃ located, decoded = Bytecode.spread located ∧
      BodyBytes (InstructionBytes q) 0 parts.bytecode located := by
    intro c hc
    obtain ⟨located, -, hbody, -, -⟩ := ofParts_eq_ok.mp hc
    have hspread := Bytecode.read_eq_ok_iff_decode.mp (Bytecode.read_eq_ok.mpr hbody)
    exact ⟨located, Except.ok.inj (hdecoded.symm.trans hspread), hbody⟩
  refine ⟨⟨?_, fun h => ?_⟩, fun c hc => ?_⟩
  · rintro ⟨c, hc⟩
    obtain ⟨located, rfl, hbody⟩ := hlocated c hc
    exact (exists_ofParts_iff_referred hbody).mp ⟨c, hc⟩
  · -- Starts of instructions lie behind the front, so all integers are offsets.
    have hstarts := Bytecode.starts_of_decode hdecoded
    obtain ⟨located, rfl⟩ := Bytecode.exists_spread hstarts fun x hx t ht => by
      rcases h t (List.mem_append_left _ (List.mem_flatMap.mpr ⟨x, hx, ht⟩)) with ht | rfl
      · obtain ⟨y, hy, rfl⟩ := List.mem_map.mp ht
        exact hstarts y hy
      · exact Int.natCast_nonneg _
    have hbody := Bytecode.read_eq_ok.mp (Bytecode.read_eq_ok_iff_decode.mpr hdecoded)
    exact (exists_ofParts_iff_referred hbody).mpr h
  · obtain ⟨located, rfl, hbody⟩ := hlocated c hc
    exact ⟨located, rfl, labelled_of_ofParts hlength hbody hc⟩

/-- A jump over nothing, and a return; both are guarded, by a handler that is the return itself. -/
def guardedJump : Bytes :=
  [0, 0, 0, 0, 0, 0, 0, 4, 0xa7, 0, 3, 0xb1, 0, 1, 0, 0, 0, 4, 0, 3, 0, 0, 0, 0]

theorem ofBytes_labelled_guardedJump : ∃ parts c, ofBytes .empty guardedJump = .ok c ∧
    Labelled .empty parts [(0, .jump 0xa7 3), (3, .plain 0xb1)] c := by
  obtain ⟨parts, hparts, hbytecode, hhandlers⟩ : ∃ parts : Parts, Read.run (readParts .empty) guardedJump = .ok parts ∧
      parts.bytecode = [0xa7, 0, 3, 0xb1] ∧ parts.handlers = [⟨0, 4, 3, none⟩] := ⟨_, rfl, rfl, rfl⟩
  have hdecoded : Bytecode.decode .empty parts.bytecode = .ok [(0, .jump 0xa7 3), (3, .plain 0xb1)] := by
    rw [hbytecode]
    rfl
  obtain ⟨hread, hlabelled⟩ := ofBytes_labelled hparts hdecoded (by rw [hbytecode]; decide)
  obtain ⟨c, hc⟩ := hread.mpr (by rw [hbytecode, hhandlers]; decide)
  obtain ⟨located, hspread, hl⟩ := hlabelled c hc
  have hlocated : located = [(0, .jump 0xa7 3), (3, .plain 0xb1)] := by
    rw [← Bytecode.map_toNat_spread located, ← hspread]
    rfl
  exact ⟨parts, c, hc, hlocated ▸ hl⟩

end Code
end ClassFile
