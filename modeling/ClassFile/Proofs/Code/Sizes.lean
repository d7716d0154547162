import ClassFile.Proofs.Code.ExactLabels
import Mathlib.Data.List.TakeWhile
/-!
# Sizes that are kept

A body is laid out before any of it is written, from sizes that are worked out case by case, and jumps are written with the
offsets that the layout gave to their labels. One byte too many or too few in one instruction would move all that
follows, and no jump over it would be right any more.

To see that this does not happen, the lines are written once more without the offsets of instructions: each starts where
the bytes in front of it end (§1). That gives the same bytes, and so the offsets of the layout are the places in them (§2).
What a jump, a switch or a handler holds is the distance to its label in these bytes, without loss (§3).
-/

namespace ClassFile

open Bytes (ofUInt16 ofUInt32)
open Interning

/-! ## §1  Writing without offsets -/

/-- An instruction that is written takes the bytes that its size says. -/
theorem Placed.length_bytes {l : Layout} {o : Nat} {i : Instruction Label} {k : UInt16} {bs : Bytes}
    (h : Placed.bytes l ⟨o, i, k⟩ = .ok bs) : bs.length = i.size k o := by
  rw [Placed.bytes_eq_emit (Layout.offsetOf_of_bytes h)] at h
  rw [Instruction.length_emit h, Instruction.size_map]

namespace Layout

/-- Writes lines behind bytes. An instruction starts where the bytes end, whatever offset the layout has for it; only the
labels are taken from there. -/
def appendTo (l : Layout) (out : Bytes) : List (Item × UInt16) → Except Error Bytes
  | [] => .ok out
  | (.label _, _) :: lines => appendTo l out lines
  | (.instruction i, operand) :: lines =>
      match Placed.bytes l ⟨out.length, i, operand⟩ with
      | .error e => .error e
      | .ok bs => appendTo l (out ++ bs) lines

variable {l : Layout} {lines front back : List (Item × UInt16)} {out bs : Bytes}

theorem appendTo_append (l : Layout) (out : Bytes) (front back : List (Item × UInt16)) :
    l.appendTo out (front ++ back) = (l.appendTo out front).bind fun out => l.appendTo out back := by
  induction front generalizing out with
  | nil => rfl
  | cons line front ih =>
      obtain ⟨_ | i, k⟩ := line
      · exact ih out
      · rw [List.cons_append, appendTo, appendTo]
        cases Placed.bytes l ⟨out.length, i, k⟩ with
        | error e => rfl
        | ok bs => exact ih (out ++ bs)

theorem appendTo_append_eq_ok : l.appendTo out (front ++ back) = .ok bs ↔
    ∃ mid, l.appendTo out front = .ok mid ∧ l.appendTo mid back = .ok bs := by
  rw [appendTo_append]
  exact except_bind_eq_ok

theorem appendTo_instruction_eq_ok {i : Instruction Label} {k : UInt16} :
    l.appendTo out ((.instruction i, k) :: lines) = .ok bs ↔
      ∃ here, Placed.bytes l ⟨out.length, i, k⟩ = .ok here ∧ l.appendTo (out ++ here) lines = .ok bs := by
  rw [appendTo]
  cases Placed.bytes l ⟨out.length, i, k⟩ <;> simp

/-- Labels take no bytes. -/
theorem appendTo_labels (l : Layout) (out : Bytes) (h : ∀ x ∈ lines, ∃ t, x.1 = .label t) :
    l.appendTo out lines = .ok out := by
  induction lines with
  | nil => rfl
  | cons line lines ih =>
      obtain ⟨item, k⟩ := line
      obtain ⟨t, rfl⟩ := h _ List.mem_cons_self
      exact ih fun x hx => h x (List.mem_cons_of_mem _ hx)

theorem appendTo_prefix (h : l.appendTo out lines = .ok bs) : ∃ more, bs = out ++ more := by
  induction lines generalizing out with
  | nil => exact ⟨[], by rw [List.append_nil]; exact (Except.ok.inj h).symm⟩
  | cons line lines ih =>
      obtain ⟨_ | i, k⟩ := line
      · exact ih h
      · obtain ⟨here, -, hmore⟩ := appendTo_instruction_eq_ok.mp h
        obtain ⟨more, rfl⟩ := ih hmore
        exact ⟨here ++ more, List.append_assoc out here more⟩

/-! ## §2  The same bytes -/

theorem appendTo_eq (l : Layout) (out : Bytes) (lines : List (Item × UInt16)) : l.appendTo out lines =
    ((arrange out.length (lines.filterMap Item.numberedInstruction?)).mapM (Placed.bytes l)).map
      fun chunks => out ++ chunks.flatten := by
  induction lines generalizing out with
  | nil => exact congrArg Except.ok (List.append_nil out).symm
  | cons line lines ih =>
      obtain ⟨_ | i, k⟩ := line
      · exact ih out
      · rw [appendTo, Item.numberedInstructions_cons, arrange, List.mapM_cons]
        cases hbytes : Placed.bytes l ⟨out.length, i, k⟩ with
        | error e => rfl
        | ok here =>
            -- As many bytes were written as the layout reserves, so both go on at the same offset.
            dsimp only
            rw [ih, List.length_append, Placed.length_bytes hbytes]
            cases (arrange (out.length + i.size k out.length)
              (lines.filterMap Item.numberedInstruction?)).mapM (Placed.bytes l) with
            | error e => rfl
            | ok chunks => exact congrArg Except.ok (List.append_assoc out here chunks.flatten)

/-- Writing needs no offsets of instructions: what it makes of the lines, also when it fails, is the same without them. -/
theorem appendTo_ofLines (lines : List (Item × UInt16)) :
    (ofLines lines).appendTo [] lines = (ofLines lines).bytecode := by
  rw [appendTo_eq, bytecode, placed_ofLines, List.length_nil]
  cases (arrange 0 (lines.filterMap Item.numberedInstruction?)).mapM (Placed.bytes (ofLines lines)) <;> rfl

/-- What is written ends where the layout says. -/
theorem length_appendTo (h : l.appendTo out lines = .ok bs) :
    bs.length = extent out.length (lines.filterMap Item.numberedInstruction?) := by
  induction lines generalizing out with
  | nil => exact congrArg List.length (Except.ok.inj h).symm
  | cons line lines ih =>
      obtain ⟨_ | i, k⟩ := line
      · exact ih h
      · obtain ⟨here, hbytes, hmore⟩ := appendTo_instruction_eq_ok.mp h
        rw [ih hmore, List.length_append, Placed.length_bytes hbytes, Item.numberedInstructions_cons, extent]

theorem getElem?_arrange (front : List (Instruction Label × UInt16)) (i : Instruction Label) (k : UInt16)
    (back : List (Instruction Label × UInt16)) {o : Nat} :
    (arrange o (front ++ (i, k) :: back))[front.length]? = some ⟨extent o front, i, k⟩ := by
  induction front generalizing o with
  | nil => rfl
  | cons x front ih => exact ih

/-- A label has the offset of the line where it stands last. -/
theorem labelOffset_of_last {t : Label} {k : UInt16} (hlast : ∀ x ∈ back, x.1 ≠ .label t) :
    (ofLines (front ++ (.label t, k) :: back)).labelOffset t =
      .ok (extent 0 (front.filterMap Item.numberedInstruction?)) := by
  have hnone : Item.position? t (back.map (·.1)) = none := by
    refine Item.position?_eq_none fun hmem => ?_
    obtain ⟨x, hx, hxt⟩ := List.mem_map.mp hmem
    exact hlast x hx hxt
  rw [labelOffset_eq_ok]
  show ((front ++ (.label t, k) :: back).foldl step ⟨[], ∅, 0⟩).labels[t]? = _
  rw [List.foldl_append, List.foldl_cons, labels_foldl, hnone, step, Std.HashMap.getElem?_insert_self,
    length_foldl]

theorem exists_last {t : Label} {n : Nat} (h : (ofLines lines).labelOffset t = .ok n) :
    ∃ front k back, lines = front ++ (.label t, k) :: back ∧ ∀ x ∈ back, x.1 ≠ .label t := by
  obtain ⟨p, hp, -⟩ := (labelOffset_ofLines lines t).mp h
  have hmem : Item.label t ∈ (lines.map (·.1)).reverse := by
    rw [List.mem_reverse]
    by_contra hmissing
    rw [Item.position?_eq_none hmissing] at hp
    cases hp
  -- The last place from the front is the first one from the end.
  obtain ⟨behind, before, hsplit, hlast⟩ := List.eq_append_cons_of_mem hmem
  rw [List.reverse_eq_iff, List.reverse_append, List.reverse_cons, List.append_assoc, List.singleton_append] at hsplit
  obtain ⟨front, rest, rfl, -, hrest⟩ := List.map_eq_append_iff.mp hsplit
  obtain ⟨⟨item, k⟩, back, rfl, rfl, hback⟩ := List.map_eq_cons_iff.mp hrest
  refine ⟨front, k, back, rfl, fun x hx hxt => hlast ?_⟩
  rw [← List.mem_reverse]
  exact hback ▸ hxt ▸ List.mem_map_of_mem hx

end Layout

/-! ## §3  Distances -/

/-- Four bytes that hold the distance from `start` to a label. -/
def Layout.FarBytes (l : Layout) (start : Nat) (t : Label) (bs : Bytes) : Prop :=
  ∃ (w : UInt32) (n : Nat), bs = ofUInt32 w ∧ l.labelOffset t = .ok n ∧ (start : Int) + w.toInt32.toInt = n

/-- The bytes of an instruction at `start` lead to the offsets of its labels: a jump in 16 or in 32 bits, a switch in 32, its
operands at a multiple of four. -/
inductive Instruction.Leads (l : Layout) (start : Nat) : Instruction Label → Bytes → Prop where
  | straight {i : Instruction Label} {bs : Bytes} (h : i.targets = []) : Leads l start i bs
  | nearJump {op : Opcode} {t : Label} {w : UInt16} {n : Nat} (hop : op.isFarJump = false)
      (hn : l.labelOffset t = .ok n) (h : (start : Int) + w.toInt16.toInt = n) :
      Leads l start (.jump op t) (op :: ofUInt16 w)
  | farJump {op : Opcode} {t : Label} {first : Bytes} (hop : op.isFarJump = true)
      (hfirst : l.FarBytes start t first) : Leads l start (.jump op t) (op :: first)
  | tableSwitch {padding first : Bytes} {low high : Int32} {default : Label} {targets : List Label}
      {chunks : List Bytes} (hshort : padding.length < 4) (haligned : (start + 1 + padding.length) % 4 = 0)
      (hfirst : l.FarBytes start default first) (hchunks : List.Forall₂ (l.FarBytes start) targets chunks) :
      Leads l start (.tableSwitch low high default targets)
        (Opcode.tableswitch :: (padding ++ (first ++ (ofUInt32 low.toUInt32 ++ (ofUInt32 high.toUInt32 ++
          chunks.flatten)))))
  | lookupSwitch {padding first : Bytes} {default : Label} {arms : List (Int32 × Label)} {chunks : List Bytes}
      (hshort : padding.length < 4) (haligned : (start + 1 + padding.length) % 4 = 0)
      (hfirst : l.FarBytes start default first)
      (hchunks : List.Forall₂ (fun arm bs => ∃ jump, l.FarBytes start arm.2 jump ∧
        bs = ofUInt32 arm.1.toUInt32 ++ jump) arms chunks) :
      Leads l start (.lookupSwitch default arms)
        (Opcode.lookupswitch :: (padding ++ (first ++ (int32Bytes arms.length ++ chunks.flatten))))

/-- The bytes of a handler are the offsets of its labels and the number of a class. -/
def Handler.Leads (l : Layout) (h : Handler) (bs : Bytes) : Prop :=
  ∃ start stop target k : UInt16, bs = ofUInt16 start ++ (ofUInt16 stop ++ (ofUInt16 target ++ ofUInt16 k)) ∧
    l.labelOffset h.start = .ok start.toNat ∧ l.labelOffset h.stop = .ok stop.toNat ∧
      l.labelOffset h.target = .ok target.toNat

theorem switchPadding_lt (start : Nat) : switchPadding start < 4 :=
  Nat.mod_lt _ (by decide)

theorem switchPadding_aligned (start : Nat) : (start + 1 + switchPadding start) % 4 = 0 := by
  rw [switchPadding]
  omega

section Bounded

variable {l : Layout} {start : Nat} {t : Label}

theorem Layout.farBytes_of_offset (hstart : start ≤ 65535) (hbound : ∀ t n, l.labelOffset t = .ok n → n ≤ 65535)
    (ht : l.labelOffset t = .ok (l.offsetOf t)) : l.FarBytes start t (Instruction.farTo start (l.offsetOf t)) := by
  obtain ⟨w, hw, hbs⟩ := Instruction.farBytes_farTo hstart (hbound t _ ht)
  exact ⟨w, _, hbs.symm, ht, Instruction.jumpTarget_eq_ok.mp hw⟩

/-- What is written of an instruction leads to its labels, if all offsets fit 16 bits. -/
theorem Placed.leads_of_bytes {i : Instruction Label} {k : UInt16} {bs : Bytes}
    (h : Placed.bytes l ⟨start, i, k⟩ = .ok bs) (hstart : start ≤ 65535)
    (hbound : ∀ t n, l.labelOffset t = .ok n → n ≤ 65535) : i.Leads l start bs := by
  have htargets : ∀ t ∈ i.targets, l.labelOffset t = .ok (l.offsetOf t) := Layout.offsetOf_of_bytes h
  have hfar : ∀ t ∈ i.targets, l.FarBytes start t (Instruction.farTo start (l.offsetOf t)) :=
    fun t ht => Layout.farBytes_of_offset hstart hbound (htargets t ht)
  rw [Placed.bytes_eq_emit htargets] at h
  have hshort : (List.replicate (switchPadding start) (0 : UInt8)).length < 4 := by
    rw [List.length_replicate]
    exact switchPadding_lt start
  have haligned : (start + 1 + (List.replicate (switchPadding start) (0 : UInt8)).length) % 4 = 0 := by
    rw [List.length_replicate]
    exact switchPadding_aligned start
  cases i with
  | jump op t =>
      have ht := htargets t (by simp [Instruction.targets])
      simp only [Instruction.map, Instruction.emit, Instruction.jumpTo, Instruction.refuse] at h
      split at h
      · rename_i hop
        obtain rfl := Except.ok.inj h
        exact .farJump hop (hfar t (by simp [Instruction.targets]))
      · rename_i hop
        split at h
        · rename_i hrange
          obtain rfl := Except.ok.inj h
          refine .nearJump (Bool.eq_false_iff.mpr hop) ht ?_
          rw [Bytes.toInt_ofInt16 (by omega) (by omega)]
          omega
        · cases h
  | tableSwitch low high default targets =>
      simp only [Instruction.map, Instruction.emit, Instruction.refuse] at h
      split at h
      · cases h
      · obtain rfl := Except.ok.inj h
        have hchunks : List.Forall₂ (l.FarBytes start) targets
            ((targets.map l.offsetOf).map (Instruction.farTo start)) := by
          rw [List.map_map, List.forall₂_map_right_iff, List.forall₂_same]
          exact fun t ht => hfar t (List.mem_cons_of_mem _ ht)
        simp only [Instruction.int32Bytes_toInt, List.cons_append, List.append_assoc]
        exact .tableSwitch hshort haligned (hfar default List.mem_cons_self) hchunks
  | lookupSwitch default arms =>
      simp only [Instruction.map, Instruction.emit] at h
      obtain rfl := Except.ok.inj h
      have hchunks : List.Forall₂ (fun arm bs => ∃ jump, l.FarBytes start arm.2 jump ∧
          bs = ofUInt32 arm.1.toUInt32 ++ jump) arms
          ((arms.map fun arm => (arm.1, l.offsetOf arm.2)).map fun arm =>
            Instruction.int32Bytes arm.1.toInt ++ Instruction.farTo start arm.2) := by
        rw [List.map_map, List.forall₂_map_right_iff, List.forall₂_same]
        intro arm harm
        refine ⟨_, hfar arm.2 (List.mem_cons_of_mem _ (List.mem_map_of_mem harm)), ?_⟩
        exact congrArg (· ++ _) (Instruction.int32Bytes_toInt arm.1)
      simp only [List.length_map, List.cons_append, List.append_assoc]
      exact .lookupSwitch hshort haligned (hfar default List.mem_cons_self) hchunks
  | _ => exact .straight rfl

/-- What is written of a handler leads to its labels. -/
theorem Handler.leads_of_bytes {q : Pool} {x : Handler} {bs : Bytes} (h : (Handler.bytes l x).Gives q bs)
    (hbound : ∀ t n, l.labelOffset t = .ok n → n ≤ 65535) : x.Leads l bs := by
  obtain ⟨hlabels, k, -, rfl⟩ := Handler.gives_bytes.mp h
  have hword : ∀ t ∈ x.labels, l.labelOffset t = .ok (UInt16.ofNat (l.offsetOf t)).toNat := by
    intro t ht
    have hle := hbound t _ (hlabels t ht)
    rw [UInt16.toNat_ofNat_of_lt' (by simp only [UInt16.size]; omega)]
    exact hlabels t ht
  exact ⟨_, _, _, k, rfl, hword _ (by simp [labels]), hword _ (by simp [labels]), hword _ (by simp [labels])⟩

end Bounded

/-! ## §4  Bodies -/

/-- The lines are written as they were laid out. -/
structure Layout.Tallies (l : Layout) (lines : List (Item × UInt16)) (bytecode : Bytes) : Prop where
  /-- Writing each instruction where the bytes end gives these bytes. -/
  written : l.appendTo [] lines = .ok bytecode
  length_eq : bytecode.length = l.length
  length_pos : 1 ≤ bytecode.length
  length_le : bytecode.length ≤ 65535
  /-- Behind the lines in front of it, an instruction adds as many bytes as its size at this place says. The layout has
  it at this place, and its bytes lead from there to its labels. -/
  instructions : ∀ front i k back, lines = front ++ (.instruction i, k) :: back → ∃ out bs,
    l.appendTo [] front = .ok out ∧ l.appendTo [] (front ++ [(.instruction i, k)]) = .ok (out ++ bs) ∧
      bs.length = i.size k out.length ∧
        l.placed[(front.filterMap Item.numberedInstruction?).length]? = some ⟨out.length, i, k⟩ ∧
          i.Leads l out.length bs
  /-- A label that has an offset stands somewhere, and has it from the last of these places: so many bytes are in front of
  the next instruction, or so many are all if there is none. -/
  labels : ∀ t n, l.labelOffset t = .ok n ↔ ∃ front k skipped rest out,
    lines = front ++ (.label t, k) :: (skipped ++ rest) ∧ (∀ x ∈ skipped ++ rest, x.1 ≠ .label t) ∧
      (∀ x ∈ skipped, ∃ s, x.1 = .label s) ∧ (∀ x ∈ rest.head?, ∃ i, x.1 = .instruction i) ∧
        l.appendTo [] (front ++ (.label t, k) :: skipped) = .ok out ∧ out.length = n

namespace Layout

variable {lines : List (Item × UInt16)} {bytecode : Bytes}

theorem labelOffset_iff_of_written (h : (ofLines lines).appendTo [] lines = .ok bytecode) (t : Label) (n : Nat) :
    (ofLines lines).labelOffset t = .ok n ↔ ∃ front k skipped rest out,
      lines = front ++ (.label t, k) :: (skipped ++ rest) ∧ (∀ x ∈ skipped ++ rest, x.1 ≠ .label t) ∧
        (∀ x ∈ skipped, ∃ s, x.1 = .label s) ∧ (∀ x ∈ rest.head?, ∃ i, x.1 = .instruction i) ∧
          (ofLines lines).appendTo [] (front ++ (.label t, k) :: skipped) = .ok out ∧ out.length = n := by
  constructor
  · intro ht
    obtain ⟨front, k, back, rfl, hlast⟩ := exists_last ht
    rw [labelOffset_of_last hlast] at ht
    obtain ⟨out, hfront, -⟩ := appendTo_append_eq_ok.mp h
    -- The labels behind this one are passed over, up to the next instruction.
    let isLabel (x : Item × UInt16) : Bool := x.1.instruction?.isNone
    have hback : back.takeWhile isLabel ++ back.dropWhile isLabel = back := List.takeWhile_append_dropWhile
    have hskipped : ∀ x ∈ back.takeWhile isLabel, ∃ s, x.1 = .label s := by
      intro x hx
      obtain ⟨s | i, k⟩ := x
      · exact ⟨s, rfl⟩
      · cases List.mem_takeWhile_imp hx
    refine ⟨front, k, back.takeWhile isLabel, back.dropWhile isLabel, out, by rw [hback], by rwa [hback], hskipped,
      ?_, ?_, ?_⟩
    · intro x hx
      have hstop := List.head?_dropWhile_not isLabel back
      rw [Option.mem_def.mp hx] at hstop
      obtain ⟨s | i, k⟩ := x
      · cases hstop
      · exact ⟨i, rfl⟩
    · refine appendTo_append_eq_ok.mpr ⟨out, hfront, appendTo_labels _ _ ?_⟩
      intro x hx
      rcases List.mem_cons.mp hx with rfl | hx
      · exact ⟨t, rfl⟩
      · exact hskipped x hx
    · rw [length_appendTo hfront]
      exact Except.ok.inj ht
  · rintro ⟨front, k, skipped, rest, out, rfl, hlast, hskipped, -, hout, rfl⟩
    obtain ⟨mid, hfront, hmid⟩ := appendTo_append_eq_ok.mp hout
    have hlabels : ∀ x ∈ (Item.label t, k) :: skipped, ∃ s, x.1 = .label s := by
      intro x hx
      rcases List.mem_cons.mp hx with rfl | hx
      · exact ⟨t, rfl⟩
      · exact hskipped x hx
    rw [appendTo_labels _ _ hlabels] at hmid
    obtain rfl := Except.ok.inj hmid
    rw [labelOffset_of_last hlast, length_appendTo hfront, List.length_nil]

theorem exists_part {l : Layout} {front back : List (Item × UInt16)} (h : l.appendTo [] lines = .ok bytecode)
    (hsplit : lines = front ++ back) : ∃ out, l.appendTo [] front = .ok out ∧
      l.appendTo out back = .ok bytecode ∧ out.length ≤ bytecode.length := by
  subst hsplit
  obtain ⟨out, hout, hback⟩ := appendTo_append_eq_ok.mp h
  obtain ⟨more, rfl⟩ := appendTo_prefix hback
  exact ⟨out, hout, hback, by rw [List.length_append]; exact Nat.le_add_right _ _⟩

theorem offset_le_of_written (h : (ofLines lines).appendTo [] lines = .ok bytecode) {t : Label} {n : Nat}
    (ht : (ofLines lines).labelOffset t = .ok n) : n ≤ bytecode.length := by
  obtain ⟨front, k, skipped, rest, out, hsplit, -, -, -, hout, rfl⟩ := (labelOffset_iff_of_written h t n).mp ht
  rw [← List.cons_append, ← List.append_assoc] at hsplit
  obtain ⟨out', hout', -, hle⟩ := exists_part h hsplit
  obtain rfl := Except.ok.inj (hout.symm.trans hout')
  exact hle

theorem tallies_of_written (h : (ofLines lines).bytecode = .ok bytecode) (hlong : (ofLines lines).length ≤ 65535)
    (hzero : (ofLines lines).length ≠ 0) : (ofLines lines).Tallies lines bytecode := by
  have hwritten : (ofLines lines).appendTo [] lines = .ok bytecode := (appendTo_ofLines lines).trans h
  have hlength : bytecode.length = (ofLines lines).length := by
    rw [length_appendTo hwritten, length_ofLines, List.length_nil]
  refine ⟨hwritten, hlength, by omega, by omega, ?_, labelOffset_iff_of_written hwritten⟩
  intro front i k back hsplit
  obtain ⟨out, hout, hback, hle⟩ := exists_part hwritten hsplit
  obtain ⟨bs, hbs, -⟩ := appendTo_instruction_eq_ok.mp hback
  have hleads : i.Leads (ofLines lines) out.length bs :=
    Placed.leads_of_bytes hbs (by omega) fun t n ht => (offset_le_of_written hwritten ht).trans (by omega)
  refine ⟨out, bs, hout, ?_, Placed.length_bytes hbs, ?_, hleads⟩
  · exact appendTo_append_eq_ok.mpr ⟨out, hout, appendTo_instruction_eq_ok.mpr ⟨bs, hbs, rfl⟩⟩
  · rw [placed_ofLines, length_appendTo hout, hsplit, List.filterMap_append, Item.numberedInstructions_cons,
      List.length_nil]
    exact getElem?_arrange _ i k _

end Layout

/-- A first step was done on the way, and what comes behind it only adds to its pool. -/
theorem Interning.exists_of_runOn_bind {α β : Type} {x : Interning α} {f : α → Interning β} [∀ a, Steady (f a)]
    {p q : Pool} {b : β} (h : (x >>= f).runOn p = (.ok b, q)) :
    ∃ a p', x.runOn p = (.ok a, p') ∧ p'.Grows q := by
  match hx : x.runOn p with
  | (.error e, p') =>
      rw [runOn_bind_error f hx] at h
      cases h
  | (.ok a, p') =>
      rw [runOn_bind_ok f hx] at h
      have hgrows := Steady.grows (m := f a) p'
      rw [h] at hgrows
      exact ⟨a, p', rfl, hgrows⟩

namespace Code

variable {c : Code} {p q : Pool} {w : Written}

/-- **Bodies are written as they are laid out.** Whenever a body is written, each instruction takes the bytes that were
reserved for it, at the place where the bytes in front of it end; each label has the offset of the place in the bytes
where the next instruction is, or of the end; and jumps, switches and handlers hold just these offsets. -/
theorem written_tallies (h : c.written.runOn p = (.ok w, q)) : ∃ lines p' bytecode handlers table,
    (c.items.mapM Item.numbered).runOn p = (.ok lines, p') ∧ lines.map (·.1) = c.items ∧
      w.bytes = assemble c.maxStack c.maxLocals bytecode handlers table ∧
        (Layout.ofLines lines).Tallies lines bytecode ∧
          List.Forall₂ (Handler.Leads (Layout.ofLines lines)) c.handlers handlers := by
  obtain ⟨lines, p', hlines, hgrows⟩ := exists_of_runOn_bind (x := c.items.mapM Item.numbered) h
  obtain ⟨lines', bytecode, handlers, table, hnumbered, hlong, hzero, hbytecode, -, hhandlers, -, rfl⟩ :=
    gives_written.mp (Steady.gives h)
  obtain rfl : lines = lines' := by
    refine Gives.unique (Steady.repeats hlines hgrows) (gives_mapM.mpr ?_)
    exact hnumbered.imp fun _ _ hline => Item.gives_numbered.mpr hline
  have htallies := Layout.tallies_of_written hbytecode hlong hzero
  refine ⟨lines, p', bytecode, handlers, table, hlines, Item.map_fst_of_numbered hnumbered, rfl, htallies, ?_⟩
  refine hhandlers.imp fun _ _ hbs => Handler.leads_of_bytes hbs fun t n ht => ?_
  exact (Layout.offset_le_of_written htallies.written ht).trans htallies.length_le

/-- A switch on a local variable, with an addition and a jump back in one arm and a return in the other. -/
def switchCode : Bytes :=
  [0x1a] ++ ([0xaa, 0x00, 0x00, 0x00, 0x00, 0x00, 0x1d, 0x00, 0x00, 0x00, 0x01, 0x00, 0x00, 0x00, 0x02, 0x00, 0x00, 0x00,
    0x17, 0x00, 0x00, 0x00, 0x1d] ++ ([0x84, 0x00, 0x01] ++ ([0xa7, 0xff, 0xe5] ++ ([0xb1] ++ []))))

/-- Its instructions. -/
def switchInstructions : List Located :=
  [(0, .localVar Opcode.iload 0), (1, .tableSwitch 1 2 30 [24, 30]), (24, .increment 0 1), (27, .jump 0xa7 0),
    (30, .plain 0xb1)]

/-- A body of this code. All in front of the addition is guarded, by a handler that is the return. -/
def guardedSwitch : Bytes :=
  [0x00, 0x01, 0x00, 0x01, 0x00, 0x00, 0x00, 0x1f] ++ switchCode ++
    [0x00, 0x01, 0x00, 0x00, 0x00, 0x18, 0x00, 0x1e, 0x00, 0x00, 0x00, 0x00]

theorem writes_switchCode : BodyBytes (Instruction.Writes .empty) 0 switchCode switchInstructions :=
  .cons ⟨rfl, 0, gives_pure.mpr rfl, rfl⟩ (.cons ⟨rfl, 0, gives_pure.mpr rfl, rfl⟩
    (.cons ⟨rfl, 0, gives_pure.mpr rfl, rfl⟩ (.cons ⟨rfl, 0, gives_pure.mpr rfl, rfl⟩
      (.cons ⟨rfl, 0, gives_pure.mpr rfl, rfl⟩ (.nil 31)))))

theorem exists_guardedSwitch : ∃ c, ofBytes .empty guardedSwitch = .ok c ∧
    ∃ stale, c.written.runOn .empty = (.ok ⟨guardedSwitch, stale⟩, .empty) := by
  obtain ⟨parts, hparts, hstack, hlocals, hbytecode, hhandlers, htable⟩ : ∃ parts : Parts,
      Read.run (readParts .empty) guardedSwitch = .ok parts ∧ parts.maxStack = 1 ∧ parts.maxLocals = 1 ∧
      parts.bytecode = switchCode ∧ parts.handlers = [⟨0, 24, 30, none⟩] ∧ parts.table = ⟨[]⟩ :=
    ⟨_, rfl, rfl, rfl, rfl, rfl, rfl⟩
  have hread : BodyBytes (InstructionBytes .empty) 0 parts.bytecode switchInstructions := by
    rw [hbytecode]
    exact Layout.bodyBytes_read Pool.wellFormed_empty writes_switchCode (by decide)
      (by simp [switchInstructions, Instruction.Backed]) (by decide)
  have hplaces : ∀ t ∈ Labels.targetOffsets switchInstructions parts.handlers,
      t ∈ stopsOf parts.bytecode.length switchInstructions := by
    intro t ht
    rw [hbytecode]
    rcases (Labels.targetOffsets_spec _ _).2 t |>.mp ht with ⟨x, hx, ht⟩ | ⟨h, hh, ht⟩
    · exact (by decide : ∀ x ∈ switchInstructions, ∀ t ∈ x.2.targets,
        t ∈ stopsOf switchCode.length switchInstructions) x hx t ht
    · rw [hhandlers] at hh
      exact (by decide : ∀ h ∈ [(⟨0, 24, 30, none⟩ : OffsetHandler)], ∀ t ∈ h.offsets,
        t ∈ stopsOf switchCode.length switchInstructions) h hh t ht
  obtain ⟨c, hc⟩ := (exists_ofParts_iff hread).mpr hplaces
  have hunique : ∀ located, BodyBytes (InstructionBytes .empty) 0 parts.bytecode located →
      BodyBytes (Instruction.Writes .empty) 0 parts.bytecode located := by
    intro located hlocated
    obtain rfl := Except.ok.inj ((Bytecode.read_eq_ok.mpr hlocated).symm.trans (Bytecode.read_eq_ok.mpr hread))
    exact hbytecode ▸ writes_switchCode
  have hhandler : List.Forall₂ (OffsetHandler.Writes .empty) parts.handlers
      [[0x00, 0x00, 0x00, 0x18, 0x00, 0x1e, 0x00, 0x00]] := by
    rw [hhandlers]
    exact .cons ⟨0, gives_pure.mpr rfl, rfl⟩ .nil
  have hnone : (Attribute.tableBytes [] parts.table.verbatim [] parts.table.order).Gives .empty [0x00, 0x00] := by
    rw [htable]
    exact Attribute.gives_tableBytes_nil .empty []
  obtain ⟨stale, hgives⟩ := gives_of_parts hc hunique (by rw [hbytecode]; decide) (by rw [hbytecode]; decide)
    (by rw [hhandlers]; decide) hhandler hnone
  rw [hstack, hlocals, hbytecode] at hgives
  exact ⟨c, (ofBytes_of_parts hparts).trans hc, stale, hgives⟩

theorem written_tallies_guardedSwitch : ∃ (c : Code) (w : Written) (lines : List (Item × UInt16)) (bytecode : Bytes)
    (handlers : List Bytes) (table : Bytes), ofBytes .empty guardedSwitch = .ok c ∧
      c.written.runOn .empty = (.ok w, .empty) ∧ w.bytes = guardedSwitch ∧ lines.map (·.1) = c.items ∧
        guardedSwitch = assemble c.maxStack c.maxLocals bytecode handlers table ∧
          (Layout.ofLines lines).Tallies lines bytecode ∧
            List.Forall₂ (Handler.Leads (Layout.ofLines lines)) c.handlers handlers := by
  obtain ⟨c, hc, stale, hw⟩ := exists_guardedSwitch
  obtain ⟨lines, -, bytecode, handlers, table, -, hitems, hbytes, htallies, hhandlers⟩ := written_tallies hw
  exact ⟨c, _, lines, bytecode, handlers, table, hc, hw, rfl, hitems, hbytes, htallies, hhandlers⟩

end Code

end ClassFile
