import ClassFile.Proofs.Code.Instructions
/-!
# Layouts

A layout is made in one pass that carries along what it found. Two views of it do without that (§1): the
instructions stand one behind the other, each where the one before it ended, and a label stands where it was
placed last. That place is best said as a number of instructions (`Item.position?`): it does not depend on how many bytes
they take, so it is the same before a body is written and after it is read back.

A body that is written is laid out once, and each of its instructions is emitted at its offset, with offsets for
labels (§2). The other way around, bytes that are what the writer emits for instructions with offsets are what it
makes of any lines whose labels stand at these offsets (§3). Sizes do not depend on labels, so the layout of such lines
is known before their labels are.
-/

namespace ClassFile

open Interning

/-- The offsets that stand for positions in a body: those at which instructions start, and that of the end. -/
def stopsOf (length : Nat) (located : List Located) : List Nat :=
  located.map (·.1) ++ [length]

theorem le_of_mem_stops {length t : Nat} {located : List Located}
    (hstops : (stopsOf length located).Pairwise (· < ·)) (ht : t ∈ stopsOf length located) :
    t ≤ length := by
  rcases List.mem_append.mp ht with ht | ht
  · exact Nat.le_of_lt ((List.pairwise_append.mp hstops).2.2 t ht length List.mem_cons_self)
  · exact Nat.le_of_eq (List.mem_singleton.mp ht)

/-- Instructions start one behind the other. -/
theorem BodyBytes.stops_sorted {form : Nat → Bytes → Instruction Nat → Prop} {o : Nat} {bs : Bytes}
    {located : List Located} (hpos : ∀ {o bs i}, form o bs i → 0 < bs.length)
    (h : BodyBytes form o bs located) : (stopsOf (o + bs.length) located).Pairwise (· < ·) ∧
      ∀ t ∈ stopsOf (o + bs.length) located, o ≤ t := by
  induction h with
  | nil o => exact ⟨List.pairwise_singleton _ _, by simp [stopsOf]⟩
  | @cons o bs rest i more head _ ih =>
      obtain ⟨hsorted, hle⟩ := ih
      have hlength := hpos head
      rw [List.length_append, ← Nat.add_assoc]
      have hcons : stopsOf (o + bs.length + rest.length) ((o, i) :: more) =
          o :: stopsOf (o + bs.length + rest.length) more := rfl
      rw [hcons]
      refine ⟨List.pairwise_cons.mpr ⟨fun t ht => ?_, hsorted⟩, fun t ht => ?_⟩
      · have := hle t ht
        omega
      · rcases List.mem_cons.mp ht with rfl | ht
        · exact Nat.le_refl t
        · have := hle t ht
          omega

/-! ## §1  Positions -/

namespace Item

/-- Where a label is placed last, as the number of instructions in front of it. -/
def position? (t : Label) : List Item → Option Nat
  | [] => none
  | .label l :: more =>
      match position? t more with
      | some n => some n
      | none => if l = t then some 0 else none
  | .instruction _ :: more => (position? t more).map (· + 1)

/-- The instructions among lines, with their numbers in the pool. -/
def numberedInstruction? : Item × UInt16 → Option (Instruction Label × UInt16)
  | (.label _, _) => none
  | (.instruction i, k) => some (i, k)

theorem instructions_cons (i : Instruction Label) (items : List Item) :
    (Item.instruction i :: items).filterMap instruction? = i :: items.filterMap instruction? :=
  rfl

theorem numberedInstructions_cons (i : Instruction Label) (k : UInt16)
    (lines : List (Item × UInt16)) :
    ((Item.instruction i, k) :: lines).filterMap numberedInstruction? =
      (i, k) :: lines.filterMap numberedInstruction? :=
  rfl

end Item

namespace Instruction

@[simp] theorem size_map {τ υ : Type} (f : τ → υ) (k : UInt16) (o : Nat) (i : Instruction τ) :
    (i.map f).size k o = i.size k o := by
  cases i <;> simp [map, size]

@[simp] theorem opcodeFits_map {τ υ : Type} (f : τ → υ) (i : Instruction τ) :
    (i.map f).opcodeFits = i.opcodeFits := by
  cases i <;> rfl

@[simp] theorem operandIndex_map {τ υ : Type} (f : τ → υ) (i : Instruction τ) :
    (i.map f).operandIndex = i.operandIndex := by
  cases i <;> rfl

instance steady_operandIndex {τ : Type} (i : Instruction τ) : Steady i.operandIndex := by
  cases i <;> (dsimp only [operandIndex]; infer_instance)

end Instruction

/-- An instruction with the number in the pool of what it refers to. -/
def Instruction.Numbered (q : Pool) (x : Instruction Label × UInt16) : Prop :=
  x.1.opcodeFits = true ∧ x.1.operandIndex.Gives q x.2

namespace Item

instance steady_numbered (item : Item) : Steady item.numbered := by
  cases item <;> (rw [numbered]; infer_instance)

/-- A line with its number in the pool. -/
inductive Numbered (q : Pool) : Item → Item × UInt16 → Prop where
  | label (l : Label) : Numbered q (.label l) (.label l, 0)
  | instruction {i : Instruction Label} {k : UInt16} (h : Instruction.Numbered q (i, k)) :
      Numbered q (.instruction i) (.instruction i, k)

theorem gives_numbered {q : Pool} {item : Item} {line : Item × UInt16} :
    item.numbered.Gives q line ↔ Numbered q item line := by
  cases item with
  | label l =>
      rw [numbered, gives_pure]
      constructor
      · rintro rfl
        exact .label l
      · rintro ⟨⟩
        rfl
  | instruction i =>
      simp only [numbered, gives_ite, gives_bind, gives_pure, gives_fail]
      constructor
      · intro h
        split at h
        · rename_i hfits
          obtain ⟨k, hk, rfl⟩ := h
          exact .instruction ⟨hfits, hk⟩
        · exact h.elim
      · rintro ⟨⟩
        rename_i k h
        rw [if_pos h.1]
        exact ⟨k, h.2, rfl⟩

theorem map_fst_of_numbered {q : Pool} {items : List Item} {lines : List (Item × UInt16)}
    (h : List.Forall₂ (Numbered q) items lines) : lines.map (·.1) = items := by
  induction h with
  | nil => rfl
  | cons head _ ih =>
      rw [List.map_cons, ih]
      cases head <;> rfl

theorem numbered_of_lines {q : Pool} {items : List Item} {lines : List (Item × UInt16)}
    (h : List.Forall₂ (Numbered q) items lines) :
    ∀ x ∈ lines.filterMap numberedInstruction?, Instruction.Numbered q x := by
  induction h with
  | nil => simp
  | cons head _ ih =>
      cases head with
      | label l => simpa [numberedInstruction?] using ih
      | @instruction i k hi =>
          intro x hx
          rw [numberedInstructions_cons] at hx
          rcases List.mem_cons.mp hx with rfl | hx
          · exact hi
          · exact ih x hx

/-- Lines are numbered as soon as their instructions are. -/
theorem exists_lines {q : Pool} {items : List Item} {ls : List (Instruction Label × UInt16)}
    (hls : ls.map (·.1) = items.filterMap Item.instruction?)
    (h : ∀ x ∈ ls, Instruction.Numbered q x) :
    ∃ lines, List.Forall₂ (Numbered q) items lines ∧ lines.filterMap numberedInstruction? = ls := by
  induction items generalizing ls with
  | nil =>
      obtain rfl : ls = [] := List.map_eq_nil_iff.mp hls
      exact ⟨[], .nil, rfl⟩
  | cons item items ih =>
      cases item with
      | label l =>
          obtain ⟨lines, hlines, hfilter⟩ := ih hls h
          exact ⟨_, .cons (.label l) hlines, hfilter⟩
      | instruction i =>
          rw [instructions_cons] at hls
          obtain ⟨⟨j, k⟩, more, rfl, rfl, hmore⟩ := List.map_eq_cons_iff.mp hls
          obtain ⟨lines, hlines, hfilter⟩ := ih hmore fun x hx => h x (List.mem_cons_of_mem _ hx)
          refine ⟨_, .cons (.instruction (h _ List.mem_cons_self)) hlines, ?_⟩
          rw [numberedInstructions_cons, hfilter]

end Item

namespace Layout

/-- Instructions one behind the other, from an offset on. -/
def arrange (o : Nat) : List (Instruction Label × UInt16) → List Placed
  | [] => []
  | (i, k) :: more => ⟨o, i, k⟩ :: arrange (o + i.size k o) more

/-- The offset behind the last of them. -/
def extent (o : Nat) : List (Instruction Label × UInt16) → Nat
  | [] => o
  | (i, k) :: more => extent (o + i.size k o) more

/-- The offsets at which they start, and the one behind the last of them. -/
def stops (o : Nat) (ls : List (Instruction Label × UInt16)) : List Nat :=
  (arrange o ls).map (·.offset) ++ [extent o ls]

theorem stops_cons (o : Nat) (i : Instruction Label) (k : UInt16)
    (ls : List (Instruction Label × UInt16)) :
    stops o ((i, k) :: ls) = o :: stops (o + i.size k o) ls :=
  rfl

theorem head_stops (o : Nat) (ls : List (Instruction Label × UInt16)) :
    (stops o ls)[0]? = some o := by
  cases ls <;> rfl

theorem labelOffset_eq_ok {l : Layout} {t : Label} {n : Nat} :
    l.labelOffset t = .ok n ↔ l.labels[t]? = some n := by
  rw [labelOffset]
  cases l.labels[t]? <;> simp

section Pass

open Item

variable (lines : List (Item × UInt16))

theorem placed_foldl (l : Layout) : (lines.foldl step l).placed =
    (arrange l.length (lines.filterMap numberedInstruction?)).reverse ++ l.placed := by
  induction lines generalizing l with
  | nil => rfl
  | cons line lines ih =>
      obtain ⟨_ | i, k⟩ := line
      · exact ih _
      · rw [List.foldl_cons, ih, numberedInstructions_cons, arrange, List.reverse_cons,
          List.append_assoc]
        rfl

theorem length_foldl (l : Layout) : (lines.foldl step l).length =
    extent l.length (lines.filterMap numberedInstruction?) := by
  induction lines generalizing l with
  | nil => rfl
  | cons line lines ih =>
      obtain ⟨_ | i, k⟩ := line
      · exact ih _
      · rw [List.foldl_cons, ih, numberedInstructions_cons, extent]
        rfl

theorem labels_foldl (l : Layout) (t : Label) : (lines.foldl step l).labels[t]? =
    match position? t (lines.map (·.1)) with
    | some n => (stops l.length (lines.filterMap numberedInstruction?))[n]?
    | none => l.labels[t]? := by
  induction lines generalizing l with
  | nil => rfl
  | cons line lines ih =>
      obtain ⟨t' | i, k⟩ := line
      · rw [List.foldl_cons, ih, List.map_cons, position?]
        cases position? t (lines.map (·.1)) with
        | some n => rfl
        | none =>
            by_cases ht : t' = t
            · subst ht
              simp only [if_true, head_stops, step, Std.HashMap.getElem?_insert_self]
            · simp only [if_neg ht, step, Std.HashMap.getElem?_insert, beq_iff_eq]
      · rw [List.foldl_cons, ih, List.map_cons, position?, numberedInstructions_cons, stops_cons]
        cases position? t (lines.map (·.1)) <;> rfl

theorem placed_ofLines : (ofLines lines).placed = arrange 0 (lines.filterMap numberedInstruction?) := by
  rw [ofLines, placed_foldl, List.append_nil, List.reverse_reverse]

theorem length_ofLines : (ofLines lines).length = extent 0 (lines.filterMap numberedInstruction?) :=
  length_foldl lines _

/-- A label has the offset at the position where it is placed last. -/
theorem labelOffset_ofLines (t : Label) {n : Nat} : (ofLines lines).labelOffset t = .ok n ↔
    ∃ p, position? t (lines.map (·.1)) = some p ∧
      (stops 0 (lines.filterMap numberedInstruction?))[p]? = some n := by
  have hlabels : (ofLines lines).labels[t]? = _ := labels_foldl lines ⟨[], ∅, 0⟩ t
  rw [labelOffset_eq_ok, hlabels]
  cases position? t (lines.map (·.1)) with
  | some p => simp
  | none => simp

end Pass

/-! ## §2  Bodies that are written -/

/-- The offset of a label; zero if the label stands nowhere. -/
def offsetOf (l : Layout) (t : Label) : Nat :=
  l.labels.getD t 0

theorem labelOffset_offsetOf {l : Layout} {t : Label} {n : Nat} (h : l.labelOffset t = .ok n) :
    l.offsetOf t = n := by
  rw [offsetOf, Std.HashMap.getD_eq_getD_getElem?, labelOffset_eq_ok.mp h]
  rfl

/-- The instructions with offsets for labels. -/
def located (l : Layout) : List Located :=
  l.placed.map fun p => (p.offset, p.instruction.map l.offsetOf)

theorem offsetOf_of_bytes {l : Layout} {p : Placed} {bs : Bytes} (h : p.bytes l = .ok bs) :
    ∀ t ∈ p.instruction.targets, l.labelOffset t = .ok (l.offsetOf t) := by
  intro t ht
  obtain ⟨n, hn⟩ := Placed.labelOffset_of_bytes h t ht
  rw [hn, labelOffset_offsetOf hn]

theorem bodyBytes_of_arrange {q : Pool} {l : Layout} {ls : List (Instruction Label × UInt16)}
    (hls : ∀ x ∈ ls, Instruction.Numbered q x) {o : Nat} {chunks : List Bytes}
    (h : List.Forall₂ (fun p bs => Placed.bytes l p = .ok bs) (arrange o ls) chunks) :
    BodyBytes (Instruction.Writes q) o chunks.flatten
        ((arrange o ls).map fun p => (p.offset, p.instruction.map l.offsetOf)) ∧
      extent o ls = o + chunks.flatten.length := by
  induction ls generalizing o chunks with
  | nil =>
      cases h
      exact ⟨.nil o, rfl⟩
  | cons x ls ih =>
      obtain ⟨i, k⟩ := x
      cases h with
      | @cons _ bs _ chunks hbs hchunks =>
          have hemit := hbs
          rw [Placed.bytes_eq_emit (offsetOf_of_bytes hbs)] at hemit
          -- The bytes are as many as the layout reserves, so the next instruction starts behind them.
          have hsize := Instruction.length_emit hemit
          rw [Instruction.size_map] at hsize
          obtain ⟨hfits, hk⟩ := hls (i, k) List.mem_cons_self
          obtain ⟨hbody, hextent⟩ := ih (fun x hx => hls x (List.mem_cons_of_mem _ hx)) hchunks
          rw [← hsize] at hbody hextent
          refine ⟨.cons ⟨?_, k, ?_, hemit⟩ (hsize ▸ hbody), ?_⟩
          · rwa [Instruction.opcodeFits_map]
          · rwa [Instruction.operandIndex_map]
          · rw [extent, ← hsize, hextent, List.flatten_cons, List.length_append, Nat.add_assoc]

/-- Each instruction of a written body is what the writer makes of it at its offset, and labels have offsets. -/
theorem bodyBytes_of_bytecode {q : Pool} {lines : List (Item × UInt16)} {bytes : Bytes}
    (hlines : ∀ x ∈ lines.filterMap Item.numberedInstruction?, Instruction.Numbered q x)
    (h : (ofLines lines).bytecode = .ok bytes) :
    BodyBytes (Instruction.Writes q) 0 bytes (ofLines lines).located ∧
      (ofLines lines).length = bytes.length ∧
        ∀ p ∈ (ofLines lines).placed, ∀ t ∈ p.instruction.targets,
          (ofLines lines).labelOffset t = .ok ((ofLines lines).offsetOf t) := by
  simp only [bytecode, except_bind_eq_ok, except_mapM_eq_ok, except_pure_eq_ok] at h
  obtain ⟨chunks, hchunks, rfl⟩ := h
  have hlabels : ∀ p ∈ (ofLines lines).placed, ∀ t ∈ p.instruction.targets,
      (ofLines lines).labelOffset t = .ok ((ofLines lines).offsetOf t) := by
    intro p hp
    obtain ⟨bs, -, hbs⟩ := forall₂_mem_left hchunks hp
    exact offsetOf_of_bytes hbs
  rw [placed_ofLines] at hchunks
  obtain ⟨hbody, hextent⟩ := bodyBytes_of_arrange hlines hchunks
  refine ⟨?_, ?_, hlabels⟩
  · rwa [located, placed_ofLines]
  · rw [length_ofLines, hextent, Nat.zero_add]

theorem stops_ofLines (lines : List (Item × UInt16)) :
    stops 0 (lines.filterMap Item.numberedInstruction?) =
      stopsOf (ofLines lines).length (ofLines lines).located := by
  rw [located, placed_ofLines, stopsOf, List.map_map, length_ofLines]
  rfl

theorem instructions_arrange (o : Nat) (ls : List (Instruction Label × UInt16)) :
    (arrange o ls).map (·.instruction) = ls.map (·.1) := by
  induction ls generalizing o with
  | nil => rfl
  | cons x ls ih => rw [arrange, List.map_cons, List.map_cons, ih]

theorem instructions_placed {q : Pool} {items : List Item} {lines : List (Item × UInt16)}
    (h : List.Forall₂ (Item.Numbered q) items lines) :
    (ofLines lines).placed.map (·.instruction) = items.filterMap Item.instruction? := by
  rw [placed_ofLines, instructions_arrange]
  induction h with
  | nil => rfl
  | cons head _ ih =>
      cases head with
      | label l => exact ih
      | instruction _ =>
          rw [Item.numberedInstructions_cons, Item.instructions_cons, List.map_cons, ih]

/-- An instruction with its offset, as it is read back. -/
def settleLocated (x : Located) : Located :=
  (x.1, x.2.settled)

theorem stopsOf_settled (length : Nat) (located : List Located) :
    stopsOf length (located.map settleLocated) = stopsOf length located := by
  rw [stopsOf, List.map_map]
  rfl

theorem bodyBytes_settled {q : Pool} {o : Nat} {bs : Bytes} {located : List Located}
    (h : BodyBytes (Instruction.Writes q) o bs located) :
    BodyBytes (Instruction.Writes q) o bs (located.map settleLocated) := by
  induction h with
  | nil o => exact .nil o
  | cons head _ ih => exact .cons head.settled ih

/-- A body that was written is read back settled. -/
theorem bodyBytes_read {q : Pool} (wf : q.WellFormed) {o : Nat} {bs : Bytes} {located : List Located}
    (h : BodyBytes (Instruction.Writes q) o bs located) (hlength : o + bs.length ≤ 65535)
    (backed : ∀ x ∈ located, x.2.Backed q)
    (htargets : ∀ x ∈ located, ∀ t ∈ x.2.targets, t ≤ 65535) :
    BodyBytes (InstructionBytes q) o bs (located.map settleLocated) := by
  induction h with
  | nil o => exact .nil o
  | @cons o bs rest i more head tail ih =>
      rw [List.length_append] at hlength
      have hhead := head.bytes wf (backed (o, i) List.mem_cons_self) (by omega) (by omega)
        (htargets (o, i) List.mem_cons_self)
      exact .cons hhead (ih (by omega) (fun x hx => backed x (List.mem_cons_of_mem _ hx))
        fun x hx => htargets x (List.mem_cons_of_mem _ hx))

/-! ## §3  Bodies that are written as given bytes -/

theorem arrange_of_bodyBytes {q : Pool} {o : Nat} {bytes : Bytes} {located : List Located}
    (h : BodyBytes (Instruction.Writes q) o bytes located) (f : Nat → Label) :
    ∃ ls : List (Instruction Label × UInt16),
      ls.map (·.1) = located.map (fun x => x.2.map f) ∧ (∀ x ∈ ls, Instruction.Numbered q x) ∧
        stops o ls = stopsOf (o + bytes.length) located ∧
          ∀ l : Layout, (∀ x ∈ located, ∀ t ∈ x.2.targets, l.labelOffset (f t) = .ok t) →
            ∃ chunks, (arrange o ls).mapM (Placed.bytes l) = .ok chunks ∧
              chunks.flatten = bytes := by
  induction h with
  | nil o => exact ⟨[], rfl, by simp, rfl, fun l _ => ⟨[], rfl, rfl⟩⟩
  | @cons o bs rest i more head _ ih =>
      obtain ⟨hfits, k, hk, hbs⟩ := head
      obtain ⟨ls, hls, hnumbered, hstops, hwrites⟩ := ih
      -- What labels are called makes no difference to the size.
      have hsize : (i.map f).size k o = bs.length := by
        rw [Instruction.size_map, Instruction.length_emit hbs]
      refine ⟨(i.map f, k) :: ls, ?_, ?_, ?_, ?_⟩
      · rw [List.map_cons, List.map_cons, hls]
      · intro x hx
        rcases List.mem_cons.mp hx with rfl | hx
        · exact ⟨by rwa [Instruction.opcodeFits_map], by rwa [Instruction.operandIndex_map]⟩
        · exact hnumbered x hx
      · rw [stops_cons, hsize, hstops, List.length_append, Nat.add_assoc]
        rfl
      · intro l hl
        obtain ⟨chunks, hchunks, hflatten⟩ := hwrites l fun x hx => hl x (List.mem_cons_of_mem _ hx)
        have hoffset : ∀ t ∈ i.targets, l.labelOffset (f t) = .ok t := hl (o, i) List.mem_cons_self
        have htargets : ∀ t ∈ (i.map f).targets, l.labelOffset t = .ok (l.offsetOf t) := by
          intro t ht
          rw [Instruction.targets_map] at ht
          obtain ⟨n, hn, rfl⟩ := List.mem_map.mp ht
          rw [hoffset n hn, labelOffset_offsetOf (hoffset n hn)]
        -- From offsets to labels and back, each offset is the one it was.
        have hsame : (i.map f).map l.offsetOf = i := by
          rw [Instruction.map_map]
          calc i.map (fun n => l.offsetOf (f n)) = i.map id :=
                Instruction.map_congr fun n hn => labelOffset_offsetOf (hoffset n hn)
            _ = i := Instruction.map_id i
        refine ⟨bs :: chunks, ?_, by rw [List.flatten_cons, hflatten]⟩
        rw [except_mapM_eq_ok] at hchunks ⊢
        rw [arrange, hsize]
        refine .cons ?_ hchunks
        rw [Placed.bytes_eq_emit htargets, hsame]
        exact hbs

/-- Lines are written as the bytes of a body if their instructions are those of the body and their labels stand at
the offsets that they replace. -/
theorem bytecode_of_bodyBytes {q : Pool} {bytes : Bytes} {located : List Located}
    (h : BodyBytes (Instruction.Writes q) 0 bytes located) {f : Nat → Label} {items : List Item}
    (hitems : items.filterMap Item.instruction? = located.map fun x => x.2.map f)
    (hlabels : ∀ x ∈ located, ∀ t ∈ x.2.targets, ∃ p, Item.position? (f t) items = some p ∧
      (stopsOf bytes.length located)[p]? = some t) :
    ∃ lines, List.Forall₂ (Item.Numbered q) items lines ∧
      stops 0 (lines.filterMap Item.numberedInstruction?) = stopsOf bytes.length located ∧
        (ofLines lines).length = bytes.length ∧ (ofLines lines).bytecode = .ok bytes := by
  obtain ⟨ls, hls, hnumbered, hstops, hwrites⟩ := arrange_of_bodyBytes h f
  obtain ⟨lines, hlines, hfilter⟩ := Item.exists_lines (hls.trans hitems.symm) hnumbered
  rw [Nat.zero_add] at hstops
  have hoffsets : ∀ x ∈ located, ∀ t ∈ x.2.targets, (ofLines lines).labelOffset (f t) = .ok t := by
    intro x hx t ht
    rw [labelOffset_ofLines, Item.map_fst_of_numbered hlines, hfilter, hstops]
    exact hlabels x hx t ht
  obtain ⟨chunks, hchunks, hflatten⟩ := hwrites (ofLines lines) hoffsets
  refine ⟨lines, hlines, by rw [hfilter, hstops], ?_, ?_⟩
  · rw [length_ofLines, hfilter]
    have hlast := congrArg List.getLast? hstops
    rw [stops, stopsOf, List.getLast?_concat, List.getLast?_concat] at hlast
    exact Option.some.inj hlast
  · rw [bytecode, placed_ofLines, hfilter, hchunks]
    exact congrArg Except.ok hflatten

end Layout

end ClassFile
